import Mathlib.Data.Nat.Log
import RankedMap.Proofs.OrdMap.Machine
import RankedMap.Proofs.Tree.Leaning

/-!
# Inserting in order

When the key of every insertion is greater than all keys that are there, or less than all, then a
map gets no higher than it must be for its number of entries (`OrdMap.Shallow`).  This is more than
balance alone gives.  The tree of such a map leans to one side (`Tree.Leans`), and it is perfect
whenever a perfect tree can have so many entries.
-/

set_option autoImplicit false

namespace RankedMap

namespace OrdMap

variable {K V : Type}

/-- The commands that insert some entries one after the other, each with its own comparison. -/
def insertEach (es : List ((K → K → Ordering) × K × V)) :
    List ((K → K → Ordering) × Command K V) :=
  es.map fun e => (e.1, .insert e.2.1 e.2.2)

/-- All insertions are on side `s` of all that is there: on the right, when every key compares
greater than each key that is stored by then, and on the left, when it compares less. -/
def OneSided (s : Side) : List ((K → K → Ordering) × K × V) → OrdMap K V → Prop
  | [], _ => True
  | (cmp, key, value) :: rest, m =>
    (∀ e ∈ m.tree.toList, Side.ofOrdering (cmp key e.1) = some s) ∧
      OneSided s rest ((OrdMap.insert cmp key value).outcome m).2

/-- A map has `n` entries and no more levels than it must have. -/
structure Shallow (m : OrdMap K V) (n : Nat) : Prop where
  /-- There are so many entries. -/
  size_eq : m.size = .ok n
  /-- They would not fit into one level less. -/
  exists_height : ∃ k, m.height = .ok k ∧ n < 2 ^ k ∧ (1 ≤ n → 2 ^ (k - 1) ≤ n)
  /-- So the height is this logarithm. -/
  height_eq_log : 1 ≤ n → m.height = .ok (Nat.log 2 n + 1)
  /-- Where a perfect tree can have so many entries, the tree is one: every level is full. -/
  perfect : ∀ k, n + 1 = 2 ^ k →
    m.tree.Perfect ∧ m.tree.levels = (List.range k).map (2 ^ ·)

namespace Embodies

variable {m : OrdMap K V} {t : Placed K V} {s : Side} {cmp : K → K → Ordering} {key : K}
  {es : List ((K → K → Ordering) × K × V)}

/-- **One insertion** on the side to which the tree leans, be it refused or not. -/
theorem leans_insert (hm : m.Embodies t) (ht : t.bare.Leans s) (hb : t.bare.Beyond s cmp key)
    (value : V) :
    ∃ t', ((OrdMap.insert cmp key value).outcome m).2.Embodies t' ∧ t'.bare.Leans s ∧
      t'.size = min (t.size + 1) Size.maxCount := by
  have hle := hm.size_le
  cases hr : t.bare.refuses cmp (.insert key value) with
  | false =>
    obtain ⟨m', t', hok, hm', ht'⟩ := hm.insert hr
    have hsize : t'.size = t.size + 1 := by
      rw [← Tree.size_bare, ht', hb.size_insert, Tree.size_bare]
    have hle' := hm'.size_le
    rw [Edit.outcome_eq_ok.2 hok]
    exact ⟨t', hm', ht' ▸ ht.insert hb, by omega⟩
  | true =>
    have hfull : t.size = Size.maxCount := by
      simp only [Tree.refuses, Bool.and_eq_true, beq_iff_eq, Tree.size_bare] at hr
      exact hr.1
    rw [Edit.outcome_eq_error.2 (hm.insert_refused hr)]
    exact ⟨t, hm, ht, by omega⟩

/-- **A whole run** of them. -/
theorem leans_runAll (hm : m.Embodies t) (ht : t.bare.Leans s) (hes : OneSided s es m) :
    ∃ t', (Command.runAll (insertEach es) m).2.Embodies t' ∧ t'.bare.Leans s ∧
      t'.size = min (t.size + es.length) Size.maxCount := by
  induction es generalizing m t with
  | nil =>
    have hle := hm.size_le
    exact ⟨t, hm, ht, by simp only [List.length_nil]; omega⟩
  | cons e rest ih =>
    obtain ⟨cmp, key, value⟩ := e
    obtain ⟨hb, hrest⟩ := hes
    rw [hm.tree_eq] at hb
    obtain ⟨t₁, hm₁, ht₁, hsize₁⟩ := hm.leans_insert ht hb value
    obtain ⟨t', hm', ht', hsize'⟩ := ih hm₁ ht₁ hrest
    refine ⟨t', ?_, ht', by rw [List.length_cons]; omega⟩
    rw [← Edit.outcome_bind_pure_snd _ Answer.valueOption] at hm'
    exact hm'

/-- A leaning tree is no higher than it must be. -/
theorem shallow (hm : m.Embodies t) (ht : t.bare.Leans s) : m.Shallow t.size := by
  have hlt := Tree.size_lt_two_pow_height t
  have hle := ht.two_pow_le
  rw [Tree.height_bare, Tree.size_bare] at hle
  have hheight : m.height = .ok t.height := by rw [hm.height_eq, Tree.height_bare]
  have hroot : 1 ≤ t.size → ∃ k, t.height = k + 1 ∧ 2 ^ k ≤ t.size := by
    intro h1
    obtain ⟨k, hk⟩ : ∃ k, t.height = k + 1 := by
      refine Nat.exists_eq_succ_of_ne_zero fun h0 => ?_
      rw [h0] at hlt
      omega
    rw [hk, Nat.pow_succ] at hle
    exact ⟨k, hk, by omega⟩
  refine ⟨by rw [hm.size_eq, Tree.size_bare], ⟨t.height, hheight, hlt, ?_⟩, ?_, ?_⟩
  · intro h1
    obtain ⟨k, hk, hpow⟩ := hroot h1
    rw [hk]
    exact hpow
  · intro h1
    obtain ⟨k, hk, hpow⟩ := hroot h1
    rw [hheight, hk, Nat.log_eq_of_pow_le_of_lt_pow hpow (hk ▸ hlt)]
  · intro k hk
    have h1 : t.height < k + 1 := by
      rw [← Nat.pow_lt_pow_iff_right Nat.one_lt_two, Nat.pow_succ]
      omega
    have h2 : k < t.height + 1 := by
      rw [← Nat.pow_lt_pow_iff_right Nat.one_lt_two, Nat.pow_succ]
      omega
    obtain rfl : k = t.bare.height := by
      rw [Tree.height_bare]
      omega
    have hperfect : t.bare.Perfect := Tree.perfect_of_size (by rwa [Tree.size_bare])
    rw [hm.tree_eq]
    exact ⟨hperfect, hperfect.levels_eq⟩

end Embodies

/-- **Inserting in order** into a map without entries, each key greater than all that are there, or
each less than all, ends in a map that is no higher than it must be. -/
theorem shallow_after (before : List ((K → K → Ordering) × Command K V))
    (hempty : (after before).isEmpty = true) (s : Side) (es : List ((K → K → Ordering) × K × V))
    (hes : OneSided s es (after before)) :
    (after (before ++ insertEach es)).Shallow (min es.length Size.maxCount) := by
  obtain ⟨t, hm⟩ := exists_embodies_after before
  obtain rfl : t = .nil := by
    rw [hm.isEmpty_eq, List.isEmpty_iff, ← List.length_eq_zero_iff, Tree.length_toList,
      Tree.size_bare] at hempty
    cases t with
    | nil => rfl
    | node => exact absurd hempty (Nat.succ_ne_zero _)
  obtain ⟨t', hm', ht', hsize⟩ := hm.leans_runAll (s := s) .nil hes
  rw [after_append, ← Nat.zero_add es.length]
  exact hsize ▸ hm'.shallow ht'

/-- Three keys, each of which compares greater than those before it. -/
def ascendingEntries : List ((Nat → Nat → Ordering) × Nat × Nat) :=
  [(compare, 1, 10), (compare, 2, 20), (compare, 3, 30)]

/-- They are put into a map that has been emptied, and end in two full levels. -/
theorem shallow_ascendingEntries :
    (after [(compare, Command.insert 7 70), (compare, .erase 7)]).isEmpty = true ∧
      OneSided .right ascendingEntries
        (after [(compare, Command.insert 7 70), (compare, .erase 7)]) ∧
      (after ([(compare, Command.insert 7 70), (compare, .erase 7)] ++
        insertEach ascendingEntries)).Shallow 3 := by
  have hempty : (after [(compare, Command.insert 7 70), (compare, .erase 7)]).isEmpty = true := by
    decide
  have hes : OneSided .right ascendingEntries
      (after [(compare, Command.insert 7 70), (compare, .erase 7)]) :=
    ⟨by decide, by decide, by decide, trivial⟩
  exact ⟨hempty, hes, shallow_after _ hempty .right _ hes⟩

end OrdMap

end RankedMap
