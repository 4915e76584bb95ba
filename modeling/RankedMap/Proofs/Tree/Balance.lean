import Mathlib.Data.Nat.Fib.Basic
import Mathlib.Tactic.NormNum
import Mathlib.Tactic.NormNum.NatFib
import RankedMap.Node
import RankedMap.Proofs.Tree.Sides

/-!
# Balance is kept

The textbook operations answer with balanced trees when they are given balanced ones
(`balanced_insert`, `balanced_extract`).  An insertion leaves the height or adds one level, taking an
entry out leaves it or drops one.  That is why a node on the way back never sees its two subtrees
differ in height by more than two, which is all that `balance` can make good (`balanced_balance`).

A balanced tree of a given height cannot have too few entries (`fib_le_size`), so one whose entries
all have a handle of their own is no higher than 45 levels (`height_le`), and its height fits in
eight bits.
-/

set_option autoImplicit false

namespace RankedMap

namespace Tree

variable {K V : Type}

/-! ## One node -/

/-- A child that is two levels higher than the other one can rise, and nothing gets higher than it
was by that. -/
theorem balanced_raise {s : Side} {near far : Tree K V} {k : K} {v : V} (hn : near.Balanced)
    (hf : far.Balanced) (hh : far.height = near.height + 2) :
    (raise s near k v far).Balanced ∧
      ((raise s near k v far).height = far.height ∨
        (raise s near k v far).height = far.height + 1) := by
  obtain ⟨inner, kb, vb, outer, rfl⟩ := exists_nodeOn s (t := far) (by omega)
  obtain ⟨h1, h2, hi, ho⟩ := balanced_nodeOn_iff.1 hf
  rw [height_nodeOn] at hh ⊢
  rcases Nat.lt_or_ge outer.height inner.height with hlt | hle
  · -- the inner grandchild is the higher one and rises above both
    obtain ⟨nearer, kg, vg, further, rfl⟩ := exists_nodeOn s (t := inner) (by omega)
    obtain ⟨h3, h4, hi1, hi2⟩ := balanced_nodeOn_iff.1 hi
    rw [height_nodeOn] at h1 h2 hh hlt ⊢
    rw [raise_of_lt (by rwa [height_nodeOn])]
    refine ⟨?_, by simp only [height_nodeOn]; omega⟩
    simp only [balanced_nodeOn_iff, height_nodeOn]
    exact ⟨by omega, by omega, ⟨by omega, by omega, hn, hi1⟩, by omega, by omega, hi2, ho⟩
  · rw [raise_of_le hle]
    refine ⟨?_, by simp only [height_nodeOn]; omega⟩
    simp only [balanced_nodeOn_iff, height_nodeOn]
    exact ⟨by omega, by omega, ⟨by omega, by omega, hn, hi⟩, ho⟩

/-- **Balance is restored at a node** whose two subtrees differ in height by two at most.  The node
ends up one level higher than its higher subtree, unless a child rose: then it may be as high as that
child was. -/
theorem balanced_balance {l r : Tree K V} {k : K} {v : V} (hl : l.Balanced) (hr : r.Balanced)
    (h1 : l.height ≤ r.height + 2) (h2 : r.height ≤ l.height + 2) :
    (balance l k v r).Balanced ∧
      ((balance l k v r).height = max l.height r.height + 1 ∨
        (balance l k v r).height = max l.height r.height ∧
          (l.height = r.height + 2 ∨ r.height = l.height + 2)) := by
  rcases Nat.lt_or_ge (r.height + 1) l.height with hlt | hge
  · rw [balance_of_left hlt]
    obtain ⟨hb, hh⟩ := balanced_raise (s := .left) (k := k) (v := v) hr hl (by omega)
    exact ⟨hb, by omega⟩
  rcases Nat.lt_or_ge (l.height + 1) r.height with hlt | hge'
  · rw [balance_of_right hlt]
    obtain ⟨hb, hh⟩ := balanced_raise (s := .right) (k := k) (v := v) hl hr (by omega)
    exact ⟨hb, by omega⟩
  · rw [balance_of_near hge hge']
    exact ⟨⟨hge, hge', hl, hr⟩, .inl rfl⟩

/-! ## Whole operations -/

/-- **An insertion keeps a tree balanced**, and adds one level at most. -/
theorem balanced_insert (cmp : K → K → Ordering) (key : K) (value : V) {t : Tree K V}
    (ht : t.Balanced) :
    (t.insert cmp key value).1.Balanced ∧
      ((t.insert cmp key value).1.height = t.height ∨
        (t.insert cmp key value).1.height = t.height + 1) := by
  induction t with
  | nil => exact ⟨⟨Nat.zero_le _, Nat.zero_le _, trivial, trivial⟩, .inr rfl⟩
  | node l k v r ihl ihr =>
    obtain ⟨h1, h2, hl, hr⟩ := ht
    simp only [insert, height]
    cases cmp key k with
    | lt =>
      obtain ⟨hb, hh⟩ := ihl hl
      obtain ⟨hb', hh'⟩ := balanced_balance (k := k) (v := v) hb hr (by omega) (by omega)
      exact ⟨hb', by simp only; omega⟩
    | eq => exact ⟨⟨h1, h2, hl, hr⟩, .inl rfl⟩
    | gt =>
      obtain ⟨hb, hh⟩ := ihr hr
      obtain ⟨hb', hh'⟩ := balanced_balance (k := k) (v := v) hl hb (by omega) (by omega)
      exact ⟨hb', by simp only; omega⟩

/-- Taking the first entry out keeps a tree balanced, and drops one level at most. -/
theorem balanced_extractFirst {t rest : Tree K V} {e : K × V} (ht : t.Balanced)
    (he : t.extractFirst = some (e, rest)) :
    rest.Balanced ∧ (rest.height = t.height ∨ rest.height + 1 = t.height) := by
  induction t generalizing rest with
  | nil => cases he
  | node l k v r ihl _ =>
    obtain ⟨h1, h2, hl, hr⟩ := ht
    rw [extractFirst] at he
    rw [height]
    cases hf : l.extractFirst with
    | none =>
      rw [hf] at he
      cases he
      have hnil : l.height = 0 := by rw [extractFirst_eq_none_iff.1 hf, height]
      exact ⟨hr, by omega⟩
    | some p =>
      obtain ⟨e', l'⟩ := p
      rw [hf] at he
      cases he
      obtain ⟨hb, hh⟩ := ihl hl hf
      obtain ⟨hb', hh'⟩ := balanced_balance (k := k) (v := v) hb hr (by omega) (by omega)
      exact ⟨hb', by omega⟩

/-- Two balanced trees that could stand under one node are put together to a balanced tree, which is
as high as that node, or one level lower. -/
theorem balanced_join {l r : Tree K V} (hl : l.Balanced) (hr : r.Balanced)
    (h1 : l.height ≤ r.height + 1) (h2 : r.height ≤ l.height + 1) :
    (join l r).Balanced ∧
      ((join l r).height = max l.height r.height ∨
        (join l r).height = max l.height r.height + 1) := by
  cases l with
  | nil => exact ⟨hr, .inl (Nat.zero_max _).symm⟩
  | node ll k v lr =>
    cases hf : r.extractFirst with
    | none =>
      rw [extractFirst_eq_none_iff.1 hf, join_nil]
      exact ⟨hl, .inl (Nat.max_zero _).symm⟩
    | some p =>
      obtain ⟨⟨key, value⟩, rest⟩ := p
      rw [join_of_some (l := node ll k v lr) nofun hf]
      obtain ⟨hb, hh⟩ := balanced_extractFirst hr hf
      obtain ⟨hb', hh'⟩ := balanced_balance (k := key) (v := value) hl hb (by omega) (by omega)
      exact ⟨hb', by omega⟩

/-- **Taking an entry out keeps a tree balanced**, and drops one level at most. -/
theorem balanced_extract (cmp : K → K → Ordering) (key : K) {t : Tree K V} (ht : t.Balanced) :
    (t.extract cmp key).1.Balanced ∧
      ((t.extract cmp key).1.height = t.height ∨
        (t.extract cmp key).1.height + 1 = t.height) := by
  induction t with
  | nil => exact ⟨trivial, .inl rfl⟩
  | node l k v r ihl ihr =>
    obtain ⟨h1, h2, hl, hr⟩ := ht
    simp only [extract, height]
    cases cmp key k with
    | lt =>
      obtain ⟨hb, hh⟩ := ihl hl
      obtain ⟨hb', hh'⟩ := balanced_balance (k := k) (v := v) hb hr (by omega) (by omega)
      exact ⟨hb', by simp only; omega⟩
    | eq =>
      obtain ⟨hb, hh⟩ := balanced_join hl hr h1 h2
      exact ⟨hb, by simp only; omega⟩
    | gt =>
      obtain ⟨hb, hh⟩ := ihr hr
      obtain ⟨hb', hh'⟩ := balanced_balance (k := k) (v := v) hl hb (by omega) (by omega)
      exact ⟨hb', by simp only; omega⟩

/-! ## Height and size -/

/-- A balanced tree has at least as many entries as the sparsest one of its height. -/
theorem fib_le_size {t : Tree K V} (ht : t.Balanced) : Nat.fib (t.height + 2) ≤ t.size + 1 := by
  induction t with
  | nil => exact Nat.le_refl 1
  | node l k v r ihl ihr =>
    obtain ⟨h1, h2, hl, hr⟩ := ht
    have hfl := ihl hl
    have hfr := ihr hr
    rw [height, size]
    rcases Nat.le_total l.height r.height with h | h
    · rw [Nat.max_eq_right h]
      have hm : Nat.fib (r.height + 1) ≤ Nat.fib (l.height + 2) := Nat.fib_mono (by omega)
      calc Nat.fib (r.height + 1 + 2) = Nat.fib (r.height + 1) + Nat.fib (r.height + 2) :=
            Nat.fib_add_two
        _ ≤ l.size + r.size + 1 + 1 := by omega
    · rw [Nat.max_eq_left h]
      have hm : Nat.fib (l.height + 1) ≤ Nat.fib (r.height + 2) := Nat.fib_mono (by omega)
      calc Nat.fib (l.height + 1 + 2) = Nat.fib (l.height + 1) + Nat.fib (l.height + 2) :=
            Nat.fib_add_two
        _ ≤ l.size + r.size + 1 + 1 := by omega

theorem height_le {t : Tree K V} (ht : t.Balanced) (hs : t.size ≤ Size.maxCount) :
    t.height ≤ 45 := by
  by_contra hlt
  have hm : Nat.fib 48 ≤ Nat.fib (t.height + 2) := Nat.fib_mono (by omega)
  have hf := fib_le_size ht
  have h48 : Nat.fib 48 = 4807526976 := by norm_num
  simp only [Size.maxCount, Handle.maxIndex] at hs
  omega

/-- A tree of a given height has no more nodes than the fullest one. -/
theorem size_lt_two_pow_height (t : Tree K V) : t.size < 2 ^ t.height := by
  induction t with
  | nil => exact Nat.one_pos
  | node l k v r ihl ihr =>
    have hl : 2 ^ l.height ≤ 2 ^ max l.height r.height :=
      Nat.pow_le_pow_right Nat.two_pos (Nat.le_max_left _ _)
    have hr : 2 ^ r.height ≤ 2 ^ max l.height r.height :=
      Nat.pow_le_pow_right Nat.two_pos (Nat.le_max_right _ _)
    rw [size, height, Nat.pow_succ]
    omega

theorem sum_addLevels (xs ys : List Nat) : (addLevels xs ys).sum = xs.sum + ys.sum := by
  fun_induction addLevels xs ys with
  | case1 ys => simp
  | case2 x xs => simp
  | case3 x xs y ys ih =>
    rw [List.sum_cons, ih, List.sum_cons, List.sum_cons]
    omega

/-- Every node is at some depth. -/
theorem sum_levels (t : Tree K V) : t.levels.sum = t.size := by
  induction t with
  | nil => rfl
  | node l k v r ihl ihr =>
    rw [levels, List.sum_cons, sum_addLevels, ihl, ihr, size]
    omega

theorem height_le_size (t : Tree K V) : t.height ≤ t.size := by
  induction t with
  | nil => exact Nat.le_refl 0
  | node l k v r ihl ihr =>
    rw [height, size]
    omega

end Tree

end RankedMap
