import RankedMap.Proofs.Tree.Balance
import RankedMap.Proofs.Tree.Sequence

/-!
# Trees that grow on one side

When every new key is greater than all that are there, an insertion always goes down the right edge
of the tree.  The trees that come about in this way lean to the right: on the left of every node of
that edge there is a perfect tree, and what is on the right leans to the right itself and is as high
as that or one level higher (`Tree.Leans`, for either side).  Two perfect trees of the same height
are the extremes, and all that is between them is of this form.

An insertion keeps it so (`Leans.insert`).  Where the right subtree grows to be two levels higher,
it has but one entry more than a perfect tree, hence its own left subtree is low, and one rotation
makes a perfect tree of what is on the left.

A leaning tree has at least half the entries of the fullest tree of its height (`Leans.two_pow_le`),
so it is no higher than it must be, and a tree with all of them is perfect (`perfect_of_size`).
-/

set_option autoImplicit false

namespace RankedMap

namespace Tree

variable {K V : Type}

/-! ## Perfect trees -/

theorem perfect_nodeOn_iff {s : Side} {near far : Tree K V} {k : K} {v : V} :
    (nodeOn s near k v far).Perfect ↔ near.height = far.height ∧ near.Perfect ∧ far.Perfect := by
  cases s
  · exact ⟨fun ⟨h, hf, hn⟩ => ⟨h.symm, hn, hf⟩, fun ⟨h, hn, hf⟩ => ⟨h.symm, hf, hn⟩⟩
  · exact Iff.rfl

theorem Perfect.balanced {t : Tree K V} (ht : t.Perfect) : t.Balanced := by
  induction t with
  | nil => trivial
  | node l k v r ihl ihr =>
    obtain ⟨h, hl, hr⟩ := ht
    exact ⟨h.le.trans (Nat.le_succ _), h.ge.trans (Nat.le_succ _), ihl hl, ihr hr⟩

/-- A perfect tree is the fullest one of its height. -/
theorem Perfect.size_eq {t : Tree K V} (ht : t.Perfect) : t.size + 1 = 2 ^ t.height := by
  induction t with
  | nil => rfl
  | node l k v r ihl ihr =>
    obtain ⟨h, hl, hr⟩ := ht
    have hl := ihl hl
    have hr := ihr hr
    rw [size, height, ← h, Nat.max_self, Nat.pow_succ]
    rw [← h] at hr
    omega

/-- The fullest tree of its height is perfect. -/
theorem perfect_of_size {t : Tree K V} (ht : t.size + 1 = 2 ^ t.height) : t.Perfect := by
  induction t with
  | nil => trivial
  | node l k v r ihl ihr =>
    -- neither subtree can have more nodes than its height allows, so both have as many
    have hl := size_lt_two_pow_height l
    have hr := size_lt_two_pow_height r
    have hl' : 2 ^ l.height ≤ 2 ^ max l.height r.height :=
      Nat.pow_le_pow_right Nat.two_pos (Nat.le_max_left _ _)
    have hr' : 2 ^ r.height ≤ 2 ^ max l.height r.height :=
      Nat.pow_le_pow_right Nat.two_pos (Nat.le_max_right _ _)
    rw [size, height, Nat.pow_succ] at ht
    have hpow : 2 ^ l.height = 2 ^ r.height := by omega
    have hheight := Nat.pow_right_injective (Nat.le_refl 2) hpow
    exact ⟨hheight, ihl (by omega), ihr (by omega)⟩

theorem addLevels_self (xs : List Nat) : addLevels xs xs = xs.map (2 * ·) := by
  induction xs with
  | nil => rfl
  | cons x xs ih => rw [addLevels, ih, List.map_cons, Nat.two_mul]

/-- Every level of a perfect tree is full. -/
theorem Perfect.levels_eq {t : Tree K V} (ht : t.Perfect) :
    t.levels = (List.range t.height).map (2 ^ ·) := by
  induction t with
  | nil => rfl
  | node l k v r ihl ihr =>
    obtain ⟨h, hl, hr⟩ := ht
    rw [levels, height, ihl hl, ihr hr, ← h, Nat.max_self, addLevels_self, List.range_succ_eq_map,
      List.map_cons, List.map_map, List.map_map]
    simp [Function.comp_def, Nat.pow_succ, Nat.mul_comm]

/-! ## Leaning trees -/

/-- Off the edge on side `s` all is perfect, and the edge is no lower and little higher. -/
inductive Leans (s : Side) : Tree K V → Prop
  /-- The empty tree. -/
  | nil : Leans s nil
  /-- A node over a perfect tree, with a leaning one on side `s` that may be one level higher. -/
  | node {near far : Tree K V} {k : K} {v : V} (hn : near.Perfect) (hf : Leans s far)
      (hh : far.height = near.height ∨ far.height = near.height + 1) :
      Leans s (nodeOn s near k v far)

/-- A search for the key goes to side `s` at every entry: the key is greater than all that are
there, or less than all. -/
def Beyond (s : Side) (cmp : K → K → Ordering) (key : K) (t : Tree K V) : Prop :=
  ∀ e ∈ t.toList, Side.ofOrdering (cmp key e.1) = some s

instance (s : Side) (cmp : K → K → Ordering) (key : K) (t : Tree K V) :
    Decidable (t.Beyond s cmp key) :=
  inferInstanceAs (Decidable (∀ e ∈ t.toList, Side.ofOrdering (cmp key e.1) = some s))

variable {s : Side} {cmp : K → K → Ordering} {key : K} {value : V} {t near far : Tree K V} {k : K}
  {v : V}

theorem Leans.balanced (ht : t.Leans s) : t.Balanced := by
  induction ht with
  | nil => trivial
  | node hn _ hh ih => exact balanced_nodeOn_iff.2 ⟨by omega, by omega, hn.balanced, ih⟩

theorem Leans.exists_nodeOn (ht : t.Leans s) (hne : t.height ≠ 0) :
    ∃ near k v far, t = nodeOn s near k v far ∧ near.Perfect ∧ far.Leans s ∧
      (far.height = near.height ∨ far.height = near.height + 1) := by
  cases ht with
  | nil => exact absurd rfl hne
  | node hn hf hh => exact ⟨_, _, _, _, rfl, hn, hf, hh⟩

/-- A leaning tree has no entry fewer than would fit into one level less. -/
theorem Leans.two_pow_le (ht : t.Leans s) : 2 ^ t.height ≤ 2 * t.size + 1 := by
  induction ht with
  | nil => exact Nat.le_refl 1
  | @node near far k v hn _ hh ih =>
    have hsize := hn.size_eq
    rw [height_nodeOn, size_nodeOn, Nat.pow_succ]
    rcases hh with hh | hh
    · rw [hh, Nat.max_self]
      omega
    · rw [hh, Nat.pow_succ] at ih
      rw [hh, Nat.max_eq_right (Nat.le_succ _), Nat.pow_succ]
      omega

theorem Beyond.of_nodeOn (ht : (nodeOn s near k v far).Beyond s cmp key) :
    Side.ofOrdering (cmp key k) = some s ∧ far.Beyond s cmp key := by
  have hmem : ∀ e, e = (k, v) ∨ e ∈ far.toList → e ∈ (nodeOn s near k v far).toList := by
    intro e he
    cases s <;> simp only [nodeOn, toList, List.mem_append, List.mem_cons] <;> tauto
  exact ⟨ht _ (hmem _ (.inl rfl)), fun e he => ht e (hmem e (.inr he))⟩

theorem Beyond.exists_miss (ht : t.Beyond s cmp key) : ∃ r, t.landing cmp key = .miss r := by
  cases hp : t.landing cmp key with
  | miss r => exact ⟨r, rfl⟩
  | hit r =>
    obtain ⟨_, e, -, he, heq, -⟩ := path_of_hit hp
    have hside := ht e (List.mem_of_getElem? he)
    rw [heq] at hside
    cases hside

theorem Beyond.size_insert (ht : t.Beyond s cmp key) :
    (t.insert cmp key value).1.size = t.size + 1 := by
  obtain ⟨r, hp⟩ := ht.exists_miss
  rw [← length_toList, (toList_insert_of_miss hp).1,
    List.length_insertIdx_of_le_length (by rw [length_toList]; exact le_size_of_miss hp),
    length_toList]

/-- Such a key is put on that side of the root. -/
theorem insert_nodeOn (hk : Side.ofOrdering (cmp key k) = some s) :
    ((nodeOn s near k v far).insert cmp key value).1 =
      balanceOn s near k v (far.insert cmp key value).1 := by
  cases s <;> cases hc : cmp key k <;> simp_all [Side.ofOrdering, nodeOn, insert, balanceOn]

/-- A leaning tree that is two levels higher than a perfect one, and has no more entries than it has
to, leans as a whole when it rises above that tree. -/
theorem Leans.raise (hn : near.Perfect) (hf : far.Leans s) (hh : far.height = near.height + 2)
    (hsize : far.size ≤ 2 ^ (near.height + 1)) : (raise s near k v far).Leans s := by
  obtain ⟨inner, kb, vb, outer, rfl, hi, ho, hio⟩ := hf.exists_nodeOn (by omega)
  have hpi := hi.size_eq
  have hpo := ho.two_pow_le
  rw [height_nodeOn] at hh
  rw [size_nodeOn, Nat.pow_succ] at hsize
  have hinner : inner.height = near.height := by
    rcases hio with hio | hio
    · -- with both children that high there would be too many entries
      have hheight : inner.height = near.height + 1 := by omega
      rw [hio] at hpo
      rw [hheight, Nat.pow_succ] at hpi hpo
      have hpos := Nat.two_pow_pos near.height
      omega
    · omega
  rw [raise_of_le (by omega)]
  refine .node (perfect_nodeOn_iff.2 ⟨hinner.symm, hn, hi⟩) ho (.inl ?_)
  rw [height_nodeOn]
  omega

/-- **An insertion on its side** keeps a tree leaning. -/
theorem Leans.insert (ht : t.Leans s) (hb : t.Beyond s cmp key) :
    (t.insert cmp key value).1.Leans s := by
  induction ht with
  | nil =>
    have hleaf : (nodeOn s Tree.nil key value Tree.nil).Leans s := .node trivial .nil (.inl rfl)
    cases s <;> exact hleaf
  | @node near far k v hn hf hh ih =>
    obtain ⟨hk, hbf⟩ := hb.of_nodeOn
    obtain ⟨-, hgrow⟩ := balanced_insert cmp key value hf.balanced
    rw [insert_nodeOn hk]
    rcases Nat.lt_or_ge (near.height + 1) (far.insert cmp key value).1.height with hlt | hge
    · rw [balanceOn_of_lt hlt]
      refine .raise hn (ih hbf) (by omega) ?_
      have hheight : far.height = near.height + 1 := by omega
      rw [hbf.size_insert, ← hheight]
      exact size_lt_two_pow_height far
    · rw [balanceOn_of_near (by omega) hge]
      exact .node hn (ih hbf) (by omega)

end Tree

end RankedMap
