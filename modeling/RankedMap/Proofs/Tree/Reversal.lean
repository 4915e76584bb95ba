import RankedMap.Proofs.Tree.Sequence

/-!
# Exchanging left and right in a tree

`Tree.reverse` exchanges left and right everywhere.  Restoring balance treats both sides in the same
way, so it makes no difference whether it is done before or after (`balance_reverse`).  A search
with the comparison that answers less for greater and greater for less goes through the reversed
tree as the search with the comparison goes through the tree (`landing_reverse`), and inserting and
taking out follow it (`insert_reverse`, `extract_reverse`).

Taking out an entry that stands over two subtrees is the one exception: the entry behind it moves
up, which is on the other side in the reversed tree.
-/

set_option autoImplicit false

namespace RankedMap

/-- The comparison with less and greater exchanged. -/
def swapped {K : Type} (cmp : K → K → Ordering) : K → K → Ordering := fun a b => (cmp a b).swap

section

variable {K : Type} {cmp : K → K → Ordering} {a b : K}

theorem swapped_of_lt (h : cmp a b = .lt) : swapped cmp a b = .gt := by
  rw [swapped, h]
  rfl

theorem swapped_of_eq (h : cmp a b = .eq) : swapped cmp a b = .eq := by
  rw [swapped, h]
  rfl

theorem swapped_of_gt (h : cmp a b = .gt) : swapped cmp a b = .lt := by
  rw [swapped, h]
  rfl

end

/-- The same place, seen from the other end of a tree with `size` entries. -/
def Landing.reverse (size : Nat) : Landing → Landing
  | hit r => hit (size - 1 - r)
  | miss r => miss (size - r)

namespace Tree

variable {K V : Type}

theorem balanced_reverse {t : Tree K V} : t.reverse.Balanced ↔ t.Balanced := by
  induction t with
  | nil => exact Iff.rfl
  | node l k v r ihl ihr =>
    simp only [reverse, Balanced, height_reverse, ihl, ihr]
    constructor
    · rintro ⟨h1, h2, hr, hl⟩
      exact ⟨h2, h1, hl, hr⟩
    · rintro ⟨h1, h2, hl, hr⟩
      exact ⟨h2, h1, hr, hl⟩

/-! ## Restoring balance -/

theorem nodeOn_reverse (s : Side) (near far : Tree K V) (k : K) (v : V) :
    (nodeOn s near k v far).reverse = nodeOn s.opposite near.reverse k v far.reverse := by
  cases s <;> rfl

theorem raise_reverse (s : Side) (near far : Tree K V) (k : K) (v : V) :
    (raise s near k v far).reverse = raise s.opposite near.reverse k v far.reverse := by
  by_cases hf : far.height = 0
  · cases far with
    | nil => cases s <;> rfl
    | node l _ _ r => exact absurd hf (Nat.succ_ne_zero (max l.height r.height))
  obtain ⟨inner, kb, vb, outer, rfl⟩ := exists_nodeOn s hf
  rcases Nat.lt_or_ge outer.height inner.height with hlt | hle
  · obtain ⟨nearer, kg, vg, further, rfl⟩ := exists_nodeOn s (t := inner) (by omega)
    have hlt' : outer.reverse.height <
        (nodeOn s.opposite nearer.reverse kg vg further.reverse).height := by
      rwa [← nodeOn_reverse, height_reverse, height_reverse]
    simp only [raise_of_lt hlt, nodeOn_reverse, raise_of_lt hlt']
  · have hle' : inner.reverse.height ≤ outer.reverse.height := by
      rwa [height_reverse, height_reverse]
    simp only [raise_of_le hle, nodeOn_reverse, raise_of_le hle']

theorem balance_reverse (l r : Tree K V) (k : K) (v : V) :
    (balance l k v r).reverse = balance r.reverse k v l.reverse := by
  rcases Nat.lt_or_ge (r.height + 1) l.height with hlt | hge
  · rw [balance_of_left hlt, raise_reverse, balance_of_right (by simpa using hlt)]
    rfl
  rcases Nat.lt_or_ge (l.height + 1) r.height with hlt | hge'
  · rw [balance_of_right hlt, raise_reverse, balance_of_left (by simpa using hlt)]
    rfl
  · rw [balance_of_near hge hge', balance_of_near (by simpa using hge') (by simpa using hge),
      reverse]

/-! ## Searching -/

variable (cmp : K → K → Ordering) (key : K)

theorem landing_reverse (t : Tree K V) :
    t.reverse.landing (swapped cmp) key = (t.landing cmp key).reverse t.size := by
  induction t with
  | nil => rfl
  | node l k v r ihl ihr =>
    have hl := rank_landing cmp key l
    have hr := rank_landing cmp key r
    rw [reverse, landing, landing]
    cases hc : cmp key k with
    | lt =>
      simp only [swapped_of_lt hc, ihl, size, size_reverse]
      revert hl
      cases l.landing cmp key <;>
        simp only [Landing.reverse, Landing.shift, Landing.hit.injEq, Landing.miss.injEq] <;> omega
    | eq =>
      simp only [swapped_of_eq hc, Landing.reverse, Landing.hit.injEq, size, size_reverse]
      omega
    | gt =>
      simp only [swapped_of_gt hc, ihr, size]
      revert hr
      cases r.landing cmp key <;>
        simp only [Landing.reverse, Landing.shift, Landing.hit.injEq, Landing.miss.injEq] <;> omega

/-- The same entry is found. -/
theorem find?_reverse (t : Tree K V) : t.reverse.find? (swapped cmp) key = t.find? cmp key := by
  rw [find?, find?, landing_reverse, toList_reverse]
  cases hp : t.landing cmp key with
  | miss r => rfl
  | hit r =>
    have hlt := lt_size_of_hit hp
    simp only [Landing.reverse, Landing.hit?, Option.bind_some]
    rw [List.getElem?_reverse (by rw [length_toList]; omega), length_toList]
    congr 1
    omega

/-! ## Inserting and taking out -/

theorem insert_reverse (value : V) (t : Tree K V) :
    t.reverse.insert (swapped cmp) key value =
      ((t.insert cmp key value).1.reverse, (t.insert cmp key value).2) := by
  induction t with
  | nil => rfl
  | node l k v r ihl ihr =>
    rw [reverse, insert, insert]
    cases hc : cmp key k with
    | lt => simp only [swapped_of_lt hc, ihl, balance_reverse]
    | eq => simp only [swapped_of_eq hc, reverse]
    | gt => simp only [swapped_of_gt hc, ihr, balance_reverse]

/-- The search for a key does not end at an entry that stands over two subtrees. -/
def Unforked : Tree K V → Prop
  | nil => True
  | node l k _ r =>
    match cmp key k with
    | .lt => l.Unforked
    | .eq => l = nil ∨ r = nil
    | .gt => r.Unforked

theorem extract_reverse {t : Tree K V} (ht : t.Unforked cmp key) :
    t.reverse.extract (swapped cmp) key =
      ((t.extract cmp key).1.reverse, (t.extract cmp key).2) := by
  induction t with
  | nil => rfl
  | node l k v r ihl ihr =>
    rw [reverse, extract, extract]
    rw [Unforked] at ht
    cases hc : cmp key k with
    | lt =>
      simp only [hc] at ht
      simp only [swapped_of_lt hc, ihl ht, balance_reverse]
    | eq =>
      simp only [hc] at ht
      rcases ht with rfl | rfl <;> simp only [swapped_of_eq hc, reverse, join_nil, nil_join]
    | gt =>
      simp only [hc] at ht
      simp only [swapped_of_gt hc, ihr ht, balance_reverse]

end Tree

end RankedMap
