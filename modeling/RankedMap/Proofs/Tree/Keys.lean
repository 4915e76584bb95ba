import RankedMap.Proofs.Tree.Sequence

/-!
# Renaming the keys of a tree

`Tree.mapKeys f` puts `f k` in the place of every key `k`.  The operations on trees look at keys
through the comparison only, so they do the same to a tree and to its image, when the keys are
compared by their images (`insert_mapKeys`, `extract_mapKeys`, `landing_mapKeys`).

This is used with keys that carry the slot of their node besides the key proper: dropping the slots
from a tree and then changing it is the same as changing it and then dropping the slots.
-/

set_option autoImplicit false

namespace RankedMap

namespace Tree

variable {K L V : Type} (f : K → L)

/-- The tree with every key replaced by its image. -/
def mapKeys : Tree K V → Tree L V
  | nil => nil
  | node l k v r => node l.mapKeys (f k) v r.mapKeys

@[simp] theorem size_mapKeys (t : Tree K V) : (t.mapKeys f).size = t.size := by
  induction t with
  | nil => rfl
  | node l k v r ihl ihr => rw [mapKeys, size, ihl, ihr, size]

@[simp] theorem height_mapKeys (t : Tree K V) : (t.mapKeys f).height = t.height := by
  induction t with
  | nil => rfl
  | node l k v r ihl ihr => rw [mapKeys, height, ihl, ihr, height]

theorem toList_mapKeys (t : Tree K V) :
    (t.mapKeys f).toList = t.toList.map fun e => (f e.1, e.2) := by
  induction t with
  | nil => rfl
  | node l k v r ihl ihr => rw [mapKeys, toList, ihl, ihr, toList, List.map_append, List.map_cons]

/-! ## Restoring balance -/

theorem nodeOn_mapKeys (s : Side) (near far : Tree K V) (k : K) (v : V) :
    (nodeOn s near k v far).mapKeys f = nodeOn s (near.mapKeys f) (f k) v (far.mapKeys f) := by
  cases s <;> rfl

theorem raise_mapKeys (s : Side) (near far : Tree K V) (k : K) (v : V) :
    (raise s near k v far).mapKeys f = raise s (near.mapKeys f) (f k) v (far.mapKeys f) := by
  by_cases hf : far.height = 0
  · cases far with
    | nil => cases s <;> rfl
    | node l _ _ r => exact absurd hf (Nat.succ_ne_zero (max l.height r.height))
  obtain ⟨inner, kb, vb, outer, rfl⟩ := exists_nodeOn s hf
  rcases Nat.lt_or_ge outer.height inner.height with hlt | hle
  · obtain ⟨nearer, kg, vg, further, rfl⟩ := exists_nodeOn s (t := inner) (by omega)
    have hlt' : (outer.mapKeys f).height <
        (nodeOn s (nearer.mapKeys f) (f kg) vg (further.mapKeys f)).height := by
      rwa [← nodeOn_mapKeys, height_mapKeys, height_mapKeys]
    simp only [raise_of_lt hlt, nodeOn_mapKeys, raise_of_lt hlt']
  · have hle' : (inner.mapKeys f).height ≤ (outer.mapKeys f).height := by
      rwa [height_mapKeys, height_mapKeys]
    simp only [raise_of_le hle, nodeOn_mapKeys, raise_of_le hle']

theorem balance_mapKeys (l r : Tree K V) (k : K) (v : V) :
    (balance l k v r).mapKeys f = balance (l.mapKeys f) (f k) v (r.mapKeys f) := by
  rcases Nat.lt_or_ge (r.height + 1) l.height with hlt | hge
  · rw [balance_of_left hlt, raise_mapKeys, balance_of_left (by simpa using hlt)]
  rcases Nat.lt_or_ge (l.height + 1) r.height with hlt | hge'
  · rw [balance_of_right hlt, raise_mapKeys, balance_of_right (by simpa using hlt)]
  · rw [balance_of_near hge hge', balance_of_near (by simpa using hge) (by simpa using hge'),
      mapKeys]

/-! ## Whole operations -/

variable (cmp : L → L → Ordering) (key : K) (value : V)

theorem landing_mapKeys (t : Tree K V) :
    (t.mapKeys f).landing cmp (f key) = t.landing (fun a b => cmp (f a) (f b)) key := by
  induction t with
  | nil => rfl
  | node l k v r ihl ihr => simp only [mapKeys, landing, ihl, ihr, size_mapKeys]

theorem path_mapKeys (t : Tree K V) :
    (t.mapKeys f).path cmp (f key) = (t.path (fun a b => cmp (f a) (f b)) key).map f := by
  induction t with
  | nil => rfl
  | node l k v r ihl ihr =>
    rw [mapKeys, path, path, ihl, ihr]
    cases cmp (f key) (f k) <;> rfl

theorem insert_mapKeys (t : Tree K V) :
    (t.mapKeys f).insert cmp (f key) value =
      ((t.insert (fun a b => cmp (f a) (f b)) key value).1.mapKeys f,
        (t.insert (fun a b => cmp (f a) (f b)) key value).2) := by
  induction t with
  | nil => rfl
  | node l k v r ihl ihr =>
    simp only [mapKeys, insert, ihl, ihr]
    cases cmp (f key) (f k)
    · simp only [balance_mapKeys]
    · rfl
    · simp only [balance_mapKeys]

theorem extractFirst_mapKeys (t : Tree K V) :
    (t.mapKeys f).extractFirst =
      t.extractFirst.map fun p => ((f p.1.1, p.1.2), p.2.mapKeys f) := by
  induction t with
  | nil => rfl
  | node l k v r ihl _ =>
    simp only [mapKeys, extractFirst, ihl]
    cases l.extractFirst with
    | none => rfl
    | some p => simp only [Option.map_some, balance_mapKeys]

theorem join_mapKeys (l r : Tree K V) :
    (join l r).mapKeys f = join (l.mapKeys f) (r.mapKeys f) := by
  cases l with
  | nil => rfl
  | node ll k v lr =>
    cases hf : r.extractFirst with
    | none =>
      rw [extractFirst_eq_none_iff.1 hf, join_nil]
      rfl
    | some p =>
      obtain ⟨⟨key, value⟩, rest⟩ := p
      have hf' := extractFirst_mapKeys f r
      rw [hf] at hf'
      rw [join_of_some (l := node ll k v lr) nofun hf, balance_mapKeys,
        join_of_some (l := (node ll k v lr).mapKeys f) nofun hf']

theorem extract_mapKeys (t : Tree K V) :
    (t.mapKeys f).extract cmp (f key) =
      ((t.extract (fun a b => cmp (f a) (f b)) key).1.mapKeys f,
        (t.extract (fun a b => cmp (f a) (f b)) key).2.map fun e => (f e.1, e.2)) := by
  induction t with
  | nil => rfl
  | node l k v r ihl ihr =>
    simp only [mapKeys, extract, ihl, ihr]
    cases cmp (f key) (f k)
    · simp only [balance_mapKeys]
    · simp only [join_mapKeys, Option.map_some]
    · simp only [balance_mapKeys]

theorem replaceAt_mapKeys (rank : Nat) (t : Tree K V) :
    (t.mapKeys f).replaceAt rank value = (t.replaceAt rank value).mapKeys f := by
  induction t generalizing rank with
  | nil => rfl
  | node l k v r ihl ihr =>
    simp only [mapKeys, replaceAt, size_mapKeys]
    cases compare rank l.size <;> simp only [mapKeys, ihl, ihr]

end Tree

end RankedMap
