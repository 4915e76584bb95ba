import RankedMap.Arena.Basic
import RankedMap.Forest.Basic
import RankedMap.Proofs.Arena.Sound
import RankedMap.Proofs.Tree.Balance
import RankedMap.Proofs.Tree.Keys

/-!
# Which tree a forest holds

A `Placed` tree is a tree whose keys carry the handle of the slot that their node is in.  A forest
holds a placed tree (`Forest.Holds`) when every node of the tree is in its slot, is linked to the
roots of its two subtrees and has their true size and height on record.  All there is to say about
links, records and slots is in this one relation; what the tree is, which slots it takes up and
whether it is balanced are questions about the placed tree alone.

The handles of a placed tree say where it lives.  A change that is confined to other slots
(`Forest.Confined`) leaves it held (`Holds.confined`), which is how subtrees are carried past the
changes made elsewhere.
-/

set_option autoImplicit false

namespace RankedMap

/-- A tree of entries, each with the handle of its slot. -/
abbrev Placed (K V : Type) : Type := Tree (Handle × K) V

namespace Tree

variable {K V : Type}

/-- The link to a placed tree. -/
def root : Placed K V → Link
  | nil => none
  | node _ (h, _) _ _ => some h

/-- The slots of a placed tree, in the order of its entries. -/
def handles (t : Placed K V) : List Handle := t.toList.map fun e => e.1.1

/-- A placed tree without its slots. -/
def bare (t : Placed K V) : Tree K V := t.mapKeys Prod.snd

/-- Compares keys that carry a handle; the handles do not count. -/
def byKey (cmp : K → K → Ordering) : Handle × K → Handle × K → Ordering :=
  fun a b => cmp a.2 b.2

@[simp] theorem handles_node (l r : Placed K V) (h : Handle) (k : K) (v : V) :
    handles (node l (h, k) v r) = l.handles ++ h :: r.handles := by
  simp [handles, toList]

@[simp] theorem handles_balance (l r : Placed K V) (h : Handle) (k : K) (v : V) :
    handles (balance l (h, k) v r) = l.handles ++ h :: r.handles := by
  simp [handles]

@[simp] theorem length_handles (t : Placed K V) : t.handles.length = t.size := by
  rw [handles, List.length_map, length_toList]

@[simp] theorem root_eq_none {t : Placed K V} : t.root = none ↔ t = nil := by
  cases t with
  | nil => simp [root]
  | node => simp [root]

theorem nodup_handles_node {l r : Placed K V} {h : Handle} {k : K} {v : V} :
    (handles (node l (h, k) v r)).Nodup ↔
      l.handles.Nodup ∧ r.handles.Nodup ∧ h ∉ l.handles ∧ h ∉ r.handles ∧
        l.handles.Disjoint r.handles := by
  rw [handles_node, List.nodup_append', List.nodup_cons, List.disjoint_cons_right]
  tauto

theorem mem_handles_nodeOn {s : Side} {near far : Placed K V} {h x : Handle} {k : K} {v : V} :
    x ∈ (nodeOn s near (h, k) v far).handles ↔ x = h ∨ x ∈ near.handles ∨ x ∈ far.handles := by
  cases s <;> simp only [nodeOn, handles_node, List.mem_append, List.mem_cons] <;> tauto

theorem nodup_handles_nodeOn {s : Side} {near far : Placed K V} {h : Handle} {k : K} {v : V} :
    (nodeOn s near (h, k) v far).handles.Nodup ↔
      near.handles.Nodup ∧ far.handles.Nodup ∧ h ∉ near.handles ∧ h ∉ far.handles ∧
        near.handles.Disjoint far.handles := by
  cases s
  · rw [nodeOn, nodup_handles_node, List.disjoint_comm]
    tauto
  · exact nodup_handles_node

@[simp] theorem root_nodeOn (s : Side) (near far : Placed K V) (h : Handle) (k : K) (v : V) :
    (nodeOn s near (h, k) v far).root = some h := by
  cases s <;> rfl

theorem disjoint_handles_nodeOn {s : Side} {near far : Placed K V} {h : Handle} {k : K} {v : V}
    {hs : List Handle} :
    hs.Disjoint (nodeOn s near (h, k) v far).handles ↔
      h ∉ hs ∧ hs.Disjoint near.handles ∧ hs.Disjoint far.handles := by
  cases s <;> simp only [nodeOn, handles_node, List.disjoint_append_right, List.disjoint_cons_right] <;>
    tauto

/-- Storing another value leaves every entry in its slot. -/
theorem handles_of_modify {t t' : Placed K V} {rank : Nat} {value : V}
    (h : t'.toList = t.toList.modify rank fun e => (e.1, value)) : t'.handles = t.handles := by
  rw [handles, handles, h]
  refine List.ext_getElem? ?_
  intro i
  simp only [List.getElem?_map, List.getElem?_modify]
  split <;> cases t.toList[i]? <;> rfl

/-- Distinct slots with indices below a number are no more than that number. -/
theorem size_le_of_index_lt {t : Placed K V} {n : Nat} (hnd : t.handles.Nodup)
    (hlt : ∀ h ∈ t.handles, h.index < n) : t.size ≤ n := by
  have hsub : t.handles.map Handle.index ⊆ List.range n := by
    intro i hi
    obtain ⟨h, hh, rfl⟩ := List.mem_map.1 hi
    exact List.mem_range.2 (hlt h hh)
  have hlen := (List.subperm_of_subset (hnd.map Handle.index_injective) hsub).length_le
  rwa [List.length_map, length_handles, List.length_range] at hlen

/-- Distinct slots are no more than there are handles. -/
theorem size_le_maxCount {t : Placed K V} (hnd : t.handles.Nodup) : t.size ≤ Size.maxCount :=
  size_le_of_index_lt hnd fun h _ => Nat.lt_succ_of_le h.index_le

/-! ## Dropping the slots -/

@[simp] theorem size_bare (t : Placed K V) : t.bare.size = t.size := size_mapKeys _ t

@[simp] theorem height_bare (t : Placed K V) : t.bare.height = t.height := height_mapKeys _ t

theorem toList_bare (t : Placed K V) : t.bare.toList = t.toList.map fun e => (e.1.2, e.2) :=
  toList_mapKeys _ t

variable (cmp : K → K → Ordering) (h : Handle) (key : K) (value : V) (t : Placed K V)

theorem landing_bare : t.bare.landing cmp key = t.landing (byKey cmp) (h, key) :=
  landing_mapKeys Prod.snd cmp (h, key) t

theorem insert_bare :
    t.bare.insert cmp key value =
      ((t.insert (byKey cmp) (h, key) value).1.bare, (t.insert (byKey cmp) (h, key) value).2) :=
  insert_mapKeys Prod.snd cmp (h, key) value t

theorem extract_bare :
    t.bare.extract cmp key =
      ((t.extract (byKey cmp) (h, key)).1.bare,
        (t.extract (byKey cmp) (h, key)).2.map fun e => (e.1.2, e.2)) :=
  extract_mapKeys Prod.snd cmp (h, key) t

theorem replaceAt_bare (rank : Nat) : t.bare.replaceAt rank value = (t.replaceAt rank value).bare :=
  replaceAt_mapKeys Prod.snd value rank t

end Tree

namespace Node

variable {K V : Type}

/-- The node has the entry at the root of a placed tree, and is linked to its two subtrees. -/
def Joins (n : Node K V) : Placed K V → Prop
  | .nil => False
  | .node l (_, k) v r => n.key = k ∧ n.value = v ∧ n.left = l.root ∧ n.right = r.root

/-- The node is the root of a placed tree, and has its size and height on record. -/
structure Tops (n : Node K V) (t : Placed K V) : Prop where
  /-- The entry and the links are those of the root. -/
  joins : n.Joins t
  /-- The size on record is the true one. -/
  size_eq : n.size.count = t.size
  /-- The height on record is the true one. -/
  height_eq : n.height.levels = t.height

/-- The root of a placed tree can be one node only. -/
theorem Tops.unique {n n' : Node K V} {t : Placed K V} (h : n.Tops t) (h' : n'.Tops t) : n = n' := by
  obtain ⟨key, value, left, right, size, height⟩ := n
  obtain ⟨key', value', left', right', size', height'⟩ := n'
  obtain rfl : size = size' := Size.ext (h.size_eq.trans h'.size_eq.symm)
  obtain rfl : height = height' := Height.ext (h.height_eq.trans h'.height_eq.symm)
  have hj := h.joins
  have hj' := h'.joins
  cases t with
  | nil => exact hj.elim
  | node l e v r =>
    obtain ⟨rfl, rfl, rfl, rfl⟩ := hj
    obtain ⟨rfl, rfl, rfl, rfl⟩ := hj'
    rfl

theorem joins_nodeOn {n : Node K V} {s : Side} {near far : Placed K V} {h : Handle} {k : K} {v : V} :
    n.Joins (.nodeOn s near (h, k) v far) ↔
      n.key = k ∧ n.value = v ∧ n.child s = far.root ∧ n.child s.opposite = near.root := by
  cases s
  · exact Iff.rfl
  · simp only [Tree.nodeOn, Joins, child, Side.opposite]
    tauto

namespace Joins

variable {n : Node K V} {s : Side} {near far : Placed K V} {h : Handle} {k : K} {v : V}

theorem child (hj : n.Joins (.nodeOn s near (h, k) v far)) : n.child s = far.root :=
  (joins_nodeOn.1 hj).2.2.1

theorem child_left {l r : Placed K V} (hj : n.Joins (.node l (h, k) v r)) :
    n.child .left = l.root :=
  hj.2.2.1

theorem child_right {l r : Placed K V} (hj : n.Joins (.node l (h, k) v r)) :
    n.child .right = r.root :=
  hj.2.2.2

theorem child_opposite (hj : n.Joins (.nodeOn s near (h, k) v far)) :
    n.child s.opposite = near.root :=
  (joins_nodeOn.1 hj).2.2.2

/-- Linking another subtree on the side. -/
theorem setChild (hj : n.Joins (.nodeOn s near (h, k) v far)) (far' : Placed K V) :
    (n.setChild s far'.root).Joins (.nodeOn s near (h, k) v far') := by
  cases s
  · exact ⟨hj.1, hj.2.1, rfl, hj.2.2.2⟩
  · exact ⟨hj.1, hj.2.1, hj.2.2.1, rfl⟩

/-- Linking another subtree on the other side. -/
theorem setChild_opposite (hj : n.Joins (.nodeOn s near (h, k) v far)) (near' : Placed K V) :
    (n.setChild s.opposite near'.root).Joins (.nodeOn s near' (h, k) v far) := by
  cases s
  · exact ⟨hj.1, hj.2.1, hj.2.2.1, rfl⟩
  · exact ⟨hj.1, hj.2.1, rfl, hj.2.2.2⟩

end Joins

end Node

namespace Forest

variable {K V : Type}

/-- Every node of a placed tree is in its slot, with the right links and records. -/
def Holds (f : Forest K V) : Placed K V → Prop
  | .nil => True
  | .node l (h, k) v r =>
    (∃ n, f.live h = some n ∧ n.Tops (.node l (h, k) v r)) ∧ f.Holds l ∧ f.Holds r

theorem holds_nodeOn {f : Forest K V} {s : Side} {near far : Placed K V} {h : Handle} {k : K}
    {v : V} :
    f.Holds (.nodeOn s near (h, k) v far) ↔
      (∃ n, f.live h = some n ∧ n.Tops (.nodeOn s near (h, k) v far)) ∧ f.Holds near ∧
        f.Holds far := by
  cases s
  · exact and_congr_right fun _ => and_comm
  · exact Iff.rfl

/-- Two forests differ in the nodes in some slots at most; nothing was allocated or freed. -/
structure Confined (hs : List Handle) (f f' : Forest K V) : Prop where
  /-- The same handles are free, in the same order. -/
  free_eq : f'.free = f.free
  /-- The capacity is the same. -/
  capacity_eq : f'.capacity = f.capacity
  /-- There are as many slots. -/
  size_eq : f'.slots.size = f.slots.size
  /-- The same slots are vacant. -/
  live_eq_none : ∀ h, f'.live h = none ↔ f.live h = none
  /-- A node in another slot stays as it is. -/
  live_eq : ∀ h, h ∉ hs → f'.live h = f.live h

namespace Confined

variable {f f' f'' : Forest K V} {hs hs' : List Handle}

theorem refl (hs : List Handle) (f : Forest K V) : Confined hs f f :=
  ⟨rfl, rfl, rfl, fun _ => Iff.rfl, fun _ _ => rfl⟩

theorem trans (h : Confined hs f f') (h' : Confined hs f' f'') : Confined hs f f'' :=
  ⟨h'.free_eq.trans h.free_eq, h'.capacity_eq.trans h.capacity_eq, h'.size_eq.trans h.size_eq,
    fun x => (h'.live_eq_none x).trans (h.live_eq_none x),
    fun x hx => (h'.live_eq x hx).trans (h.live_eq x hx)⟩

theorem mono (h : Confined hs f f') (hsub : hs ⊆ hs') : Confined hs' f f' :=
  { h with live_eq := fun x hx => h.live_eq x fun hm => hx (hsub hm) }

/-- Writing a node in the place of another is confined to that slot. -/
theorem put {h : Handle} {n : Node K V} (hn : f.live h = some n) (n' : Node K V) :
    Confined [h] f (f.put h (some n')) := by
  refine ⟨rfl, rfl, by simp [Arena.put], ?_, ?_⟩
  · intro x
    rw [Arena.live_put hn]
    by_cases he : x = h
    · simp [he, hn]
    · rw [if_neg he]
  · intro x hx
    rw [Arena.live_put hn, if_neg (by simpa using hx)]

theorem sound (h : Confined hs f f') (hf : f.Sound) : f'.Sound :=
  hf.congr h.size_eq h.free_eq h.live_eq_none

end Confined

namespace Holds

variable {f f' : Forest K V} {t l r : Placed K V} {h : Handle} {k : K} {v : V}

theorem congr (ht : f.Holds t) (hlive : ∀ h ∈ t.handles, f'.live h = f.live h) : f'.Holds t := by
  induction t with
  | nil => trivial
  | node l e v r ihl ihr =>
    obtain ⟨h, k⟩ := e
    obtain ⟨⟨n, hn, hnt⟩, hl, hr⟩ := ht
    rw [Tree.handles_node] at hlive
    exact ⟨⟨n, (hlive h (by simp)).trans hn, hnt⟩, ihl hl fun x hx => hlive x (by simp [hx]),
      ihr hr fun x hx => hlive x (by simp [hx])⟩

/-- **The frame**: a tree is still held after a change confined to other slots. -/
theorem confined {hs : List Handle} (ht : f.Holds t) (hc : Confined hs f f')
    (hd : t.handles.Disjoint hs) : f'.Holds t :=
  ht.congr fun h hh => hc.live_eq h (hd hh)

theorem live_ne_none (ht : f.Holds t) (hh : h ∈ t.handles) : f.live h ≠ none := by
  induction t with
  | nil => cases hh
  | node l e v r ihl ihr =>
    obtain ⟨h', k⟩ := e
    obtain ⟨⟨n, hn, -⟩, hl, hr⟩ := ht
    rw [Tree.handles_node, List.mem_append, List.mem_cons] at hh
    rcases hh with hh | rfl | hh
    · exact ihl hl hh
    · simp [hn]
    · exact ihr hr hh

/-- Forests that hold the same tree have the same nodes in its slots. -/
theorem live_eq_of_holds (ht : f.Holds t) (ht' : f'.Holds t) (hh : h ∈ t.handles) :
    f'.live h = f.live h := by
  induction t with
  | nil => cases hh
  | node l e v r ihl ihr =>
    obtain ⟨h', k⟩ := e
    obtain ⟨⟨n, hn, hnt⟩, hl, hr⟩ := ht
    obtain ⟨⟨n', hn', hnt'⟩, hl', hr'⟩ := ht'
    rw [Tree.handles_node, List.mem_append, List.mem_cons] at hh
    rcases hh with hh | rfl | hh
    · exact ihl hl hl' hh
    · rw [hn, hn', hnt.unique hnt']
    · exact ihr hr hr' hh

/-- The slots of a held tree are slots of the forest. -/
theorem size_le (ht : f.Holds t) (hnd : t.handles.Nodup) : t.size ≤ f.slots.size := by
  refine Tree.size_le_of_index_lt hnd ?_
  intro h hh
  obtain ⟨x, hx⟩ := Option.ne_none_iff_exists'.1 (ht.live_ne_none hh)
  exact Arena.index_lt_of_live hx

/-- There are enough steps for every way down a held tree. -/
theorem height_le_stepLimit (ht : f.Holds t) (hnd : t.handles.Nodup) : t.height ≤ f.stepLimit :=
  (Tree.height_le_size t).trans (ht.size_le hnd)

end Holds

/-! ## Reading records -/

variable {f : Forest K V} {t l r : Placed K V}

theorem sizeAt_root (ht : f.Holds t) :
    ∃ s : Size, f.sizeAt t.root = .ok s ∧ s.count = t.size := by
  cases t with
  | nil => exact ⟨.zero, rfl, rfl⟩
  | node l e v r =>
    obtain ⟨h, k⟩ := e
    obtain ⟨⟨n, hn, hnt⟩, -, -⟩ := ht
    refine ⟨n.size, ?_, hnt.size_eq⟩
    simp only [sizeAt, Tree.root, Arena.get_eq_ok.2 hn]
    rfl

theorem heightAt_root (ht : f.Holds t) :
    ∃ s : Height, f.heightAt t.root = .ok s ∧ s.levels = t.height := by
  cases t with
  | nil => exact ⟨.zero, rfl, rfl⟩
  | node l e v r =>
    obtain ⟨h, k⟩ := e
    obtain ⟨⟨n, hn, hnt⟩, -, -⟩ := ht
    refine ⟨n.height, ?_, hnt.height_eq⟩
    simp only [heightAt, Tree.root, Arena.get_eq_ok.2 hn]
    rfl

end Forest

end RankedMap
