import RankedMap.Forest.Descent
import RankedMap.Proofs.Forest.Placed

/-!
# Looking things up in a forest

A search along the links of a held tree takes the way that the search in the tree takes, and has
enough steps for it.  So a key is found where `Tree.landing` says, for every comparison
(`locate_holds`, `rankOf_holds`), and a position by the recorded sizes is a position in the sequence of
entries (`select_holds`).  Going through all entries is a fold over them (`visit_holds`).  Storing a
value in the node at a position is `Tree.replaceAt` (`Holds.replaceAt`).
-/

set_option autoImplicit false

namespace RankedMap

namespace Tree

variable {K V : Type} {l r : Placed K V} {h : Handle} {k : K} {v : V} {rank : Nat}

theorem getElem?_handles_node_lt (hlt : rank < l.size) :
    (handles (node l (h, k) v r))[rank]? = l.handles[rank]? := by
  rw [handles_node, List.getElem?_append_left (by rwa [length_handles])]

theorem getElem?_handles_node_size : (handles (node l (h, k) v r))[l.size]? = some h := by
  rw [handles_node, ← length_handles, List.getElem?_append_right (Nat.le_refl _), Nat.sub_self,
    List.getElem?_cons_zero]

theorem getElem?_handles_node_gt (i : Nat) :
    (handles (node l (h, k) v r))[l.size + 1 + i]? = r.handles[i]? := by
  rw [handles_node, ← length_handles, getElem?_past]

@[simp] theorem root_replaceAt (rank : Nat) (value : V) (t : Placed K V) :
    (t.replaceAt rank value).root = t.root := by
  cases t with
  | nil => rfl
  | node l e v r =>
    obtain ⟨h, k⟩ := e
    rw [replaceAt]
    cases compare rank l.size <;> rfl

@[simp] theorem handles_replaceAt (rank : Nat) (value : V) (t : Placed K V) :
    (t.replaceAt rank value).handles = t.handles :=
  handles_of_modify (toList_replaceAt rank value t)

end Tree

namespace Forest

variable {K V β : Type} {f : Forest K V} {t : Placed K V} {cmp : K → K → Ordering} {key : K}
  {steps : Nat}

/-! ## The ways of the searches -/

/-- **The search for a key** ends where it ends in the tree. -/
theorem locate_holds (ht : f.Holds t) (hsteps : t.height ≤ steps) :
    f.locate cmp key steps t.root =
      .ok ((t.bare.landing cmp key).hit?.bind fun r => t.handles[r]?) := by
  induction t generalizing steps with
  | nil => exact locate_none
  | node l e v r ihl ihr =>
    obtain ⟨h, k⟩ := e
    obtain ⟨⟨n, hn, hnt⟩, hl, hr⟩ := ht
    obtain ⟨hkey, -, hleft, hright⟩ := hnt.joins
    obtain ⟨steps, rfl, hsl, hsr⟩ := Tree.exists_steps_of_height_le hsteps
    rw [Tree.bare, Tree.mapKeys, Tree.landing, Tree.root, locate_of_live hn, hkey]
    cases hc : cmp key k with
    | lt =>
      simp only [Side.ofOrdering, Node.child, hleft, ihl hl hsl]
      cases hp : l.bare.landing cmp key with
      | miss q => rw [← Tree.bare, hp]; rfl
      | hit q =>
        have hq : q < l.size := by simpa using Tree.lt_size_of_hit hp
        rw [← Tree.bare, hp, Landing.hit?, Option.bind_some, Option.bind_some,
          Tree.getElem?_handles_node_lt hq]
    | eq =>
      simp only [Side.ofOrdering, Landing.hit?, Option.bind_some, Tree.size_mapKeys,
        Tree.getElem?_handles_node_size]
    | gt =>
      simp only [Side.ofOrdering, Node.child, hright, ihr hr hsr, Landing.hit?_shift,
        Tree.size_mapKeys, Option.bind_map, Function.comp_def, Tree.getElem?_handles_node_gt]
      rfl

/-- **The search for a position** ends at the node there. -/
theorem select_holds (ht : f.Holds t) (hsteps : t.height ≤ steps) (rank : Nat) :
    f.select steps t.root rank = .ok t.handles[rank]? := by
  induction t generalizing steps rank with
  | nil => exact select_none rank
  | node l e v r ihl ihr =>
    obtain ⟨h, k⟩ := e
    obtain ⟨⟨n, hn, hnt⟩, hl, hr⟩ := ht
    obtain ⟨-, -, hleft, hright⟩ := hnt.joins
    obtain ⟨size, hsize, hcount⟩ := sizeAt_root hl
    obtain ⟨steps, rfl, hsl, hsr⟩ := Tree.exists_steps_of_height_le hsteps
    rw [Tree.root, select_of_live hn (hleft.symm ▸ hsize), hleft, hright, hcount]
    rcases Nat.lt_trichotomy rank l.size with hlt | rfl | hgt
    · simp only [Nat.compare_eq_lt.2 hlt, ihl hl hsl, Tree.getElem?_handles_node_lt hlt]
    · simp only [Nat.compare_eq_eq.2, Tree.getElem?_handles_node_size]
    · obtain ⟨i, rfl⟩ : ∃ i, rank = l.size + 1 + i := ⟨rank - l.size - 1, by omega⟩
      have hi : l.size + 1 + i - l.size - 1 = i := by omega
      simp only [Nat.compare_eq_gt.2 hgt, hi, ihr hr hsr, Tree.getElem?_handles_node_gt]

/-- **The position of a key** is the number of entries before the place where the search ends. -/
theorem rankOf_holds (ht : f.Holds t) (hsteps : t.height ≤ steps) (before : Nat) :
    f.rankOf cmp key steps t.root before =
      .ok ((t.bare.landing cmp key).hit?.map (before + ·)) := by
  induction t generalizing steps before with
  | nil => exact rankOf_none before
  | node l e v r ihl ihr =>
    obtain ⟨h, k⟩ := e
    obtain ⟨⟨n, hn, hnt⟩, hl, hr⟩ := ht
    obtain ⟨hkey, -, hleft, hright⟩ := hnt.joins
    obtain ⟨size, hsize, hcount⟩ := sizeAt_root hl
    obtain ⟨steps, rfl, hsl, hsr⟩ := Tree.exists_steps_of_height_le hsteps
    rw [Tree.bare, Tree.mapKeys, Tree.landing, Tree.root,
      rankOf_of_live hn (hleft.symm ▸ hsize), hkey, hleft, hright, hcount]
    cases hc : cmp key k with
    | lt =>
      simp only [Side.ofOrdering, ihl hl hsl]
      rfl
    | eq =>
      simp only [Side.ofOrdering, Landing.hit?, Tree.size_mapKeys]
      rfl
    | gt =>
      simp only [Side.ofOrdering, ihr hr hsr, Landing.hit?_shift, Tree.size_mapKeys,
        Option.map_map, Function.comp_def, ← Nat.add_assoc]
      rfl

/-- The tree read off the links is the tree held. -/
theorem treeTo_holds {depth : Nat} (ht : f.Holds t) (hdepth : t.height ≤ depth) :
    f.treeTo depth t.root = t.bare := by
  induction t generalizing depth with
  | nil => rw [Tree.root, treeTo]; rfl
  | node l e v r ihl ihr =>
    obtain ⟨h, k⟩ := e
    obtain ⟨⟨n, hn, hnt⟩, hl, hr⟩ := ht
    obtain ⟨hkey, hvalue, hleft, hright⟩ := hnt.joins
    obtain ⟨depth, rfl, hdl, hdr⟩ := Tree.exists_steps_of_height_le hdepth
    rw [Tree.root, treeTo]
    simp only [Arena.get_eq_ok.2 hn, hleft, hright, hkey, hvalue, ihl hl hdl, ihr hr hdr]
    rfl

/-- **Going through all entries** is a fold over them in their order. -/
theorem visit_holds (ht : f.Holds t) (hsteps : t.height ≤ steps) (take : β → K → V → β) (acc : β) :
    f.visit take steps t.root acc =
      .ok (t.bare.toList.foldl (fun acc e => take acc e.1 e.2) acc) := by
  induction t generalizing steps acc with
  | nil => exact visit_none take acc
  | node l e v r ihl ihr =>
    obtain ⟨h, k⟩ := e
    obtain ⟨⟨n, hn, hnt⟩, hl, hr⟩ := ht
    obtain ⟨hkey, hvalue, hleft, hright⟩ := hnt.joins
    obtain ⟨steps, rfl, hsl, hsr⟩ := Tree.exists_steps_of_height_le hsteps
    rw [Tree.root, visit_of_live hn (hleft.symm ▸ ihl hl hsl acc), hright, hkey, hvalue, ihr hr hsr]
    rw [Tree.toList_bare, Tree.toList_bare, Tree.toList_bare, Tree.toList, List.map_append,
      List.map_cons, List.foldl_append, List.foldl_cons]

/-! ## Nodes and entries -/

/-- The node of an entry holds it. -/
theorem Holds.live_of_mem (ht : f.Holds t) {h : Handle} {k : K} {v : V}
    (hm : ((h, k), v) ∈ t.toList) : ∃ n, f.live h = some n ∧ n.key = k ∧ n.value = v := by
  induction t with
  | nil => cases hm
  | node l e w r ihl ihr =>
    obtain ⟨h', k'⟩ := e
    obtain ⟨⟨n, hn, hnt⟩, hl, hr⟩ := ht
    rw [Tree.toList, List.mem_append, List.mem_cons] at hm
    rcases hm with hm | hm | hm
    · exact ihl hl hm
    · cases hm
      exact ⟨n, hn, hnt.joins.1, hnt.joins.2.1⟩
    · exact ihr hr hm

/-- **Storing a value** in the node at a position. -/
theorem Holds.replaceAt {rank : Nat} {h : Handle} {n : Node K V} (ht : f.Holds t)
    (hd : t.handles.Nodup) (hr : t.handles[rank]? = some h) (hn : f.live h = some n) (value : V) :
    Holds (f.put h (some (n.setValue value))) (t.replaceAt rank value) := by
  have hput := Confined.put hn (n.setValue value)
  induction t generalizing rank with
  | nil => trivial
  | node l e v r ihl ihr =>
    obtain ⟨h', k⟩ := e
    obtain ⟨⟨n', hn', hnt⟩, hl, hr'⟩ := ht
    obtain ⟨hdl, hdr, hnl, hnr, hdis⟩ := Tree.nodup_handles_node.1 hd
    obtain ⟨hkey, hvalue, hleft, hright⟩ := hnt.joins
    rw [Tree.replaceAt]
    rcases Nat.lt_trichotomy rank l.size with hlt | rfl | hgt
    · rw [Tree.getElem?_handles_node_lt hlt] at hr
      have hm := List.mem_of_getElem? hr
      have hne : h' ∉ [h] := by
        rintro hh
        exact hnl (List.mem_singleton.1 hh ▸ hm)
      simp only [Nat.compare_eq_lt.2 hlt]
      refine ⟨⟨n', (hput.live_eq h' hne).trans hn', ⟨⟨hkey, hvalue, ?_, hright⟩, ?_, ?_⟩⟩,
        ihl hl hdl hr, hr'.confined hput ?_⟩
      · rw [Tree.root_replaceAt, hleft]
      · rw [hnt.size_eq, Tree.size, Tree.size, Tree.size_replaceAt]
      · rw [hnt.height_eq, Tree.height, Tree.height, Tree.height_replaceAt]
      · exact List.disjoint_singleton.2 fun hh => hdis hm hh
    · rw [Tree.getElem?_handles_node_size] at hr
      cases hr
      cases hn.symm.trans hn'
      simp only [Nat.compare_eq_eq.2]
      refine ⟨⟨n.setValue value, ?_, ⟨⟨hkey, rfl, hleft, hright⟩, hnt.size_eq, hnt.height_eq⟩⟩,
        hl.confined hput ?_, hr'.confined hput ?_⟩
      · rw [Arena.live_put hn, if_pos rfl]
      · exact List.disjoint_singleton.2 hnl
      · exact List.disjoint_singleton.2 hnr
    · obtain ⟨i, rfl⟩ : ∃ i, rank = l.size + 1 + i := ⟨rank - l.size - 1, by omega⟩
      have hi : l.size + 1 + i - l.size - 1 = i := by omega
      rw [Tree.getElem?_handles_node_gt] at hr
      have hm := List.mem_of_getElem? hr
      have hne : h' ∉ [h] := by
        rintro hh
        exact hnr (List.mem_singleton.1 hh ▸ hm)
      simp only [Nat.compare_eq_gt.2 hgt, hi]
      refine ⟨⟨n', (hput.live_eq h' hne).trans hn', ⟨⟨hkey, hvalue, hleft, ?_⟩, ?_, ?_⟩⟩,
        hl.confined hput ?_, ihr hr' hdr hr⟩
      · rw [Tree.root_replaceAt, hright]
      · rw [hnt.size_eq, Tree.size, Tree.size, Tree.size_replaceAt]
      · rw [hnt.height_eq, Tree.height, Tree.height, Tree.height_replaceAt]
      · exact List.disjoint_singleton.2 fun hh => hdis hh hm

end Forest

end RankedMap
