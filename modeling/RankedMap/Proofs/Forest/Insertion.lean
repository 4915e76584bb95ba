import RankedMap.Forest.Descent
import RankedMap.Proofs.Forest.Rotation

/-!
# Inserting into a forest

`Forest.insertBelow` does to linked nodes what `Tree.insert` does to a tree as a value, for every
comparison of keys (`insertBelow_holds`).  A search that ends between entries takes a slot from the
arena; when the arena has none, the search has changed nothing yet (`insertBelow_refused`).

The induction is on the tree that the forest holds.  It is the way back that changes nodes, and each
step of it is `climb_holds`.
-/

set_option autoImplicit false

namespace RankedMap

namespace Tree

variable {K V : Type} {cmp : Handle × K → Handle × K → Ordering} {e : Handle × K} {value : V}
  {t : Placed K V} {r : Nat}

/-- On a hit every entry stays in its slot. -/
theorem handles_insert_of_hit (h : t.landing cmp e = .hit r) :
    (t.insert cmp e value).1.handles = t.handles :=
  handles_of_modify (toList_insert_of_hit h).1

/-- On a miss the new entry has a slot of its own. -/
theorem handles_insert_of_miss (h : t.landing cmp e = .miss r) :
    (t.insert cmp e value).1.handles = t.handles.insertIdx r e.1 := by
  rw [handles, handles, (toList_insert_of_miss h).1, List.map_insertIdx]

theorem handles_insert_perm (h : t.landing cmp e = .miss r) :
    (t.insert cmp e value).1.handles.Perm (e.1 :: t.handles) := by
  rw [handles_insert_of_miss h]
  refine List.perm_insertIdx e.1 t.handles ?_
  rw [length_handles]
  exact le_size_of_miss h

end Tree

namespace Forest

variable {K V : Type} {f f' start : Forest K V} {t : Placed K V} {x : Handle} {key : K} {value : V}
  {cmp : K → K → Ordering} {steps : Nat}

/-- A tree is still held after a new node got a slot. -/
theorem Holds.allocate {n : Node K V} (ht : f.Holds t) (hx : f.live x = none)
    (ha : Arena.allocate n f = .ok x start) : start.Holds t := by
  refine ht.congr ?_
  rintro h hh
  rw [Arena.live_allocate ha, if_neg]
  rintro rfl
  exact ht.live_ne_none hh hx

/-- **Inserting below a link** is `Tree.insert`.  The tree is changed from `start`: the forest as it
is on a hit, and the forest after the new node got its slot on a miss. -/
theorem insertBelow_holds (ht : f.Holds t) (hst : start.Holds t) (hb : t.Balanced)
    (hsteps : t.height ≤ steps)
    (hd : (t.insert (Tree.byKey cmp) (x, key) value).1.handles.Nodup)
    (hhit : ∀ r, t.landing (Tree.byKey cmp) (x, key) = .hit r → start = f)
    (hmiss : ∀ r, t.landing (Tree.byKey cmp) (x, key) = .miss r →
      Arena.allocate (Node.single key value) f = .ok x start) :
    ∃ c f', insertBelow cmp key value steps t.root f =
        .ok (c, (t.insert (Tree.byKey cmp) (x, key) value).2) f' ∧
      (t.insert (Tree.byKey cmp) (x, key) value).1.root = some c ∧
      f'.Holds (t.insert (Tree.byKey cmp) (x, key) value).1 ∧
      Confined (t.insert (Tree.byKey cmp) (x, key) value).1.handles start f' := by
  induction t generalizing steps with
  | nil =>
    have ha := hmiss 0 rfl
    refine ⟨x, start, ?_, rfl, ⟨⟨Node.single key value, ?_, ⟨rfl, rfl, rfl, rfl⟩, rfl, rfl⟩,
      trivial, trivial⟩, .refl _ _⟩
    · simp only [insertBelow_none, Tree.root, Edit.bind_apply, ha]
      rfl
    · rw [Arena.live_allocate ha, if_pos rfl]
  | node l e v r ihl ihr =>
    obtain ⟨h, k⟩ := e
    obtain ⟨⟨n, hn, hnt⟩, hl, hr⟩ := ht
    obtain ⟨⟨n', hn', hnt'⟩, hl', hr'⟩ := hst
    obtain ⟨h1, h2, hbl, hbr⟩ := hb
    obtain ⟨hkey, hvalue, hleft, hright⟩ := hnt.joins
    obtain ⟨steps, rfl, hsl, hsr⟩ := Tree.exists_steps_of_height_le hsteps
    have hcmp : Tree.byKey cmp (x, key) (h, k) = cmp key k := rfl
    simp only [Tree.landing, hcmp] at hhit hmiss
    simp only [Tree.insert, hcmp] at hd ⊢
    simp only [insertBelow_some, Tree.root, Edit.bind_apply, Edit.read_apply, Arena.get_eq_ok.2 hn,
      hkey]
    cases hc : cmp key k with
    | lt =>
      simp only [hc, Side.ofOrdering, Node.child, hleft] at hhit hmiss hd ⊢
      rw [Tree.handles_balance, ← Tree.handles_node] at hd
      have hnot := Tree.nodup_handles_node.1 hd
      obtain ⟨hb', hh'⟩ := Tree.balanced_insert (Tree.byKey cmp) (x, key) value hbl
      obtain ⟨c₁, f₁, hok₁, hroot₁, hold₁, hc₁⟩ := ihl hl hl' hbl hsl hnot.1 hhit hmiss
      obtain ⟨c, f₂, f₃, hm, hok, hroot, hold, hc₂⟩ := climb_holds (s := .left) hn' hnt'.joins hr'
        hold₁ hc₁ hroot₁ hnot.2.2.1 hnot.2.2.2.2.symm hd hbr hb' (by omega) (by omega)
      refine ⟨c, f₃, ?_, hroot, hold, (hc₁.mono (by simp)).trans (hc₂.mono (by simp [Tree.nodeOn]))⟩
      simp only [Edit.bind_apply, hok₁, hm, hok]
      rfl
    | eq =>
      simp only [hc] at hhit hd ⊢
      obtain rfl := hhit _ rfl
      have hc₁ := Confined.put hn (n.setValue value)
      have hnot := Tree.nodup_handles_node.1 hd
      refine ⟨h, _, ?_, rfl, ⟨⟨n.setValue value, ?_, ⟨hkey, rfl, hleft, hright⟩, hnt.size_eq,
        hnt.height_eq⟩, ?_, ?_⟩, hc₁.mono (by simp)⟩
      · simp only [Side.ofOrdering, Edit.bind_apply, Arena.modifyGet_of_live hn, hvalue]
        rfl
      · rw [Arena.live_put hn, if_pos rfl]
      · exact hl.confined hc₁ (by simp; tauto)
      · exact hr.confined hc₁ (by simp; tauto)
    | gt =>
      simp only [hc, Side.ofOrdering, Node.child, hright] at hhit hmiss hd ⊢
      rw [Tree.handles_balance, ← Tree.handles_node] at hd
      have hnot := Tree.nodup_handles_node.1 hd
      obtain ⟨hb', hh'⟩ := Tree.balanced_insert (Tree.byKey cmp) (x, key) value hbr
      obtain ⟨c₁, f₁, hok₁, hroot₁, hold₁, hc₁⟩ := ihr hr hr' hbr hsr hnot.2.1
        (fun q hq => hhit _ (by rw [hq]; rfl)) (fun q hq => hmiss _ (by rw [hq]; rfl))
      obtain ⟨c, f₂, f₃, hm, hok, hroot, hold, hc₂⟩ := climb_holds (s := .right) hn' hnt'.joins hl'
        hold₁ hc₁ hroot₁ hnot.2.2.2.1 hnot.2.2.2.2 hd hbl hb' (by omega) (by omega)
      refine ⟨c, f₃, ?_, hroot, hold, (hc₁.mono (by simp)).trans (hc₂.mono (by simp [Tree.nodeOn]))⟩
      simp only [Edit.bind_apply, hok₁, hm, hok]
      rfl

/-- Where the search ends between entries and no slot can be had, nothing is changed. -/
theorem insertBelow_refused {r : Nat} {fault : Fault} (ht : f.Holds t) (hsteps : t.height ≤ steps)
    (hmiss : t.landing (Tree.byKey cmp) (x, key) = .miss r)
    (ha : Arena.allocate (Node.single key value) f = .error fault f') :
    insertBelow cmp key value steps t.root f = .error fault f' := by
  induction t generalizing steps r with
  | nil => simp only [insertBelow_none, Tree.root, Edit.bind_apply, ha]
  | node l e v right ihl ihr =>
    obtain ⟨h, k⟩ := e
    obtain ⟨⟨n, hn, hnt⟩, hl, hr⟩ := ht
    obtain ⟨hkey, -, hleft, hright⟩ := hnt.joins
    obtain ⟨steps, rfl, hsl, hsr⟩ := Tree.exists_steps_of_height_le hsteps
    have hcmp : Tree.byKey cmp (x, key) (h, k) = cmp key k := rfl
    simp only [Tree.landing, hcmp] at hmiss
    simp only [insertBelow_some, Tree.root, Edit.bind_apply, Edit.read_apply, Arena.get_eq_ok.2 hn,
      hkey]
    cases hc : cmp key k with
    | lt =>
      simp only [hc] at hmiss
      simp only [Side.ofOrdering, Node.child, hleft, Edit.bind_apply, ihl hl hsl hmiss]
    | eq => simp only [hc, reduceCtorEq] at hmiss
    | gt =>
      simp only [hc, Landing.shift_eq_miss] at hmiss
      obtain ⟨q, hq, -⟩ := hmiss
      simp only [Side.ofOrdering, Node.child, hright, Edit.bind_apply, ihr hr hsr hq]

end Forest

end RankedMap
