import RankedMap.Forest.Descent
import RankedMap.Proofs.Forest.Rotation

/-!
# Taking an entry out of a forest

`Forest.extractBelow` does to linked nodes what `Tree.extract` does to a tree as a value, for every
comparison of keys (`extractBelow_holds`).  The node of the entry taken out is a leaf afterwards,
still in its slot and linked from nowhere.  All other entries stay in the slots they were in, which
is why nothing but the handles of the tree itself is changed.
-/

set_option autoImplicit false

namespace RankedMap

namespace Tree

variable {K V : Type} {cmp : Handle × K → Handle × K → Ordering} {e e' : Handle × K} {v : V}
  {t rest : Placed K V}

/-- There is a first node wherever there is a node. -/
theorem exists_extractFirst {a : Handle} (h : t.root = some a) :
    ∃ first k v rest, t.extractFirst = some (((first, k), v), rest) := by
  have hne : t.extractFirst ≠ none := fun he => by
    simp [extractFirst_eq_none_iff.1 he, root] at h
  obtain ⟨⟨⟨⟨first, k⟩, v⟩, rest⟩, he⟩ := Option.ne_none_iff_exists'.1 hne
  exact ⟨first, k, v, rest, he⟩

theorem handles_extractFirst (h : t.extractFirst = some ((e, v), rest)) :
    t.handles = e.1 :: rest.handles := by
  rw [handles, toList_extractFirst h]
  rfl

/-- The entry taken out and the ones that are left are in the slots of the tree. -/
theorem handles_extract_perm (h : (t.extract cmp e).2 = some (e', v)) :
    t.handles.Perm (e'.1 :: (t.extract cmp e).1.handles) := by
  cases hp : t.landing cmp e with
  | miss r => simp [(toList_extract_of_miss hp).2] at h
  | hit r =>
    obtain ⟨hlist, hgone⟩ := toList_extract_of_hit hp
    rw [hgone] at h
    obtain ⟨hr, he⟩ := List.getElem?_eq_some_iff.1 h
    rw [handles, handles, hlist]
    have hperm := (List.getElem_cons_eraseIdx_perm hr).symm.map fun x : (Handle × K) × V => x.1.1
    rwa [he] at hperm

theorem handles_extract_of_none (h : (t.extract cmp e).2 = none) :
    (t.extract cmp e).1.handles = t.handles := by
  cases hp : t.landing cmp e with
  | miss r => rw [handles, (toList_extract_of_miss hp).1, handles]
  | hit r =>
    rw [(toList_extract_of_hit hp).2, List.getElem?_eq_none_iff, length_toList] at h
    exact absurd (lt_size_of_hit hp) (Nat.not_lt.2 h)

theorem handles_extract_sublist (cmp : Handle × K → Handle × K → Ordering) (e : Handle × K)
    (t : Placed K V) :
    (t.extract cmp e).1.handles.Sublist t.handles := by
  cases hp : t.landing cmp e with
  | miss r => rw [handles, (toList_extract_of_miss hp).1, handles]
  | hit r =>
    rw [handles, (toList_extract_of_hit hp).1]
    exact (List.eraseIdx_sublist _ _).map _

/-- No other entry is in the slot of the entry taken out. -/
theorem notMem_handles_extract (cmp : Handle × K → Handle × K → Ordering) (e : Handle × K)
    (hd : t.handles.Nodup) (e' : Handle × K) (v : V) (h : (t.extract cmp e).2 = some (e', v)) :
    e'.1 ∉ (t.extract cmp e).1.handles :=
  ((handles_extract_perm h).nodup hd).notMem

end Tree

namespace Forest

variable {K V : Type} {f : Forest K V} {t l r rest : Placed K V} {h : Handle} {e : Handle × K}
  {v : V} {cmp : K → K → Ordering} {steps : Nat}

/-- Taking out the first node of a subtree is `Tree.extractFirst`. -/
theorem extractFirst_holds (ht : f.Holds t) (hd : t.handles.Nodup) (hb : t.Balanced)
    (hsteps : t.height ≤ steps) (hroot : t.root = some h)
    (he : t.extractFirst = some ((e, v), rest)) :
    ∃ f', extractFirst steps h f = .ok (rest.root, e.1) f' ∧ f'.Holds rest ∧
      f'.live e.1 = some (Node.single e.2 v) ∧ Confined t.handles f f' := by
  induction t generalizing steps h rest with
  | nil => cases he
  | node l x w r ihl _ =>
    obtain ⟨h', k⟩ := x
    obtain rfl : h = h' := (Option.some.inj hroot).symm
    obtain ⟨⟨n, hn, hnt⟩, hl, hr⟩ := ht
    obtain ⟨hkey, hvalue, hleft, hright⟩ := hnt.joins
    obtain ⟨h1, h2, hbl, hbr⟩ := hb
    have hnot := Tree.nodup_handles_node.1 hd
    obtain ⟨steps, rfl, hsl, -⟩ := Tree.exists_steps_of_height_le hsteps
    rw [Tree.extractFirst] at he
    simp only [extractFirst_succ, Edit.bind_apply, Edit.read_apply, Arena.get_eq_ok.2 hn, hleft]
    cases hf : l.extractFirst with
    | none =>
      rw [hf] at he
      cases he
      obtain rfl := Tree.extractFirst_eq_none_iff.1 hf
      have hc := Confined.put hn n.detach
      refine ⟨_, ?_, hr.confined hc (by simp; tauto), ?_, hc.mono (by simp)⟩
      · simp only [Tree.root, detach, Edit.bind_apply, Arena.modifyGet_of_live hn, Node.children,
          hright]
        rfl
      · rw [Arena.live_put hn, if_pos rfl, Node.detach, hkey, hvalue]
    | some p =>
      obtain ⟨⟨e', v'⟩, l'⟩ := p
      rw [hf] at he
      cases he
      have hne : l.root ≠ none := by
        rw [ne_eq, Tree.root_eq_none, ← Tree.extractFirst_eq_none_iff, hf]
        exact Option.some_ne_none _
      obtain ⟨hl₁, hroot₁⟩ := Option.ne_none_iff_exists'.1 hne
      obtain ⟨f₁, hok₁, hold₁, hgone, hc₁⟩ := ihl hl hnot.1 hbl hsl hroot₁ hf
      obtain ⟨hb', hh'⟩ := Tree.balanced_extractFirst hbl hf
      have hhl := Tree.handles_extractFirst hf
      have hd' : (Tree.node l' (h, k) w r).handles.Nodup := by
        rw [Tree.handles_node, hhl, List.cons_append] at hd
        rw [Tree.handles_node]
        exact hd.of_cons
      have hgone' : e.1 ∉ (Tree.node l' (h, k) w r).handles := by
        rw [Tree.handles_node, hhl, List.cons_append] at hd
        rw [Tree.handles_node]
        exact hd.notMem
      obtain ⟨c, f₂, f₃, hm, hok, hroot, hold, hc₂⟩ := climb_holds (s := .left) hn hnt.joins hr
        hold₁ hc₁ rfl hnot.2.2.1 hnot.2.2.2.2.symm hd' hbr hb' (by omega) (by omega)
      refine ⟨f₃, ?_, hold, (hc₂.live_eq _ hgone').trans hgone,
        (hc₁.mono (by simp)).trans (hc₂.mono ?_)⟩
      · simp only [hroot₁, Edit.bind_apply, hok₁, hm, hok, ← hroot]
        rfl
      · intro x hx
        simp only [Tree.mem_handles_nodeOn, Tree.handles_node, List.mem_append, List.mem_cons, hhl] at hx ⊢
        tauto

/-- Joining two subtrees is `Tree.join`. -/
theorem join_holds (hl : f.Holds l) (hr : f.Holds r) (hd : (l.handles ++ r.handles).Nodup)
    (hbl : l.Balanced) (hbr : r.Balanced) (h1 : l.height ≤ r.height + 1)
    (h2 : r.height ≤ l.height + 1) (hsteps : r.height ≤ steps) :
    ∃ f', join steps l.root r.root f = .ok (Tree.join l r).root f' ∧ f'.Holds (Tree.join l r) ∧
      Confined (l.handles ++ r.handles) f f' := by
  rcases hlr : l.root with _ | left
  · obtain rfl := Tree.root_eq_none.1 hlr
    exact ⟨f, rfl, hr, .refl _ f⟩
  have hne : l ≠ .nil := fun he => by simp [Tree.root_eq_none.2 he] at hlr
  rcases hrr : r.root with _ | right
  · obtain rfl := Tree.root_eq_none.1 hrr
    rw [Tree.join_nil]
    exact ⟨f, by rw [hlr]; rfl, hl, .refl _ f⟩
  obtain ⟨first, k, v, rest, he⟩ := Tree.exists_extractFirst hrr
  obtain ⟨hdl, hdr, hdis⟩ := List.nodup_append'.1 hd
  obtain ⟨f₁, hok₁, hold₁, hfirst, hc₁⟩ := extractFirst_holds hr hdr hbr hsteps hrr he
  obtain ⟨hb', hh'⟩ := Tree.balanced_extractFirst hbr he
  have hhr := Tree.handles_extractFirst he
  have hd' : (Tree.nodeOn .right l (first, k) v rest).handles.Nodup := by
    rwa [Tree.nodeOn, Tree.handles_node, ← hhr]
  have hj : ((((Node.single k v).setChild .left (some left)).setChild .right rest.root)).Joins
      (.nodeOn .right l (first, k) v rest) := ⟨rfl, rfl, hlr.symm, rfl⟩
  obtain ⟨c, f₂, f₃, hm, hok, hroot, hold, hc₂⟩ := rejoin_holds
    (fun node => (node.setChild .left (some left)).setChild .right rest.root) hfirst hj
    (hl.confined hc₁ hdis) hold₁ hd' hbl hb' (by omega) (by omega)
  rw [Tree.join_of_some hne he]
  refine ⟨f₃, ?_, hold, (hc₁.mono (by simp)).trans (hc₂.mono (by simp [Tree.nodeOn, hhr]))⟩
  simp only [join_some, Edit.bind_apply, hok₁, hm, hok]
  rw [← Tree.balanceOn.eq_2, hroot]
  rfl

/-- **Taking an entry out below a link** is `Tree.extract`.  The entry taken out is in a leaf that
is no longer linked. -/
theorem extractBelow_holds (cmp : K → K → Ordering) (x : Handle) (key : K) (ht : f.Holds t)
    (hd : t.handles.Nodup) (hb : t.Balanced) (hsteps : t.height ≤ steps) :
    ∃ f', extractBelow cmp key steps t.root f =
        .ok ((t.extract (Tree.byKey cmp) (x, key)).1.root,
          (t.extract (Tree.byKey cmp) (x, key)).2.map (·.1.1)) f' ∧
      f'.Holds (t.extract (Tree.byKey cmp) (x, key)).1 ∧
      (∀ e v, (t.extract (Tree.byKey cmp) (x, key)).2 = some (e, v) →
        f'.live e.1 = some (Node.single e.2 v)) ∧
      Confined t.handles f f' := by
  induction t generalizing steps with
  | nil => exact ⟨f, by rw [Tree.root, extractBelow_none]; rfl, trivial, nofun, .refl _ f⟩
  | node l e v r ihl ihr =>
    obtain ⟨h, k⟩ := e
    obtain ⟨⟨n, hn, hnt⟩, hl, hr⟩ := ht
    obtain ⟨h1, h2, hbl, hbr⟩ := hb
    obtain ⟨hkey, hvalue, hleft, hright⟩ := hnt.joins
    have hnot := Tree.nodup_handles_node.1 hd
    have hsub := Tree.handles_extract_sublist (Tree.byKey cmp) (x, key) (.node l (h, k) v r)
    have hgone := Tree.notMem_handles_extract (Tree.byKey cmp) (x, key) hd
    obtain ⟨steps, rfl, hsl, hsr⟩ := Tree.exists_steps_of_height_le hsteps
    have hcmp : Tree.byKey cmp (x, key) (h, k) = cmp key k := rfl
    simp only [Tree.extract, hcmp] at hsub hgone ⊢
    simp only [extractBelow_some, Tree.root, Edit.bind_apply, Edit.read_apply, Arena.get_eq_ok.2 hn,
      hkey]
    cases hc : cmp key k with
    | lt =>
      simp only [hc, Side.ofOrdering, Node.child, hleft, Tree.handles_balance] at hsub hgone ⊢
      rw [← Tree.handles_node] at hsub
      obtain ⟨hb', hh'⟩ := Tree.balanced_extract (Tree.byKey cmp) (x, key) hbl
      obtain ⟨f₁, hok₁, hold₁, hlive, hc₁⟩ := ihl hl hnot.1 hbl hsl
      obtain ⟨c, f₂, f₃, hm, hok, hroot, hold, hc₂⟩ := climb_holds (s := .left) hn hnt.joins hr
        hold₁ hc₁ rfl hnot.2.2.1 hnot.2.2.2.2.symm (hd.sublist hsub) hbr hb' (by omega) (by omega)
      refine ⟨f₃, ?_, hold, ?_, (hc₁.mono (by simp)).trans (hc₂.mono hsub.subset)⟩
      · simp only [Edit.bind_apply, hok₁, hm, hok, ← hroot]
        rfl
      · intro e' w he
        rw [hc₂.live_eq _ (by simpa [Tree.nodeOn] using hgone e' w he)]
        exact hlive e' w he
    | eq =>
      have hc₁ := Confined.put hn n.detach
      have hdis : (l.handles ++ r.handles).Nodup :=
        List.nodup_append'.2 ⟨hnot.1, hnot.2.1, hnot.2.2.2.2⟩
      obtain ⟨f₂, hok, hold, hc₂⟩ := join_holds (hl.confined hc₁ (by simp; tauto))
        (hr.confined hc₁ (by simp; tauto)) hdis hbl hbr h1 h2 hsr
      refine ⟨f₂, ?_, hold, ?_, (hc₁.mono (by simp)).trans (hc₂.mono ?_)⟩
      · simp only [Side.ofOrdering, detach, Edit.bind_apply, Arena.modifyGet_of_live hn,
          Node.children, hleft, hright, hok]
        rfl
      · intro e' w he
        cases he
        rw [hc₂.live_eq h (by simp; tauto), Arena.live_put hn, if_pos rfl, Node.detach, hkey, hvalue]
      · intro y
        simp only [Tree.handles_node, List.mem_append, List.mem_cons]
        tauto
    | gt =>
      simp only [hc, Side.ofOrdering, Node.child, hright, Tree.handles_balance] at hsub hgone ⊢
      rw [← Tree.handles_node] at hsub
      obtain ⟨hb', hh'⟩ := Tree.balanced_extract (Tree.byKey cmp) (x, key) hbr
      obtain ⟨f₁, hok₁, hold₁, hlive, hc₁⟩ := ihr hr hnot.2.1 hbr hsr
      obtain ⟨c, f₂, f₃, hm, hok, hroot, hold, hc₂⟩ := climb_holds (s := .right) hn hnt.joins hl
        hold₁ hc₁ rfl hnot.2.2.2.1 hnot.2.2.2.2 (hd.sublist hsub) hbl hb' (by omega) (by omega)
      refine ⟨f₃, ?_, hold, ?_, (hc₁.mono (by simp)).trans (hc₂.mono hsub.subset)⟩
      · simp only [Edit.bind_apply, hok₁, hm, hok, ← hroot]
        rfl
      · intro e' w he
        rw [hc₂.live_eq _ (by simpa [Tree.nodeOn] using hgone e' w he)]
        exact hlive e' w he

end Forest

end RankedMap
