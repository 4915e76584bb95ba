import RankedMap.Proofs.Forest.Extraction
import RankedMap.Proofs.Forest.Insertion
import RankedMap.Proofs.Forest.Lookup
import RankedMap.Proofs.Forest.Subtree

/-!
# What becomes of a subtree

Three changes rebuild the subtree below a link: inserting into it, taking the entry with a key out
of it, and taking its first node out.  An `Errand` is one of them, and `Errand.Allows` says how many
levels the subtree may have afterwards: never more than one more or one less than before, and as
many as before where nothing is put in or taken out.

`Forest.Rebuilt` is what all three do in a balanced subtree.  The slots of the new subtree are those
of the old one and slots that were vacant, so that what is around the subtree is still there, and
the node above it can be linked to it and have its balance restored (`rejoin_restorable`,
`Rebuilt.restorable`).
-/

set_option autoImplicit false

namespace RankedMap

namespace Forest

variable {K V : Type}

/-- May the subtree below a link have `j` levels after an errand, when it had `i`?  It depends on
whether a search for the key finds it there. -/
def Errand.Allows (f : Forest K V) (link : Link) (i j : Nat) : Errand K → Prop
  | .insert cmp key => ∃ found, f.locate cmp key f.stepLimit link = .ok found ∧
      if found.isSome then j = i else j = i ∨ j = i + 1
  | .extract cmp key => ∃ found, f.locate cmp key f.stepLimit link = .ok found ∧
      if found.isSome then j = i ∨ j + 1 = i else j = i
  | .extractFirst => j = i ∨ j + 1 = i

variable {f f' f₁ start : Forest K V} {t l r near far far' rest : Placed K V} {a h x : Handle}
  {n : Node K V} {k : K} {v : V} {s : Side} {errand : Errand K} {cmp : K → K → Ordering} {key : K}
  {value : V} {steps i j q : Nat} {link : Link} {u : Unit}

theorem Errand.Allows.le_succ (h : errand.Allows f link i j) : j ≤ i + 1 ∧ i ≤ j + 1 := by
  cases errand with
  | insert =>
    obtain ⟨found, -, h⟩ := h
    split at h <;> omega
  | extract =>
    obtain ⟨found, -, h⟩ := h
    split at h <;> omega
  | extractFirst =>
    have h : j = i ∨ j + 1 = i := h
    omega

/-- A balanced subtree has been made of another one, in its slots and in slots that were vacant. -/
structure Rebuilt (errand : Errand K) (f : Forest K V) (t : Placed K V) (f' : Forest K V)
    (t' : Placed K V) : Prop where
  /-- The new subtree is there. -/
  holds : f'.Holds t'
  /-- Each of its nodes is in a slot of its own. -/
  nodup : t'.handles.Nodup
  /-- It is balanced. -/
  balanced : t'.Balanced
  /-- It is about as high as the old one. -/
  allows : errand.Allows f t.root t.height t'.height
  /-- No slot was taken from elsewhere. -/
  fresh : ∀ h ∈ t'.handles, h ∈ t.handles ∨ f.live h = none
  /-- The nodes elsewhere stay as they are. -/
  live_eq : ∀ h, h ∉ t.handles → f.live h ≠ none → f'.live h = f.live h

/-- A tree that shares no slot with the subtree is still held. -/
theorem Rebuilt.holds_elsewhere (hre : Rebuilt errand f far f' far') (hnear : f.Holds near)
    (hdis : near.handles.Disjoint far.handles) : f'.Holds near :=
  hnear.congr fun h hh => hre.live_eq h (hdis hh) (hnear.live_ne_none hh)

/-! ## What the errands do -/

theorem Holds.locate_of_hit (ht : f.Holds t) (hd : t.handles.Nodup)
    (hp : t.bare.landing cmp key = .hit q) :
    ∃ h, f.locate cmp key f.stepLimit t.root = .ok (some h) := by
  have hq : q < t.handles.length := by simpa using Tree.lt_size_of_hit hp
  rw [locate_holds ht (ht.height_le_stepLimit hd), hp, Landing.hit?,
    Option.bind_some, List.getElem?_eq_getElem hq]
  exact ⟨_, rfl⟩

theorem Holds.locate_of_miss (ht : f.Holds t) (hd : t.handles.Nodup)
    (hp : t.bare.landing cmp key = .miss q) :
    f.locate cmp key f.stepLimit t.root = .ok none := by
  rw [locate_holds ht (ht.height_le_stepLimit hd), hp]
  rfl

/-- **Inserting**, if it does not fail, rebuilds the subtree, and adds a level only when the key is
not found. -/
theorem insertBelow_rebuilt {p : Handle × Option V} (hs : f.Sound) (ht : f.Holds t)
    (hd : t.handles.Nodup) (hb : t.Balanced) (hsteps : t.height ≤ steps)
    (hok : insertBelow cmp key value steps t.root f = .ok p f') :
    ∃ t', t'.root = some p.1 ∧ Rebuilt (.insert cmp key) f t f' t' := by
  cases hp : t.bare.landing cmp key with
  | hit q =>
    -- the key has no slot of its own, so any handle will do for it
    obtain ⟨x⟩ : Nonempty Handle := inferInstance
    have hp' := (Tree.landing_bare cmp x key t).symm.trans hp
    have hh : (t.insert (Tree.byKey cmp) (x, key) value).1.handles = t.handles :=
      Tree.handles_insert_of_hit hp'
    obtain ⟨c, f'', hok', hroot, hold, hc⟩ := insertBelow_holds ht ht hb hsteps (hh ▸ hd)
      (fun _ _ => rfl) fun q hq => by cases hp'.symm.trans hq
    rw [hok] at hok'
    obtain ⟨rfl, rfl⟩ := EStateM.Result.ok.inj hok'
    obtain ⟨h, hfound⟩ := ht.locate_of_hit hd hp
    have hheight : (t.insert (Tree.byKey cmp) (x, key) value).1.height = t.height := by
      rw [Tree.fst_insert_of_hit hb hp', Tree.height_replaceAt]
    exact ⟨_, hroot, hold, hh ▸ hd, (Tree.balanced_insert _ _ _ hb).1, ⟨_, hfound, hheight⟩,
      fun h hmem => .inl (hh ▸ hmem), fun h hmem _ => hc.live_eq h (hh ▸ hmem)⟩
  | miss q =>
    cases ha : Arena.allocate (Node.single key value) f with
    | error e f₁ =>
      rw [Tree.landing_bare cmp ⟨0, Nat.zero_le _⟩] at hp
      rw [insertBelow_refused ht hsteps hp ha] at hok
      cases hok
    | ok x start =>
      have hx := hs.live_of_allocate ha
      have hp' := (Tree.landing_bare cmp x key t).symm.trans hp
      have hh : (t.insert (Tree.byKey cmp) (x, key) value).1.handles.Perm (x :: t.handles) :=
        Tree.handles_insert_perm hp'
      have hnot : x ∉ t.handles := fun hmem => ht.live_ne_none hmem hx
      have hd' := hh.nodup_iff.2 (List.nodup_cons.2 ⟨hnot, hd⟩)
      obtain ⟨c, f'', hok', hroot, hold, hc⟩ := insertBelow_holds ht (ht.allocate hx ha) hb hsteps
        hd' (fun q hq => by cases hp'.symm.trans hq) fun _ _ => ha
      rw [hok] at hok'
      obtain ⟨rfl, rfl⟩ := EStateM.Result.ok.inj hok'
      obtain ⟨hb', hheight⟩ := Tree.balanced_insert (Tree.byKey cmp) (x, key) value hb
      refine ⟨_, hroot, hold, hd', hb', ⟨_, ht.locate_of_miss hd hp, hheight⟩, ?_, ?_⟩
      · intro h hmem
        rcases List.mem_cons.1 (hh.mem_iff.1 hmem) with rfl | hmem
        · exact .inr hx
        · exact .inl hmem
      · intro h hmem hlive
        have hne : h ≠ x := by
          rintro rfl
          exact hlive hx
        rw [hc.live_eq h (by rw [hh.mem_iff, List.mem_cons]; tauto), Arena.live_allocate ha,
          if_neg hne]

/-- **Taking the first node out** rebuilds the subtree, and leaves the node a leaf in its slot. -/
theorem extractFirst_rebuilt {p : Link × Handle} (ht : f.Holds t) (hd : t.handles.Nodup)
    (hb : t.Balanced) (hsteps : t.height ≤ steps) (hroot : t.root = some h)
    (hok : extractFirst steps h f = .ok p f') :
    ∃ rest, rest.root = p.1 ∧ Rebuilt .extractFirst f t f' rest ∧
      t.handles = p.2 :: rest.handles ∧ ∃ k v, f'.live p.2 = some (Node.single k v) := by
  obtain ⟨e, k, v, rest, he⟩ := Tree.exists_extractFirst hroot
  obtain ⟨f'', hok', hold, hlive, hc⟩ := extractFirst_holds ht hd hb hsteps hroot he
  rw [hok] at hok'
  obtain ⟨rfl, rfl⟩ := EStateM.Result.ok.inj hok'
  obtain ⟨hb', hheight⟩ := Tree.balanced_extractFirst hb he
  have hh := Tree.handles_extractFirst he
  have hd' : rest.handles.Nodup := by
    rw [hh] at hd
    exact hd.of_cons
  exact ⟨rest, rfl, ⟨hold, hd', hb', hheight, fun h hmem => .inl (hh ▸ .tail _ hmem),
    fun h hmem _ => hc.live_eq h hmem⟩, hh, k, v, hlive⟩

/-- **Taking an entry out** rebuilds the subtree, and drops a level only when the key is found. -/
theorem extractBelow_rebuilt {p : Link × Option Handle} (ht : f.Holds t) (hd : t.handles.Nodup)
    (hb : t.Balanced) (hsteps : t.height ≤ steps)
    (hok : extractBelow cmp key steps t.root f = .ok p f') :
    ∃ t', t'.root = p.1 ∧ Rebuilt (.extract cmp key) f t f' t' := by
  obtain ⟨f'', hok', hold, -, hc⟩ := extractBelow_holds cmp ⟨0, Nat.zero_le _⟩ key ht hd hb hsteps
  rw [hok] at hok'
  obtain ⟨rfl, rfl⟩ := EStateM.Result.ok.inj hok'
  have hsub := Tree.handles_extract_sublist (Tree.byKey cmp) (⟨0, Nat.zero_le _⟩, key) t
  obtain ⟨hb', hheight⟩ := Tree.balanced_extract (Tree.byKey cmp) (⟨0, Nat.zero_le _⟩, key) hb
  refine ⟨_, rfl, hold, hd.sublist hsub, hb', ?_, fun h hh => .inl (hsub.subset hh),
    fun h hh _ => hc.live_eq h hh⟩
  cases hp : t.bare.landing cmp key with
  | hit q =>
    obtain ⟨h, hfound⟩ := ht.locate_of_hit hd hp
    exact ⟨_, hfound, hheight⟩
  | miss q =>
    rw [Tree.extract_of_miss hb ((Tree.landing_bare _ _ _ _).symm.trans hp)]
    exact ⟨_, ht.locate_of_miss hd hp, rfl⟩

/-! ## The node above -/

theorem Holds.restorable (hn : f.live a = some n) (hj : n.Joins (.node l (a, k) v r))
    (hl : f.Holds l) (hr : f.Holds r) (hd : (Tree.node l (a, k) v r).handles.Nodup)
    (hbl : l.Balanced) (hbr : r.Balanced) (h1 : l.height ≤ r.height + 2)
    (h2 : r.height ≤ l.height + 2) :
    f.Restorable a n l.nodes r.nodes l.height r.height := by
  obtain ⟨rfl, rfl, hleft, hright⟩ := hj
  have hnot := Tree.nodup_handles_node.1 hd
  refine ⟨hn, hleft ▸ hl.subtree hnot.1 hbl, hright ▸ hr.subtree hnot.2.1 hbr, ?_, h1, h2⟩
  rw [← Tree.map_fst_nodes, Tree.nodes_node] at hd
  exact hd

/-- A node that has just been linked to two held subtrees can have its balance restored. -/
theorem rejoin_restorable (g : Node K V → Node K V) (hn : f.live a = some n)
    (hj : (g n).Joins (.nodeOn s near (a, k) v far)) (hnear : f.Holds near) (hfar : f.Holds far)
    (hd : (Tree.nodeOn s near (a, k) v far).handles.Nodup) (hbn : near.Balanced)
    (hbf : far.Balanced) (h1 : near.height ≤ far.height + 2) (h2 : far.height ≤ near.height + 2)
    (hok : Arena.modify a g f = .ok u f') :
    ∃ n' xs ys i j, f'.Restorable a n' xs ys i j := by
  obtain ⟨n', hn', -, rfl⟩ := Arena.modifyGet_eq_ok.1 hok
  obtain rfl := Option.some.inj (hn.symm.trans hn')
  have hc := Confined.put hn (g n)
  have hn₁ : (f.put a (some (g n))).live a = some (g n) := by rw [Arena.live_put hn, if_pos rfl]
  have hnot := Tree.nodup_handles_nodeOn.1 hd
  have hnear₁ := hnear.confined hc (by simp; tauto)
  have hfar₁ := hfar.confined hc (by simp; tauto)
  cases s with
  | left => exact ⟨_, _, _, _, _, Holds.restorable hn₁ hj hfar₁ hnear₁ hd hbf hbn h2 h1⟩
  | right => exact ⟨_, _, _, _, _, Holds.restorable hn₁ hj hnear₁ hfar₁ hd hbn hbf h1 h2⟩

/-- **One step on the way back up**: the node above a subtree that has been rebuilt can have its
balance restored. -/
theorem Rebuilt.restorable (hre : Rebuilt errand f far f₁ far') (hn : f.live a = some n)
    (hj : n.Joins (.nodeOn s near (a, k) v far)) (hnear : f.Holds near)
    (hd : (Tree.nodeOn s near (a, k) v far).handles.Nodup)
    (hb : (Tree.nodeOn s near (a, k) v far).Balanced)
    (hok : Arena.modify a (·.setChild s far'.root) f₁ = .ok u f') :
    ∃ n' xs ys i j, f'.Restorable a n' xs ys i j := by
  obtain ⟨h1, h2, hbn, -⟩ := Tree.balanced_nodeOn_iff.1 hb
  obtain ⟨h3, h4⟩ := Errand.Allows.le_succ hre.allows
  obtain ⟨hdn, -, han, haf, hdis⟩ := Tree.nodup_handles_nodeOn.1 hd
  have hn₁ : f₁.live a = some n := by
    rw [hre.live_eq a haf (by rw [hn]; exact Option.some_ne_none n), hn]
  have hnear₁ := hre.holds_elsewhere hnear hdis
  have hnew : ∀ h ∈ far'.handles, h ≠ a ∧ h ∉ near.handles := by
    intro h hh
    rcases hre.fresh h hh with hh | hh
    · exact ⟨by rintro rfl; exact haf hh, fun hh' => hdis hh' hh⟩
    · exact ⟨by rintro rfl; simp [hn] at hh, fun hh' => hnear.live_ne_none hh' hh⟩
  have hd' : (Tree.nodeOn s near (a, k) v far').handles.Nodup :=
    Tree.nodup_handles_nodeOn.2 ⟨hdn, hre.nodup, han, fun hh => (hnew a hh).1 rfl,
      fun _ hh hh' => (hnew _ hh').2 hh⟩
  exact rejoin_restorable (·.setChild s far'.root) hn₁ (hj.setChild far') hnear₁ hre.holds hd' hbn
    hre.balanced (by omega) (by omega) hok

end Forest

end RankedMap
