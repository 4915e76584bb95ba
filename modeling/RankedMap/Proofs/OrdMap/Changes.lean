import RankedMap.Proofs.Forest.Extraction
import RankedMap.Proofs.Forest.Insertion
import RankedMap.Proofs.OrdMap.Embodies

/-!
# Changing a map

Every change of a map that embodies a tree ends in a map that embodies the changed tree.  Storing a
value is `Tree.replaceAt`, inserting is `Tree.insert` and taking out is `Tree.extract`, for every
comparison.  Two changes can fail, and both leave the map as it was: storing a value that must find
an entry at its position (`Embodies.setAt_of_getElem?_eq_none`), and inserting an entry for which no
handle is left (`Embodies.insert_of_full`).

Of the storage a change touches little.  Storing a value writes one node (`replaceIn_of_live`).  An
insertion takes one slot on a miss and none on a hit (`Embodies.insert_miss_confined`,
`Embodies.insert_hit_confined`), and taking out frees one slot or none
(`Embodies.extract_confined`); all else is done to nodes in their slots.
-/

set_option autoImplicit false

namespace RankedMap

namespace OrdMap

variable {K V : Type}

/-- Of the entry that is taken out only the value is answered when a key is erased. -/
theorem erase_of_extract {m m' : OrdMap K V} {cmp : K → K → Ordering} {key : K}
    {gone : Option (K × V)} (h : OrdMap.extract cmp key m = .ok gone m') :
    OrdMap.erase cmp key m = .ok (gone.map (·.2)) m' := by
  simp only [OrdMap.erase, Edit.bind_apply, h]
  rfl

/-! ## Storing values -/

/-- Storing a value in a node changes the value there and nothing else, in any map. -/
theorem replaceIn_of_live {m : OrdMap K V} {h : Handle} {n : Node K V}
    (hn : m.nodes.live h = some n) (value : V) :
    replaceIn (some h) value m =
      .ok (some n.entry) ⟨m.nodes.put h (some (n.setValue value)), m.root⟩ := by
  obtain ⟨nodes, root⟩ := m
  simp only [replaceIn, onNodes, Edit.bind_apply, Arena.modifyGet_of_live hn]
  rfl

/-- Storing a value under a key does so in the node where the search ends, in any map. -/
theorem replace_of_locate {m : OrdMap K V} {cmp : K → K → Ordering} {key : K} {h : Handle}
    {n : Node K V} (hloc : m.locate cmp key = .ok (some h)) (hn : m.nodes.live h = some n)
    (value : V) :
    OrdMap.replace cmp key value m =
      .ok (some n.value) ⟨m.nodes.put h (some (n.setValue value)), m.root⟩ := by
  simp only [OrdMap.replace, Edit.bind_apply, Edit.read_apply, hloc, replaceIn_of_live hn]
  rfl

theorem replace_of_locate_none {m : OrdMap K V} {cmp : K → K → Ordering} {key : K}
    (hloc : m.locate cmp key = .ok none) (value : V) :
    OrdMap.replace cmp key value m = .ok none m := by
  simp only [OrdMap.replace, Edit.bind_apply, Edit.read_apply, hloc]
  rfl

namespace Embodies

variable {m : OrdMap K V} {t : Placed K V} {cmp : K → K → Ordering} {key : K} {value : V}

/-- Storing a value in the node at a position is `Tree.replaceAt`. -/
theorem setValue (hm : m.Embodies t) {rank : Nat} {h : Handle} {n : Node K V}
    (hh : t.handles[rank]? = some h) (hn : m.nodes.live h = some n) (value : V) :
    Embodies ⟨m.nodes.put h (some (n.setValue value)), m.root⟩ (t.replaceAt rank value) := by
  have hc := Forest.Confined.put hn (n.setValue value)
  refine ⟨?_, hm.holds.replaceAt hm.nodup hh hn value, ?_,
    Tree.balanced_replaceAt rank value hm.balanced, ?_, hc.sound hm.sound⟩
  · rw [Tree.root_replaceAt]
    exact hm.root_eq
  · rw [Tree.handles_replaceAt]
    exact hm.nodup
  · intro h' hh'
    rw [Tree.handles_replaceAt]
    exact hm.mem_handles h' fun hx => hh' ((hc.live_eq_none h').2 hx)

theorem replaceIn (hm : m.Embodies t) (rank : Nat) (value : V) :
    ∃ m', OrdMap.replaceIn t.handles[rank]? value m = .ok t.bare.toList[rank]? m' ∧
      m'.Embodies (t.replaceAt rank value) := by
  cases hh : t.handles[rank]? with
  | none =>
    rw [List.getElem?_eq_none_iff, Tree.length_handles] at hh
    rw [Tree.replaceAt_of_size_le value hh, List.getElem?_eq_none (by simpa using hh)]
    exact ⟨m, rfl, hm⟩
  | some h =>
    obtain ⟨n, hn, he⟩ := hm.live_of_getElem? hh
    rw [he]
    exact ⟨_, replaceIn_of_live hn value, hm.setValue hh hn value⟩

theorem replaceAt (hm : m.Embodies t) (rank : Nat) (value : V) :
    ∃ m', OrdMap.replaceAt rank value m = .ok t.bare.toList[rank]? m' ∧
      m'.Embodies (t.replaceAt rank value) := by
  obtain ⟨m', hok, hm'⟩ := hm.replaceIn rank value
  refine ⟨m', ?_, hm'⟩
  simp only [OrdMap.replaceAt, Edit.bind_apply, Edit.read_apply, hm.select_eq, hok]

theorem setAt (hm : m.Embodies t) (rank : Rank) (value : V) :
    ∃ m', (OrdMap.setAt rank value).outcome m =
        ((t.bare.toList[rank.position]?.map (·.2)).elim (.error .rankOutOfBounds) .ok, m') ∧
      m'.Embodies (t.replaceAt rank.position value) := by
  obtain ⟨m', hok, hm'⟩ := hm.replaceAt rank.position value
  refine ⟨m', ?_, hm'⟩
  simp only [Edit.outcome, OrdMap.setAt, Edit.bind_apply, hok]
  cases t.bare.toList[rank.position]? <;> rfl

/-- Behind the last entry no value is stored. -/
theorem replaceAt_of_getElem?_eq_none (hm : m.Embodies t) {rank : Nat} (value : V)
    (hr : t.bare.toList[rank]? = none) : OrdMap.replaceAt rank value m = .ok none m := by
  have hh : t.handles[rank]? = none := by simpa using hr
  simp only [OrdMap.replaceAt, Edit.bind_apply, Edit.read_apply, hm.select_eq, hh]
  rfl

/-- Storing a value behind the last entry fails, and changes nothing. -/
theorem setAt_of_getElem?_eq_none (hm : m.Embodies t) {rank : Rank} (value : V)
    (hr : t.bare.toList[rank.position]? = none) :
    OrdMap.setAt rank value m = .error .rankOutOfBounds m := by
  simp only [OrdMap.setAt, Edit.bind_apply, hm.replaceAt_of_getElem?_eq_none value hr]
  rfl

theorem replace_of_hit (hm : m.Embodies t) {rank : Nat} (hp : t.bare.landing cmp key = .hit rank) :
    ∃ m', OrdMap.replace cmp key value m = .ok ((t.bare.find? cmp key).map (·.2)) m' ∧
      m'.Embodies (t.replaceAt rank value) := by
  obtain ⟨m', hok, hm'⟩ := hm.replaceIn rank value
  refine ⟨m', ?_, hm'⟩
  simp only [OrdMap.replace, Edit.bind_apply, Edit.read_apply, hm.locate_eq, hp, Landing.hit?,
    Option.bind_some, hok, Tree.find?]
  rfl

theorem replace_of_miss (hm : m.Embodies t) {rank : Nat}
    (hp : t.bare.landing cmp key = .miss rank) :
    OrdMap.replace cmp key value m = .ok ((t.bare.find? cmp key).map (·.2)) m := by
  simp only [OrdMap.replace, Edit.bind_apply, Edit.read_apply, hm.locate_eq, hp, Landing.hit?,
    Option.bind_none, Tree.find?]
  rfl

/-! ## Inserting -/

/-- What is common to both ways an insertion can end well: the tree is changed from `start`, the
forest after the new entry got its slot, if it needs one. -/
theorem insert_from (hm : m.Embodies t) {start : Forest K V} {x : Handle}
    (hst : start.Holds t) (hsound : start.Sound)
    (hd : (t.insert (Tree.byKey cmp) (x, key) value).1.handles.Nodup)
    (hlive : ∀ h, start.live h ≠ none → h ∈ (t.insert (Tree.byKey cmp) (x, key) value).1.handles)
    (hhit : ∀ r, t.landing (Tree.byKey cmp) (x, key) = .hit r → start = m.nodes)
    (hmiss : ∀ r, t.landing (Tree.byKey cmp) (x, key) = .miss r →
      Arena.allocate (Node.single key value) m.nodes = .ok x start) :
    ∃ m', OrdMap.insert cmp key value m = .ok (t.bare.insert cmp key value).2 m' ∧
      m'.Embodies (t.insert (Tree.byKey cmp) (x, key) value).1 ∧
      Forest.Confined (t.insert (Tree.byKey cmp) (x, key) value).1.handles start m'.nodes := by
  obtain ⟨c, f', hok, hroot, hold, hc⟩ := Forest.insertBelow_holds hm.holds hst hm.balanced
    hm.height_le_stepLimit hd hhit hmiss
  obtain ⟨nodes, root⟩ := m
  obtain rfl : root = t.root := hm.root_eq
  have hm' : Embodies ⟨f', some c⟩ (t.insert (Tree.byKey cmp) (x, key) value).1 :=
    ⟨hroot.symm, hold, hd, (Tree.balanced_insert _ _ _ hm.balanced).1,
      fun h hh => hlive h fun hx => hh ((hc.live_eq_none h).2 hx), hc.sound hsound⟩
  refine ⟨_, ?_, hm', hc⟩
  rw [Tree.insert_bare cmp x]
  simp only [OrdMap.insert, rebuild, Forest.insert, Forest.descend, Edit.bind_apply, hok,
    Edit.pure_apply, Edit.read_apply, hm'.audit_eq]

/-- An insertion on a hit changes nodes in their slots.  The key has no slot of its own, so any
handle will do for it. -/
theorem insert_hit_confined (hm : m.Embodies t) (x : Handle) {rank : Nat}
    (hp : t.bare.landing cmp key = .hit rank) (value : V) :
    ∃ m', OrdMap.insert cmp key value m = .ok (t.bare.insert cmp key value).2 m' ∧
      m'.Embodies (t.insert (Tree.byKey cmp) (x, key) value).1 ∧
      Forest.Confined t.handles m.nodes m'.nodes := by
  have hp' : t.landing (Tree.byKey cmp) (x, key) = .hit rank := by rw [← Tree.landing_bare, hp]
  have hh : (t.insert (Tree.byKey cmp) (x, key) value).1.handles = t.handles :=
    Tree.handles_insert_of_hit hp'
  have hd : (t.insert (Tree.byKey cmp) (x, key) value).1.handles.Nodup := by
    rw [hh]
    exact hm.nodup
  have hfrom := hm.insert_from hm.holds hm.sound hd (by rw [hh]; exact hm.mem_handles)
    (fun _ _ => rfl) (fun r hr => by rw [hp'] at hr; cases hr)
  rwa [hh] at hfrom

/-- An insertion on a miss, when there is a handle left, gives the new entry a slot and then changes
nodes in their slots. -/
theorem insert_miss_confined (hm : m.Embodies t) {rank : Nat}
    (hp : t.bare.landing cmp key = .miss rank) (hroom : t.size < Size.maxCount) (value : V) :
    ∃ x start, Arena.allocate (Node.single key value) m.nodes = .ok x start ∧
      m.nodes.live x = none ∧
      ∃ m', OrdMap.insert cmp key value m = .ok (t.bare.insert cmp key value).2 m' ∧
        m'.Embodies (t.insert (Tree.byKey cmp) (x, key) value).1 ∧
        Forest.Confined (t.insert (Tree.byKey cmp) (x, key) value).1.handles start m'.nodes := by
  rw [← hm.nodes_size] at hroom
  obtain ⟨x, start, ha, hx, hsound⟩ :=
    hm.sound.allocate (Nat.le_of_lt_succ hroom) (Node.single key value)
  have hp' : t.landing (Tree.byKey cmp) (x, key) = .miss rank := by rw [← Tree.landing_bare, hp]
  have hh : (t.insert (Tree.byKey cmp) (x, key) value).1.handles.Perm (x :: t.handles) :=
    Tree.handles_insert_perm hp'
  have hnot : x ∉ t.handles := fun hmem => hm.holds.live_ne_none hmem hx
  have hd : (t.insert (Tree.byKey cmp) (x, key) value).1.handles.Nodup :=
    hh.nodup_iff.2 (List.nodup_cons.2 ⟨hnot, hm.nodup⟩)
  have hst : Forest.Holds start t := hm.holds.allocate hx ha
  have hlive : ∀ h, start.live h ≠ none →
      h ∈ (t.insert (Tree.byKey cmp) (x, key) value).1.handles := by
    intro h hh'
    rw [hh.mem_iff, List.mem_cons]
    by_cases he : h = x
    · exact .inl he
    · rw [Arena.live_allocate ha, if_neg he] at hh'
      exact .inr (hm.mem_handles h hh')
  exact ⟨x, start, ha, hx, hm.insert_from hst hsound hd hlive
    (fun r hr => by rw [hp'] at hr; cases hr) fun _ _ => ha⟩

theorem insert_of_hit (hm : m.Embodies t) {rank : Nat} (hp : t.bare.landing cmp key = .hit rank) :
    ∃ m' t', OrdMap.insert cmp key value m = .ok (t.bare.insert cmp key value).2 m' ∧
      m'.Embodies t' ∧ t'.bare = (t.bare.insert cmp key value).1 := by
  obtain ⟨m', hok, hm', -⟩ := hm.insert_hit_confined ⟨0, Nat.zero_le _⟩ hp value
  exact ⟨m', _, hok, hm', by rw [Tree.insert_bare cmp]⟩

theorem insert_of_miss (hm : m.Embodies t) {rank : Nat} (hp : t.bare.landing cmp key = .miss rank)
    (hroom : t.size < Size.maxCount) :
    ∃ m' t', OrdMap.insert cmp key value m = .ok (t.bare.insert cmp key value).2 m' ∧
      m'.Embodies t' ∧ t'.bare = (t.bare.insert cmp key value).1 := by
  obtain ⟨x, start, -, -, m', hok, hm', -⟩ := hm.insert_miss_confined hp hroom value
  exact ⟨m', _, hok, hm', by rw [Tree.insert_bare cmp x]⟩

/-- **No handle is left**: an insertion on a miss fails, and changes nothing. -/
theorem insert_of_full (hm : m.Embodies t) {rank : Nat} (hp : t.bare.landing cmp key = .miss rank)
    (hfull : t.size = Size.maxCount) :
    OrdMap.insert cmp key value m = .error .arenaFull m := by
  have ha := hm.sound.allocate_full (by rw [hm.nodes_size, hfull]; exact Nat.lt_succ_self _)
    (Node.single key value)
  rw [Tree.landing_bare cmp ⟨0, Nat.zero_le _⟩] at hp
  have hok := Forest.insertBelow_refused hm.holds hm.height_le_stepLimit hp ha
  obtain ⟨nodes, root⟩ := m
  obtain rfl : root = t.root := hm.root_eq
  simp only [OrdMap.insert, rebuild, Forest.insert, Forest.descend, Edit.bind_apply, hok]

/-! ## Taking out -/

/-- Taking out changes nodes in their slots, and frees the slot of the entry taken out, if there is
one. -/
theorem extract_confined (hm : m.Embodies t) (x : Handle) (cmp : K → K → Ordering) (key : K) :
    ∃ f' m', Forest.Confined t.handles m.nodes f' ∧
      ((t.extract (Tree.byKey cmp) (x, key)).2 = none → m'.nodes = f') ∧
      (∀ e v, (t.extract (Tree.byKey cmp) (x, key)).2 = some (e, v) →
        Arena.release e.1 f' = .ok (Node.single e.2 v) m'.nodes) ∧
      OrdMap.extract cmp key m = .ok (t.bare.extract cmp key).2 m' ∧
      m'.Embodies (t.extract (Tree.byKey cmp) (x, key)).1 := by
  obtain ⟨f', hok, hold, hgone, hc⟩ := Forest.extractBelow_holds cmp x key hm.holds hm.nodup
    hm.balanced hm.height_le_stepLimit
  have hb := (Tree.balanced_extract (Tree.byKey cmp) (x, key) hm.balanced).1
  have hd := hm.nodup.sublist (Tree.handles_extract_sublist (Tree.byKey cmp) (x, key) t)
  have hlive : ∀ h, f'.live h ≠ none → h ∈ t.handles := fun h hh =>
    hm.mem_handles h fun hx => hh ((hc.live_eq_none h).2 hx)
  have hsound := hc.sound hm.sound
  rw [Tree.extract_bare cmp x]
  obtain ⟨nodes, root⟩ := m
  obtain rfl : root = t.root := hm.root_eq
  cases he : (t.extract (Tree.byKey cmp) (x, key)).2 with
  | none =>
    have hm' : Embodies ⟨f', (t.extract (Tree.byKey cmp) (x, key)).1.root⟩
        (t.extract (Tree.byKey cmp) (x, key)).1 :=
      ⟨rfl, hold, hd, hb, by rwa [Tree.handles_extract_of_none he], hsound⟩
    refine ⟨f', _, hc, fun _ => rfl, nofun, ?_, hm'⟩
    rw [he] at hok
    simp only [OrdMap.extract, rebuild, Forest.extract, Forest.descend, Edit.bind_apply, hok,
      releaseEntry, Edit.pure_apply, Edit.read_apply, hm'.audit_eq, Option.map_none]
  | some p =>
    obtain ⟨⟨h, k⟩, v⟩ := p
    obtain ⟨f₁, hr⟩ : ∃ f₁, Arena.release h f' = .ok (Node.single k v) f₁ :=
      ⟨_, Arena.release_of_live (hgone (h, k) v he)⟩
    have hlive' := fun h' => (Arena.live_release hr h').2
    have hperm := Tree.handles_extract_perm he
    have hnot := Tree.notMem_handles_extract (Tree.byKey cmp) (x, key) hm.nodup (h, k) v he
    have hm' : Embodies ⟨f₁, (t.extract (Tree.byKey cmp) (x, key)).1.root⟩
        (t.extract (Tree.byKey cmp) (x, key)).1 := by
      refine ⟨rfl, hold.congr ?_, hd, hb, ?_, hsound.release hr⟩
      · intro h' hh
        rw [hlive', if_neg (by rintro rfl; exact hnot hh)]
      · intro h' hh
        rw [hlive'] at hh
        by_cases he : h' = h
        · rw [if_pos he] at hh
          exact absurd rfl hh
        · rw [if_neg he] at hh
          exact (List.mem_cons.1 (hperm.mem_iff.1 (hlive h' hh))).resolve_left he
    have hfreed : ∀ e w, some ((h, k), v) = some (e, w) →
        Arena.release e.1 f' = .ok (Node.single e.2 w) f₁ := by
      rintro _ _ ⟨⟩
      exact hr
    refine ⟨f', _, hc, nofun, hfreed, ?_, hm'⟩
    rw [he] at hok
    have hentry : (Node.single k v).detachedEntry = .ok (k, v) := if_pos ⟨rfl, rfl⟩
    simp only [OrdMap.extract, rebuild, Forest.extract, Forest.descend, Edit.bind_apply, hok,
      releaseEntry, onNodes, hr, hentry, Edit.pure_apply, Edit.read_apply, hm'.audit_eq,
      Option.map_some]

theorem extract (hm : m.Embodies t) (cmp : K → K → Ordering) (key : K) :
    ∃ m' t', OrdMap.extract cmp key m = .ok (t.bare.extract cmp key).2 m' ∧
      m'.Embodies t' ∧ t'.bare = (t.bare.extract cmp key).1 := by
  obtain ⟨f', m', -, -, -, hok, hm'⟩ := hm.extract_confined ⟨0, Nat.zero_le _⟩ cmp key
  exact ⟨m', _, hok, hm', by rw [Tree.extract_bare cmp]⟩

theorem erase (hm : m.Embodies t) (cmp : K → K → Ordering) (key : K) :
    ∃ m' t', OrdMap.erase cmp key m = .ok ((t.bare.extract cmp key).2.map (·.2)) m' ∧
      m'.Embodies t' ∧ t'.bare = (t.bare.extract cmp key).1 := by
  obtain ⟨m', t', hok, hm', ht'⟩ := hm.extract cmp key
  exact ⟨m', t', erase_of_extract hok, hm', ht'⟩

end Embodies

end OrdMap

end RankedMap
