import RankedMap.Proofs.Forest.Watched
import RankedMap.Proofs.OrdMap.Machine

/-!
# How far the operations descend

Every operation that looks for a key enters the nodes on one way down from the root, the same for all
of them (`Searches`), and so does every search for a position.  Taking out goes on from there, still
down.  There is one node a level, so no operation enters more nodes than the map has levels, and none
runs out of steps.  No comparison can change that: it says where to turn and no more.

`Descending` says so of a map, and `descending_after` of every map that a run ends in.
-/

set_option autoImplicit false

namespace RankedMap

open Forest

namespace OrdMap

variable {K V : Type}

/-- All operations with a key enter the same nodes, one a level, and compare it with the keys there.
If the key is found it is in the last of them. -/
structure Searches (m : OrdMap K V) (cmp : K → K → Ordering) (key : K) (trail : List Handle)
    (keys : List K) : Prop where
  /-- The nodes are on one way down from the root. -/
  descends : m.nodes.Descends m.root trail
  /-- Looking for the key enters them. -/
  locate : m.nodes.Enters m.root (Watched.locate cmp key · m.root)
    (fun steps => Edit.read (Forest.locate · cmp key steps m.root)) trail
  /-- So does asking for its position. -/
  rankOf : m.nodes.Enters m.root (Watched.rankOf cmp key · m.root 0)
    (fun steps => Edit.read (Forest.rankOf · cmp key steps m.root 0)) trail
  /-- So does inserting it. -/
  insertBelow : ∀ value, m.nodes.Enters m.root (Watched.insertBelow cmp key value · m.root)
    (Forest.insertBelow cmp key value · m.root) trail
  /-- Taking it out enters them, and perhaps more below on the same way. -/
  extractBelow : ∃ more, m.nodes.Descends m.root (trail ++ more) ∧
    m.nodes.Enters m.root (Watched.extractBelow cmp key · m.root)
      (Forest.extractBelow cmp key · m.root) (trail ++ more)
  /-- These are the keys that the key is compared with. -/
  path_eq : m.path cmp key = .ok keys
  /-- Each node has its key. -/
  forall₂_key : List.Forall₂ (fun h k => ∃ n, m.nodes.live h = some n ∧ n.key = k) trail keys
  /-- There are no more of them than the map has levels. -/
  length_le : ∀ height, m.height = .ok height → keys.length ≤ height
  /-- The last node is the one where the key is found. -/
  getLast?_eq : ∀ h, m.locate cmp key = .ok (some h) → trail.getLast? = some h
  /-- The last key is that of the entry that is found, and the only one that compares the same. -/
  keys_of_found : ∀ e, m.find? cmp key = .ok (some e) →
    ∃ before, keys = before ++ [e.1] ∧ cmp key e.1 = .eq ∧ ∀ k ∈ before, cmp key k ≠ .eq
  /-- When no entry is found no key compares the same. -/
  keys_of_not_found : m.find? cmp key = .ok none → ∀ k ∈ keys, cmp key k ≠ .eq

/-- All recursions along the links of a map go down. -/
structure Descending (m : OrdMap K V) : Prop where
  /-- Heights on record get smaller along every link. -/
  recordedHeight_lt : ∀ p side h, m.nodes.linkAt p side = some h →
    m.nodes.recordedHeight h < m.nodes.recordedHeight p
  /-- All operations with a key go one way down from the root, whatever the comparison is. -/
  searches : ∀ cmp key, ∃ trail keys, m.Searches cmp key trail keys
  /-- So do all searches for a position. -/
  select : ∀ rank, ∃ trail, m.nodes.Descends m.root trail ∧
    m.nodes.Enters m.root (Watched.select · m.root rank)
      (fun steps => Edit.read (Forest.select · steps m.root rank)) trail
  /-- Taking out the first node of a subtree goes one way down from there. -/
  extractFirst : ∀ h, m.nodes.live h ≠ none → ∃ trail, m.nodes.Descends (some h) trail ∧
    m.nodes.Enters (some h) (Watched.extractFirst · h) (Forest.extractFirst · h) trail
  /-- Going through all entries enters every occupied slot once. -/
  visit : ∀ {β : Type} (take : β → K → V → β) (start : β), ∃ nodes : List Handle, nodes.Nodup ∧
    (∀ h, h ∈ nodes ↔ m.nodes.live h ≠ none) ∧
      m.nodes.Enters m.root (Watched.visit take · m.root start)
        (fun steps => Edit.read (Forest.visit · take steps m.root start)) nodes

namespace Embodies

variable {m : OrdMap K V} {t : Placed K V} {cmp : K → K → Ordering} {key : K}

theorem insertBelow_ne_tooDeep (hm : m.Embodies t) (cmp : K → K → Ordering) (key : K) (value : V)
    (f' : Forest K V) :
    Forest.insertBelow cmp key value m.nodes.stepLimit m.root m.nodes ≠ .error .tooDeep f' := by
  intro hdeep
  have hrun : OrdMap.insert cmp key value m = .error .tooDeep ⟨f', m.root⟩ := by
    obtain ⟨nodes, root⟩ := m
    simp only [OrdMap.insert, rebuild, Forest.insert, Forest.descend, Edit.bind_apply, hdeep]
  cases hr : t.bare.refuses cmp (.insert key value) with
  | false =>
    obtain ⟨m', t', hok, -⟩ := hm.insert hr
    cases hok.symm.trans hrun
  | true => cases (hm.insert_refused hr).symm.trans hrun

theorem trail_of_locate (hm : m.Embodies t) {h : Handle} (hl : m.locate cmp key = .ok (some h)) :
    (t.trail cmp key).getLast? = some h := by
  rw [hm.locate_eq, Except.ok.injEq, Option.bind_eq_some_iff] at hl
  obtain ⟨rank, hp, hh⟩ := hl
  rw [Landing.hit?_eq_some, Tree.landing_bare cmp ⟨0, Nat.zero_le _⟩] at hp
  obtain ⟨before, e, hpath, he, -, -⟩ := Tree.path_of_hit hp
  rw [Tree.handles, List.getElem?_map, he] at hh
  rw [Tree.trail, Tree.stations, hpath, List.map_append, List.map_singleton, List.getLast?_concat]
  exact hh

/-- **The search for a key** in a map. -/
theorem searches (hm : m.Embodies t) (cmp : K → K → Ordering) (key : K) :
    m.Searches cmp key (t.trail cmp key) (t.bare.path cmp key) where
  descends := hm.root_eq ▸ hm.holds.descends (hm.holds.way_trail cmp key) (head?_trail cmp key t)
  locate := by
    rw [hm.root_eq]
    refine hm.holds.enters hm.nodup (Watched.locate_holds hm.holds) ?_
    intro f'
    rw [Edit.read_apply, locate_holds hm.holds hm.height_le_stepLimit]
    nofun
  rankOf := by
    rw [hm.root_eq]
    refine hm.holds.enters hm.nodup
      (fun hsteps hsteps' => Watched.rankOf_holds hm.holds hsteps hsteps' 0) ?_
    intro f'
    rw [Edit.read_apply, rankOf_holds hm.holds hm.height_le_stepLimit]
    nofun
  insertBelow value := by
    have hdeep := hm.insertBelow_ne_tooDeep cmp key value
    rw [hm.root_eq] at hdeep ⊢
    exact hm.holds.enters hm.nodup (Watched.insertBelow_holds hm.holds) hdeep
  extractBelow := by
    obtain ⟨more, hw, htrail⟩ := Watched.extractBelow_holds cmp key hm.holds hm.nodup
    rw [hm.root_eq]
    refine ⟨more, hm.holds.descends hw ?_, hm.holds.enters hm.nodup htrail ?_⟩
    · cases hroot : t.root with
      | none =>
        rw [hroot, way_none] at hw
        rw [hw]
        rfl
      | some h => rw [List.head?_append, head?_trail, hroot, Option.some_or]
    · intro f'
      obtain ⟨f₁, hok, -⟩ := extractBelow_holds cmp ⟨0, Nat.zero_le _⟩ key hm.holds hm.nodup
        hm.balanced hm.height_le_stepLimit
      rw [hok]
      nofun
  path_eq := hm.path_eq
  forall₂_key := by
    rw [Tree.path_bare, Tree.trail, List.forall₂_map_left_iff, List.forall₂_map_right_iff,
      List.forall₂_same]
    intro e he
    obtain ⟨v, hv⟩ := Tree.exists_mem_of_mem_path he
    obtain ⟨n, hn, hkey, -⟩ := hm.holds.live_of_mem hv
    exact ⟨n, hn, hkey⟩
  length_le height hheight := by
    rw [hm.height_eq] at hheight
    exact Except.ok.inj hheight ▸ Tree.length_path_le cmp key t.bare
  getLast?_eq h hl := hm.trail_of_locate hl
  keys_of_found e he := by
    rw [hm.find?_eq, Except.ok.injEq, Tree.find?, Option.bind_eq_some_iff] at he
    obtain ⟨rank, hp, he⟩ := he
    obtain ⟨before, e', hpath, he', heq, hne⟩ := Tree.path_of_hit (Landing.hit?_eq_some.1 hp)
    obtain rfl := Option.some.inj (he.symm.trans he')
    exact ⟨before, hpath, heq, hne⟩
  keys_of_not_found hnone := by
    rw [hm.find?_eq, Except.ok.injEq] at hnone
    obtain ⟨rank, hp⟩ := Tree.exists_miss_of_find?_eq_none hnone
    exact Tree.path_of_miss hp

/-- **The search for a position** in a map. -/
theorem exists_enters_select (hm : m.Embodies t) (rank : Nat) :
    ∃ trail, m.nodes.Descends m.root trail ∧
      m.nodes.Enters m.root (Watched.select · m.root rank)
        (fun steps => Edit.read (Forest.select · steps m.root rank)) trail := by
  obtain ⟨trail, hw, hhead, htrail⟩ := Watched.select_holds hm.holds rank
  rw [hm.root_eq]
  refine ⟨trail, hm.holds.descends hw hhead, hm.holds.enters hm.nodup htrail ?_⟩
  intro f'
  rw [Edit.read_apply, select_holds hm.holds hm.height_le_stepLimit]
  nofun

/-- **Taking out the first node** of any subtree of a map. -/
theorem exists_enters_extractFirst (hm : m.Embodies t) {h : Handle} (hh : m.nodes.live h ≠ none) :
    ∃ trail, m.nodes.Descends (some h) trail ∧
      m.nodes.Enters (some h) (Watched.extractFirst · h) (Forest.extractFirst · h) trail := by
  obtain ⟨l, k, v, r, hold, hb, hsub⟩ := hm.holds.exists_node hm.balanced (hm.mem_handles h hh)
  have hd := hm.nodup.sublist hsub
  have hlimit : (Tree.node l (h, k) v r).height ≤ m.nodes.stepLimit :=
    (Tree.height_le_size _).trans (hold.size_le hd)
  obtain ⟨e, x, w, rest, hfirst⟩ := Tree.exists_extractFirst (t := .node l (h, k) v r) rfl
  obtain ⟨f₁, hok, -⟩ := extractFirst_holds hold hd hb hlimit rfl hfirst
  obtain ⟨trail, hw, hhead, htrail⟩ := Watched.extractFirst_holds hold rfl
  refine ⟨trail, hold.descends hw hhead, hold.enters hd htrail ?_⟩
  intro f'
  rw [hok]
  nofun

/-- **Going through all entries** of a map. -/
theorem exists_enters_visit {β : Type} (hm : m.Embodies t) (take : β → K → V → β) (start : β) :
    ∃ nodes : List Handle, nodes.Nodup ∧ (∀ h, h ∈ nodes ↔ m.nodes.live h ≠ none) ∧
      m.nodes.Enters m.root (Watched.visit take · m.root start)
        (fun steps => Edit.read (Forest.visit · take steps m.root start)) nodes := by
  obtain ⟨nodes, hperm, hnodes⟩ := Watched.visit_holds hm.holds take
  rw [hm.root_eq]
  refine ⟨nodes, hperm.nodup_iff.2 hm.nodup, ?_,
    hm.holds.enters hm.nodup (hnodes start) ?_⟩
  · intro h
    rw [hperm.mem_iff]
    exact ⟨hm.holds.live_ne_none, hm.mem_handles h⟩
  · intro f'
    rw [Edit.read_apply, visit_holds hm.holds hm.height_le_stepLimit]
    nofun

end Embodies

/-- **Every descent goes one way down.**  After any run, each command with a comparison of its own, no
operation enters more nodes than there are levels, or a node twice, and none runs out of steps. -/
theorem descending_after (commands : List ((K → K → Ordering) × Command K V)) :
    (after commands).Descending := by
  obtain ⟨t, hm⟩ := exists_embodies_after commands
  refine ⟨?_, fun cmp key => ⟨_, _, hm.searches cmp key⟩, hm.exists_enters_select,
    fun h hh => hm.exists_enters_extractFirst hh, hm.exists_enters_visit⟩
  intro p side h hlink
  refine hm.holds.recordedHeight_lt hm.balanced (hm.mem_handles p ?_) hlink
  intro hp
  rw [Forest.linkAt, hp] at hlink
  cases hlink

end OrdMap

end RankedMap
