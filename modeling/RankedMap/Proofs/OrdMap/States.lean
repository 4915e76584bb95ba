import RankedMap.Proofs.OrdMap.Machine

/-!
# Whole states

The placed tree that a map embodies settles every node, so with the freed handles and the storage it
settles the whole map (`Embodies.ext`).  That is how states are shown to be the same here: root,
slots, keys, values, links, records, freed handles and capacity.

Inserting links and rebalances every node on the way back.  When the key is found all of this writes
what was there before, and inserting ends in the very state that storing the value in its node ends
in (`StoresAlike`).  Taking out a key that is not found writes as much, and leaves the map as it was
(`extract_absent`).  No law of the comparison is needed.
-/

set_option autoImplicit false

namespace RankedMap

namespace OrdMap

variable {K V : Type}

namespace Embodies

variable {m m' : OrdMap K V} {t : Placed K V} {cmp : K → K → Ordering} {key : K} {rank : Nat}
  {h : Handle} {n : Node K V}

/-- **Maps that embody the same tree** are the same when they have the same handles freed and the same
storage. -/
theorem ext (hm : m.Embodies t) (hm' : m'.Embodies t)
    (hsize : m'.nodes.slots.size = m.nodes.slots.size) (hfree : m'.nodes.free = m.nodes.free)
    (hcap : m'.nodes.capacity = m.nodes.capacity) : m' = m := by
  have hlive : ∀ h, m'.nodes.live h = m.nodes.live h := by
    intro h
    by_cases hh : h ∈ t.handles
    · exact hm.holds.live_eq_of_holds hm'.holds hh
    · have hnone : m.nodes.live h = none := by_contra fun hne => hh (hm.mem_handles h hne)
      have hnone' : m'.nodes.live h = none := by_contra fun hne => hh (hm'.mem_handles h hne)
      rw [hnone, hnone']
  have hnodes : m'.nodes = m.nodes := hm.sound.ext hsize hfree hcap hlive
  have hroot : m'.root = m.root := hm'.root_eq.trans hm.root_eq.symm
  obtain ⟨nodes, root⟩ := m
  obtain ⟨nodes', root'⟩ := m'
  simp only at hnodes hroot
  rw [hnodes, hroot]

/-! ## Where the search for a key ends -/

theorem locate_eq_some_iff (hm : m.Embodies t) :
    m.locate cmp key = .ok (some h) ↔
      ∃ rank, t.bare.landing cmp key = .hit rank ∧ t.handles[rank]? = some h := by
  rw [hm.locate_eq, Except.ok.injEq]
  cases t.bare.landing cmp key <;> simp [Landing.hit?]

theorem locate_eq_none_iff (hm : m.Embodies t) :
    m.locate cmp key = .ok none ↔ ∃ rank, t.bare.landing cmp key = .miss rank := by
  rw [hm.locate_eq, Except.ok.injEq]
  cases hp : t.bare.landing cmp key with
  | miss rank => simp [Landing.hit?]
  | hit rank =>
    -- a hit is at a position that has a slot
    have hlt : rank < t.handles.length := by
      rw [Tree.length_handles, ← Tree.size_bare]
      exact Tree.lt_size_of_hit hp
    simp [Landing.hit?, List.getElem?_eq_getElem hlt]

/-! ## Storing a value -/

/-- On a hit an insertion ends in the state in which the value is stored in the node. -/
theorem insert_eq_put (hm : m.Embodies t) (hp : t.bare.landing cmp key = .hit rank)
    (hh : t.handles[rank]? = some h) (hn : m.nodes.live h = some n) (value : V) :
    OrdMap.insert cmp key value m =
      .ok (some n.value) ⟨m.nodes.put h (some (n.setValue value)), m.root⟩ := by
  obtain ⟨m', hok, hm', hc⟩ := hm.insert_hit_confined h hp value
  have hp' : t.landing (Tree.byKey cmp) (h, key) = .hit rank := by rw [← Tree.landing_bare, hp]
  rw [Tree.fst_insert_of_hit hm.balanced hp'] at hm'
  have hput := hm.setValue hh hn value
  have hsize : (m.nodes.put h (some (n.setValue value))).slots.size = m.nodes.slots.size := by
    simp [Arena.put]
  have heq : m' = ⟨m.nodes.put h (some (n.setValue value)), m.root⟩ :=
    hput.ext hm' (hc.size_eq.trans hsize.symm) hc.free_eq hc.capacity_eq
  have hold : (t.bare.insert cmp key value).2 = some n.value := by
    obtain ⟨n', hn', he⟩ := hm.live_of_getElem? hh
    obtain rfl : n' = n := Option.some.inj (hn'.symm.trans hn)
    rw [(Tree.toList_insert_of_hit hp).2, he]
    rfl
  rw [hok, hold, heq]

/-! ## Taking out -/

/-- On a miss nothing is taken out, and the map stays as it is. -/
theorem extract_eq_self (hm : m.Embodies t) (hp : t.bare.landing cmp key = .miss rank) :
    OrdMap.extract cmp key m = .ok none m := by
  -- the key has no slot, so any handle will do for it
  obtain ⟨f', m', hc, hnone, -, hok, hm'⟩ := hm.extract_confined ⟨0, Nat.zero_le _⟩ cmp key
  rw [Tree.landing_bare cmp ⟨0, Nat.zero_le _⟩] at hp
  have hx := Tree.extract_of_miss hm.balanced hp
  rw [Tree.extract_bare cmp ⟨0, Nat.zero_le _⟩, hx] at hok
  rw [hx] at hnone hm'
  have hf : m'.nodes = f' := hnone rfl
  rw [← hf] at hc
  rw [hok, hm.ext hm' hc.size_eq hc.free_eq hc.capacity_eq]
  rfl

end Embodies

/-! ## After any run -/

/-- A key is found in the slot `h`, where the node `n` is, and there is one state in which `value` is
stored there: all ways of storing it end in this state and report the same value as the old one. -/
structure StoresAlike (m : OrdMap K V) (cmp : K → K → Ordering) (key : K) (value : V) (h : Handle)
    (rank : Nat) (n : Node K V) (m' : OrdMap K V) : Prop where
  /-- The node is in this slot. -/
  live_eq : m.nodes.live h = some n
  /-- Its entry is at this position. -/
  rank?_eq : m.rank? cmp key = .ok (some rank)
  /-- The state differs from that before in the value in this slot, and in nothing else. -/
  eq_put : m' = ⟨m.nodes.put h (some (n.setValue value)), m.root⟩
  /-- Hence the tree keeps its shape and all its keys. -/
  tree_eq : m'.tree = m.tree.replaceAt rank value
  /-- Inserting ends there. -/
  insert_eq : OrdMap.insert cmp key value m = .ok (some n.value) m'
  /-- So does storing the value under the key. -/
  replace_eq : OrdMap.replace cmp key value m = .ok (some n.value) m'
  /-- So does storing it at the position. -/
  replaceAt_eq : OrdMap.replaceAt rank value m = .ok (some n.entry) m'
  /-- So does storing it at the position when that must be there. -/
  setAt_eq : OrdMap.setAt ⟨rank⟩ value m = .ok n.value m'

theorem Embodies.storesAlike {m : OrdMap K V} {t : Placed K V} {cmp : K → K → Ordering} {key : K}
    {h : Handle} (hm : m.Embodies t) (hloc : m.locate cmp key = .ok (some h)) (value : V) :
    ∃ rank n m', m.StoresAlike cmp key value h rank n m' := by
  obtain ⟨rank, hp, hh⟩ := hm.locate_eq_some_iff.1 hloc
  obtain ⟨n, hn, -⟩ := hm.live_of_getElem? hh
  have hput := replaceIn_of_live hn value
  have hreplaceAt : OrdMap.replaceAt rank value m =
      .ok (some n.entry) ⟨m.nodes.put h (some (n.setValue value)), m.root⟩ := by
    simp only [OrdMap.replaceAt, Edit.bind_apply, Edit.read_apply, hm.select_eq, hh, hput]
  refine ⟨rank, n, _, hn, ?_, rfl, ?_, hm.insert_eq_put hp hh hn value, ?_, hreplaceAt, ?_⟩
  · rw [hm.rank?_eq, hp]
    rfl
  · rw [(hm.setValue hh hn value).tree_eq, hm.tree_eq, Tree.replaceAt_bare]
  · simp only [OrdMap.replace, Edit.bind_apply, Edit.read_apply, hloc, hput]
    rfl
  · simp only [OrdMap.setAt, Edit.bind_apply, hreplaceAt]
    rfl

/-- **There is one way to store a value.**  After any run, whatever the comparisons were, inserting a
key that is found, storing a value under it and storing the value at its position end in one and the
same state; it differs from the state before in this value alone. -/
theorem storesAlike_after (commands : List ((K → K → Ordering) × Command K V))
    (cmp : K → K → Ordering) (key : K) (value : V) (h : Handle)
    (hloc : (after commands).locate cmp key = .ok (some h)) :
    ∃ rank n m', (after commands).StoresAlike cmp key value h rank n m' := by
  obtain ⟨t, hm⟩ := exists_embodies_after commands
  exact hm.storesAlike hloc value

/-- Five insertions in ascending order, which rotate twice, and a key taken out again. -/
def ascendingRun : List ((Nat → Nat → Ordering) × Command Nat Nat) :=
  [(compare, .insert 1 10), (compare, .insert 2 20), (compare, .insert 3 30),
    (compare, .insert 4 40), (compare, .insert 5 50), (compare, .erase 3)]

/-- The greatest key has been the last to get a slot. -/
theorem storesAlike_ascendingRun :
    (after ascendingRun).locate compare 5 = .ok (some ⟨4, by decide⟩) ∧
      ∃ rank n m', (after ascendingRun).StoresAlike compare 5 55 ⟨4, by decide⟩ rank n m' := by
  have hloc : (after ascendingRun).locate compare 5 = .ok (some ⟨4, by decide⟩) := by
    decide +kernel
  exact ⟨hloc, storesAlike_after ascendingRun compare 5 55 _ hloc⟩

/-- **Taking out what is not there changes nothing.**  After any run, whatever the comparisons were,
taking out a key that is not found answers with nothing and leaves the whole state as it was. -/
theorem extract_absent (commands : List ((K → K → Ordering) × Command K V))
    (cmp : K → K → Ordering) (key : K) (hloc : (after commands).locate cmp key = .ok none) :
    OrdMap.extract cmp key (after commands) = .ok none (after commands) ∧
      OrdMap.erase cmp key (after commands) = .ok none (after commands) := by
  obtain ⟨t, hm⟩ := exists_embodies_after commands
  obtain ⟨rank, hp⟩ := hm.locate_eq_none_iff.1 hloc
  have hok := hm.extract_eq_self hp
  exact ⟨hok, erase_of_extract hok⟩

/-- The key that was taken out is looked for again, past two nodes. -/
theorem extract_absent_ascendingRun :
    (after ascendingRun).locate compare 3 = .ok none ∧
      OrdMap.extract compare 3 (after ascendingRun) = .ok none (after ascendingRun) := by
  have hloc : (after ascendingRun).locate compare 3 = .ok none := by decide +kernel
  exact ⟨hloc, (extract_absent ascendingRun compare 3 hloc).1⟩

end OrdMap

end RankedMap
