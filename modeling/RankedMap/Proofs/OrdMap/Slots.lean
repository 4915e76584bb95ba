import RankedMap.Proofs.OrdMap.States

/-!
# Entries stay in their slots

A slot of a map is looked at through `OrdMap.entryIn`, which leaves links and records aside.  Seen so,
a change of a map touches one slot at most: an insertion on a miss takes one that was vacant
(`OrdMap.Takes`), an insertion on a hit stores its value in the one where the key is found, and taking
out frees that one (`OrdMap.Frees`).  All other slots keep their entries, that of the node which moves
up into the place of the one taken out among them.

A slot holds an entry when the embodied tree has it there (`Embodies.entryIn_eq_some_iff`), so this is
a matter of the entries of placed trees; where a node stands in the tree does not come into it.
-/

set_option autoImplicit false

namespace RankedMap

namespace OrdMap

variable {K V : Type}

/-- The entry in a slot, if the slot is occupied. -/
def entryIn (m : OrdMap K V) (h : Handle) : Option (K × V) := (m.nodes.live h).map Node.entry

/-- An entry is added in one slot, and all others are left alone. -/
structure Takes (m m' : OrdMap K V) (x : Handle) (e : K × V) : Prop where
  /-- The slot was vacant. -/
  vacant : m.nodes.live x = none
  /-- It is the slot freed last, which is free no longer; or none was free, and it is a new one behind
  all others. -/
  slot :
    (m.nodes.free.back? = some x ∧ m'.nodes.free = m.nodes.free.pop ∧
      m'.nodes.slots.size = m.nodes.slots.size) ∨
    (m.nodes.free = #[] ∧ m'.nodes.free = #[] ∧ x.index = m.nodes.slots.size ∧
      m'.nodes.slots.size = m.nodes.slots.size + 1)
  /-- It holds the entry. -/
  entryIn_eq : m'.entryIn x = some e
  /-- Every other slot keeps its entry, or stays vacant. -/
  keeps : ∀ h, h ≠ x → m'.entryIn h = m.entryIn h

/-- An entry is taken out of its slot, and all others are left alone. -/
structure Frees (m m' : OrdMap K V) (x : Handle) (e : K × V) : Prop where
  /-- The slot held the entry. -/
  entryIn_eq : m.entryIn x = some e
  /-- It is vacant. -/
  vacant : m'.nodes.live x = none
  /-- It is the slot freed last. -/
  free_eq : m'.nodes.free = m.nodes.free.push x
  /-- So it is the next to be used again. -/
  reused : ∀ n, ∃ nodes, Arena.allocate n m'.nodes = .ok x nodes
  /-- There are as many slots as before. -/
  slots_eq : m'.nodes.slots.size = m.nodes.slots.size
  /-- Every other slot keeps its entry, or stays vacant. -/
  keeps : ∀ h, h ≠ x → m'.entryIn h = m.entryIn h

/-- Inserting and taking out a key touch one slot at most. -/
structure Stable (m : OrdMap K V) (cmp : K → K → Ordering) (key : K) (value : V) : Prop where
  /-- The search for the key ends, in a slot or in none. -/
  ends : ∃ link, m.locate cmp key = .ok link
  /-- When the key is not found, an insertion takes a slot. -/
  insert_miss : m.locate cmp key = .ok none → m.size ≠ .ok Size.maxCount →
    ∃ x m', OrdMap.insert cmp key value m = .ok none m' ∧ m.Takes m' x (key, value)
  /-- When there is no handle left for the slot, it fails and changes nothing. -/
  insert_full : m.locate cmp key = .ok none → m.size = .ok Size.maxCount →
    OrdMap.insert cmp key value m = .error .arenaFull m
  /-- When the key is found, an insertion stores its value in that slot, beside the key that is
  there. -/
  insert_hit : ∀ x, m.locate cmp key = .ok (some x) →
    ∃ e m', OrdMap.insert cmp key value m = .ok (some e.2) m' ∧ m.entryIn x = some e ∧
      m'.entryIn x = some (e.1, value) ∧ m'.nodes.free = m.nodes.free ∧
      m'.nodes.slots.size = m.nodes.slots.size ∧ ∀ h, h ≠ x → m'.entryIn h = m.entryIn h
  /-- When the key is found, taking it out frees that slot. -/
  extract_hit : ∀ x, m.locate cmp key = .ok (some x) →
    ∃ e m', OrdMap.extract cmp key m = .ok (some e) m' ∧
      OrdMap.erase cmp key m = .ok (some e.2) m' ∧ m.Frees m' x e
  /-- When the key is not found, nothing is taken out. -/
  extract_miss : m.locate cmp key = .ok none →
    OrdMap.extract cmp key m = .ok none m ∧ OrdMap.erase cmp key m = .ok none m

namespace Embodies

variable {m m' : OrdMap K V} {t t' : Placed K V} {cmp : K → K → Ordering} {key : K} {rank : Nat}
  {h x : Handle} {e : K × V}

/-- A slot holds what the tree has there. -/
theorem entryIn_eq_some_iff (hm : m.Embodies t) :
    m.entryIn h = some e ↔ ((h, e.1), e.2) ∈ t.toList := by
  rw [entryIn, Option.map_eq_some_iff]
  constructor
  · rintro ⟨n, hn, rfl⟩
    obtain ⟨⟨⟨h', k⟩, v⟩, hx, rfl⟩ := List.mem_map.1 (hm.mem_handles h (by simp [hn]))
    obtain ⟨n', hn', rfl, rfl⟩ := hm.holds.live_of_mem hx
    cases hn.symm.trans hn'
    exact hx
  · intro hx
    obtain ⟨n, hn, hkey, hvalue⟩ := hm.holds.live_of_mem hx
    exact ⟨n, hn, Prod.ext hkey hvalue⟩

/-- A slot keeps its entry when the trees have the same entries there. -/
theorem entryIn_eq_of_mem_iff (hm : m.Embodies t) (hm' : m'.Embodies t')
    (hmem : ∀ e : K × V, ((h, e.1), e.2) ∈ t'.toList ↔ ((h, e.1), e.2) ∈ t.toList) :
    m'.entryIn h = m.entryIn h := by
  refine Option.ext fun e => ?_
  rw [hm'.entryIn_eq_some_iff, hm.entryIn_eq_some_iff, hmem]

/-! ## Inserting -/

theorem insert_takes (hm : m.Embodies t) (hp : t.bare.landing cmp key = .miss rank)
    (hroom : t.size < Size.maxCount) (value : V) :
    ∃ x m', OrdMap.insert cmp key value m = .ok none m' ∧ m.Takes m' x (key, value) := by
  obtain ⟨x, start, ha, hx, m', hok, hm', hc⟩ := hm.insert_miss_confined hp hroom value
  have hp' : t.landing (Tree.byKey cmp) (x, key) = .miss rank := by rw [← Tree.landing_bare, hp]
  have hlist : (t.insert (Tree.byKey cmp) (x, key) value).1.toList =
      t.toList.insertIdx rank ((x, key), value) := (Tree.toList_insert_of_miss hp').1
  have hmem : ∀ y, y ∈ (t.insert (Tree.byKey cmp) (x, key) value).1.toList ↔
      y = ((x, key), value) ∨ y ∈ t.toList := by
    intro y
    rw [hlist]
    refine List.mem_insertIdx ?_
    rw [Tree.length_toList]
    exact Tree.le_size_of_miss hp'
  rw [(Tree.toList_insert_of_miss hp).2] at hok
  refine ⟨x, m', hok, hx, ?_, ?_, ?_⟩
  · -- which slot it is was settled before any node was linked
    rw [hc.free_eq, hc.size_eq]
    obtain ⟨hb, rfl⟩ | ⟨hf, hindex, rfl⟩ := hm.sound.allocate_cases ha
    · exact .inl ⟨hb, rfl, by simp [Arena.put]⟩
    · exact .inr ⟨hf, rfl, hindex, Array.size_push _⟩
  · exact hm'.entryIn_eq_some_iff.2 ((hmem _).2 (.inl rfl))
  · intro h hne
    refine hm.entryIn_eq_of_mem_iff hm' fun e => ?_
    rw [hmem, or_iff_right]
    exact fun heq => hne (congrArg (·.1.1) heq)

/-! ## Taking out -/

theorem extract_frees (hm : m.Embodies t) (hp : t.bare.landing cmp key = .hit rank)
    (hx : t.handles[rank]? = some x) :
    ∃ e m', OrdMap.extract cmp key m = .ok (some e) m' ∧ m.Frees m' x e := by
  obtain ⟨f', m', hc, -, hsome, hok, hm'⟩ := hm.extract_confined x cmp key
  have hp' : t.landing (Tree.byKey cmp) (x, key) = .hit rank := by rw [← Tree.landing_bare, hp]
  obtain ⟨hlist, hgone⟩ := Tree.toList_extract_of_hit hp'
  rw [Tree.handles, List.getElem?_map, Option.map_eq_some_iff] at hx
  obtain ⟨⟨⟨x', k⟩, v⟩, hentry, rfl⟩ := hx
  rw [hentry] at hgone
  have hr := hsome (x', k) v hgone
  have hlive := Arena.live_release hr
  have hnodes := (Arena.release_eq_ok.1 hr).2
  have hmem : ∀ y, y ∈ t.toList ↔
      y = ((x', k), v) ∨ y ∈ (t.extract (Tree.byKey cmp) (x', key)).1.toList := by
    intro y
    obtain ⟨hlt, hget⟩ := List.getElem?_eq_some_iff.1 hentry
    rw [hlist, ← (List.getElem_cons_eraseIdx_perm hlt).mem_iff, List.mem_cons, hget]
  have hfree : m'.nodes.free = m.nodes.free.push x' := by rw [← hnodes, ← hc.free_eq]
  refine ⟨(k, v), m', ?_, ?_, ?_, hfree, ?_, ?_, ?_⟩
  · rw [hok, Tree.extract_bare cmp x', hgone]
    rfl
  · exact hm.entryIn_eq_some_iff.2 ((hmem _).2 (.inl rfl))
  · rw [(hlive x').2, if_pos rfl]
  · intro n
    have hback : m'.nodes.free.back? = some x' := by rw [hfree, Array.back?_push]
    have hlt := ((hm'.sound.mem_free x').1 (Array.mem_of_back? hback)).1
    exact ⟨_, Arena.allocate_of_free hback hlt n⟩
  · rw [← hnodes, ← hc.size_eq]
    simp [Arena.put]
  · intro h hne
    refine hm.entryIn_eq_of_mem_iff hm' fun e => ?_
    rw [hmem, or_iff_right]
    exact fun heq => hne (congrArg (·.1.1) heq)

theorem stable (hm : m.Embodies t) (cmp : K → K → Ordering) (key : K) (value : V) :
    m.Stable cmp key value where
  ends := ⟨_, hm.locate_eq⟩
  insert_miss hloc hsize := by
    obtain ⟨rank, hp⟩ := hm.locate_eq_none_iff.1 hloc
    refine hm.insert_takes hp (Nat.lt_of_le_of_ne hm.size_le fun hfull => hsize ?_) value
    rw [hm.size_eq, Tree.size_bare, hfull]
  insert_full hloc hsize := by
    obtain ⟨rank, hp⟩ := hm.locate_eq_none_iff.1 hloc
    rw [hm.size_eq, Tree.size_bare, Except.ok.injEq] at hsize
    exact hm.insert_of_full hp hsize
  insert_hit x hloc := by
    obtain ⟨rank, hp, hx⟩ := hm.locate_eq_some_iff.1 hloc
    obtain ⟨n, hn, -⟩ := hm.live_of_getElem? hx
    refine ⟨n.entry, _, hm.insert_eq_put hp hx hn value, ?_, ?_, rfl, by simp [Arena.put], ?_⟩
    · rw [entryIn, hn]
      rfl
    · rw [entryIn, Arena.live_put hn, if_pos rfl]
      rfl
    · intro h hne
      rw [entryIn, Arena.live_put hn, if_neg hne, entryIn]
  extract_hit x hloc := by
    obtain ⟨rank, hp, hx⟩ := hm.locate_eq_some_iff.1 hloc
    obtain ⟨e, m', hok, hfrees⟩ := hm.extract_frees hp hx
    exact ⟨e, m', hok, erase_of_extract hok, hfrees⟩
  extract_miss hloc := by
    obtain ⟨rank, hp⟩ := hm.locate_eq_none_iff.1 hloc
    have hok := hm.extract_eq_self hp
    exact ⟨hok, erase_of_extract hok⟩

end Embodies

/-- **No entry ever moves.**  After any run, whatever the comparisons were, inserting or taking out a
key touches the one slot that is taken, written or freed for it, and every other slot keeps its key
and its value. -/
theorem stable_after (commands : List ((K → K → Ordering) × Command K V))
    (cmp : K → K → Ordering) (key : K) (value : V) : (after commands).Stable cmp key value := by
  obtain ⟨t, hm⟩ := exists_embodies_after commands
  exact hm.stable cmp key value

/-- The root is taken out from between its two subtrees, and the one after it moves up and stays in
its slot. -/
example :
    let m : OrdMap Nat Nat := after [(compare, .insert 2 20), (compare, .insert 1 10),
      (compare, .insert 4 40), (compare, .insert 3 30), (compare, .erase 2)]
    m.root = some ⟨3, by decide⟩ ∧ m.entryIn ⟨3, by decide⟩ = some (3, 30) := by
  decide +kernel

end OrdMap

end RankedMap
