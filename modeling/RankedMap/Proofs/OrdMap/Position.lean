import RankedMap.Proofs.Forest.InOrder
import RankedMap.Proofs.OrdMap.Machine

/-!
# Edits at one position

The entries of a map are listed here in the order of its links, left to right (`OrdMap.Lists`), and
the search for a key is followed along the same links: it hits the entry at some position
(`OrdMap.Hits`) or ends at an empty link before which some number of entries stand
(`OrdMap.Misses`).

Inserting and taking out edit the list of entries at that one position and leave all other entries
and their order alone (`EditsOnce`).  No law of the comparison is needed: where the search ends is
all that counts, sorted or not.
-/

set_option autoImplicit false

namespace RankedMap

namespace OrdMap

variable {K V : Type}

/-- The entries of the map, from left to right along its links. -/
def Lists (m : OrdMap K V) (es : List (K × V)) : Prop :=
  ∃ xs, m.nodes.InOrder m.root xs ∧ xs.map Prod.snd = es

/-- The search for a key ends at a node, the one at position `rank`, and the entry `e` is there. -/
def Hits (m : OrdMap K V) (cmp : K → K → Ordering) (key : K) (rank : Nat) (e : K × V) : Prop :=
  ∃ xs h before, m.nodes.InOrder m.root xs ∧ m.nodes.Lands cmp key m.root (some h) before ∧
    xs[rank]? = some (h, e)

/-- The search for a key ends at an empty link.  As many entries as `rank` says stand on the left of
it: at every node where the search turned right, that node and its left subtree. -/
def Misses (m : OrdMap K V) (cmp : K → K → Ordering) (key : K) (rank : Nat) : Prop :=
  m.nodes.Lands cmp key m.root none rank

/-- Inserting and taking out edit the entries at the one position where the search ends. -/
structure EditsOnce (m : OrdMap K V) (cmp : K → K → Ordering) (key : K) (value : V)
    (es : List (K × V)) : Prop where
  /-- These are the entries. -/
  lists : m.Lists es
  /-- The search ends somewhere. -/
  ends : (∃ rank e, m.Hits cmp key rank e) ∨ ∃ rank, m.Misses cmp key rank
  /-- An entry that is hit is at that position. -/
  getElem?_hit : ∀ rank e, m.Hits cmp key rank e → es[rank]? = some e
  /-- A miss is at a position between entries, or at either end. -/
  rank_le_miss : ∀ rank, m.Misses cmp key rank → rank ≤ es.length
  /-- On a hit an insertion replaces the value there, and answers with the old one. -/
  insert_hit : ∀ rank e, m.Hits cmp key rank e →
    ∃ m', OrdMap.insert cmp key value m = .ok (some e.2) m' ∧ m'.Lists (es.set rank (e.1, value))
  /-- On a hit taking out drops the entry there, and answers with it. -/
  extract_hit : ∀ rank e, m.Hits cmp key rank e →
    ∃ m', OrdMap.extract cmp key m = .ok (some e) m' ∧ m'.Lists (es.eraseIdx rank)
  /-- On a miss an insertion puts the new entry there. -/
  insert_miss : ∀ rank, m.Misses cmp key rank → es.length < Size.maxCount →
    ∃ m', OrdMap.insert cmp key value m = .ok none m' ∧ m'.Lists (es.insertIdx rank (key, value))
  /-- When no handle is left for a new entry, the insertion fails and changes nothing. -/
  insert_full : ∀ rank, m.Misses cmp key rank → es.length = Size.maxCount →
    OrdMap.insert cmp key value m = .error .arenaFull m
  /-- On a miss nothing is taken out. -/
  extract_miss : ∀ rank, m.Misses cmp key rank →
    ∃ m', OrdMap.extract cmp key m = .ok none m' ∧ m'.Lists es

namespace Embodies

variable {m : OrdMap K V} {t : Placed K V} {cmp : K → K → Ordering} {key : K} {rank : Nat}
  {e : K × V}

/-- The entries of a map are those of the tree that it embodies. -/
theorem lists (hm : m.Embodies t) : m.Lists t.bare.toList := by
  refine ⟨_, hm.root_eq ▸ hm.holds.inOrder, ?_⟩
  rw [Tree.toList_bare, List.map_map]
  rfl

/-! ## Where a search ends -/

theorem hits_of_landing (hm : m.Embodies t) (hp : t.bare.landing cmp key = .hit rank) :
    ∃ e, m.Hits cmp key rank e := by
  obtain ⟨h, before, hh, hland⟩ := (hm.holds.lands).1 rank hp
  rw [Tree.handles, List.getElem?_map, Option.map_eq_some_iff] at hh
  obtain ⟨⟨⟨h', k⟩, v⟩, hx, rfl⟩ := hh
  refine ⟨(k, v), _, h', before, hm.root_eq ▸ hm.holds.inOrder, hm.root_eq ▸ hland, ?_⟩
  rw [List.getElem?_map, hx]
  rfl

theorem misses_of_landing (hm : m.Embodies t) (hp : t.bare.landing cmp key = .miss rank) :
    m.Misses cmp key rank := by
  rw [Misses, hm.root_eq]
  exact (hm.holds.lands).2 rank hp

theorem landing_of_hits (hm : m.Embodies t) (hh : m.Hits cmp key rank e) :
    t.bare.landing cmp key = .hit rank ∧ t.bare.toList[rank]? = some e := by
  obtain ⟨xs, h, before, hxs, hland, hx⟩ := hh
  rw [hm.root_eq] at hxs hland
  obtain rfl := hxs.unique hm.holds.inOrder
  rw [List.getElem?_map, Option.map_eq_some_iff] at hx
  obtain ⟨⟨⟨h', k⟩, v⟩, hx, he⟩ := hx
  obtain ⟨rfl, rfl⟩ := Prod.mk.inj he
  have hhandle : t.handles[rank]? = some h' := by
    rw [Tree.handles, List.getElem?_map, hx]
    rfl
  refine ⟨?_, by rw [Tree.toList_bare, List.getElem?_map, hx]; rfl⟩
  cases hp : t.bare.landing cmp key with
  | miss q => cases (hland.unique ((hm.holds.lands).2 q hp)).1
  | hit q =>
    -- no slot is used twice, so the node where the search ends is at one position only
    obtain ⟨h'', before', hq, hland'⟩ := (hm.holds.lands).1 q hp
    cases (hland.unique hland').1
    obtain ⟨hlt, -⟩ := List.getElem?_eq_some_iff.1 hq
    rw [(List.getElem?_inj hlt hm.nodup).1 (hq.trans hhandle.symm)]

theorem landing_of_misses (hm : m.Embodies t) (hh : m.Misses cmp key rank) :
    t.bare.landing cmp key = .miss rank := by
  rw [Misses, hm.root_eq] at hh
  cases hp : t.bare.landing cmp key with
  | hit q =>
    obtain ⟨h, before, -, hland⟩ := (hm.holds.lands).1 q hp
    cases (hh.unique hland).1
  | miss q => rw [(hh.unique ((hm.holds.lands).2 q hp)).2]

/-! ## Edits -/

/-- A map that embodies a changed tree has the entries of that tree. -/
theorem exists_lists {result : OrdMap K V → Prop} {tree : Tree K V}
    (h : ∃ m' t', result m' ∧ m'.Embodies t' ∧ t'.bare = tree) :
    ∃ m', result m' ∧ m'.Lists tree.toList := by
  obtain ⟨m', t', hok, hm', rfl⟩ := h
  exact ⟨m', hok, hm'.lists⟩

theorem insert_hits (hm : m.Embodies t) (hh : m.Hits cmp key rank e) (value : V) :
    ∃ m', OrdMap.insert cmp key value m = .ok (some e.2) m' ∧
      m'.Lists (t.bare.toList.set rank (e.1, value)) := by
  obtain ⟨hp, he⟩ := hm.landing_of_hits hh
  have hlist : (t.bare.insert cmp key value).1.toList = t.bare.toList.set rank (e.1, value) :=
    (Tree.toList_insert_of_hit hp).1.trans (modify_eq_set_of_getElem? he _)
  have hold : (t.bare.insert cmp key value).2 = some e.2 := by
    rw [(Tree.toList_insert_of_hit hp).2, he]
    rfl
  rw [← hlist, ← hold]
  exact exists_lists (hm.insert_of_hit hp)

theorem insert_misses (hm : m.Embodies t) (hh : m.Misses cmp key rank) (value : V)
    (hroom : t.size < Size.maxCount) :
    ∃ m', OrdMap.insert cmp key value m = .ok none m' ∧
      m'.Lists (t.bare.toList.insertIdx rank (key, value)) := by
  have hp := hm.landing_of_misses hh
  have hlist : (t.bare.insert cmp key value).1.toList =
      t.bare.toList.insertIdx rank (key, value) := (Tree.toList_insert_of_miss hp).1
  have hold : (t.bare.insert cmp key value).2 = none := (Tree.toList_insert_of_miss hp).2
  rw [← hlist, ← hold]
  exact exists_lists (hm.insert_of_miss hp hroom)

theorem extract_hits (hm : m.Embodies t) (hh : m.Hits cmp key rank e) :
    ∃ m', OrdMap.extract cmp key m = .ok (some e) m' ∧
      m'.Lists (t.bare.toList.eraseIdx rank) := by
  obtain ⟨hp, he⟩ := hm.landing_of_hits hh
  obtain ⟨hlist, hgone⟩ := Tree.toList_extract_of_hit hp
  rw [← hlist, ← he, ← hgone]
  exact exists_lists (hm.extract cmp key)

theorem extract_misses (hm : m.Embodies t) (hh : m.Misses cmp key rank) :
    ∃ m', OrdMap.extract cmp key m = .ok none m' ∧ m'.Lists t.bare.toList := by
  obtain ⟨hlist, hgone⟩ := Tree.toList_extract_of_miss (hm.landing_of_misses hh)
  rw [← hlist, ← hgone]
  exact exists_lists (hm.extract cmp key)

end Embodies

/-- **One operation edits the entries at one position.**  After any run, each command with a
comparison of its own, inserting or taking out a key by any comparison edits the entries where the
search for the key ends, and nowhere else. -/
theorem editsOnce_after (commands : List ((K → K → Ordering) × Command K V))
    (cmp : K → K → Ordering) (key : K) (value : V) :
    ∃ es, (after commands).EditsOnce cmp key value es := by
  obtain ⟨t, hm⟩ := exists_embodies_after commands
  have hlen : t.bare.toList.length = t.size := by rw [Tree.length_toList, Tree.size_bare]
  refine ⟨t.bare.toList, hm.lists, ?_, ?_, ?_, ?_, ?_, ?_, ?_, ?_⟩
  · cases hp : t.bare.landing cmp key with
    | hit rank => exact .inl ⟨rank, hm.hits_of_landing hp⟩
    | miss rank => exact .inr ⟨rank, hm.misses_of_landing hp⟩
  · intro rank e hh
    exact (hm.landing_of_hits hh).2
  · intro rank hh
    rw [Tree.length_toList]
    exact Tree.le_size_of_miss (hm.landing_of_misses hh)
  · intro rank e hh
    exact hm.insert_hits hh value
  · intro rank e hh
    exact hm.extract_hits hh
  · intro rank hh hroom
    exact hm.insert_misses hh value (hlen ▸ hroom)
  · intro rank hh hfull
    exact hm.insert_of_full (hm.landing_of_misses hh) (hlen ▸ hfull)
  · intro rank hh
    exact hm.extract_misses hh

end OrdMap

end RankedMap
