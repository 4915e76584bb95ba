import RankedMap.Proofs.OrdMap.Position

/-!
# Positions in a map

The position of an entry is its place in the list of all entries, taken from left to right along the
links (`OrdMap.Lists`).  The map finds it by the sizes that its nodes have on record; `Positional`
says that it finds what the list has there, that going through all entries is going through the list,
to write it as text too, and that storing a value at a position writes one node and nothing else
(`PutsAt`).

The list owes nothing to the comparison: where an entry stands is a matter of the links alone.
-/

set_option autoImplicit false

namespace RankedMap

namespace OrdMap

variable {K V : Type}

/-- The second map is the first with a value stored in the node at a position.  The key of the node,
its links and its records are as they were, and so are all other slots, the freed slots, the capacity
and the root. -/
def PutsAt (m : OrdMap K V) (rank : Nat) (value : V) (m' : OrdMap K V) : Prop :=
  ∃ xs h n, m.nodes.InOrder m.root xs ∧ xs[rank]? = some (h, n.entry) ∧
    m.nodes.live h = some n ∧ m' = ⟨m.nodes.put h (some (n.setValue value)), m.root⟩

/-- The entries of a map are at the positions that they have in a list. -/
structure Positional (m : OrdMap K V) (es : List (K × V)) : Prop where
  /-- These are the entries. -/
  lists : m.Lists es
  /-- Each is in a slot of its own, and no occupied slot is left out. -/
  once : ∀ xs, m.nodes.InOrder m.root xs → (xs.map Prod.fst).Nodup ∧
    ∀ h, h ∈ xs.map Prod.fst ↔ m.nodes.live h ≠ none
  /-- The map tells how many there are. -/
  size_eq : m.size = .ok es.length
  /-- It has the entries of the list at their positions, and none behind. -/
  entryAt?_eq : ∀ rank, m.entryAt? rank = .ok es[rank]?
  /-- A value that must be at a position is the one of the entry there. -/
  getAt_eq : ∀ rank : Rank,
    m.getAt rank = (es[rank.position]?.map (·.2)).elim (.error .rankOutOfBounds) .ok
  /-- Going through the map takes each entry once, in this order. -/
  fold_eq : ∀ {β : Type} (take : β → K → V → β) (start : β),
    m.fold take start = .ok (es.foldl (fun acc e => take acc e.1 e.2) start)
  /-- Collecting the entries gives the list. -/
  entries_eq : m.entries = .ok es
  /-- The text of the map is that of the entries in the list, however keys and values are written. -/
  text_eq : ∀ (layout : Layout) (writeKey : K → String) (writeValue : V → String),
    m.text layout writeKey writeValue = .ok (layout.enclose "\x7b" "\x7d"
      (es.map fun e => writeKey e.1 ++ ": " ++ writeValue e.2))
  /-- The first entry is that of the list. -/
  first?_eq : m.first? = .ok es.head?
  /-- The last entry is that of the list. -/
  last?_eq : m.last? = .ok es.getLast?
  /-- Only an empty map has no first entry. -/
  first?_eq_none : m.first? = .ok none ↔ m.isEmpty = true
  /-- Only an empty map has no last entry. -/
  last?_eq_none : m.last? = .ok none ↔ m.isEmpty = true
  /-- Storing a value at a position that is there answers with the entry, and changes its value and
  nothing else. -/
  replaceAt_lt : ∀ rank e value, es[rank]? = some e → ∃ m',
    replaceAt rank value m = .ok (some e) m' ∧ m.PutsAt rank value m' ∧
      m'.Lists (es.set rank (e.1, value))
  /-- So does storing one at a position that must be there; this answers with the old value. -/
  setAt_lt : ∀ (rank : Rank) e value, es[rank.position]? = some e → ∃ m',
    setAt rank value m = .ok e.2 m' ∧ m.PutsAt rank.position value m' ∧
      m'.Lists (es.set rank.position (e.1, value))
  /-- Behind the last entry nothing is stored. -/
  replaceAt_ge : ∀ rank value, es.length ≤ rank → replaceAt rank value m = .ok none m
  /-- If it must be stored, that fails, and changes nothing either. -/
  setAt_ge : ∀ (rank : Rank) value, es.length ≤ rank.position →
    setAt rank value m = .error .rankOutOfBounds m

namespace Embodies

variable {m : OrdMap K V} {t : Placed K V} {rank : Nat} {e : K × V}

theorem once (hm : m.Embodies t) {xs : List (Handle × K × V)} (hxs : m.nodes.InOrder m.root xs) :
    (xs.map Prod.fst).Nodup ∧ ∀ h, h ∈ xs.map Prod.fst ↔ m.nodes.live h ≠ none := by
  rw [hm.root_eq] at hxs
  obtain rfl := hxs.unique hm.holds.inOrder
  have hfst : (t.toList.map fun x => (x.1.1, x.1.2, x.2)).map Prod.fst = t.handles := by
    rw [List.map_map]
    rfl
  rw [hfst]
  exact ⟨hm.nodup, fun h => ⟨hm.holds.live_ne_none, hm.mem_handles h⟩⟩

theorem entries_eq (hm : m.Embodies t) : m.entries = .ok t.bare.toList := by
  rw [entries, hm.fold_eq]
  simp [bind, Except.bind, pure, Except.pure]

theorem first?_eq_none (hm : m.Embodies t) : m.first? = .ok none ↔ m.isEmpty = true := by
  rw [hm.first?_eq, hm.isEmpty_eq, List.isEmpty_iff, Except.ok.injEq, List.head?_eq_none_iff]

theorem last?_eq_none (hm : m.Embodies t) : m.last? = .ok none ↔ m.isEmpty = true := by
  rw [hm.last?_eq, hm.isEmpty_eq, List.isEmpty_iff, Except.ok.injEq, List.getLast?_eq_none_iff]

/-! ## Storing a value at a position -/

/-- An entry stands in a node. -/
theorem exists_node_of_getElem? (hm : m.Embodies t) (he : t.bare.toList[rank]? = some e) :
    ∃ xs h n, m.nodes.InOrder m.root xs ∧ xs[rank]? = some (h, n.entry) ∧
      t.handles[rank]? = some h ∧ m.nodes.live h = some n ∧ n.entry = e := by
  rw [Tree.toList_bare, List.getElem?_map, Option.map_eq_some_iff] at he
  obtain ⟨⟨⟨h, k⟩, v⟩, hx, rfl⟩ := he
  obtain ⟨n, hn, rfl, rfl⟩ := hm.holds.live_of_mem (List.mem_of_getElem? hx)
  refine ⟨_, h, n, hm.root_eq ▸ hm.holds.inOrder, ?_, ?_, hn, rfl⟩
  · rw [List.getElem?_map, hx]
    rfl
  · rw [Tree.handles, List.getElem?_map, hx]
    rfl

theorem replaceAt_of_getElem? (hm : m.Embodies t) (he : t.bare.toList[rank]? = some e) (value : V) :
    ∃ m', OrdMap.replaceAt rank value m = .ok (some e) m' ∧ m.PutsAt rank value m' ∧
      m'.Lists (t.bare.toList.set rank (e.1, value)) := by
  obtain ⟨xs, h, n, hxs, hx, hh, hn, hne⟩ := hm.exists_node_of_getElem? he
  have hlist : (t.replaceAt rank value).bare.toList = t.bare.toList.set rank (e.1, value) := by
    rw [← Tree.replaceAt_bare, Tree.toList_replaceAt, modify_eq_set_of_getElem? he]
  refine ⟨_, ?_, ⟨xs, h, n, hxs, hx, hn, rfl⟩, hlist ▸ (hm.setValue hh hn value).lists⟩
  rw [← hne]
  simp only [OrdMap.replaceAt, Edit.bind_apply, Edit.read_apply, hm.select_eq, hh,
    replaceIn_of_live hn]

theorem setAt_of_getElem? (hm : m.Embodies t) {rank : Rank}
    (he : t.bare.toList[rank.position]? = some e) (value : V) :
    ∃ m', OrdMap.setAt rank value m = .ok e.2 m' ∧ m.PutsAt rank.position value m' ∧
      m'.Lists (t.bare.toList.set rank.position (e.1, value)) := by
  obtain ⟨m', hok, hputs, hlists⟩ := hm.replaceAt_of_getElem? he value
  refine ⟨m', ?_, hputs, hlists⟩
  simp only [OrdMap.setAt, Edit.bind_apply, hok, Edit.pure_apply]

theorem positional (hm : m.Embodies t) : m.Positional t.bare.toList where
  lists := hm.lists
  once _ := hm.once
  size_eq := by rw [hm.size_eq, Tree.length_toList]
  entryAt?_eq := hm.entryAt?_eq
  getAt_eq := hm.getAt_eq
  fold_eq := hm.fold_eq
  entries_eq := hm.entries_eq
  text_eq := hm.text_eq
  first?_eq := hm.first?_eq
  last?_eq := hm.last?_eq
  first?_eq_none := hm.first?_eq_none
  last?_eq_none := hm.last?_eq_none
  replaceAt_lt _ _ value he := hm.replaceAt_of_getElem? he value
  setAt_lt _ _ value he := hm.setAt_of_getElem? he value
  replaceAt_ge _ value hr := hm.replaceAt_of_getElem?_eq_none value (List.getElem?_eq_none hr)
  setAt_ge _ value hr := hm.setAt_of_getElem?_eq_none value (List.getElem?_eq_none hr)

end Embodies

/-- **Positions are those in the list of entries.**  After any run, each command with a comparison of
its own, the entries taken from left to right are what the map has at its positions, in this order it
goes through them and writes them as text, and storing a value at a position changes that value
alone. -/
theorem positional_after (commands : List ((K → K → Ordering) × Command K V)) :
    ∃ es, (after commands).Positional es := by
  obtain ⟨t, hm⟩ := exists_embodies_after commands
  exact ⟨t.bare.toList, hm.positional⟩

/-- With a comparison that always turns right, entries stand in the order they came in. -/
example : (after [(fun _ _ => .gt, .insert 5 50), (fun _ _ => .gt, .insert 3 30),
    (fun _ _ => .gt, .insert 4 40)] : OrdMap Nat Nat).entryAt? 1 = .ok (some (3, 30)) := by
  rfl

end OrdMap

end RankedMap
