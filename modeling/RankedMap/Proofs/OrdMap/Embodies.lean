import RankedMap.OrdMap.Basic
import RankedMap.Proofs.Forest.Watched

/-!
# Which tree a map embodies

`OrdMap.Embodies m t` is the invariant of maps: the forest of `m` holds the placed tree `t` at the
root, `t` is balanced, takes up every occupied slot and each only once, and the arena is sound.  No
question fails for such a map, and every answer can be read off the tree without its slots
(`Tree.bare`): an entry with a key is where `Tree.landing` says, and the entry at a position is the
one at that position in the sequence of entries.

Nothing is said of the order of keys, and nothing is asked of the comparison.
-/

set_option autoImplicit false

namespace RankedMap

/-- Lists are `==` when they have the same length and what is at each position is `==`. -/
theorem beq_eq_all_range {α : Type} [BEq α] (xs ys : List α) :
    (xs == ys) = (xs.length == ys.length &&
      (List.range xs.length).all fun i => xs[i]? == ys[i]?) := by
  induction xs generalizing ys with
  | nil => cases ys <;> rfl
  | cons x xs ih =>
    cases ys with
    | nil => rfl
    | cons y ys =>
      have hlen : (xs.length + 1 == ys.length + 1) = (xs.length == ys.length) := by
        rw [Bool.eq_iff_iff, beq_iff_eq, beq_iff_eq, Nat.add_right_cancel_iff]
      rw [List.cons_beq_cons, ih ys, List.length_cons, List.length_cons, List.range_succ_eq_map,
        List.all_cons, List.all_map, hlen, ← Bool.and_assoc, ← Bool.and_assoc,
        Bool.and_comm (x == y)]
      rfl

namespace OrdMap

variable {K V : Type}

/-- The nodes of a map form one placed tree under its root, and it is balanced. -/
structure Embodies (m : OrdMap K V) (t : Placed K V) : Prop where
  /-- The root of the map is that of the tree. -/
  root_eq : m.root = t.root
  /-- Every node is in its slot, with the right links and records. -/
  holds : m.nodes.Holds t
  /-- No slot is used twice. -/
  nodup : t.handles.Nodup
  /-- The tree is balanced. -/
  balanced : t.Balanced
  /-- Every occupied slot is used. -/
  mem_handles : ∀ h, m.nodes.live h ≠ none → h ∈ t.handles
  /-- The freed handles are the vacant slots. -/
  sound : m.nodes.Sound

variable {m : OrdMap K V} {t : Placed K V} {cmp : K → K → Ordering} {key : K} {value : V}

/-- A map with no slots embodies the empty tree. -/
theorem embodies_nil (hr : m.root = none) (hs : m.nodes.slots = #[]) (hf : m.nodes.free = #[]) :
    m.Embodies .nil where
  root_eq := hr
  holds := trivial
  nodup := List.nodup_nil
  balanced := trivial
  mem_handles h hh := absurd (Arena.live_of_slots_eq_empty hs h) hh
  sound := Arena.sound_of_slots_eq_empty hs hf

namespace Embodies

theorem copy (hm : m.Embodies t) : m.copy.Embodies t where
  root_eq := hm.root_eq
  holds := hm.holds.congr fun _ _ => rfl
  nodup := hm.nodup
  balanced := hm.balanced
  mem_handles := hm.mem_handles
  sound := hm.sound.copy

/-! ## The whole map -/

/-- The occupied slots are as many as the entries. -/
theorem nodes_size (hm : m.Embodies t) : m.nodes.size = t.size := by
  rw [← Tree.length_handles]
  exact hm.sound.size_eq hm.nodup fun h => ⟨hm.holds.live_ne_none, hm.mem_handles h⟩

theorem size_le (hm : m.Embodies t) : t.size ≤ Size.maxCount := Tree.size_le_maxCount hm.nodup

/-- There are enough steps for every way down. -/
theorem height_le_stepLimit (hm : m.Embodies t) : t.height ≤ m.nodes.stepLimit :=
  hm.holds.height_le_stepLimit hm.nodup

theorem size_eq (hm : m.Embodies t) : m.size = .ok t.bare.size := by
  obtain ⟨n, hn, hcount⟩ := Forest.sizeAt_root hm.holds
  rw [Tree.size_bare, ← hcount, OrdMap.size, hm.root_eq, hn]
  rfl

theorem height_eq (hm : m.Embodies t) : m.height = .ok t.bare.height := by
  obtain ⟨n, hn, hlevels⟩ := Forest.heightAt_root hm.holds
  rw [Tree.height_bare, ← hlevels, OrdMap.height, hm.root_eq, hn]
  rfl

theorem isEmpty_eq (hm : m.Embodies t) : m.isEmpty = t.bare.toList.isEmpty := by
  rw [isEmpty, hm.root_eq]
  cases t with
  | nil => rfl
  | node => simp [Tree.root, Tree.toList_bare, Tree.toList]

/-- No slot is lost. -/
theorem audit_eq (hm : m.Embodies t) (leaked : (slots nodes : Nat) → Fault) :
    m.audit leaked = .ok () := by
  rw [audit, hm.size_eq, Tree.size_bare, ← hm.nodes_size]
  exact if_pos rfl

theorem tree_eq (hm : m.Embodies t) : m.tree = t.bare := by
  rw [tree, Forest.tree, hm.root_eq]
  exact Forest.treeTo_holds hm.holds hm.height_le_stepLimit

theorem fold_eq {β : Type} (hm : m.Embodies t) (take : β → K → V → β) (start : β) :
    m.fold take start = .ok (t.bare.toList.foldl (fun acc e => take acc e.1 e.2) start) := by
  rw [fold, hm.root_eq]
  exact Forest.visit_holds hm.holds hm.height_le_stepLimit take start

/-! ## Looking up -/

theorem locate_eq (hm : m.Embodies t) :
    m.locate cmp key = .ok ((t.bare.landing cmp key).hit?.bind fun r => t.handles[r]?) := by
  rw [locate, hm.root_eq]
  exact Forest.locate_holds hm.holds hm.height_le_stepLimit

theorem path_eq (hm : m.Embodies t) : m.path cmp key = .ok (t.bare.path cmp key) := by
  rw [path, hm.root_eq]
  exact Forest.path_holds hm.holds hm.height_le_stepLimit

theorem select_eq (hm : m.Embodies t) (rank : Nat) : m.select rank = .ok t.handles[rank]? := by
  rw [select, hm.root_eq]
  exact Forest.select_holds hm.holds hm.height_le_stepLimit rank

theorem rank?_eq (hm : m.Embodies t) :
    m.rank? cmp key = .ok (t.bare.landing cmp key).hit? := by
  rw [rank?, hm.root_eq, Forest.rankOf_holds hm.holds hm.height_le_stepLimit]
  simp

/-- The node at a position holds the entry there. -/
theorem live_of_getElem? (hm : m.Embodies t) {rank : Nat} {h : Handle}
    (hh : t.handles[rank]? = some h) :
    ∃ n, m.nodes.live h = some n ∧ t.bare.toList[rank]? = some n.entry := by
  rw [Tree.handles, List.getElem?_map, Option.map_eq_some_iff] at hh
  obtain ⟨⟨⟨h', k⟩, v⟩, he, rfl⟩ := hh
  obtain ⟨n, hn, rfl, rfl⟩ := hm.holds.live_of_mem (List.mem_of_getElem? he)
  refine ⟨n, hn, ?_⟩
  rw [Tree.toList_bare, List.getElem?_map, he]
  rfl

theorem entryOf_eq (hm : m.Embodies t) (rank : Nat) :
    m.entryOf t.handles[rank]? = .ok t.bare.toList[rank]? := by
  cases hh : t.handles[rank]? with
  | none =>
    rw [List.getElem?_eq_none_iff, Tree.length_handles] at hh
    rw [List.getElem?_eq_none (by simpa using hh)]
    rfl
  | some h =>
    obtain ⟨n, hn, he⟩ := hm.live_of_getElem? hh
    rw [he, entryOf]
    simp only [Arena.get_eq_ok.2 hn]
    rfl

theorem entryAt?_eq (hm : m.Embodies t) (rank : Nat) :
    m.entryAt? rank = .ok t.bare.toList[rank]? := by
  rw [entryAt?, hm.select_eq]
  exact hm.entryOf_eq rank

theorem find?_eq (hm : m.Embodies t) : m.find? cmp key = .ok (t.bare.find? cmp key) := by
  rw [find?, hm.locate_eq, Tree.find?]
  cases (t.bare.landing cmp key).hit? with
  | none => rfl
  | some rank => exact hm.entryOf_eq rank

theorem get?_eq (hm : m.Embodies t) :
    m.get? cmp key = .ok ((t.bare.find? cmp key).map (·.2)) := by
  rw [get?, hm.find?_eq]
  rfl

theorem contains_eq (hm : m.Embodies t) :
    m.contains cmp key = .ok (t.bare.find? cmp key).isSome := by
  rw [contains, hm.locate_eq, Tree.find?]
  cases (t.bare.landing cmp key).hit? with
  | none => rfl
  | some rank =>
    rw [Option.bind_some, Option.bind_some, Tree.handles, Tree.toList_bare]
    cases h : t.toList[rank]? <;> simp [h, bind, Except.bind, pure, Except.pure]

theorem contains_eq_true (hm : m.Embodies t) :
    m.contains cmp key = .ok true ↔ ∃ e, t.bare.find? cmp key = some e := by
  rw [hm.contains_eq, Except.ok.injEq, Option.isSome_iff_exists]

theorem contains_eq_false (hm : m.Embodies t) :
    m.contains cmp key = .ok false ↔ t.bare.find? cmp key = none := by
  rw [hm.contains_eq, Except.ok.injEq, Option.isSome_eq_false_iff, Option.isNone_iff_eq_none]

theorem first?_eq (hm : m.Embodies t) : m.first? = .ok t.bare.toList.head? := by
  rw [first?, hm.entryAt?_eq, List.head?_eq_getElem?]

theorem last?_eq (hm : m.Embodies t) : m.last? = .ok t.bare.toList.getLast? := by
  rw [last?, hm.size_eq, List.getLast?_eq_getElem?, Tree.length_toList]
  cases hs : t.bare.size with
  | zero => rw [List.getElem?_eq_none (by simp [hs])]; rfl
  | succ n => exact hm.entryAt?_eq n

theorem get_eq (hm : m.Embodies t) :
    m.get cmp key = ((t.bare.find? cmp key).map (·.2)).elim (.error .keyNotFound) .ok := by
  rw [get, hm.get?_eq]
  cases (t.bare.find? cmp key).map (·.2) <;> rfl

theorem getAt_eq (hm : m.Embodies t) (rank : Rank) :
    m.getAt rank =
      (t.bare.toList[rank.position]?.map (·.2)).elim (.error .rankOutOfBounds) .ok := by
  rw [getAt, hm.entryAt?_eq]
  cases t.bare.toList[rank.position]? <;> rfl

/-! ## Comparing and writing maps -/

/-- Maps are the same when their entries are `==` one by one. -/
theorem sameEntries_eq [BEq K] [BEq V] {m' : OrdMap K V} {t' : Placed K V}
    (hm : m.Embodies t) (hm' : m'.Embodies t') :
    m.sameEntries m' = .ok (t.bare.toList == t'.bare.toList) := by
  have hsame : m.sameEntries m' =
      if t.bare.size = t'.bare.size then
        (List.range t.bare.size).allM fun rank =>
          pure (t.bare.toList[rank]? == t'.bare.toList[rank]?)
      else pure false := by
    rw [sameEntries, hm.size_eq, hm'.size_eq]
    simp only [hm.entryAt?_eq, hm'.entryAt?_eq]
    rfl
  rw [hsame, beq_eq_all_range, ← Tree.length_toList, ← Tree.length_toList]
  by_cases hlen : t.bare.toList.length = t'.bare.toList.length
  · rw [if_pos hlen, List.allM_pure, beq_iff_eq.2 hlen]
    rfl
  · rw [if_neg hlen, beq_eq_false_iff_ne.2 hlen]
    rfl

/-- The text of a map is that of its entries, in their order. -/
theorem text_eq (hm : m.Embodies t) (layout : Layout) (writeKey : K → String)
    (writeValue : V → String) :
    m.text layout writeKey writeValue = .ok (layout.enclose "\x7b" "\x7d"
      (t.bare.toList.map fun e => writeKey e.1 ++ ": " ++ writeValue e.2)) := by
  rw [text, hm.fold_eq]
  simp [bind, Except.bind, pure, Except.pure]

end Embodies

end OrdMap

end RankedMap
