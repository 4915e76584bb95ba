import Mathlib.Logic.Relation
import RankedMap.Proofs.Forest.Links
import RankedMap.Proofs.OrdMap.Machine

/-!
# What holds of every map

The invariant `Embodies` speaks of a tree that the map has been found to embody.  Here its
consequences are stated in terms of slots, links and records alone, for every map that a run from a
new map ends in, whatever the comparisons were: the records are true and every node is balanced
(`records_after`), and the links form one tree over the occupied slots (`wellLinked_after`).
-/

set_option autoImplicit false

namespace RankedMap

namespace Forest

variable {K V : Type}

/-- A node has its true size and height on record, and its two subtrees are about equally high. -/
structure Accurate (f : Forest K V) (h : Handle) (n : Node K V) : Prop where
  /-- The size on record is the number of nodes that lie below. -/
  size_eq : n.size.count = {x | f.Under (some h) x}.ncard
  /-- The height on record is the length of the longest way down. -/
  isGreatest_height : IsGreatest (f.depths (some h)) n.height.levels
  /-- The heights of the two subtrees differ by at most one. -/
  balanced : ∃ a b, IsGreatest (f.depths n.left) a ∧ IsGreatest (f.depths n.right) b ∧
    a ≤ b + 1 ∧ b ≤ a + 1

theorem Holds.accurate {f : Forest K V} {t : Placed K V} {h : Handle} (ht : f.Holds t)
    (hb : t.Balanced) (hd : t.handles.Nodup) (hh : h ∈ t.handles) :
    ∃ n, f.live h = some n ∧ f.Accurate h n := by
  obtain ⟨l, k, v, r, hold, ⟨h1, h2, -, -⟩, hsub⟩ := ht.exists_node hb hh
  obtain ⟨⟨n, hn, hnt⟩, hl, hr⟩ := id hold
  obtain ⟨-, -, hleft, hright⟩ := hnt.joins
  refine ⟨n, hn, ?_, ?_, l.height, r.height, ?_, ?_, h1, h2⟩
  · rw [hnt.size_eq]
    exact (ncard_under hold (hd.sublist hsub)).symm
  · rw [hnt.height_eq]
    exact isGreatest_depths hold
  · rw [hleft]
    exact isGreatest_depths hl
  · rw [hright]
    exact isGreatest_depths hr

end Forest

namespace OrdMap

variable {K V : Type}

/-- **Records are true.**  After any run, every node under the root has its true size and height on
record and is balanced, and the size and the height that the map answers are those of the whole
tree. -/
theorem records_after (commands : List ((K → K → Ordering) × Command K V)) :
    (∀ h, (after commands).nodes.Under (after commands).root h →
      ∃ n, (after commands).nodes.live h = some n ∧ (after commands).nodes.Accurate h n) ∧
    (after commands).size =
      .ok {h | (after commands).nodes.Under (after commands).root h}.ncard ∧
    ∃ k, (after commands).height = .ok k ∧
      IsGreatest ((after commands).nodes.depths (after commands).root) k := by
  obtain ⟨t, hm⟩ := exists_embodies_after commands
  rw [hm.root_eq]
  refine ⟨?_, ?_, t.height, ?_, Forest.isGreatest_depths hm.holds⟩
  · intro h hu
    exact hm.holds.accurate hm.balanced hm.nodup ((Forest.under_iff hm.holds hm.nodup).1 hu)
  · rw [hm.size_eq, Tree.size_bare, Forest.ncard_under hm.holds hm.nodup]
  · rw [hm.height_eq, Tree.height_bare]

/-! ## Links -/

/-- Where a link of a map is kept. -/
inductive Place where
  /-- In the map itself. -/
  | root
  /-- In a node, on one side. -/
  | child (parent : Handle) (side : Side)

/-- The link at a place; there is none in a vacant slot. -/
def linkAt (m : OrdMap K V) : Place → Link
  | .root => m.root
  | .child parent side => m.nodes.linkAt parent side

/-- The links of a map form one tree over its occupied slots, and all other slots are free. -/
structure WellLinked (m : OrdMap K V) : Prop where
  /-- Every link names an occupied slot. -/
  occupied : ∀ place h, m.linkAt place = some h → m.nodes.live h ≠ none
  /-- Every occupied slot is named by exactly one link. -/
  existsUnique_place : ∀ h, m.nodes.live h ≠ none → ∃! place, m.linkAt place = some h
  /-- The occupied slots are those that are reached from the root. -/
  under_root : ∀ h, m.nodes.Under m.root h ↔ m.nodes.live h ≠ none
  /-- No way down leads back to where it started. -/
  acyclic : ∀ h, ¬Relation.TransGen (fun p x => ∃ side, m.nodes.linkAt p side = some x) h h
  /-- Every slot has a handle. -/
  slots_le : m.nodes.slots.size ≤ Size.maxCount
  /-- No handle was freed twice. -/
  free_nodup : m.nodes.free.toList.Nodup
  /-- The freed handles are those of the vacant slots. -/
  mem_free : ∀ h, h ∈ m.nodes.free ↔ h.index < m.nodes.slots.size ∧ m.nodes.live h = none
  /-- There are as many occupied slots as entries. -/
  size_eq : m.size = .ok m.nodes.size

namespace Embodies

variable {m : OrdMap K V} {t : Placed K V} {h p : Handle} {s : Side}

theorem live_ne_none_iff (hm : m.Embodies t) : m.nodes.live h ≠ none ↔ h ∈ t.handles :=
  ⟨hm.mem_handles h, hm.holds.live_ne_none⟩

/-- Only nodes of the tree have links. -/
theorem mem_handles_of_linkAt (hm : m.Embodies t) (hx : m.nodes.linkAt p s = some h) :
    p ∈ t.handles := by
  refine hm.mem_handles p ?_
  intro hp
  rw [Forest.linkAt, hp] at hx
  cases hx

theorem existsUnique_place (hm : m.Embodies t) (hh : h ∈ t.handles) :
    ∃! place, m.linkAt place = some h := by
  by_cases hroot : t.root = some h
  · refine ⟨.root, hm.root_eq.trans hroot, ?_⟩
    rintro (_ | ⟨p, s⟩) hx
    · rfl
    · exact absurd hroot
        (hm.holds.mem_and_ne_root hm.nodup (hm.mem_handles_of_linkAt hx) hx).2
  · obtain ⟨p, hp, s, hs⟩ := hm.holds.exists_parent hh hroot
    refine ⟨.child p s, hs, ?_⟩
    rintro (_ | ⟨p', s'⟩) hx
    · exact absurd (hm.root_eq.symm.trans hx) hroot
    · obtain ⟨rfl, rfl⟩ :=
        hm.holds.parent_unique hm.nodup (hm.mem_handles_of_linkAt hx) hx hp hs
      rfl

theorem recordedSize_lt_of_transGen (hm : m.Embodies t)
    (hw : Relation.TransGen (fun p x => ∃ side, m.nodes.linkAt p side = some x) p h) :
    m.nodes.recordedSize h < m.nodes.recordedSize p := by
  have hstep : ∀ {p x s}, m.nodes.linkAt p s = some x →
      m.nodes.recordedSize x < m.nodes.recordedSize p := fun hx =>
    hm.holds.recordedSize_lt hm.balanced (hm.mem_handles_of_linkAt hx) hx
  induction hw with
  | single hx => exact hstep hx.choose_spec
  | tail _ hx ih => exact (hstep hx.choose_spec).trans ih

theorem wellLinked (hm : m.Embodies t) : m.WellLinked where
  occupied := by
    rintro (_ | ⟨p, s⟩) h hx
    · exact hm.live_ne_none_iff.2 (Forest.root_mem_handles (hm.root_eq.symm.trans hx))
    · exact hm.live_ne_none_iff.2
        (hm.holds.mem_and_ne_root hm.nodup (hm.mem_handles_of_linkAt hx) hx).1
  existsUnique_place h hh := hm.existsUnique_place (hm.mem_handles h hh)
  under_root h := by rw [hm.root_eq, Forest.under_iff hm.holds hm.nodup, hm.live_ne_none_iff]
  acyclic h hw := Nat.lt_irrefl _ (hm.recordedSize_lt_of_transGen hw)
  slots_le := hm.sound.slots_le
  free_nodup := hm.sound.free_nodup
  mem_free := hm.sound.mem_free
  size_eq := by rw [hm.size_eq, Tree.size_bare, hm.nodes_size]

end Embodies

/-- **One tree over the occupied slots.**  After any run, nothing is leaked, shared or dangling. -/
theorem wellLinked_after (commands : List ((K → K → Ordering) × Command K V)) :
    (after commands).WellLinked :=
  let ⟨_, hm⟩ := exists_embodies_after commands
  hm.wellLinked

end OrdMap

end RankedMap
