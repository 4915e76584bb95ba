import Mathlib.Data.Set.Card
import Mathlib.Order.Bounds.Defs
import RankedMap.Proofs.Forest.Placed

/-!
# Following links

What lies below a link is said here in terms of the links alone: `Forest.Under` are the nodes that
are reached from it by going down, `Forest.Way` are the ways down, and `Forest.depths` are the
lengths of those.  For a held tree the nodes under its root are those in its slots (`under_iff`), as
many as its size (`ncard_under`), and the longest way down is its height (`isGreatest_depths`).

In a held tree no link leads to the root and every other node has one link that leads to it
(`Holds.mem_and_ne_root`, `Holds.exists_parent`, `Holds.parent_unique`), and sizes on record get
smaller along every link (`Holds.recordedSize_lt`).
-/

set_option autoImplicit false

namespace RankedMap

namespace Forest

variable {K V : Type}

/-- The nodes that are reached from a link by going down. -/
inductive Under (f : Forest K V) (link : Link) : Handle → Prop
  /-- The node that the link names. -/
  | root {h : Handle} (hl : link = some h) : Under f link h
  /-- A child of a node that is reached. -/
  | child {h h' : Handle} {n : Node K V} (s : Side) (hu : Under f link h)
      (hn : f.live h = some n) (hc : n.child s = some h') : Under f link h'

/-- The ways down from a link, as the nodes on them. -/
inductive Way (f : Forest K V) : Link → List Handle → Prop
  /-- A way may stop anywhere. -/
  | stop (link : Link) : Way f link []
  /-- It goes through a node and on from a child of it. -/
  | down {h : Handle} {n : Node K V} {hs : List Handle} (s : Side) (hn : f.live h = some n)
      (hw : Way f (n.child s) hs) : Way f (some h) (h :: hs)

/-- How many nodes there are on the ways down from a link. -/
def depths (f : Forest K V) (link : Link) : Set Nat := {k | ∃ hs, f.Way link hs ∧ hs.length = k}

/-- The link of a node on a side, if there is such a node. -/
def linkAt (f : Forest K V) (h : Handle) (s : Side) : Link := (f.live h).bind (·.child s)

/-- The size that the node at a handle has on record. -/
def recordedSize (f : Forest K V) (h : Handle) : Nat := (f.live h).elim 0 (·.size.count)

variable {f : Forest K V} {t l r : Placed K V} {h p p' : Handle} {n : Node K V} {k : K} {v : V}
  {s s' : Side}

theorem linkAt_of_live (hn : f.live h = some n) (s : Side) : f.linkAt h s = n.child s := by
  rw [linkAt, hn, Option.bind_some]

/-! ## The node at a handle -/

theorem root_mem_handles (hr : t.root = some h) : h ∈ t.handles := by
  cases t with
  | nil => cases hr
  | node l e v r =>
    obtain ⟨h', k⟩ := e
    cases hr
    simp

/-- The node at a handle of a held tree is the root of a held tree. -/
theorem Holds.exists_node (ht : f.Holds t) (hb : t.Balanced) (hh : h ∈ t.handles) :
    ∃ l k v r, f.Holds (.node l (h, k) v r) ∧ (Tree.node l (h, k) v r).Balanced ∧
      (Tree.node l (h, k) v r).handles.Sublist t.handles := by
  induction t with
  | nil => cases hh
  | node l e v r ihl ihr =>
    obtain ⟨h', k⟩ := e
    obtain ⟨hn, hl, hr⟩ := ht
    obtain ⟨h1, h2, hbl, hbr⟩ := hb
    rw [Tree.handles_node, List.mem_append, List.mem_cons] at hh
    rcases hh with hh | rfl | hh
    · obtain ⟨l', k', v', r', hold, hb', hsub⟩ := ihl hl hbl hh
      rw [Tree.handles_node l]
      exact ⟨l', k', v', r', hold, hb', hsub.trans (List.sublist_append_left _ _)⟩
    · exact ⟨l, k, v, r, ⟨hn, hl, hr⟩, ⟨h1, h2, hbl, hbr⟩, .refl _⟩
    · obtain ⟨l', k', v', r', hold, hb', hsub⟩ := ihr hr hbr hh
      rw [Tree.handles_node l]
      exact ⟨l', k', v', r', hold, hb',
        hsub.trans ((List.sublist_cons_self _ _).trans (List.sublist_append_right _ _))⟩

theorem Holds.linkAt_left (ht : f.Holds (.node l (h, k) v r)) : f.linkAt h .left = l.root := by
  obtain ⟨⟨n, hn, hnt⟩, -, -⟩ := ht
  rw [linkAt_of_live hn, hnt.joins.child_left]

theorem Holds.linkAt_right (ht : f.Holds (.node l (h, k) v r)) : f.linkAt h .right = r.root := by
  obtain ⟨⟨n, hn, hnt⟩, -, -⟩ := ht
  rw [linkAt_of_live hn, hnt.joins.child_right]

theorem Holds.recordedSize_root (ht : f.Holds t) (hr : t.root = some h) :
    f.recordedSize h = t.size := by
  cases t with
  | nil => cases hr
  | node l e v r =>
    obtain ⟨h', k⟩ := e
    cases hr
    obtain ⟨⟨n, hn, hnt⟩, -, -⟩ := ht
    rw [recordedSize, hn]
    exact hnt.size_eq

/-! ## Which links lead where -/

/-- A link of a node of a held tree leads to a node of that tree, which is not its root. -/
theorem Holds.mem_and_ne_root {x : Handle} (ht : f.Holds t) (hd : t.handles.Nodup)
    (hp : p ∈ t.handles) (hx : f.linkAt p s = some x) : x ∈ t.handles ∧ t.root ≠ some x := by
  induction t with
  | nil => cases hp
  | node l e v r ihl ihr =>
    obtain ⟨h, k⟩ := e
    obtain ⟨hdl, hdr, hnl, hnr, -⟩ := Tree.nodup_handles_node.1 hd
    have hm : x ∈ l.handles ∨ x ∈ r.handles := by
      rw [Tree.handles_node, List.mem_append, List.mem_cons] at hp
      rcases hp with hp | rfl | hp
      · exact .inl (ihl ht.2.1 hdl hp).1
      · cases s with
        | left => exact .inl (root_mem_handles (ht.linkAt_left ▸ hx))
        | right => exact .inr (root_mem_handles (ht.linkAt_right ▸ hx))
      · exact .inr (ihr ht.2.2 hdr hp).1
    refine ⟨by rw [Tree.handles_node, List.mem_append, List.mem_cons]; tauto, ?_⟩
    rintro ⟨⟩
    exact hm.elim hnl hnr

/-- Every node of a held tree but its root has a link that leads to it. -/
theorem Holds.exists_parent {x : Handle} (ht : f.Holds t) (hx : x ∈ t.handles)
    (hne : t.root ≠ some x) : ∃ p ∈ t.handles, ∃ s, f.linkAt p s = some x := by
  induction t with
  | nil => cases hx
  | node l e v r ihl ihr =>
    obtain ⟨h, k⟩ := e
    rw [Tree.handles_node, List.mem_append, List.mem_cons] at hx
    rcases hx with hx | rfl | hx
    · by_cases hroot : l.root = some x
      · exact ⟨h, by simp, .left, by rw [ht.linkAt_left, hroot]⟩
      · obtain ⟨p, hp, s, hs⟩ := ihl ht.2.1 hx hroot
        exact ⟨p, by simp [hp], s, hs⟩
    · exact absurd rfl hne
    · by_cases hroot : r.root = some x
      · exact ⟨h, by simp, .right, by rw [ht.linkAt_right, hroot]⟩
      · obtain ⟨p, hp, s, hs⟩ := ihr ht.2.2 hx hroot
        exact ⟨p, by simp [hp], s, hs⟩

/-- The link that leads to a node of the left subtree is the left link of the root, if the node is
the root there, and a link in that subtree otherwise; and so it is on the right. -/
theorem Holds.link_cases {x : Handle} (ht : f.Holds (.node l (h, k) v r))
    (hd : (Tree.node l (h, k) v r).handles.Nodup) (hp : p ∈ (Tree.node l (h, k) v r).handles)
    (hx : f.linkAt p s = some x) :
    x ∈ l.handles ∧ (p = h ∧ s = .left ∧ l.root = some x ∨ p ∈ l.handles ∧ l.root ≠ some x) ∨
      x ∈ r.handles ∧
        (p = h ∧ s = .right ∧ r.root = some x ∨ p ∈ r.handles ∧ r.root ≠ some x) := by
  obtain ⟨hdl, hdr, -⟩ := Tree.nodup_handles_node.1 hd
  rw [Tree.handles_node, List.mem_append, List.mem_cons] at hp
  rcases hp with hp | rfl | hp
  · obtain ⟨hm, hne⟩ := ht.2.1.mem_and_ne_root hdl hp hx
    exact .inl ⟨hm, .inr ⟨hp, hne⟩⟩
  · cases s with
    | left =>
      rw [ht.linkAt_left] at hx
      exact .inl ⟨root_mem_handles hx, .inl ⟨rfl, rfl, hx⟩⟩
    | right =>
      rw [ht.linkAt_right] at hx
      exact .inr ⟨root_mem_handles hx, .inl ⟨rfl, rfl, hx⟩⟩
  · obtain ⟨hm, hne⟩ := ht.2.2.mem_and_ne_root hdr hp hx
    exact .inr ⟨hm, .inr ⟨hp, hne⟩⟩

/-- **No sharing**: two links of a held tree that lead to the same node are one link. -/
theorem Holds.parent_unique {x : Handle} (ht : f.Holds t) (hd : t.handles.Nodup)
    (hp : p ∈ t.handles) (hx : f.linkAt p s = some x) (hp' : p' ∈ t.handles)
    (hx' : f.linkAt p' s' = some x) : p = p' ∧ s = s' := by
  induction t with
  | nil => cases hp
  | node l e v r ihl ihr =>
    obtain ⟨h, k⟩ := e
    obtain ⟨hdl, hdr, -, -, hdis⟩ := Tree.nodup_handles_node.1 hd
    rcases ht.link_cases hd hp hx with ⟨hm, hl⟩ | ⟨hm, hr⟩
    · rcases ht.link_cases hd hp' hx' with ⟨-, hl'⟩ | ⟨hm', -⟩
      · rcases hl with ⟨rfl, rfl, hroot⟩ | ⟨hp, hne⟩ <;>
          rcases hl' with ⟨rfl, rfl, hroot'⟩ | ⟨hp', hne'⟩
        · exact ⟨rfl, rfl⟩
        · exact absurd hroot hne'
        · exact absurd hroot' hne
        · exact ihl ht.2.1 hdl hp hp'
      · exact (hdis hm hm').elim
    · rcases ht.link_cases hd hp' hx' with ⟨hm', -⟩ | ⟨-, hr'⟩
      · exact (hdis hm' hm).elim
      · rcases hr with ⟨rfl, rfl, hroot⟩ | ⟨hp, hne⟩ <;>
          rcases hr' with ⟨rfl, rfl, hroot'⟩ | ⟨hp', hne'⟩
        · exact ⟨rfl, rfl⟩
        · exact absurd hroot hne'
        · exact absurd hroot' hne
        · exact ihr ht.2.2 hdr hp hp'

/-- **No cycle**: along a link the size on record gets smaller. -/
theorem Holds.recordedSize_lt {x : Handle} (ht : f.Holds t) (hb : t.Balanced)
    (hp : p ∈ t.handles) (hx : f.linkAt p s = some x) : f.recordedSize x < f.recordedSize p := by
  obtain ⟨l, k, v, r, hold, -, -⟩ := ht.exists_node hb hp
  rw [hold.recordedSize_root rfl, Tree.size]
  cases s with
  | left =>
    rw [hold.2.1.recordedSize_root (hold.linkAt_left ▸ hx)]
    omega
  | right =>
    rw [hold.2.2.recordedSize_root (hold.linkAt_right ▸ hx)]
    omega

/-! ## What lies below -/

theorem Under.of_child {link : Link} (hp : f.Under link p) (hn : f.live p = some n) (s : Side)
    (hu : f.Under (n.child s) h) : f.Under link h := by
  induction hu with
  | root hl => exact .child s hp hn hl
  | child s' _ hn' hc ih => exact .child s' ih hn' hc

/-- The nodes under the root of a held tree are those in its slots. -/
theorem under_iff (ht : f.Holds t) (hd : t.handles.Nodup) :
    f.Under t.root h ↔ h ∈ t.handles := by
  constructor
  · intro hu
    induction hu with
    | root hl => exact root_mem_handles hl
    | child s _ hn hc ih =>
      exact (ht.mem_and_ne_root hd ih ((linkAt_of_live hn s).trans hc)).1
  · intro hh
    induction t with
    | nil => cases hh
    | node l e v r ihl ihr =>
      obtain ⟨h', k⟩ := e
      obtain ⟨⟨n, hn, hnt⟩, hl, hr⟩ := ht
      have hleft := hnt.joins.child_left
      have hright := hnt.joins.child_right
      obtain ⟨hdl, hdr, -⟩ := Tree.nodup_handles_node.1 hd
      rw [Tree.handles_node, List.mem_append, List.mem_cons] at hh
      rcases hh with hh | rfl | hh
      · exact .of_child (.root rfl) hn .left (hleft ▸ ihl hl hdl hh)
      · exact .root rfl
      · exact .of_child (.root rfl) hn .right (hright ▸ ihr hr hdr hh)

/-- They are as many as the tree has nodes. -/
theorem ncard_under (ht : f.Holds t) (hd : t.handles.Nodup) :
    {h | f.Under t.root h}.ncard = t.size := by
  have hset : {h | f.Under t.root h} = ↑t.handles.toFinset := by
    ext h
    rw [Set.mem_ofPred_eq, under_iff ht hd, List.coe_toFinset, Set.mem_ofPred_eq]
  rw [hset, Set.ncard_coe_finset, List.toFinset_card_of_nodup hd, Tree.length_handles]

theorem exists_way (ht : f.Holds t) : ∃ hs, f.Way t.root hs ∧ hs.length = t.height := by
  induction t with
  | nil => exact ⟨[], .stop _, rfl⟩
  | node l e v r ihl ihr =>
    obtain ⟨h, k⟩ := e
    obtain ⟨⟨n, hn, hnt⟩, hl, hr⟩ := ht
    have hleft := hnt.joins.child_left
    have hright := hnt.joins.child_right
    rcases Nat.le_total l.height r.height with hle | hle
    · obtain ⟨hs, hw, hlen⟩ := ihr hr
      refine ⟨h :: hs, .down .right hn (hright ▸ hw), ?_⟩
      rw [List.length_cons, hlen, Tree.height, Nat.max_eq_right hle]
    · obtain ⟨hs, hw, hlen⟩ := ihl hl
      refine ⟨h :: hs, .down .left hn (hleft ▸ hw), ?_⟩
      rw [List.length_cons, hlen, Tree.height, Nat.max_eq_left hle]

theorem length_le_of_way (ht : f.Holds t) {hs : List Handle} (hw : f.Way t.root hs) :
    hs.length ≤ t.height := by
  induction t generalizing hs with
  | nil =>
    cases hw
    exact Nat.zero_le _
  | node l e v r ihl ihr =>
    obtain ⟨h, k⟩ := e
    obtain ⟨⟨n, hn, hnt⟩, hl, hr⟩ := ht
    have hleft := hnt.joins.child_left
    have hright := hnt.joins.child_right
    rw [Tree.height]
    cases hw with
    | stop => exact Nat.zero_le _
    | down s hn' hw =>
      cases hn.symm.trans hn'
      rw [List.length_cons]
      cases s with
      | left =>
        have := ihl hl (hleft ▸ hw)
        omega
      | right =>
        have := ihr hr (hright ▸ hw)
        omega

/-- The longest way down a held tree is its height. -/
theorem isGreatest_depths (ht : f.Holds t) : IsGreatest (f.depths t.root) t.height :=
  ⟨exists_way ht, fun _ ⟨_, hw, hlen⟩ => hlen ▸ length_le_of_way ht hw⟩

end Forest

end RankedMap
