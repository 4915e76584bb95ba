import RankedMap.Proofs.Forest.Links

/-!
# Ways down

A list of nodes descends from a link (`Forest.Descends`) when it begins with the node that the link
names and goes on from each node to a child of it: it is the beginning of a way down to a leaf.  In a
held tree heights on record get smaller along every link (`Holds.recordedHeight_lt`), so there is one
node a level, no node twice, and no more of them than the height of the tree (`Holds.descends`).

The keys that a key is compared with are those of the nodes on one such way (`Tree.trail`,
`Holds.way_trail`), whatever the comparison is.
-/

set_option autoImplicit false

namespace RankedMap

namespace Tree

variable {K V : Type}

/-- The nodes where a key is compared when it is looked for, with their keys.  The key has no slot of
its own, so any handle will do for it. -/
def stations (cmp : K → K → Ordering) (key : K) (t : Placed K V) : List (Handle × K) :=
  t.path (byKey cmp) (⟨0, Nat.zero_le _⟩, key)

/-- The nodes where a key is compared when it is looked for. -/
def trail (cmp : K → K → Ordering) (key : K) (t : Placed K V) : List Handle :=
  (t.stations cmp key).map Prod.fst

theorem path_bare (cmp : K → K → Ordering) (key : K) (t : Placed K V) :
    t.bare.path cmp key = (t.stations cmp key).map Prod.snd :=
  path_mapKeys Prod.snd cmp ((⟨0, Nat.zero_le _⟩ : Handle), key) t

theorem stations_node (cmp : K → K → Ordering) (key : K) (l r : Placed K V) (h : Handle) (k : K)
    (v : V) :
    stations cmp key (node l (h, k) v r) = match cmp key k with
      | .lt => (h, k) :: l.stations cmp key
      | .eq => [(h, k)]
      | .gt => (h, k) :: r.stations cmp key := rfl

theorem trail_node (cmp : K → K → Ordering) (key : K) (l r : Placed K V) (h : Handle) (k : K)
    (v : V) :
    trail cmp key (node l (h, k) v r) = match cmp key k with
      | .lt => h :: l.trail cmp key
      | .eq => [h]
      | .gt => h :: r.trail cmp key := by
  rw [trail, stations_node]
  cases cmp key k <;> rfl

end Tree

namespace Forest

variable {K V : Type}

/-- The height that the node at a handle has on record. -/
def recordedHeight (f : Forest K V) (h : Handle) : Nat := (f.live h).elim 0 (·.height.levels)

/-- The ways from a link down to a leaf, as the nodes on them. -/
inductive FullWay (f : Forest K V) : Link → List Handle → Prop
  /-- There is no node on the way down from no link. -/
  | nil : FullWay f none []
  /-- A way ends at a node without children. -/
  | leaf {h : Handle} {n : Node K V} (hn : f.live h = some n) (hleft : n.left = none)
      (hright : n.right = none) : FullWay f (some h) [h]
  /-- It goes through a node and on from a child of it. -/
  | down {h : Handle} {n : Node K V} {hs : List Handle} (s : Side) (hn : f.live h = some n)
      (hc : n.child s ≠ none) (hw : FullWay f (n.child s) hs) : FullWay f (some h) (h :: hs)

/-- The nodes are on one way down from a link, from its beginning and one a level. -/
structure Descends (f : Forest K V) (link : Link) (hs : List Handle) : Prop where
  /-- The way begins at the link. -/
  head?_eq : hs.head? = link
  /-- It is the beginning of a way down to a leaf. -/
  exists_full : ∃ full, f.FullWay link full ∧ hs <+: full
  /-- Every node on it has a greater height on record than those that follow. -/
  pairwise : hs.Pairwise fun p h => f.recordedHeight h < f.recordedHeight p
  /-- No node is on it twice. -/
  nodup : hs.Nodup
  /-- There are no more nodes on it than the height that the link has on record. -/
  length_le : ∀ height, f.heightAt link = .ok height → hs.length ≤ height.levels

variable {f : Forest K V} {t l r : Placed K V} {h p x : Handle} {n : Node K V} {k : K} {v : V}
  {s : Side} {hs : List Handle}

/-! ## Heights along links -/

theorem Holds.recordedHeight_root (ht : f.Holds t) (hr : t.root = some h) :
    f.recordedHeight h = t.height := by
  cases t with
  | nil => cases hr
  | node l e v r =>
    obtain ⟨h', k⟩ := e
    cases hr
    obtain ⟨⟨n, hn, hnt⟩, -, -⟩ := ht
    rw [recordedHeight, hn]
    exact hnt.height_eq

/-- Along a link the height on record gets smaller. -/
theorem Holds.recordedHeight_lt (ht : f.Holds t) (hb : t.Balanced) (hp : p ∈ t.handles)
    (hx : f.linkAt p s = some x) : f.recordedHeight x < f.recordedHeight p := by
  obtain ⟨l, k, v, r, hold, -, -⟩ := ht.exists_node hb hp
  rw [hold.recordedHeight_root rfl, Tree.height]
  cases s with
  | left =>
    rw [hold.2.1.recordedHeight_root (hold.linkAt_left ▸ hx)]
    omega
  | right =>
    rw [hold.2.2.recordedHeight_root (hold.linkAt_right ▸ hx)]
    omega

/-! ## Ways down a held tree -/

/-- A way down a held tree goes through its root and on in one of its two subtrees. -/
theorem Holds.way_node_iff (ht : f.Holds (.node l (h, k) v r)) :
    f.Way (some h) hs ↔ hs = [] ∨ ∃ rest, hs = h :: rest ∧ (f.Way l.root rest ∨ f.Way r.root rest) := by
  obtain ⟨⟨n, hn, hnt⟩, -, -⟩ := ht
  have hleft := hnt.joins.child_left
  have hright := hnt.joins.child_right
  constructor
  · intro hw
    cases hw with
    | stop => exact .inl rfl
    | down s hn' hw =>
      cases hn.symm.trans hn'
      cases s with
      | left => exact .inr ⟨_, rfl, .inl (hleft ▸ hw)⟩
      | right => exact .inr ⟨_, rfl, .inr (hright ▸ hw)⟩
  · rintro (rfl | ⟨rest, rfl, hw | hw⟩)
    · exact .stop _
    · exact .down .left hn (hleft.symm ▸ hw)
    · exact .down .right hn (hright.symm ▸ hw)

theorem way_none : f.Way none hs ↔ hs = [] := by
  constructor
  · rintro ⟨⟩
    rfl
  · rintro rfl
    exact .stop _

/-- Which ways there are down a tree does not depend on the forest that holds it. -/
theorem Holds.way_of_holds {f' : Forest K V} (ht : f.Holds t) (ht' : f'.Holds t)
    (hw : f.Way t.root hs) : f'.Way t.root hs := by
  induction t generalizing hs with
  | nil =>
    rw [Tree.root, way_none] at hw
    exact hw ▸ .stop _
  | node l e v r ihl ihr =>
    obtain ⟨h, k⟩ := e
    refine ht'.way_node_iff.2 ((ht.way_node_iff.1 hw).imp_right ?_)
    rintro ⟨rest, rfl, hrest⟩
    exact ⟨rest, rfl, hrest.imp (ihl ht.2.1 ht'.2.1) (ihr ht.2.2 ht'.2.2)⟩

/-- The nodes on a way have no greater heights on record than the tree. -/
theorem Holds.recordedHeight_le (ht : f.Holds t) (hw : f.Way t.root hs) (hx : x ∈ hs) :
    f.recordedHeight x ≤ t.height := by
  induction t generalizing hs with
  | nil =>
    rw [Tree.root, way_none] at hw
    subst hw
    cases hx
  | node l e v r ihl ihr =>
    obtain ⟨h, k⟩ := e
    obtain rfl | ⟨rest, rfl, hrest⟩ := ht.way_node_iff.1 hw
    · cases hx
    rcases List.mem_cons.1 hx with rfl | hx
    · rw [ht.recordedHeight_root rfl]
    · rw [Tree.height]
      rcases hrest with hrest | hrest
      · have hle := ihl ht.2.1 hrest hx
        omega
      · have hle := ihr ht.2.2 hrest hx
        omega

theorem Holds.pairwise_way (ht : f.Holds t) (hw : f.Way t.root hs) :
    hs.Pairwise fun p h => f.recordedHeight h < f.recordedHeight p := by
  induction t generalizing hs with
  | nil =>
    rw [Tree.root, way_none] at hw
    subst hw
    exact .nil
  | node l e v r ihl ihr =>
    obtain ⟨h, k⟩ := e
    obtain rfl | ⟨rest, rfl, hrest⟩ := ht.way_node_iff.1 hw
    · exact .nil
    rw [List.pairwise_cons, ht.recordedHeight_root rfl, Tree.height]
    rcases hrest with hrest | hrest
    · refine ⟨?_, ihl ht.2.1 hrest⟩
      intro x hx
      have hle := ht.2.1.recordedHeight_le hrest hx
      omega
    · refine ⟨?_, ihr ht.2.2 hrest⟩
      intro x hx
      have hle := ht.2.2.recordedHeight_le hrest hx
      omega

/-- Every way can be continued down to a leaf. -/
theorem Holds.exists_full (ht : f.Holds t) (hw : f.Way t.root hs) :
    ∃ full, f.FullWay t.root full ∧ hs <+: full := by
  induction t generalizing hs with
  | nil =>
    rw [Tree.root, way_none] at hw
    exact ⟨[], .nil, hw ▸ List.prefix_refl _⟩
  | node l e v r ihl ihr =>
    obtain ⟨h, k⟩ := e
    obtain ⟨⟨n, hn, hnt⟩, hl, hr⟩ := id ht
    have hleft := hnt.joins.child_left
    have hright := hnt.joins.child_right
    -- a way into an empty subtree is continued in the other one
    have hfull : ∀ (rest : List Handle) (s : Side) (c : Placed K V), n.child s = c.root →
        c.root ≠ none → (∃ full, f.FullWay c.root full ∧ rest <+: full) →
        ∃ full, f.FullWay (some h) full ∧ h :: rest <+: full := by
      rintro rest s c hc hne ⟨full, hfull, hprefix⟩
      exact ⟨h :: full, .down s hn (hc ▸ hne) (hc.symm ▸ hfull), List.cons_prefix_cons.2 ⟨rfl, hprefix⟩⟩
    have hends : ∃ full, f.FullWay (some h) full ∧ [h] <+: full := by
      by_cases hnl : l.root = none
      · by_cases hnr : r.root = none
        · exact ⟨[h], .leaf hn (hleft.trans hnl) (hright.trans hnr), List.prefix_refl _⟩
        · exact hfull [] .right r hright hnr (ihr hr (.stop _))
      · exact hfull [] .left l hleft hnl (ihl hl (.stop _))
    obtain rfl | ⟨rest, rfl, hrest⟩ := ht.way_node_iff.1 hw
    · obtain ⟨full, hfull, -⟩ := hends
      exact ⟨full, hfull, List.nil_prefix⟩
    rcases hrest with hrest | hrest
    · by_cases hnl : l.root = none
      · rw [hnl, way_none] at hrest
        exact hrest ▸ hends
      · exact hfull rest .left l hleft hnl (ihl hl hrest)
    · by_cases hnr : r.root = none
      · rw [hnr, way_none] at hrest
        exact hrest ▸ hends
      · exact hfull rest .right r hright hnr (ihr hr hrest)

/-- **A way down a held tree** that begins at its root has one node a level, and no more than there
are levels. -/
theorem Holds.descends (ht : f.Holds t) (hw : f.Way t.root hs) (hhead : hs.head? = t.root) :
    f.Descends t.root hs where
  head?_eq := hhead
  exists_full := ht.exists_full hw
  pairwise := ht.pairwise_way hw
  nodup := by
    refine (ht.pairwise_way hw).imp ?_
    rintro p _ hlt rfl
    exact Nat.lt_irrefl _ hlt
  length_le height hheight := by
    obtain ⟨height', hheight', hlevels⟩ := heightAt_root ht
    obtain rfl := Except.ok.inj (hheight.symm.trans hheight')
    exact hlevels ▸ length_le_of_way ht hw

/-- A search goes one way down. -/
theorem Holds.way_trail (ht : f.Holds t) (cmp : K → K → Ordering) (key : K) :
    f.Way t.root (t.trail cmp key) := by
  induction t with
  | nil => exact .stop _
  | node l e v r ihl ihr =>
    obtain ⟨h, k⟩ := e
    rw [Tree.trail_node]
    refine ht.way_node_iff.2 (.inr ?_)
    cases cmp key k with
    | lt => exact ⟨_, rfl, .inl (ihl ht.2.1)⟩
    | eq => exact ⟨_, rfl, .inl (.stop _)⟩
    | gt => exact ⟨_, rfl, .inr (ihr ht.2.2)⟩

theorem head?_trail (cmp : K → K → Ordering) (key : K) (t : Placed K V) :
    (t.trail cmp key).head? = t.root := by
  cases t with
  | nil => rfl
  | node l e v r =>
    obtain ⟨h, k⟩ := e
    rw [Tree.trail_node]
    cases cmp key k <;> rfl

end Forest

end RankedMap
