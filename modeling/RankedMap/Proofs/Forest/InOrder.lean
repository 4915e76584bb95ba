import RankedMap.Proofs.Forest.Lookup

/-!
# The order of the nodes, and where a search ends

`Forest.InOrder` lists the nodes below a link from left to right, and `Forest.Lands` says at which
node the search for a key ends below a link, if it ends at one, and how far to the right that is.
Both follow the links with no bound on how far, and there is one list and one end at most
(`InOrder.unique`, `Lands.unique`).  For a held tree the nodes stand in the order of its entries
(`Holds.inOrder`), and the search ends where `Tree.landing` says (`Holds.lands`), whatever the
comparison is.
-/

set_option autoImplicit false

namespace RankedMap

namespace Forest

variable {K V : Type}

/-- The nodes below a link and their entries, from left to right. -/
inductive InOrder (f : Forest K V) : Link → List (Handle × K × V) → Prop
  /-- There is no node below no link. -/
  | nil : InOrder f none []
  /-- A node is between the nodes of its two subtrees. -/
  | node {h : Handle} {n : Node K V} {xs ys : List (Handle × K × V)} (hn : f.live h = some n)
      (hl : InOrder f n.left xs) (hr : InOrder f n.right ys) :
      InOrder f (some h) (xs ++ (h, n.entry) :: ys)

/-- The search for a key below the first link ends at the second one, which names a node on a hit
and is empty on a miss.  The number is the sum, over the nodes where the search turned right, of one
more than the size that their left subtrees have on record. -/
inductive Lands (f : Forest K V) (cmp : K → K → Ordering) (key : K) : Link → Link → Nat → Prop
  /-- The search ends where there is no node. -/
  | miss : Lands f cmp key none none 0
  /-- It ends at a node whose key compares the same. -/
  | hit {h : Handle} {n : Node K V} (hn : f.live h = some n) (hc : cmp key n.key = .eq) :
      Lands f cmp key (some h) (some h) 0
  /-- It turns left. -/
  | left {h : Handle} {n : Node K V} {place : Link} {before : Nat} (hn : f.live h = some n)
      (hc : cmp key n.key = .lt) (hl : Lands f cmp key n.left place before) :
      Lands f cmp key (some h) place before
  /-- It turns right. -/
  | right {h : Handle} {n : Node K V} {size : Size} {place : Link} {before : Nat}
      (hn : f.live h = some n) (hs : f.sizeAt n.left = .ok size) (hc : cmp key n.key = .gt)
      (hr : Lands f cmp key n.right place before) :
      Lands f cmp key (some h) place (size.count + 1 + before)

variable {f : Forest K V} {link place place' : Link} {xs ys : List (Handle × K × V)}
  {cmp : K → K → Ordering} {key : K} {before before' : Nat}

/-- The nodes below a link stand in one order. -/
theorem InOrder.unique (hx : f.InOrder link xs) (hy : f.InOrder link ys) : xs = ys := by
  induction hx generalizing ys with
  | nil => cases hy; rfl
  | node hn _ _ ihl ihr =>
    cases hy with
    | node hn' hl' hr' =>
      cases hn.symm.trans hn'
      rw [ihl hl', ihr hr']

/-- A search ends in one place. -/
theorem Lands.unique (hp : f.Lands cmp key link place before)
    (hp' : f.Lands cmp key link place' before') : place = place' ∧ before = before' := by
  induction hp generalizing place' before' with
  | miss => cases hp'; exact ⟨rfl, rfl⟩
  | hit hn hc =>
    cases hp' with
    | hit => exact ⟨rfl, rfl⟩
    | left hn' hc' | right hn' _ hc' =>
      cases hn.symm.trans hn'
      cases hc.symm.trans hc'
  | left hn hc _ ih =>
    cases hp' with
    | left hn' _ hl' =>
      cases hn.symm.trans hn'
      exact ih hl'
    | hit hn' hc' | right hn' _ hc' =>
      cases hn.symm.trans hn'
      cases hc.symm.trans hc'
  | right hn hs hc _ ih =>
    cases hp' with
    | right hn' hs' _ hr' =>
      cases hn.symm.trans hn'
      cases hs.symm.trans hs'
      obtain ⟨rfl, rfl⟩ := ih hr'
      exact ⟨rfl, rfl⟩
    | hit hn' hc' | left hn' hc' =>
      cases hn.symm.trans hn'
      cases hc.symm.trans hc'

variable {t : Placed K V}

/-- The nodes of a held tree stand in the order of its entries. -/
theorem Holds.inOrder (ht : f.Holds t) :
    f.InOrder t.root (t.toList.map fun e => (e.1.1, e.1.2, e.2)) := by
  induction t with
  | nil => exact .nil
  | node l e v r ihl ihr =>
    obtain ⟨h, k⟩ := e
    obtain ⟨⟨n, hn, hnt⟩, hl, hr⟩ := ht
    obtain ⟨rfl, rfl, hleft, hright⟩ := hnt.joins
    rw [Tree.toList, List.map_append, List.map_cons]
    exact .node hn (hleft ▸ ihl hl) (hright ▸ ihr hr)

/-- **The search for a key** in a held tree ends at the node of the entry where it ends in the tree,
or where it ends between entries there. -/
theorem Holds.lands (ht : f.Holds t) :
    (∀ r, t.bare.landing cmp key = .hit r →
      ∃ h before, t.handles[r]? = some h ∧ f.Lands cmp key t.root (some h) before) ∧
    ∀ r, t.bare.landing cmp key = .miss r → f.Lands cmp key t.root none r := by
  induction t with
  | nil =>
    refine ⟨?_, ?_⟩
    · rintro r ⟨⟩
    · rintro r ⟨⟩
      exact .miss
  | node l e v r ihl ihr =>
    obtain ⟨h, k⟩ := e
    obtain ⟨⟨n, hn, hnt⟩, hl, hr⟩ := ht
    obtain ⟨rfl, -, hleft, hright⟩ := hnt.joins
    obtain ⟨size, hs, hcount⟩ := sizeAt_root hl
    obtain ⟨ihl_hit, ihl_miss⟩ := hleft ▸ ihl hl
    obtain ⟨ihr_hit, ihr_miss⟩ := hright ▸ ihr hr
    have hbare : (Tree.node l (h, n.key) v r).bare = .node l.bare n.key v r.bare := rfl
    rw [← hleft] at hs
    rw [hbare, Tree.landing, Tree.size_bare, ← hcount]
    cases hc : cmp key n.key with
    | lt =>
      refine ⟨?_, fun q hq => .left hn hc (ihl_miss q hq)⟩
      intro q hq
      have hlt : q < l.size := by simpa using Tree.lt_size_of_hit hq
      obtain ⟨x, before, hx, hland⟩ := ihl_hit q hq
      exact ⟨x, before, by rwa [Tree.getElem?_handles_node_lt hlt], .left hn hc hland⟩
    | eq =>
      refine ⟨?_, ?_⟩
      · rintro q ⟨⟩
        exact ⟨h, 0, by rw [hcount, Tree.getElem?_handles_node_size], .hit hn hc⟩
      · rintro q ⟨⟩
    | gt =>
      simp only [Landing.shift_eq_hit, Landing.shift_eq_miss]
      refine ⟨?_, ?_⟩
      · rintro q ⟨i, hi, rfl⟩
        obtain ⟨x, before, hx, hland⟩ := ihr_hit i hi
        exact ⟨x, _, by rwa [hcount, Tree.getElem?_handles_node_gt], .right hn hs hc hland⟩
      · rintro q ⟨i, hi, rfl⟩
        exact .right hn hs hc (ihr_miss i hi)

end Forest

end RankedMap
