import RankedMap.Proofs.Forest.Lookup
import RankedMap.Proofs.Tree.Reversal

/-!
# Exchanging left and right in a forest

`Forest.reflect` exchanges the two subtrees of every node, slot by slot, and leaves all else as it
is.  Where a forest holds a placed tree its reflection holds the reversed one (`Holds.reflect`).
-/

set_option autoImplicit false

namespace RankedMap

/-- The node with its two subtrees exchanged. -/
def Node.reflect {K V : Type} (n : Node K V) : Node K V :=
  { n with left := n.right, right := n.left }

namespace Tree

variable {K V : Type}

@[simp] theorem root_reverse (t : Placed K V) : t.reverse.root = t.root := by
  cases t <;> rfl

theorem handles_reverse (t : Placed K V) : t.reverse.handles = t.handles.reverse := by
  rw [handles, handles, toList_reverse, List.map_reverse]

theorem bare_reverse (t : Placed K V) : t.reverse.bare = t.bare.reverse := by
  induction t with
  | nil => rfl
  | node l e v r ihl ihr =>
    rw [bare, bare] at ihl ihr
    rw [reverse, bare, bare, mapKeys, mapKeys, ihl, ihr, reverse]

end Tree

namespace Forest

variable {K V : Type}

/-- The forest with the two subtrees of every node exchanged. -/
def reflect (f : Forest K V) : Forest K V :=
  { f with slots := f.slots.map (Option.map Node.reflect) }

variable {f f' : Forest K V} {t : Placed K V} {h x : Handle} {n : Node K V}
  {cmp : K → K → Ordering} {key : K} {steps : Nat}

@[simp] theorem live_reflect (f : Forest K V) (h : Handle) :
    f.reflect.live h = (f.live h).map Node.reflect := by
  rw [Arena.live, Arena.live, reflect, Array.getElem?_map]
  rcases f.slots[h.index]? with _ | _ | n <;> rfl

theorem put_reflect (f : Forest K V) (h : Handle) (n : Node K V) :
    reflect (f.put h (some n)) = f.reflect.put h (some n.reflect) := by
  simp [reflect, Arena.put, Array.map_setIfInBounds]

/-- The same slot is taken. -/
theorem allocate_reflect (ha : Arena.allocate n f = .ok x f') :
    Arena.allocate n.reflect f.reflect = .ok x f'.reflect := by
  obtain ⟨slots, free, capacity⟩ := f
  simp only [Arena.allocate, reflect, Array.size_map] at ha ⊢
  cases hb : free.back? with
  | some top =>
    simp only [hb] at ha ⊢
    by_cases hlt : top.index < slots.size
    · rw [if_pos hlt] at ha ⊢
      cases ha
      simp [Array.map_setIfInBounds]
    · rw [if_neg hlt] at ha
      cases ha
  | none =>
    simp only [hb] at ha ⊢
    by_cases hle : slots.size ≤ Handle.maxIndex
    · rw [dif_pos hle] at ha ⊢
      cases ha
      simp [Array.map_push]
    · rw [dif_neg hle] at ha
      cases ha

theorem Holds.reflect (ht : f.Holds t) : f.reflect.Holds t.reverse := by
  induction t with
  | nil => trivial
  | node l e v r ihl ihr =>
    obtain ⟨h, k⟩ := e
    obtain ⟨⟨n, hn, ⟨hkey, hvalue, hleft, hright⟩, hsize, hheight⟩, hl, hr⟩ := ht
    have hn' : f.reflect.live h = some n.reflect := by
      rw [live_reflect, hn]
      rfl
    refine ⟨⟨n.reflect, hn', ⟨hkey, hvalue, ?_, ?_⟩, ?_, ?_⟩, ihr hr, ihl hl⟩
    · rw [Tree.root_reverse]
      exact hright
    · rw [Tree.root_reverse]
      exact hleft
    · rw [← Tree.reverse, Tree.size_reverse]
      exact hsize
    · rw [← Tree.reverse, Tree.height_reverse]
      exact hheight

/-- Where the node at which a search ends has one subtree at most, so it is in the tree. -/
theorem Holds.unforked (ht : f.Holds t) (hsteps : t.height ≤ steps)
    (hone : ∀ h, f.locate cmp key steps t.root = .ok (some h) →
      ∀ n, f.live h = some n → n.left = none ∨ n.right = none) :
    t.Unforked (Tree.byKey cmp) (x, key) := by
  induction t generalizing steps with
  | nil => trivial
  | node l e v r ihl ihr =>
    obtain ⟨h, k⟩ := e
    obtain ⟨⟨n, hn, hnt⟩, hl, hr⟩ := ht
    obtain ⟨rfl, -, hleft, hright⟩ := hnt.joins
    obtain ⟨steps, rfl, hsl, hsr⟩ := Tree.exists_steps_of_height_le hsteps
    have hcmp : Tree.byKey cmp (x, key) (h, n.key) = cmp key n.key := rfl
    rw [Tree.root, locate_of_live hn] at hone
    rw [Tree.Unforked, hcmp]
    cases hc : cmp key n.key with
    | lt =>
      simp only [hc, Side.ofOrdering, Node.child, hleft] at hone
      exact ihl hl hsl hone
    | eq =>
      simp only [hc, Side.ofOrdering] at hone
      have hone := hone h rfl n hn
      rwa [hleft, hright, Tree.root_eq_none, Tree.root_eq_none] at hone
    | gt =>
      simp only [hc, Side.ofOrdering, Node.child, hright] at hone
      exact ihr hr hsr hone

end Forest

end RankedMap
