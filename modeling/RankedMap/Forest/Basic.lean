import RankedMap.Node
import RankedMap.Tree

/-!
# Trees linked through an arena

A `Forest` is an arena of nodes.  The links of a node lead to other nodes of the same arena, so a
link stands for a whole subtree: the one below the node it names, or the empty one.

`sizeAt` and `heightAt` read what the root of a subtree has on record, `refresh` renews the record
of one node from those of its children, and `tree` follows the links and gives the subtree as a
value.

A descent along links is given a number of steps it may take.  A path that meets no node twice is
no longer than there are slots, so that many steps (`stepLimit`) are enough on every tree.

A node is balanced when the heights of its two subtrees differ by at most one.  After one of them
has grown or shrunk by one level they may differ by two, and `rebalance` then turns the node and
some of its descendants around so that they differ by at most one again, and answers with the root
of the subtree as it now stands.  The order of the nodes from left to right stays what it was.

`rotate` is written for the side that is too high.  Its child there, `b`, becomes the root, if the
outer subtree of `b` is at least as high as the inner one; otherwise the inner grandchild does.
Records are renewed from below upwards: first the node that came down, then what is above it.  What
this comes to on either side is `rotate_right_eq` and `rotate_left_eq`.
-/

set_option autoImplicit false

namespace RankedMap

/-- An arena of linked nodes. -/
abbrev Forest (K V : Type) : Type := Arena (Node K V)

namespace Forest

variable {K V α : Type}

/-- How many steps a descent may take: one for each slot. -/
def stepLimit (f : Forest K V) : Nat := f.slots.size

/-- Runs a change that descends, with as many steps as there are slots. -/
def descend (change : Nat → Edit (Forest K V) α) : Edit (Forest K V) α := fun f =>
  let steps := f.stepLimit
  change steps f

/-- The recorded size of a subtree. -/
def sizeAt (f : Forest K V) : Link → Except Fault Size
  | none => .ok .zero
  | some h => return (← f.get h).size

/-- The recorded height of a subtree. -/
def heightAt (f : Forest K V) : Link → Except Fault Height
  | none => .ok .zero
  | some h => return (← f.get h).height

/-- The child of a node on a side. -/
def childAt (f : Forest K V) (h : Handle) (s : Side) : Except Fault Link :=
  return (← f.get h).child s

/-- The size and the height of a node, from what its two subtrees have on record. -/
def measure (f : Forest K V) (h : Handle) : Except Fault (Size × Height) := do
  let node ← f.get h
  let leftSize ← f.sizeAt node.left
  let rightSize ← f.sizeAt node.right
  let size ← Size.ofNat (leftSize.count + rightSize.count + 1)
  let leftHeight ← f.heightAt node.left
  let rightHeight ← f.heightAt node.right
  let height ← (max leftHeight rightHeight).above
  return (size, height)

/-- Renews the record of a node from those of its two subtrees. -/
def refresh (h : Handle) : Edit (Forest K V) Unit := do
  let (size, height) ← Edit.read (measure · h)
  Arena.modify h (·.record size height)

/-- The subtree at a link as a value, read down to a given depth.  A link that names no node is
read as the empty tree. -/
def treeTo (f : Forest K V) : Nat → Link → Tree K V
  | _, none => .nil
  | 0, some _ => .nil
  | depth + 1, some h =>
    match f.get h with
    | .ok node =>
      .node (f.treeTo depth node.left) node.key node.value (f.treeTo depth node.right)
    | .error _ => .nil

/-- The subtree at a link as a value. -/
def tree (f : Forest K V) (link : Link) : Tree K V := f.treeTo f.stepLimit link

/-! ## Restoring balance -/

/-- The side on which a node is too high, if any: where the height exceeds the other one by more
than one. -/
def heavySide (left right : Height) : Option Side :=
  if left.diff right < -1 then some .right
  else if left.diff right > 1 then some .left
  else none

/-- Turns the subtree at `a`, whose child on side `heavy` is too high, and answers with its new
root. -/
def rotate (heavy : Side) (a : Handle) : Edit (Forest K V) Handle := do
  let light := heavy.opposite
  match ← Edit.read (childAt · a heavy) with
  | none => throw (.childMissing heavy)
  | some b =>
    let inner ← Edit.read (childAt · b light)
    let outer ← Edit.read (childAt · b heavy)
    let outerHeight ← Edit.read (heightAt · outer)
    let innerHeight ← Edit.read (heightAt · inner)
    if innerHeight ≤ outerHeight then
      Arena.modify a (·.setChild heavy inner)
      refresh a
      Arena.modify b (·.setChild light (some a))
      refresh b
      return b
    else
      match inner with
      | none => throw (.grandchildMissing heavy)
      | some g =>
        let near ← Edit.read (childAt · g light)
        let far ← Edit.read (childAt · g heavy)
        Arena.modify a (·.setChild heavy near)
        refresh a
        Arena.modify b (·.setChild light far)
        refresh b
        Arena.modify g fun node => (node.setChild light (some a)).setChild heavy (some b)
        refresh g
        return g

/-- A node that is too high on the right turns to the left: its right child rises, or the left child
of that one. -/
theorem rotate_right_eq (a : Handle) :
    (rotate .right a : Edit (Forest K V) Handle) = do
      match ← Edit.read (childAt · a .right) with
      | none => throw (.childMissing .right)
      | some b =>
        let left ← Edit.read (childAt · b .left)
        let right ← Edit.read (childAt · b .right)
        let rightHeight ← Edit.read (heightAt · right)
        let leftHeight ← Edit.read (heightAt · left)
        if leftHeight ≤ rightHeight then
          Arena.modify a fun node => { node with right := left }
          refresh a
          Arena.modify b fun node => { node with left := some a }
          refresh b
          return b
        else
          match left with
          | none => throw (.grandchildMissing .right)
          | some g =>
            let innerLeft ← Edit.read (childAt · g .left)
            let innerRight ← Edit.read (childAt · g .right)
            Arena.modify a fun node => { node with right := innerLeft }
            refresh a
            Arena.modify b fun node => { node with left := innerRight }
            refresh b
            Arena.modify g fun node => { node with left := some a, right := some b }
            refresh g
            return g := rfl

/-- A node that is too high on the left turns to the right: its left child rises, or the right child
of that one. -/
theorem rotate_left_eq (a : Handle) :
    (rotate .left a : Edit (Forest K V) Handle) = do
      match ← Edit.read (childAt · a .left) with
      | none => throw (.childMissing .left)
      | some b =>
        let right ← Edit.read (childAt · b .right)
        let left ← Edit.read (childAt · b .left)
        let leftHeight ← Edit.read (heightAt · left)
        let rightHeight ← Edit.read (heightAt · right)
        if rightHeight ≤ leftHeight then
          Arena.modify a fun node => { node with left := right }
          refresh a
          Arena.modify b fun node => { node with right := some a }
          refresh b
          return b
        else
          match right with
          | none => throw (.grandchildMissing .left)
          | some g =>
            let innerRight ← Edit.read (childAt · g .right)
            let innerLeft ← Edit.read (childAt · g .left)
            Arena.modify a fun node => { node with left := innerRight }
            refresh a
            Arena.modify b fun node => { node with right := innerLeft }
            refresh b
            Arena.modify g fun node => { node with right := some a, left := some b }
            refresh g
            return g := rfl

/-- The side on which the subtree at `h` is too high, from the records of its two subtrees. -/
def heavySideAt (f : Forest K V) (h : Handle) : Except Fault (Option Side) := do
  let node ← f.get h
  let left ← f.heightAt node.left
  let right ← f.heightAt node.right
  return heavySide left right

/-- Restores balance at a node whose subtrees differ in height by at most two, renews its record,
and answers with the root of the subtree. -/
def rebalance (h : Handle) : Edit (Forest K V) Handle := do
  match ← Edit.read (heavySideAt · h) with
  | some heavy => rotate heavy h
  | none =>
    refresh h
    return h

end Forest

end RankedMap
