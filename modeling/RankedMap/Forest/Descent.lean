import RankedMap.Forest.Basic

/-!
# Descents

Whatever is done along the links of a tree enters a node, looks at it and goes on below it.  A key is
looked for by comparing it with the key of a node, always in this order: the key that is looked for
first, the key in the node second.  The search goes left, goes right, or ends there
(`Side.ofOrdering`).  `locate` answers with the node where the search ends, `rankOf` with how many
entries stand before that node.  A position is looked for by the recorded sizes alone: `select` finds
the node before which a given number of entries stand.  `visit` goes through all entries of a subtree
in their order.

The changes look for a key in the same way.  `insertBelow` replaces the value where the search ends
at a node, and puts a new leaf where it ends at an empty link.  `extractBelow` takes the node where
the search ends out of the subtree.  A node with one subtree is replaced by that subtree; one with
two is replaced by the first node of its right subtree, which `extractFirst` takes out of there.  On
the way back every node on the path is linked to its rebuilt subtree and rebalanced, also where
nothing was found.  The answer is the root of the whole subtree, which the caller links in the place
of the old one.  A node taken out becomes a leaf and stays in its slot until the caller releases it;
no entry ever moves to another slot.

Each recursion is written once, over the steps that it is made of: a `Reading` says how a question is
asked and a node entered, an `Editing` also how the forest is changed.  `Reading.plain` and
`Editing.plain` do that and nothing else.  `Editing.noting` takes a note of every node besides, at the
moment when the node is entered, and `path` is what it notes of a search.
-/

set_option autoImplicit false

namespace RankedMap

namespace Forest

/-- What is done to the subtree below a link. -/
inductive Errand (K : Type) where
  /-- An entry with a key is inserted. -/
  | insert (cmp : K → K → Ordering) (key : K)
  /-- The entry with a key is taken out, if it is there. -/
  | extract (cmp : K → K → Ordering) (key : K)
  /-- The first node is taken out. -/
  | extractFirst

/-- How a forest is read in the course of a computation. -/
structure Reading (m : Type → Type) (K V : Type) where
  /-- Asks a question. -/
  ask {α : Type} (question : Forest K V → Except Fault α) : m α
  /-- Enters a node and looks at it. -/
  enter (h : Handle) : m (Node K V)

/-- How a forest is read and changed in the course of a computation. -/
structure Editing (m : Type → Type) (K V : Type) extends Reading m K V where
  /-- Changes nodes. -/
  change {α : Type} (edit : Edit (Forest K V) α) : m α
  /-- Restores balance at a node. -/
  rebalance (h : Handle) : m Handle
  /-- Sees an errand below a link to its end; `root` is the link that the answer puts in its place. -/
  errand {α : Type} (errand : Errand K) (link : Link) (root : α → Link) (body : m α) : m α

section

variable {m : Type → Type} [Monad m] {K V β : Type}

namespace Reading

variable (via : Reading m K V)

/-- The node at which the search for a key ends, if it ends at a node. -/
def locate (cmp : K → K → Ordering) (key : K) : Nat → Link → m Link
  | _, none => return none
  | 0, some _ => via.ask fun _ => .error .tooDeep
  | steps + 1, some h => do
    let node ← via.enter h
    match Side.ofOrdering (cmp key node.key) with
    | none => return some h
    | some side => locate cmp key steps (node.child side)

/-- How many entries stand before the node at which the search for a key ends, if it ends at a
node; `before` entries stand before the whole subtree. -/
def rankOf (cmp : K → K → Ordering) (key : K) : Nat → Link → (before : Nat) → m (Option Nat)
  | _, none, _ => return none
  | 0, some _, _ => via.ask fun _ => .error .tooDeep
  | steps + 1, some h, before => do
    let node ← via.enter h
    let leftSize ← via.ask (sizeAt · node.left)
    match Side.ofOrdering (cmp key node.key) with
    | none => return some (before + leftSize.count)
    | some .left => rankOf cmp key steps node.left before
    | some .right => rankOf cmp key steps node.right (before + leftSize.count + 1)

/-- The node before which `rank` entries of the subtree stand. -/
def select : Nat → Link → (rank : Nat) → m Link
  | _, none, _ => return none
  | 0, some _, _ => via.ask fun _ => .error .tooDeep
  | steps + 1, some h, rank => do
    let node ← via.enter h
    let leftSize ← via.ask (sizeAt · node.left)
    match compare rank leftSize.count with
    | .lt => select steps node.left rank
    | .eq => return some h
    | .gt =>
      let behind ← via.ask fun _ => minus rank leftSize.count
      let rank ← via.ask fun _ => minus behind 1
      select steps node.right rank

/-- Takes the entries of a subtree into a running value, in their order. -/
def visit (take : β → K → V → β) : Nat → Link → β → m β
  | _, none, acc => return acc
  | 0, some _, _ => via.ask fun _ => .error .tooDeep
  | steps + 1, some h, acc => do
    let node ← via.enter h
    let acc ← visit take steps node.left acc
    visit take steps node.right (take acc node.key node.value)

end Reading

/-- Makes a leaf of a node, and answers with the subtrees it had. -/
def detach (h : Handle) : Edit (Forest K V) (Link × Link) :=
  Arena.modifyGet h fun node => (node.children, node.detach)

namespace Editing

variable (via : Editing m K V)

/-- Inserts an entry into the subtree at a link. -/
def insertBelow (cmp : K → K → Ordering) (key : K) (value : V) :
    Nat → Link → m (Handle × Option V)
  | _, none => via.errand (.insert cmp key) none (some ·.1) do
    let leaf ← via.change (Arena.allocate (Node.single key value))
    return (leaf, none)
  | 0, some _ => via.ask fun _ => .error .tooDeep
  | steps + 1, some h => via.errand (.insert cmp key) (some h) (some ·.1) do
    let node ← via.enter h
    match Side.ofOrdering (cmp key node.key) with
    | none =>
      let old ← via.change (Arena.modifyGet h fun node => (node.value, node.setValue value))
      return (h, some old)
    | some side =>
      let (child, old) ← insertBelow cmp key value steps (node.child side)
      via.change (Arena.modify h (·.setChild side (some child)))
      let root ← via.rebalance h
      return (root, old)

/-- Takes the first node out of the subtree at `h`.  Answers with what is left of the subtree, and
with the node. -/
def extractFirst : Nat → Handle → m (Link × Handle)
  | 0, _ => via.ask fun _ => .error .tooDeep
  | steps + 1, h => via.errand .extractFirst (some h) (·.1) do
    let node ← via.enter h
    match node.left with
    | none =>
      let (_, right) ← via.change (detach h)
      return (right, h)
    | some left =>
      let (rest, first) ← extractFirst steps left
      via.change (Arena.modify h (·.setChild .left rest))
      let root ← via.rebalance h
      return (some root, first)

/-- Joins two subtrees that stood on either side of a node which has been taken out. -/
def join (steps : Nat) : Link → Link → m Link
  | none, right => return right
  | left, none => return left
  | some left, some right => do
    let (rest, first) ← via.extractFirst steps right
    via.change (Arena.modify first fun node =>
      (node.setChild .left (some left)).setChild .right rest)
    let root ← via.rebalance first
    return some root

/-- Takes the node where the search for a key ends out of the subtree at a link.  Answers with what
is left of the subtree, and with the node, if there is one. -/
def extractBelow (cmp : K → K → Ordering) (key : K) : Nat → Link → m (Link × Option Handle)
  | _, none => via.errand (.extract cmp key) none (·.1) do return (none, none)
  | 0, some _ => via.ask fun _ => .error .tooDeep
  | steps + 1, some h => via.errand (.extract cmp key) (some h) (·.1) do
    let node ← via.enter h
    match Side.ofOrdering (cmp key node.key) with
    | none =>
      let (left, right) ← via.change (detach h)
      let rest ← via.join steps left right
      return (rest, some h)
    | some side =>
      let (child, gone) ← extractBelow cmp key steps (node.child side)
      via.change (Arena.modify h (·.setChild side child))
      let root ← via.rebalance h
      return (some root, gone)

end Editing

end

/-! ## Ways to go -/

variable {m : Type → Type} {K V β ι : Type}

/-- Nothing but reading. -/
def Reading.plain : Reading (ReaderT (Forest K V) (Except Fault)) K V where
  ask question := question
  enter h f := f.get h

/-- Every step is a change of the forest, carried out in one way. -/
def Editing.through (carry : {α : Type} → Edit (Forest K V) α → m α) : Editing m K V where
  ask question := carry (Edit.read question)
  enter h := carry (Edit.read (Arena.get · h))
  change edit := carry edit
  rebalance h := carry (Forest.rebalance h)
  errand _ _ _ body := body

/-- Nothing but reading and changing. -/
def Editing.plain : Editing (Edit (Forest K V)) K V := through id

/-- A note is taken of every node that is entered. -/
def Editing.noting (label : Handle → K → ι) : Editing (Edit (Forest K V × List ι)) K V :=
  { through Edit.unnoted with
    enter := fun h => do
      let node ← Edit.unnoted (Edit.read (Arena.get · h))
      Edit.note (label h node.key)
      return node }

/-! ## The operations -/

/-- The node at which the search for a key ends, if it ends at a node. -/
def locate (f : Forest K V) (cmp : K → K → Ordering) (key : K) (steps : Nat) (link : Link) :
    Except Fault Link :=
  Reading.plain.locate cmp key steps link f

/-- How many entries stand before the node at which the search for a key ends, if it ends at a
node; `before` entries stand before the whole subtree. -/
def rankOf (f : Forest K V) (cmp : K → K → Ordering) (key : K) (steps : Nat) (link : Link)
    (before : Nat) : Except Fault (Option Nat) :=
  Reading.plain.rankOf cmp key steps link before f

/-- The node before which `rank` entries of the subtree stand. -/
def select (f : Forest K V) (steps : Nat) (link : Link) (rank : Nat) : Except Fault Link :=
  Reading.plain.select steps link rank f

/-- Takes the entries of a subtree into a running value, in their order. -/
def visit (f : Forest K V) (take : β → K → V → β) (steps : Nat) (link : Link) (acc : β) :
    Except Fault β :=
  Reading.plain.visit take steps link acc f

/-- The keys that a key is compared with when it is looked for, from the root down. -/
def path (f : Forest K V) (cmp : K → K → Ordering) (key : K) (steps : Nat) (link : Link) :
    Except Fault (List K) :=
  match (Editing.noting fun _ k => k).locate cmp key steps link (f, []) with
  | .ok _ (_, keys) => .ok keys
  | .error e _ => .error e

/-- Inserts an entry into the subtree at a link. -/
def insertBelow (cmp : K → K → Ordering) (key : K) (value : V) (steps : Nat) (link : Link) :
    Edit (Forest K V) (Handle × Option V) :=
  Editing.plain.insertBelow cmp key value steps link

/-- Takes the first node out of the subtree at `h`. -/
def extractFirst (steps : Nat) (h : Handle) : Edit (Forest K V) (Link × Handle) :=
  Editing.plain.extractFirst steps h

/-- Joins two subtrees that stood on either side of a node which has been taken out. -/
def join (steps : Nat) (left right : Link) : Edit (Forest K V) Link :=
  Editing.plain.join steps left right

/-- Takes the node where the search for a key ends out of the subtree at a link. -/
def extractBelow (cmp : K → K → Ordering) (key : K) (steps : Nat) (link : Link) :
    Edit (Forest K V) (Link × Option Handle) :=
  Editing.plain.extractBelow cmp key steps link

/-- Inserts an entry into the tree at a link. -/
def insert (cmp : K → K → Ordering) (key : K) (value : V) (link : Link) :
    Edit (Forest K V) (Handle × Option V) :=
  descend fun steps => insertBelow cmp key value steps link

/-- Takes the node where the search for a key ends out of the tree at a link. -/
def extract (cmp : K → K → Ordering) (key : K) (link : Link) :
    Edit (Forest K V) (Link × Option Handle) :=
  descend fun steps => extractBelow cmp key steps link

/-! ## One step of each -/

section

variable {f : Forest K V} {h : Handle} {n : Node K V} {cmp : K → K → Ordering} {key : K} {value : V}
  {steps : Nat}

/-- A node that is there is entered. -/
theorem Reading.enter_bind {α : Type} (hn : f.live h = some n)
    (next : Node K V → ReaderT (Forest K V) (Except Fault) α) :
    (Reading.plain.enter h >>= next) f = next n f := by
  show (f.get h >>= fun node => next node f) = _
  rw [Arena.get_eq_ok.2 hn]
  rfl

/-- A question that has an answer is answered. -/
theorem Reading.ask_bind {α γ : Type} (question : Forest K V → Except Fault γ) {c : γ}
    (hq : question f = .ok c) (next : γ → ReaderT (Forest K V) (Except Fault) α) :
    (Reading.plain.ask question >>= next) f = next c f := by
  show (question f >>= fun c => next c f) = _
  rw [hq]
  rfl

theorem locate_none : f.locate cmp key steps none = .ok none := by cases steps <;> rfl

theorem locate_of_live (hn : f.live h = some n) :
    f.locate cmp key (steps + 1) (some h) = match Side.ofOrdering (cmp key n.key) with
      | none => .ok (some h)
      | some side => f.locate cmp key steps (n.child side) := by
  rw [locate, Reading.locate, Reading.enter_bind hn]
  cases Side.ofOrdering (cmp key n.key) <;> rfl

theorem rankOf_none (before : Nat) : f.rankOf cmp key steps none before = .ok none := by
  cases steps <;> rfl

theorem rankOf_of_live {size : Size} (hn : f.live h = some n) (hs : f.sizeAt n.left = .ok size)
    (before : Nat) :
    f.rankOf cmp key (steps + 1) (some h) before = match Side.ofOrdering (cmp key n.key) with
      | none => .ok (some (before + size.count))
      | some .left => f.rankOf cmp key steps n.left before
      | some .right => f.rankOf cmp key steps n.right (before + size.count + 1) := by
  rw [rankOf, Reading.rankOf, Reading.enter_bind hn, Reading.ask_bind _ hs]
  rcases Side.ofOrdering (cmp key n.key) with _ | _ | _ <;> rfl

theorem select_none (rank : Nat) : f.select steps none rank = .ok none := by cases steps <;> rfl

/-- Neither subtraction falls below zero where the search turns right. -/
theorem select_of_live {size : Size} (hn : f.live h = some n) (hs : f.sizeAt n.left = .ok size)
    (rank : Nat) :
    f.select (steps + 1) (some h) rank = match compare rank size.count with
      | .lt => f.select steps n.left rank
      | .eq => .ok (some h)
      | .gt => f.select steps n.right (rank - size.count - 1) := by
  rw [select, Reading.select, Reading.enter_bind hn, Reading.ask_bind _ hs]
  cases hc : compare rank size.count with
  | lt | eq => rfl
  | gt =>
    have hlt : size.count < rank := Nat.compare_eq_gt.1 hc
    have hbehind := minus_of_le (Nat.le_of_lt hlt)
    have hrest := minus_of_le (Nat.sub_pos_of_lt hlt)
    exact (Reading.ask_bind (f := f) _ hbehind _).trans (Reading.ask_bind _ hrest _)

theorem visit_none (take : β → K → V → β) (acc : β) : f.visit take steps none acc = .ok acc := by
  cases steps <;> rfl

theorem visit_of_live {take : β → K → V → β} {acc acc' : β} (hn : f.live h = some n)
    (hl : f.visit take steps n.left acc = .ok acc') :
    f.visit take (steps + 1) (some h) acc =
      f.visit take steps n.right (take acc' n.key n.value) := by
  rw [visit, Reading.visit, Reading.enter_bind hn]
  exact Reading.ask_bind (visit · take steps n.left acc) hl _

theorem insertBelow_none :
    (insertBelow cmp key value steps none : Edit (Forest K V) _) = do
      let leaf ← Arena.allocate (Node.single key value)
      return (leaf, none) := by
  cases steps <;> rfl

theorem insertBelow_some :
    (insertBelow cmp key value (steps + 1) (some h) : Edit (Forest K V) _) = do
      let node ← Edit.read (Arena.get · h)
      match Side.ofOrdering (cmp key node.key) with
      | none =>
        let old ← Arena.modifyGet h fun node => (node.value, node.setValue value)
        return (h, some old)
      | some side =>
        let (child, old) ← insertBelow cmp key value steps (node.child side)
        Arena.modify h (·.setChild side (some child))
        let root ← rebalance h
        return (root, old) := rfl

theorem extractFirst_succ :
    (extractFirst (steps + 1) h : Edit (Forest K V) _) = do
      let node ← Edit.read (Arena.get · h)
      match node.left with
      | none =>
        let (_, right) ← detach h
        return (right, h)
      | some left =>
        let (rest, first) ← extractFirst steps left
        Arena.modify h (·.setChild .left rest)
        let root ← rebalance h
        return (some root, first) := rfl

theorem join_some {left right : Handle} :
    (join steps (some left) (some right) : Edit (Forest K V) _) = do
      let (rest, first) ← extractFirst steps right
      Arena.modify first fun node => (node.setChild .left (some left)).setChild .right rest
      let root ← rebalance first
      return some root := rfl

theorem extractBelow_none :
    (extractBelow cmp key steps none : Edit (Forest K V) _) = return (none, none) := by
  cases steps <;> rfl

theorem extractBelow_some :
    (extractBelow cmp key (steps + 1) (some h) : Edit (Forest K V) _) = do
      let node ← Edit.read (Arena.get · h)
      match Side.ofOrdering (cmp key node.key) with
      | none =>
        let (left, right) ← detach h
        let rest ← join steps left right
        return (rest, some h)
      | some side =>
        let (child, gone) ← extractBelow cmp key steps (node.child side)
        Arena.modify h (·.setChild side child)
        let root ← rebalance h
        return (some root, gone) := rfl

end

end Forest

end RankedMap
