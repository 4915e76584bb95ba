import RankedMap.Arena.Basic

/-!
# Nodes

A `Node` holds an entry, the links of its two subtrees, and a record of how large and how high the
subtree below it is: its `Size`, the number of nodes in it, and its `Height`, the number of nodes on
the longest way down.  Both are kept in a fixed width, so both are bounded by their type and making
one out of a number may fail.  A node does not know its parent: a change of the tree is carried up
by whoever came down.

A `Node.Command` is one operation on a single node, with subtrees named by plain indices.
-/

set_option autoImplicit false

namespace RankedMap

/-- The number of nodes in a subtree, its root included. -/
structure Size where
  /-- The number. -/
  count : Nat
  /-- A subtree never holds more nodes than handles can name. -/
  count_le : count ≤ 4294967295
  deriving DecidableEq, Repr

namespace Size

/-- The largest size: one more than the largest index, which is the number of all handles. -/
def maxCount : Nat := Handle.maxIndex + 1

/-- The size of the empty subtree. -/
def zero : Size := ⟨0, by omega⟩

/-- The size of a leaf. -/
def one : Size := ⟨1, by omega⟩

/-- A number as a size, if it is not too large. -/
def ofNat (count : Nat) : Except Fault Size :=
  if h : count ≤ maxCount then .ok ⟨count, h⟩ else .error .sizeTooLarge

@[ext] theorem ext {a b : Size} (h : a.count = b.count) : a = b := by
  cases a; cases b; simp_all

theorem ofNat_count (s : Size) : ofNat s.count = .ok s := dif_pos s.count_le

theorem ofNat_eq_error_iff {count : Nat} {e : Fault} :
    ofNat count = .error e ↔ maxCount < count ∧ e = .sizeTooLarge := by
  rw [ofNat]
  split
  · rename_i h
    exact ⟨nofun, fun he => absurd h (Nat.not_le.2 he.1)⟩
  · rename_i h
    rw [Except.error.injEq, eq_comm]
    exact ⟨fun he => ⟨Nat.not_le.1 h, he⟩, fun he => he.2⟩

end Size

/-- The number of nodes on the longest way from the root of a subtree down to a leaf. -/
structure Height where
  /-- The number of nodes, which is the number of levels of the subtree. -/
  levels : Nat
  /-- Eight bits are enough for every balanced tree that handles can name. -/
  levels_le : levels ≤ 255
  deriving DecidableEq, Repr

namespace Height

/-- The largest height. -/
def maxLevels : Nat := 255

/-- The height of the empty subtree. -/
def zero : Height := ⟨0, by omega⟩

/-- The height of a leaf. -/
def one : Height := ⟨1, by omega⟩

/-- A number as a height, if it is not too large. -/
def ofNat (levels : Nat) : Except Fault Height :=
  if h : levels ≤ maxLevels then .ok ⟨levels, h⟩ else .error .heightTooLarge

/-- The height of a node whose higher subtree has height `h`. -/
def above (h : Height) : Except Fault Height := ofNat (h.levels + 1)

/-- The signed difference of two heights.  With the left subtree first it is the balance of a
node. -/
def diff (a b : Height) : Int := (a.levels : Int) - (b.levels : Int)

instance : Ord Height := ⟨fun a b => compare a.levels b.levels⟩

instance : LE Height := ⟨fun a b => a.levels ≤ b.levels⟩

instance (a b : Height) : Decidable (a ≤ b) := inferInstanceAs (Decidable (a.levels ≤ b.levels))

instance : Max Height := ⟨fun a b => if a ≤ b then b else a⟩

@[ext] theorem ext {a b : Height} (h : a.levels = b.levels) : a = b := by
  cases a; cases b; simp_all

theorem ofNat_levels (h : Height) : ofNat h.levels = .ok h := dif_pos h.levels_le

theorem le_def {a b : Height} : a ≤ b ↔ a.levels ≤ b.levels := Iff.rfl

@[simp] theorem levels_max (a b : Height) : (max a b).levels = max a.levels b.levels := by
  show (if a.levels ≤ b.levels then b else a).levels = _
  split
  · rename_i h; exact (Nat.max_eq_right h).symm
  · rename_i h; exact (Nat.max_eq_left (Nat.le_of_not_le h)).symm

end Height

/-- An entry in a tree. -/
structure Node (K V : Type) where
  /-- The key of the entry. -/
  key : K
  /-- The value of the entry. -/
  value : V
  /-- The subtree on the left. -/
  left : Link
  /-- The subtree on the right. -/
  right : Link
  /-- The number of nodes in the subtree of this node, as last recorded. -/
  size : Size
  /-- The number of levels of the subtree of this node, as last recorded. -/
  height : Height
  deriving DecidableEq, Repr

namespace Node

variable {K V : Type}

/-- A leaf. -/
def single (key : K) (value : V) : Node K V := ⟨key, value, none, none, .one, .one⟩

/-- The entry of a node. -/
def entry (n : Node K V) : K × V := (n.key, n.value)

/-- The subtree on a side. -/
def child (n : Node K V) : Side → Link
  | .left => n.left
  | .right => n.right

/-- The subtrees, left and right. -/
def children (n : Node K V) : Link × Link := (n.left, n.right)

/-- Links another subtree on a side. -/
def setChild (n : Node K V) (s : Side) (child : Link) : Node K V :=
  match s with
  | .left => { n with left := child }
  | .right => { n with right := child }

/-- Stores another value. -/
def setValue (n : Node K V) (value : V) : Node K V := { n with value }

/-- Records a size and a height. -/
def record (n : Node K V) (size : Size) (height : Height) : Node K V := { n with size, height }

/-- The node as a leaf, with both subtrees cut off. -/
def detach (n : Node K V) : Node K V := single n.key n.value

/-- The entry of a node that has left the tree; such a node has no subtrees. -/
def detachedEntry (n : Node K V) : Except Fault (K × V) :=
  if n.left = none ∧ n.right = none then .ok n.entry else .error .stillLinked

@[simp] theorem child_setChild_self (n : Node K V) (s : Side) (l : Link) :
    (n.setChild s l).child s = l := by
  cases s <;> rfl

@[simp] theorem child_setChild_opposite (n : Node K V) (s : Side) (l : Link) :
    (n.setChild s l).child s.opposite = n.child s.opposite := by
  cases s <;> rfl

@[simp] theorem entry_setChild (n : Node K V) (s : Side) (l : Link) :
    (n.setChild s l).entry = n.entry := by
  cases s <;> rfl

@[simp] theorem child_record (n : Node K V) (s : Side) (size : Size) (height : Height) :
    (n.record size height).child s = n.child s := by
  cases s <;> rfl

@[simp] theorem entry_record (n : Node K V) (size : Size) (height : Height) :
    (n.record size height).entry = n.entry := rfl

@[simp] theorem entry_detach (n : Node K V) : n.detach.entry = n.entry := rfl

theorem detachedEntry_detach (n : Node K V) : n.detach.detachedEntry = .ok n.entry := rfl

/-! ## Running a node by commands -/

/-- One operation on a node with values of type `V`. -/
inductive Command (V : Type) where
  /-- Link the slot at an index, or nothing, on a side. -/
  | setChild (side : Side) (index : Option Nat)
  /-- Record a size and a height. -/
  | record (size height : Nat)
  /-- Store another value. -/
  | setValue (value : V)
  /-- Cut off both subtrees. -/
  | detach
  /-- Ask for both subtrees. -/
  | children
  /-- Take the entry out of a copy. -/
  | entry
  deriving Repr

/-- What a command answers. -/
inductive Reply (K V : Type) where
  /-- The command answers nothing. -/
  | done
  /-- The value that was replaced. -/
  | value (v : V)
  /-- The subtrees, left and right. -/
  | children (left right : Link)
  /-- The entry. -/
  | entry (key : K) (value : V)
  deriving DecidableEq, Repr

namespace Command

variable {K V : Type}

/-- The link to the slot at an index. -/
def link : Option Nat → Except Fault Link
  | none => .ok none
  | some index => some <$> Handle.ofIndex index

/-- Runs one command. -/
def run : Command V → Edit (Node K V) (Reply K V)
  | .setChild side index => do
    let child ← Edit.read fun _ => link index
    modify (·.setChild side child)
    return .done
  | .record size height => do
    let size ← Edit.read fun _ => Size.ofNat size
    let height ← Edit.read fun _ => Height.ofNat height
    modify (·.record size height)
    return .done
  | .setValue value => fun n => .ok (.value n.value) (n.setValue value)
  | .detach => fun n => .ok (.children n.left n.right) n.detach
  | .children => fun n => .ok (.children n.left n.right) n
  | .entry => do
    let (key, value) ← Edit.read detachedEntry
    return .entry key value

end Command

end Node

end RankedMap
