/-!
# Trees as values

A `Tree` is a binary tree of entries with no handles in it: what is left of a linked tree when only
its shape and its entries count.  Size, height and the sequence of entries are computed from the
tree itself, so they are what recorded sizes and heights are measured against.  `levels` and
`digest` summarise a shape: how many nodes are at each depth, and a number that mixes the depths of
all nodes from left to right.

The search for a key compares it with the key at the root, the key that is looked for first, and
goes on in the left subtree, in the right one, or ends.  It ends at an entry (`Landing.hit`) or
between entries, at an empty subtree (`Landing.miss`).  Either way a number of entries stand before
the place, and this number is what the landing remembers.  No law of the comparison is needed for
any of this.

The changes are the textbook operations on height-balanced trees: go down to where the key belongs,
change the tree there, and put each node on the way back over its changed subtree with `balance`.
Heights are computed from the trees and nothing is remembered.  `balance` lets the child on a side
that is too high rise (`raiseLeft`, `raiseRight`), or its inner child, if that is strictly higher
than the outer one.  `extractFirst` takes out the first entry, `join` puts two trees together with
the first entry of the right one at the root, `extract` takes out the entry where the search for a
key ends.
-/

set_option autoImplicit false

namespace RankedMap

/-- Where a search ends. -/
inductive Landing where
  /-- At the entry before which `rank` others stand. -/
  | hit (rank : Nat)
  /-- At an empty place before which `rank` entries stand. -/
  | miss (rank : Nat)
  deriving DecidableEq, Repr

namespace Landing

/-- How many entries stand before the place. -/
def rank : Landing → Nat
  | hit r => r
  | miss r => r

/-- The position of the entry where the search ends, if it ends at an entry. -/
def hit? : Landing → Option Nat
  | hit r => some r
  | miss _ => none

/-- The same place, seen from a tree in which `n` more entries stand before it. -/
def shift (n : Nat) : Landing → Landing
  | hit r => hit (n + r)
  | miss r => miss (n + r)

@[simp] theorem hit?_shift (n : Nat) (p : Landing) : (p.shift n).hit? = p.hit?.map (n + ·) := by
  cases p <;> rfl

end Landing

/-- A binary tree of entries. -/
inductive Tree (K V : Type) where
  /-- The empty tree. -/
  | nil
  /-- An entry between two subtrees. -/
  | node (left : Tree K V) (key : K) (value : V) (right : Tree K V)
  deriving DecidableEq, Repr

namespace Tree

variable {K V : Type}

/-- The number of nodes. -/
def size : Tree K V → Nat
  | nil => 0
  | node l _ _ r => l.size + r.size + 1

/-- The number of nodes on the longest way from the root down. -/
def height : Tree K V → Nat
  | nil => 0
  | node l _ _ r => max l.height r.height + 1

/-- The entries from left to right. -/
def toList : Tree K V → List (K × V)
  | nil => []
  | node l k v r => l.toList ++ (k, v) :: r.toList

/-- The heights of the two subtrees of every node differ by at most one. -/
def Balanced : Tree K V → Prop
  | nil => True
  | node l _ _ r => l.height ≤ r.height + 1 ∧ r.height ≤ l.height + 1 ∧ l.Balanced ∧ r.Balanced

/-- Every level is full: the two subtrees of every node are equally high. -/
def Perfect : Tree K V → Prop
  | nil => True
  | node l _ _ r => l.height = r.height ∧ l.Perfect ∧ r.Perfect

/-- The tree with left and right exchanged everywhere. -/
def reverse : Tree K V → Tree K V
  | nil => nil
  | node l k v r => node r.reverse k v l.reverse

@[simp] theorem length_toList (t : Tree K V) : t.toList.length = t.size := by
  induction t with
  | nil => rfl
  | node l k v r ihl ihr =>
    rw [toList, List.length_append, List.length_cons, ihl, ihr, size]
    omega

@[simp] theorem toList_reverse (t : Tree K V) : t.reverse.toList = t.toList.reverse := by
  induction t with
  | nil => rfl
  | node l k v r ihl ihr => simp [reverse, toList, ihl, ihr]

@[simp] theorem size_reverse (t : Tree K V) : t.reverse.size = t.size := by
  rw [← length_toList, toList_reverse, List.length_reverse, length_toList]

@[simp] theorem height_reverse (t : Tree K V) : t.reverse.height = t.height := by
  induction t with
  | nil => rfl
  | node l k v r ihl ihr => rw [reverse, height, ihl, ihr, height, Nat.max_comm]

/-! ## Summaries of a shape -/

/-- Adds two lists position by position; the longer one keeps its tail. -/
def addLevels : List Nat → List Nat → List Nat
  | [], ys => ys
  | x :: xs, [] => x :: xs
  | x :: xs, y :: ys => (x + y) :: addLevels xs ys

/-- How many nodes there are at depth 0, 1, 2 and so on. -/
def levels : Tree K V → List Nat
  | nil => []
  | node l _ _ r => 1 :: addLevels l.levels r.levels

/-- Takes one node at a given depth into a digest. -/
def mixDepth (digest depth : Nat) : Nat := (digest * 1000003 + depth + 1) % 1000000007

/-- Takes all nodes into a digest, from left to right; the root is at depth `depth`. -/
def digestFrom : Tree K V → (depth digest : Nat) → Nat
  | nil, _, digest => digest
  | node l _ _ r, depth, digest =>
    r.digestFrom (depth + 1) (mixDepth (l.digestFrom (depth + 1) digest) depth)

/-- A number that depends on the depths of the nodes from left to right, and on nothing else. -/
def digest (t : Tree K V) : Nat := t.digestFrom 0 0

theorem length_addLevels (xs ys : List Nat) :
    (addLevels xs ys).length = max xs.length ys.length := by
  fun_induction addLevels xs ys with
  | case1 ys => simp
  | case2 x xs => simp
  | case3 x xs y ys ih =>
    rw [List.length_cons, ih, List.length_cons, List.length_cons]
    omega

/-- There are as many levels as the tree is high. -/
theorem length_levels (t : Tree K V) : t.levels.length = t.height := by
  induction t with
  | nil => rfl
  | node l k v r ihl ihr =>
    rw [levels, List.length_cons, length_addLevels, ihl, ihr, height]

/-! ## Searching -/

/-- Where the search for a key ends. -/
def landing (cmp : K → K → Ordering) (key : K) : Tree K V → Landing
  | nil => .miss 0
  | node l k _ r =>
    match cmp key k with
    | .lt => l.landing cmp key
    | .eq => .hit l.size
    | .gt => (r.landing cmp key).shift (l.size + 1)

/-- The keys that a key is compared with when it is looked for, from the root down. -/
def path (cmp : K → K → Ordering) (key : K) : Tree K V → List K
  | nil => []
  | node l k _ r =>
    match cmp key k with
    | .lt => k :: l.path cmp key
    | .eq => [k]
    | .gt => k :: r.path cmp key

/-- A search that ends at an entry ends inside the tree, and one that ends between entries ends at
one of the places around them. -/
theorem rank_landing (cmp : K → K → Ordering) (key : K) (t : Tree K V) :
    match t.landing cmp key with
    | .hit r => r < t.size
    | .miss r => r ≤ t.size := by
  induction t with
  | nil => exact Nat.le_refl 0
  | node l k v r ihl ihr =>
    simp only [landing, size]
    cases cmp key k with
    | lt => revert ihl; cases l.landing cmp key <;> simp only [] <;> omega
    | eq => simp only []; omega
    | gt => revert ihr; cases r.landing cmp key <;> simp only [Landing.shift] <;> omega

/-- The keys on a path are no more than the tree has levels. -/
theorem length_path_le (cmp : K → K → Ordering) (key : K) (t : Tree K V) :
    (t.path cmp key).length ≤ t.height := by
  induction t with
  | nil => exact Nat.le_refl 0
  | node l k v r ihl ihr =>
    simp only [path, height]
    cases cmp key k <;> simp only [List.length_cons, List.length_nil] <;> omega

/-! ## Changing -/

/-- A node whose left child is too high, with that child or its right child risen to the root. -/
def raiseLeft (left : Tree K V) (key : K) (value : V) (right : Tree K V) : Tree K V :=
  match left with
  | nil => node nil key value right
  | node outer k v inner =>
    match inner with
    | nil => node outer k v (node nil key value right)
    | node far k' v' near =>
      if outer.height < inner.height then
        node (node outer k v far) k' v' (node near key value right)
      else
        node outer k v (node inner key value right)

/-- A node whose right child is too high, with that child or its left child risen to the root. -/
def raiseRight (left : Tree K V) (key : K) (value : V) (right : Tree K V) : Tree K V :=
  match right with
  | nil => node left key value nil
  | node inner k v outer =>
    match inner with
    | nil => node (node left key value nil) k v outer
    | node near k' v' far =>
      if outer.height < inner.height then
        node (node left key value near) k' v' (node far k v outer)
      else
        node (node left key value inner) k v outer

/-- An entry over two balanced trees whose heights differ by at most two, as a balanced tree. -/
def balance (left : Tree K V) (key : K) (value : V) (right : Tree K V) : Tree K V :=
  if right.height + 1 < left.height then raiseLeft left key value right
  else if left.height + 1 < right.height then raiseRight left key value right
  else node left key value right

/-- Inserts an entry, and answers with the value it replaces, if there is one. -/
def insert (cmp : K → K → Ordering) (key : K) (value : V) : Tree K V → Tree K V × Option V
  | nil => (node nil key value nil, none)
  | node l k v r =>
    match cmp key k with
    | .lt =>
      let (l, old) := l.insert cmp key value
      (balance l k v r, old)
    | .eq => (node l k value r, some v)
    | .gt =>
      let (r, old) := r.insert cmp key value
      (balance l k v r, old)

/-- Takes the first entry out. -/
def extractFirst : Tree K V → Option ((K × V) × Tree K V)
  | nil => none
  | node l k v r =>
    match l.extractFirst with
    | none => some ((k, v), r)
    | some (first, l) => some (first, balance l k v r)

/-- Puts two trees together, the first before the second. -/
def join (left right : Tree K V) : Tree K V :=
  match left, right.extractFirst with
  | nil, _ => right
  | _, none => left
  | _, some ((key, value), rest) => balance left key value rest

/-- Takes out the entry where the search for a key ends, if it ends at an entry. -/
def extract (cmp : K → K → Ordering) (key : K) : Tree K V → Tree K V × Option (K × V)
  | nil => (nil, none)
  | node l k v r =>
    match cmp key k with
    | .lt =>
      let (l, gone) := l.extract cmp key
      (balance l k v r, gone)
    | .eq => (join l r, some (k, v))
    | .gt =>
      let (r, gone) := r.extract cmp key
      (balance l k v r, gone)

theorem toList_raiseLeft (left : Tree K V) (key : K) (value : V) (right : Tree K V) :
    (raiseLeft left key value right).toList = left.toList ++ (key, value) :: right.toList := by
  rw [raiseLeft.eq_def]
  split
  · rfl
  · split
    · simp [toList]
    · split <;> simp [toList]

theorem toList_raiseRight (left : Tree K V) (key : K) (value : V) (right : Tree K V) :
    (raiseRight left key value right).toList = left.toList ++ (key, value) :: right.toList := by
  rw [raiseRight.eq_def]
  split
  · rfl
  · split
    · simp [toList]
    · split <;> simp [toList]

/-- Balancing keeps the entries and their order. -/
@[simp] theorem toList_balance (left : Tree K V) (key : K) (value : V) (right : Tree K V) :
    (balance left key value right).toList = left.toList ++ (key, value) :: right.toList := by
  rw [balance]
  split
  · exact toList_raiseLeft left key value right
  · split
    · exact toList_raiseRight left key value right
    · rfl

end Tree

end RankedMap
