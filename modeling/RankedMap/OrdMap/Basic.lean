import RankedMap.Forest.Descent
import RankedMap.Text

/-!
# Ordered maps with positions

An `OrdMap K V` keeps entries in the order of their keys, in a height-balanced tree whose nodes
remember how many nodes are below them.  So an entry is found by its key, by its position among all
entries, and the position of a key is found as fast.

A `Rank` is the position of an entry among all entries in the order of their keys, from 0.  It is a
type of its own where a key and a position are both possible and must not be mistaken for each
other.

How keys compare is told to each operation.  Any function will do: one that is no order at all
decides only where entries end up and whether they are found again, and never breaks the tree.
Keys that compare the same need not be equal; the key that came first stays.

When two maps are compared, or a map is written as text, keys and values are compared and written as
their own types say: the former by `==`, of which no law is assumed.

Questions are functions into `Except Fault`, changes are `Edit`s.  The forms that end in a question
mark answer with an option; `get`, `getAt` and `setAt` fail where there is no entry, and these are
the only faults that a caller of this module can meet, apart from reserving too much
(`emptyWithCapacity`).
-/

set_option autoImplicit false

namespace RankedMap

/-- The position of an entry, from 0. -/
structure Rank where
  /-- How many entries stand before it. -/
  position : Nat
  deriving DecidableEq, Repr

namespace Rank

instance : Ord Rank := ⟨fun a b => compare a.position b.position⟩

/-- A position as text. -/
def text (layout : Layout) (r : Rank) : String :=
  layout.enclose "Rank(" ")" [toString r.position]

end Rank

/-- A map whose entries are kept in the order of their keys. -/
structure OrdMap (K V : Type) where
  /-- The nodes, each in a slot of its own. -/
  nodes : Forest K V
  /-- The root of the tree. -/
  root : Link
  deriving Repr

namespace OrdMap

variable {K V α : Type}

/-! ## Making maps -/

/-- A map without entries. -/
def empty : OrdMap K V := ⟨Arena.empty, none⟩

/-- A map without entries, and room for a given number of them, of `slotBytes` bytes each. -/
def emptyWithCapacity (capacity slotBytes : Nat) : Except Fault (OrdMap K V) :=
  return ⟨← Arena.emptyWithCapacity capacity slotBytes, none⟩

/-- The map without its entries; the room for them is kept. -/
def clear (m : OrdMap K V) : OrdMap K V := ⟨m.nodes.clear, none⟩

/-- A copy of the map.  It has room for as many entries as the map has slots. -/
def copy (m : OrdMap K V) : OrdMap K V := ⟨m.nodes.copy, m.root⟩

/-! ## The whole map -/

/-- The number of entries. -/
def size (m : OrdMap K V) : Except Fault Nat :=
  return (← m.nodes.sizeAt m.root).count

/-- Has the map no entries? -/
def isEmpty (m : OrdMap K V) : Bool := m.root.isNone

/-- The number of levels of the tree. -/
def height (m : OrdMap K V) : Except Fault Nat :=
  return (← m.nodes.heightAt m.root).levels

/-- How many entries there is room for before storage has to grow. -/
def capacity (m : OrdMap K V) : Nat := m.nodes.capacity

/-- The tree of the map as a value. -/
def tree (m : OrdMap K V) : Tree K V := m.nodes.tree m.root

/-- Takes all entries into a running value, in their order. -/
def fold {β : Type} (m : OrdMap K V) (take : β → K → V → β) (start : β) : Except Fault β :=
  m.nodes.visit take m.nodes.stepLimit m.root start

/-- All entries, in their order. -/
def entries (m : OrdMap K V) : Except Fault (List (K × V)) :=
  return (← m.fold (fun acc key value => acc.push (key, value)) #[]).toList

/-! ## Looking up by key -/

/-- The node at which the search for a key ends, if it ends at a node. -/
def locate (m : OrdMap K V) (cmp : K → K → Ordering) (key : K) : Except Fault Link :=
  m.nodes.locate cmp key m.nodes.stepLimit m.root

/-- The keys that a key is compared with when it is looked for, from the root down. -/
def path (m : OrdMap K V) (cmp : K → K → Ordering) (key : K) : Except Fault (List K) :=
  m.nodes.path cmp key m.nodes.stepLimit m.root

/-- The entry of the node that a link names, if it names one. -/
def entryOf (m : OrdMap K V) : Link → Except Fault (Option (K × V))
  | none => .ok none
  | some h => return some (← m.nodes.get h).entry

/-- The entry with a key; its key is the one that is stored. -/
def find? (m : OrdMap K V) (cmp : K → K → Ordering) (key : K) :
    Except Fault (Option (K × V)) := do
  m.entryOf (← m.locate cmp key)

/-- The value of the entry with a key. -/
def get? (m : OrdMap K V) (cmp : K → K → Ordering) (key : K) : Except Fault (Option V) :=
  return (← m.find? cmp key).map (·.2)

/-- Is there an entry with this key? -/
def contains (m : OrdMap K V) (cmp : K → K → Ordering) (key : K) : Except Fault Bool :=
  return (← m.locate cmp key).isSome

/-- The value of the entry with a key, which must be there. -/
def get (m : OrdMap K V) (cmp : K → K → Ordering) (key : K) : Except Fault V := do
  match ← m.get? cmp key with
  | some value => return value
  | none => throw .keyNotFound

/-- The position of the entry with a key. -/
def rank? (m : OrdMap K V) (cmp : K → K → Ordering) (key : K) : Except Fault (Option Nat) :=
  m.nodes.rankOf cmp key m.nodes.stepLimit m.root 0

/-! ## Looking up by position -/

/-- The node at a position, if there are so many entries. -/
def select (m : OrdMap K V) (rank : Nat) : Except Fault Link :=
  m.nodes.select m.nodes.stepLimit m.root rank

/-- The entry at a position, if there are so many entries. -/
def entryAt? (m : OrdMap K V) (rank : Nat) : Except Fault (Option (K × V)) := do
  m.entryOf (← m.select rank)

/-- The first entry. -/
def first? (m : OrdMap K V) : Except Fault (Option (K × V)) := m.entryAt? 0

/-- The last entry. -/
def last? (m : OrdMap K V) : Except Fault (Option (K × V)) := do
  match ← m.size with
  | 0 => return none
  | n + 1 => m.entryAt? n

/-- The value at a position, which must be there. -/
def getAt (m : OrdMap K V) (rank : Rank) : Except Fault V := do
  match ← m.entryAt? rank.position with
  | some (_, value) => return value
  | none => throw .rankOutOfBounds

/-! ## Comparing and writing maps -/

/-- Do two maps have the same number of entries, and at every position entries that are `==`? -/
def sameEntries [BEq K] [BEq V] (a b : OrdMap K V) : Except Fault Bool := do
  let n ← a.size
  let m ← b.size
  if n = m then
    (List.range n).allM fun rank => return (← a.entryAt? rank) == (← b.entryAt? rank)
  else
    return false

/-- The map as text, with its keys and values as they are written by the caller. -/
def text (m : OrdMap K V) (layout : Layout) (writeKey : K → String) (writeValue : V → String) :
    Except Fault String := do
  let items ← m.fold (fun acc key value => acc.push (writeKey key ++ ": " ++ writeValue value)) #[]
  return layout.enclose "\x7b" "\x7d" items.toList

/-! ## Storing values -/

/-- Runs a change of the nodes that leaves the root where it is. -/
def onNodes (change : Edit (Forest K V) α) : Edit (OrdMap K V) α := fun ⟨nodes, root⟩ =>
  match change nodes with
  | .ok a nodes => .ok a ⟨nodes, root⟩
  | .error e nodes => .error e ⟨nodes, root⟩

/-- Stores a value in the node that a link names, and answers with the entry that was there. -/
def replaceIn (link : Link) (value : V) : Edit (OrdMap K V) (Option (K × V)) :=
  match link with
  | none => return none
  | some h => onNodes do
    let old ← Arena.modifyGet h fun node => (node.entry, node.setValue value)
    return some old

/-- Stores another value under a key that is there, and answers with the old value. -/
def replace (cmp : K → K → Ordering) (key : K) (value : V) : Edit (OrdMap K V) (Option V) := do
  let link ← Edit.read (·.locate cmp key)
  return (← replaceIn link value).map (·.2)

/-- Stores another value at a position that is there, and answers with the old entry. -/
def replaceAt (rank : Nat) (value : V) : Edit (OrdMap K V) (Option (K × V)) := do
  let link ← Edit.read (·.select rank)
  replaceIn link value

/-- Stores another value at a position, which must be there, and answers with the old value. -/
def setAt (rank : Rank) (value : V) : Edit (OrdMap K V) V := do
  match ← replaceAt rank.position value with
  | some (_, old) => return old
  | none => throw .rankOutOfBounds

/-! ## Inserting and taking out -/

/-- Runs a change that rebuilds the tree, and makes what it answers the new root. -/
def rebuild (change : Link → Edit (Forest K V) (Link × α)) : Edit (OrdMap K V) α :=
  fun ⟨nodes, root⟩ =>
    match change root nodes with
    | .ok (root, a) nodes => .ok a ⟨nodes, root⟩
    | .error e nodes => .error e ⟨nodes, root⟩

/-- Fails unless there are as many occupied slots as nodes in the tree. -/
def audit (leaked : (slots nodes : Nat) → Fault) (m : OrdMap K V) : Except Fault Unit := do
  let slots := m.nodes.size
  let nodes ← m.size
  if slots = nodes then return () else throw (leaked slots nodes)

/-- Inserts an entry.  If there is one with this key, it keeps its key and gets the new value, and
the answer is the old one. -/
def insert (cmp : K → K → Ordering) (key : K) (value : V) : Edit (OrdMap K V) (Option V) := do
  let old ← rebuild fun link => do
    let (root, old) ← Forest.insert cmp key value link
    return (some root, old)
  Edit.read (audit .leakedByInsert)
  return old

/-- Moves the entry of a node that has left the tree out of its slot. -/
def releaseEntry : Link → Edit (OrdMap K V) (Option (K × V))
  | none => return none
  | some h => do
    let node ← onNodes (Arena.release h)
    return some (← Edit.read fun _ => node.detachedEntry)

/-- Takes the entry with a key out of the map, if it is there. -/
def extract (cmp : K → K → Ordering) (key : K) : Edit (OrdMap K V) (Option (K × V)) := do
  let gone ← rebuild (Forest.extract cmp key)
  let entry ← releaseEntry gone
  Edit.read (audit .leakedByExtract)
  return entry

/-- Takes the entry with a key out of the map, if it is there, and answers with its value. -/
def erase (cmp : K → K → Ordering) (key : K) : Edit (OrdMap K V) (Option V) :=
  return (← extract cmp key).map (·.2)

end OrdMap

end RankedMap
