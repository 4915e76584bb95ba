import RankedMap.Datum
import RankedMap.OrdMap.Command

/-!
# A workbench of numbered maps

A `Workbench` has any number of maps of data, numbered from 0, each empty at first.  One of them is
the current one, and a `Task` is about it: a command of the map itself, something to be read off it,
or something that involves another map.  All maps compare keys in the one way that the workbench was
set up with.

A task that asks for a key or a position that is not there, or for too much room, fails and leaves
the workbench as it was.
-/

set_option autoImplicit false

namespace RankedMap

/-- A map of data. -/
abbrev DataMap : Type := OrdMap Datum Datum

/-- Numbered maps, of which one is current. -/
structure Workbench where
  /-- How keys are compared. -/
  order : KeyOrder
  /-- The number of the current map. -/
  number : Nat
  /-- The current map. -/
  current : DataMap
  /-- The other maps that have been used, by their numbers. -/
  parked : List (Nat × DataMap)

/-- Something to be done with the current map. -/
inductive Task where
  /-- A command of the map. -/
  | command (c : OrdMap.Command Datum Datum)
  /-- Make map `n` the current one. -/
  | use (n : Nat)
  /-- Make map `n` a copy of the current one. -/
  | copyTo (n : Nat)
  /-- Compare the current map with map `n`. -/
  | compareWith (n : Nat)
  /-- Write the map as text. -/
  | text (layout : Layout)
  /-- List the entries at all positions. -/
  | entries
  /-- List the entries at `count` positions from `start` on, each `step` after the one before. -/
  | entriesAt (start step count : Nat)
  /-- List the keys that a key is compared with. -/
  | path (key : Datum)
  /-- Show the tree. -/
  | tree
  /-- Summarise the shape of the tree. -/
  | levels
  /-- Insert all keys of a run, the first with value 0, the next with value 1 and so on. -/
  | insertRun (run : KeyRun)
  /-- Take out all keys of a run. -/
  | eraseRun (run : KeyRun)

/-- What a task answers. -/
inductive Reply where
  /-- What a command of the map answers. -/
  | answer (a : OrdMap.Answer Datum Datum)
  /-- Whether two maps are equal, and whether they differ. -/
  | comparison (equal different : Bool)
  /-- A text. -/
  | text (s : String)
  /-- Entries that may be missing. -/
  | entries (es : List (Option (Datum × Datum)))
  /-- Keys. -/
  | keys (ks : List Datum)
  /-- A tree. -/
  | tree (t : Tree Datum Datum)
  /-- How many nodes there are at each depth, and the digest of the shape. -/
  | levels (counts : List Nat) (digest : Nat)
  /-- How many entries were added, and how many times a value was replaced. -/
  | inserted (added replaced : Nat)
  /-- How many entries were taken out, and how many times there was none to take. -/
  | erased (removed missed : Nat)

namespace Workbench

/-- The workbench before the first task. -/
def start (order : KeyOrder) : Workbench := ⟨order, 0, OrdMap.empty, []⟩

/-- The map with a number. -/
def map (w : Workbench) (n : Nat) : DataMap :=
  if n = w.number then w.current else (w.parked.lookup n).getD OrdMap.empty

/-- The parked maps without the one that has a number. -/
def without (n : Nat) (parked : List (Nat × DataMap)) : List (Nat × DataMap) :=
  parked.filter (·.1 ≠ n)

/-- Makes map `n` the current one. -/
def use (n : Nat) : Workbench → Workbench := fun ⟨order, number, current, parked⟩ =>
  let parked := (number, current) :: parked
  let next := (parked.lookup n).getD OrdMap.empty
  ⟨order, n, next, without n parked⟩

/-- Puts a map in the place of map `n`. -/
def put (w : Workbench) (n : Nat) (m : DataMap) : Workbench :=
  if n = w.number then { w with current := m }
  else { w with parked := (n, m) :: without n w.parked }

/-- Runs a change of the current map. -/
def onCurrent {α : Type} (change : Edit DataMap α) : Edit Workbench α :=
  fun ⟨order, number, current, parked⟩ =>
    match change current with
    | .ok a current => .ok a ⟨order, number, current, parked⟩
    | .error e current => .error e ⟨order, number, current, parked⟩

/-- Counts one more case in which something holds or does not. -/
def tally (counts : Nat × Nat) (holds : Bool) : Nat × Nat :=
  if holds then (counts.1 + 1, counts.2) else (counts.1, counts.2 + 1)

/-- Inserts keys, the first with value 0.  Counts the entries added and the values replaced. -/
def insertAll (cmp : Datum → Datum → Ordering) (keys : List Datum) : Edit DataMap (Nat × Nat) :=
  keys.zipIdx.foldlM (fun counts (key, i) => do
    let old ← OrdMap.insert cmp key (.int i)
    return tally counts old.isNone) (0, 0)

/-- Takes keys out.  Counts the entries taken and the keys that had none. -/
def eraseAll (cmp : Datum → Datum → Ordering) (keys : List Datum) : Edit DataMap (Nat × Nat) :=
  keys.foldlM (fun counts key => do
    let old ← OrdMap.erase cmp key
    return tally counts old.isSome) (0, 0)

/-- Does one task. -/
def perform (task : Task) : Edit Workbench Reply := do
  let cmp ← Edit.read fun w => .ok w.order.compare
  match task with
  | .command c => return .answer (← onCurrent (c.run cmp))
  | .use n =>
    modify (use n)
    return .answer .done
  | .copyTo n =>
    modify fun w => w.put n w.current.copy
    return .answer .done
  | .compareWith n =>
    let equal ← Edit.read fun w => w.current.sameEntries (w.map n)
    return .comparison equal (!equal)
  | .text layout =>
    return .text (← Edit.read (·.current.text layout (Datum.write layout) (Datum.write layout)))
  | .entries =>
    let size ← Edit.read (·.current.size)
    return .entries (← Edit.read fun w => (List.range size).mapM w.current.entryAt?)
  | .entriesAt start step count =>
    return .entries <| ← Edit.read fun w =>
      (List.range count).mapM fun i => w.current.entryAt? (start + i * step)
  | .path key => return .keys (← Edit.read (·.current.path cmp key))
  | .tree => return .tree (← Edit.read fun w => .ok w.current.tree)
  | .levels =>
    let tree ← Edit.read fun w => .ok w.current.tree
    return .levels tree.levels tree.digest
  | .insertRun run =>
    let (added, replaced) ← onCurrent (insertAll cmp run.keys)
    return .inserted added replaced
  | .eraseRun run =>
    let (removed, missed) ← onCurrent (eraseAll cmp run.keys)
    return .erased removed missed

end Workbench

end RankedMap
