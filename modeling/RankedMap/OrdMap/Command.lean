import RankedMap.OrdMap.Basic

/-!
# Running a map by commands, and sorted listings

An `OrdMap.Command` is one operation on a map, and an `OrdMap.Answer` is what it gives back.
`Command.run` runs one, with the comparison of keys that holds for it; `Command.runAll` runs any
number, each with a comparison of its own, and goes on after a command that fails.

A `Listing` of a map is the plain list of its entries in the order of their keys.  It is looked
through from the front, so everything it can be asked is said in a line or two: `find?`, `insert`
and `erase` go to the place of a key, positions are those of the list.  `Listing.run` answers the
commands of a map from a listing alone.  Only what a listing cannot know, the height of a tree and
the room in its storage, is left open.
-/

set_option autoImplicit false

namespace RankedMap

namespace OrdMap

/-- One operation on a map. -/
inductive Command (K V : Type) where
  /-- Go on with a new map. -/
  | renew
  /-- Go on with a new map that has room for some entries, when one takes so many bytes. -/
  | reserve (capacity slotBytes : Nat)
  /-- Drop all entries. -/
  | clear
  /-- Go on with a copy. -/
  | copy
  /-- Ask for the number of entries. -/
  | size
  /-- Ask whether there are none. -/
  | isEmpty
  /-- Ask for the number of levels. -/
  | height
  /-- Ask for the capacity. -/
  | capacity
  /-- Ask for the first entry. -/
  | first
  /-- Ask for the last entry. -/
  | last
  /-- Ask for the value under a key. -/
  | value (key : K)
  /-- Ask for the entry with a key. -/
  | entry (key : K)
  /-- Ask whether there is an entry with a key. -/
  | contains (key : K)
  /-- Ask for the position of a key. -/
  | rank (key : K)
  /-- Ask for the entry at a position. -/
  | entryAt (rank : Nat)
  /-- Ask for the value under a key that must be there. -/
  | get (key : K)
  /-- Ask for the value at a position that must be there. -/
  | getAt (rank : Rank)
  /-- Store another value under a key, if it is there. -/
  | replace (key : K) (value : V)
  /-- Store another value at a position, if it is there. -/
  | replaceAt (rank : Nat) (value : V)
  /-- Store another value at a position that must be there. -/
  | setAt (rank : Rank) (value : V)
  /-- Insert an entry. -/
  | insert (key : K) (value : V)
  /-- Take out the entry with a key, and answer with its value. -/
  | erase (key : K)
  /-- Take out the entry with a key, and answer with all of it. -/
  | extract (key : K)
  deriving Repr

/-- What a command answers. -/
inductive Answer (K V : Type) where
  /-- The command answers nothing. -/
  | done
  /-- A number of entries, levels or slots. -/
  | number (n : Nat)
  /-- Yes or no. -/
  | flag (b : Bool)
  /-- A value that may be missing. -/
  | valueOption (value : Option V)
  /-- An entry that may be missing. -/
  | entryOption (entry : Option (K × V))
  /-- A position that may be missing. -/
  | rankOption (rank : Option Nat)
  /-- A value. -/
  | value (value : V)
  deriving DecidableEq, Repr

namespace Command

variable {K V : Type}

/-- Runs one command with a comparison of keys. -/
def run (cmp : K → K → Ordering) : Command K V → Edit (OrdMap K V) (Answer K V)
  | .renew => fun _ => .ok .done OrdMap.empty
  | .reserve n bytes => do
    let m : OrdMap K V ← Edit.read fun _ => OrdMap.emptyWithCapacity n bytes
    set m
    return .done
  | .clear => fun m => .ok .done m.clear
  | .copy => fun m => .ok .done m.copy
  | .size => return .number (← Edit.read OrdMap.size)
  | .isEmpty => return .flag (← Edit.read fun m => .ok m.isEmpty)
  | .height => return .number (← Edit.read OrdMap.height)
  | .capacity => return .number (← Edit.read fun m => .ok m.capacity)
  | .first => return .entryOption (← Edit.read OrdMap.first?)
  | .last => return .entryOption (← Edit.read OrdMap.last?)
  | .value k => return .valueOption (← Edit.read (OrdMap.get? · cmp k))
  | .entry k => return .entryOption (← Edit.read (OrdMap.find? · cmp k))
  | .contains k => return .flag (← Edit.read (OrdMap.contains · cmp k))
  | .rank k => return .rankOption (← Edit.read (OrdMap.rank? · cmp k))
  | .entryAt r => return .entryOption (← Edit.read (OrdMap.entryAt? · r))
  | .get k => return .value (← Edit.read (OrdMap.get · cmp k))
  | .getAt r => return .value (← Edit.read (OrdMap.getAt · r))
  | .replace k v => return .valueOption (← OrdMap.replace cmp k v)
  | .replaceAt r v => return .entryOption (← OrdMap.replaceAt r v)
  | .setAt r v => return .value (← OrdMap.setAt r v)
  | .insert k v => return .valueOption (← OrdMap.insert cmp k v)
  | .erase k => return .valueOption (← OrdMap.erase cmp k)
  | .extract k => return .entryOption (← OrdMap.extract cmp k)

/-- Runs commands one after the other, and gives all their outcomes and the map in the end. -/
def runAll :
    List ((K → K → Ordering) × Command K V) → OrdMap K V →
      List (Except Fault (Answer K V)) × OrdMap K V
  | [], m => ([], m)
  | (cmp, command) :: rest, m =>
    let (answer, m) := (run cmp command).outcome m
    let (answers, m) := runAll rest m
    (answer :: answers, m)

end Command

end OrdMap

/-- The entries of a map in the order of their keys. -/
abbrev Listing (K V : Type) : Type := List (K × V)

namespace Listing

variable {K V : Type}

/-- The keys ascend strictly. -/
def Sorted (cmp : K → K → Ordering) (es : Listing K V) : Prop :=
  es.Pairwise fun a b => cmp a.1 b.1 = .lt

/-- The entry whose key compares the same. -/
def find? (cmp : K → K → Ordering) (key : K) (es : Listing K V) : Option (K × V) :=
  List.find? (fun e => cmp key e.1 == .eq) es

/-- The position of the entry whose key compares the same. -/
def rank? (cmp : K → K → Ordering) (key : K) (es : Listing K V) : Option Nat :=
  es.findIdx? fun e => cmp key e.1 == .eq

/-- Puts an entry in its place, before the first greater key.  A key that compares the same stays,
and its value is replaced. -/
def insert (cmp : K → K → Ordering) (key : K) (value : V) : Listing K V → Listing K V
  | [] => [(key, value)]
  | e :: es =>
    match cmp key e.1 with
    | .lt => (key, value) :: e :: es
    | .eq => (e.1, value) :: es
    | .gt => e :: insert cmp key value es

/-- The listing without the entry whose key compares the same. -/
def erase (cmp : K → K → Ordering) (key : K) (es : Listing K V) : Listing K V :=
  es.eraseP fun e => cmp key e.1 == .eq

/-- Stores another value at a position, if it is there. -/
def replaceAt (rank : Nat) (value : V) (es : Listing K V) : Listing K V :=
  es.modify rank fun e => (e.1, value)

/-- Stores another value under a key, if it is there. -/
def replace (cmp : K → K → Ordering) (key : K) (value : V) (es : Listing K V) : Listing K V :=
  match rank? cmp key es with
  | some rank => replaceAt rank value es
  | none => es

/-- A value that must be there. -/
def demand (fault : Fault) : Option V → Except Fault (OrdMap.Answer K V)
  | some v => .ok (.value v)
  | none => .error fault

/-- What a command answers, and the listing after it.  Nothing is said of the height and the
capacity of a map. -/
def run (cmp : K → K → Ordering) (es : Listing K V) :
    OrdMap.Command K V → Option (Except Fault (OrdMap.Answer K V)) × Listing K V
  | .renew => (some (.ok .done), [])
  | .reserve n bytes =>
    if n * bytes ≤ Arena.maxBytes then (some (.ok .done), [])
    else (some (.error .capacityOverflow), es)
  | .clear => (some (.ok .done), [])
  | .copy => (some (.ok .done), es)
  | .size => (some (.ok (.number es.length)), es)
  | .isEmpty => (some (.ok (.flag es.isEmpty)), es)
  | .height => (none, es)
  | .capacity => (none, es)
  | .first => (some (.ok (.entryOption es.head?)), es)
  | .last => (some (.ok (.entryOption es.getLast?)), es)
  | .value k => (some (.ok (.valueOption ((find? cmp k es).map (·.2)))), es)
  | .entry k => (some (.ok (.entryOption (find? cmp k es))), es)
  | .contains k => (some (.ok (.flag (find? cmp k es).isSome)), es)
  | .rank k => (some (.ok (.rankOption (rank? cmp k es))), es)
  | .entryAt r => (some (.ok (.entryOption es[r]?)), es)
  | .get k => (some (demand .keyNotFound ((find? cmp k es).map (·.2))), es)
  | .getAt r => (some (demand .rankOutOfBounds (es[r.position]?.map (·.2))), es)
  | .replace k v => (some (.ok (.valueOption ((find? cmp k es).map (·.2)))), replace cmp k v es)
  | .replaceAt r v => (some (.ok (.entryOption es[r]?)), replaceAt r v es)
  | .setAt r v =>
    (some (demand .rankOutOfBounds (es[r.position]?.map (·.2))), replaceAt r.position v es)
  | .insert k v => (some (.ok (.valueOption ((find? cmp k es).map (·.2)))), insert cmp k v es)
  | .erase k => (some (.ok (.valueOption ((find? cmp k es).map (·.2)))), erase cmp k es)
  | .extract k => (some (.ok (.entryOption (find? cmp k es))), erase cmp k es)

end Listing

end RankedMap
