import RankedMap.Text

/-!
# Data

A `Datum` is what keys and values are made of where they are not left open: the unit, an integer, a
text, or a list of data.  Two data are put in order by their kind first.  The unit comes before the
integers, these before the texts, these before the lists; inside a kind integers are compared by
value, texts by code points, and lists element by element, a list coming after its beginnings.
`Datum.compare_eq_iff` says that this order tells all data apart, so that equality is decided by it.
`Datum.write` writes a datum.

A `KeyOrder` names a way to compare the key that is looked for with the key in a node.  The first
two put data in order and tell them apart.  The next three put them in order and take some for the
same.  The last two are no orders: `circle` goes round in a circle, and `never` finds no key the
same, not even itself.

A `KeyRun` describes many integer keys at once: evenly spaced ones, or ones scattered by a linear
congruential generator.
-/

set_option autoImplicit false

namespace RankedMap

/-- A value built from the unit, integers, texts and lists. -/
inductive Datum where
  /-- The unit. -/
  | unit
  /-- An integer. -/
  | int (n : Int)
  /-- A text. -/
  | text (s : String)
  /-- A list of data. -/
  | list (xs : List Datum)
  deriving Inhabited

namespace Datum

mutual

/-- The natural order of data. -/
protected def compare : Datum → Datum → Ordering
  | unit, unit => .eq
  | unit, _ => .lt
  | _, unit => .gt
  | int a, int b => Ord.compare a b
  | int _, _ => .lt
  | _, int _ => .gt
  | text a, text b => Ord.compare a b
  | text _, _ => .lt
  | _, text _ => .gt
  | list xs, list ys => compareAll xs ys

/-- The natural order of lists of data: by the first elements that differ, else the shorter one
first. -/
def compareAll : List Datum → List Datum → Ordering
  | [], [] => .eq
  | [], _ :: _ => .lt
  | _ :: _, [] => .gt
  | x :: xs, y :: ys => (x.compare y).then (compareAll xs ys)

end

instance : Ord Datum := ⟨Datum.compare⟩

mutual

/-- The order tells all data apart. -/
theorem compare_eq_iff : ∀ a b : Datum, a.compare b = .eq ↔ a = b
  | unit, b => by cases b <;> simp [Datum.compare]
  | int a, b => by cases b <;> simp [Datum.compare]
  | text a, b => by cases b <;> simp [Datum.compare]
  | list xs, list ys => by simp [Datum.compare, compareAll_eq_iff xs ys]
  | list _, unit => by simp [Datum.compare]
  | list _, int _ => by simp [Datum.compare]
  | list _, text _ => by simp [Datum.compare]

/-- The order tells all lists of data apart. -/
theorem compareAll_eq_iff : ∀ xs ys : List Datum, compareAll xs ys = .eq ↔ xs = ys
  | [], ys => by cases ys <;> simp [compareAll]
  | x :: xs, [] => by simp [compareAll]
  | x :: xs, y :: ys => by
    simp [compareAll, Ordering.then_eq_eq, compare_eq_iff x y, compareAll_eq_iff xs ys]

end

instance : DecidableEq Datum := fun a b => decidable_of_iff _ (compare_eq_iff a b)

mutual

/-- A datum as text. -/
def write (layout : Layout) : Datum → String
  | unit => "()"
  | int n => toString n
  | text s => Quoted.write s
  | list xs => layout.enclose "[" "]" (writeAll layout xs)

/-- Some data as texts. -/
def writeAll (layout : Layout) : List Datum → List String
  | [] => []
  | x :: xs => x.write layout :: writeAll layout xs

end

end Datum

/-! ## Ways to compare keys -/

/-- A way to compare keys. -/
inductive KeyOrder where
  /-- The natural order. -/
  | natural
  /-- The natural order backwards. -/
  | reverse
  /-- Integers by their absolute values. -/
  | magnitude
  /-- Integers by their last digit, counted upwards from a multiple of ten. -/
  | lastDigit
  /-- Texts without regard to the case of the letters from A to Z. -/
  | caseless
  /-- Integers on a circle of five places: each is greater than the two places before it, and less
  than the two places after it. -/
  | circle
  /-- The natural order, with no two keys the same. -/
  | never
  deriving DecidableEq, Repr

namespace KeyOrder

/-- Compares the key that is looked for with the key in a node.  A pair of keys that a way to
compare says nothing about is compared naturally. -/
def compare : KeyOrder → Datum → Datum → Ordering
  | natural, a, b => a.compare b
  | reverse, a, b => b.compare a
  | magnitude, .int a, .int b => Ord.compare a.natAbs b.natAbs
  | magnitude, a, b => a.compare b
  | lastDigit, .int a, .int b => Ord.compare (a.emod 10) (b.emod 10)
  | lastDigit, a, b => a.compare b
  | caseless, .text a, .text b => Ord.compare (a.map Char.toLower) (b.map Char.toLower)
  | caseless, a, b => a.compare b
  | circle, .int a, .int b =>
    let ahead := (a - b).emod 5
    if ahead = 0 then .eq else if ahead ≤ 2 then .gt else .lt
  | circle, a, b => a.compare b
  | never, a, b =>
    match a.compare b with
    | .eq => .gt
    | o => o

end KeyOrder

/-! ## Long runs of keys -/

/-- A run of integer keys. -/
inductive KeyRun where
  /-- `count` keys from `start` on, each `step` after the one before. -/
  | spaced (start step : Int) (count : Nat)
  /-- `count` keys below `bound`, scattered by the generator that begins with `seed`. -/
  | scattered (seed bound count : Nat)
  deriving DecidableEq, Repr

namespace KeyRun

/-- The state of the generator after a state. -/
def advance (x : Nat) : Nat := (x * 6364136223846793005 + 1) % Nat.pow 2 64

/-- The key that a state of the generator gives: its upper half without the sign bit, reduced. -/
def draw (x bound : Nat) : Nat := x / Nat.pow 2 33 % bound

/-- The next keys of the generator; `x` is the state before the first of them. -/
def drawAll (bound : Nat) : (count x : Nat) → List Nat
  | 0, _ => []
  | count + 1, x => draw (advance x) bound :: drawAll bound count (advance x)

/-- The keys of a run. -/
def keys : KeyRun → List Datum
  | spaced start step count => (List.range count).map fun (i : Nat) => .int (start + i * step)
  | scattered seed bound count => (drawAll bound count seed).map fun (key : Nat) => .int key

theorem length_drawAll (bound count x : Nat) : (drawAll bound count x).length = count := by
  induction count generalizing x with
  | zero => rfl
  | succ count ih => simp [drawAll, ih]

/-- A run has as many keys as it says. -/
theorem length_keys : ∀ run : KeyRun,
    run.keys.length = match run with | spaced _ _ count => count | scattered _ _ count => count
  | spaced _ _ _ => by simp [keys]
  | scattered _ _ _ => by simp [keys, length_drawAll]

end KeyRun

end RankedMap
