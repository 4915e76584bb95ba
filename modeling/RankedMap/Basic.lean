/-!
# Sides, faults and edits

What all other modules share.  A `Side` tells the two subtrees of a node apart.  What is done on the
left and on the right is written once, for a side and its opposite.

A `Fault` is the cause of a failed operation; `Fault.message` is the text it is reported with.  Three
causes are a caller's doing: asking for a key or a position that is not there, and reserving more
slots than memory can have.  A caller who handles slots directly can also use a handle that names no
occupied slot, or build a handle or a size out of a number that is too large.  The others are reached
from a broken tree only.

An `Edit σ α` turns a state into an answer and a new state, or into a `Fault` and the state at which
it arose.  Handing on the state in both cases is what makes "a failed operation changes nothing" a
statement that can be made and proved: `Edit.read_eq_error` is its instance for questions, which
never change anything.  A change can also take notes beside the state (`Edit.Notes`).
-/

set_option autoImplicit false

namespace RankedMap

/-- Left or right. -/
inductive Side where
  /-- Towards smaller keys. -/
  | left
  /-- Towards greater keys. -/
  | right
  deriving DecidableEq, Repr

namespace Side

/-- The other side. -/
def opposite : Side → Side
  | left => right
  | right => left

/-- Where to look for a key that compares so with the key at hand; nowhere else if it is the
same. -/
def ofOrdering : Ordering → Option Side
  | .lt => some left
  | .eq => none
  | .gt => some right

/-- The side as a word. -/
def word : Side → String
  | left => "left"
  | right => "right"

end Side

/-- What was being done to a slot that turned out to be vacant. -/
inductive Access where
  /-- The element was only looked at. -/
  | read
  /-- The element was to be changed in place. -/
  | write
  /-- The element was to be moved out and its slot freed. -/
  | release
  deriving DecidableEq, Repr

/-- The cause of a failed operation. -/
inductive Fault where
  /-- No entry has the key that was asked for. -/
  | keyNotFound
  /-- No entry is at the position that was asked for. -/
  | rankOutOfBounds
  /-- More slots were to be reserved than memory can have. -/
  | capacityOverflow
  /-- A handle names slot `index`, and there are only `slots` slots, freed ones counted. -/
  | slotOutOfRange (slots index : Nat)
  /-- A handle names a slot that holds no element. -/
  | vacantSlot (access : Access)
  /-- A number is too large for a handle. -/
  | handleTooLarge
  /-- A number is too large for the size of a subtree. -/
  | sizeTooLarge
  /-- A number is too large for the height of a subtree. -/
  | heightTooLarge
  /-- More was to be taken from a number than it is. -/
  | belowZero
  /-- Every handle already names an occupied slot. -/
  | arenaFull
  /-- A rotation found no child on the side that is too high. -/
  | childMissing (heavy : Side)
  /-- A double rotation found no inner grandchild below the child on the side that is too high. -/
  | grandchildMissing (heavy : Side)
  /-- A descent made more steps than there are slots. -/
  | tooDeep
  /-- The entry of a node was to be taken that still has children. -/
  | stillLinked
  /-- After an insertion there are `slots` occupied slots and `nodes` nodes in the tree. -/
  | leakedByInsert (slots nodes : Nat)
  /-- After an entry was taken out there are `slots` occupied slots and `nodes` nodes in the tree. -/
  | leakedByExtract (slots nodes : Nat)
  deriving DecidableEq, Repr

namespace Fault

/-- The text of two numbers that should have been equal. -/
def unequal (text : String) (left right : Nat) : String :=
  s!"assertion `left == right` failed: {text}\n  left: {left}\n right: {right}"

/-- The text a fault is reported with.  A rotation is named for the way in which the node goes down,
which is away from the side that is too high. -/
def message : Fault → String
  | keyNotFound => "no entry found for key"
  | rankOutOfBounds => "rank out of bounds"
  | capacityOverflow => "capacity overflow"
  | slotOutOfRange slots index =>
    s!"index out of bounds: the len is {slots} but the index is {index}"
  | vacantSlot .read => "`Arena::get()` - `handle` is invalid!"
  | vacantSlot .write => "`Arena::get_mut()` - `handle` is invalid!"
  | vacantSlot .release => "`Arena::take()` - `handle` is invalid!"
  | handleTooLarge => "`Handle::from_index()` - `index` > `Handle::MAX`!"
  | sizeTooLarge => "`Size::from_usize()` - `size` > `Size::MAX`!"
  | heightTooLarge => "attempt to add with overflow"
  | belowZero => "attempt to subtract with overflow"
  | arenaFull => "`Arena::alloc()` - arena is at maximum capacity (4294967295)"
  | childMissing heavy =>
    s!"`RawAvlTreeMap::rotate_{heavy.opposite.word}()` - missing {heavy.word} child!"
  | grandchildMissing heavy =>
    s!"`RawAvlTreeMap::rotate_{heavy.opposite.word}()` - missing inner grandchild!"
  | tooDeep => "a path is longer than the number of slots"
  | stillLinked => "`Node::into_entry()` - node is still linked into the tree!"
  | leakedByInsert slots nodes =>
    unequal "`RawAvlTreeMap::insert()` - leaked a node!" slots nodes
  | leakedByExtract slots nodes =>
    unequal "`RawAvlTreeMap::remove_entry()` - leaked a node!" slots nodes

end Fault

/-- The difference of two numbers, which must not fall below zero. -/
def minus (a b : Nat) : Except Fault Nat := if b ≤ a then .ok (a - b) else .error .belowZero

theorem minus_of_le {a b : Nat} (h : b ≤ a) : minus a b = .ok (a - b) := if_pos h

/-- A change of a state of type `σ` that answers with an `α` or fails. -/
abbrev Edit (σ α : Type) : Type := EStateM Fault σ α

namespace Edit

variable {σ α : Type}

/-- Asks a question that may fail, and leaves the state as it is. -/
@[inline] def read (question : σ → Except Fault α) : Edit σ α := fun s =>
  match question s with
  | .ok a => .ok a s
  | .error e => .error e s

/-- Runs a change, and gives its answer or its fault beside the state it ends in. -/
def outcome (change : Edit σ α) (s : σ) : Except Fault α × σ :=
  match change s with
  | .ok a s => (.ok a, s)
  | .error e s => (.error e, s)

@[simp] theorem outcome_eq_ok {change : Edit σ α} {s s' : σ} {a : α} :
    outcome change s = (.ok a, s') ↔ change s = .ok a s' := by
  rw [outcome]
  split <;> simp_all

@[simp] theorem outcome_eq_error {change : Edit σ α} {s s' : σ} {e : Fault} :
    outcome change s = (.error e, s') ↔ change s = .error e s' := by
  rw [outcome]
  split <;> simp_all

/-- A question leaves the state as it is. -/
theorem outcome_read (question : σ → Except Fault α) (s : σ) :
    outcome (read question) s = (question s, s) := by
  rw [outcome, read]
  cases question s <;> rfl

@[simp] theorem read_eq_ok {question : σ → Except Fault α} {s s' : σ} {a : α} :
    read question s = .ok a s' ↔ question s = .ok a ∧ s' = s := by
  rw [read]
  split <;> simp_all [eq_comm]

@[simp] theorem read_eq_error {question : σ → Except Fault α} {s s' : σ} {e : Fault} :
    read question s = .error e s' ↔ question s = .error e ∧ s' = s := by
  rw [read]
  split <;> simp_all [eq_comm]

/-- Two changes one after the other: the second starts from where the first ended, if that
succeeded. -/
theorem bind_apply {β : Type} (x : Edit σ α) (f : α → Edit σ β) (s : σ) :
    (x >>= f) s = match x s with
      | .ok a t => f a t
      | .error e t => .error e t := by
  show EStateM.bind x f s = _
  rw [EStateM.bind]
  cases x s <;> rfl

theorem read_apply (question : σ → Except Fault α) (s : σ) :
    read question s = match question s with
      | .ok a => .ok a s
      | .error e => .error e s := rfl

theorem pure_apply (a : α) (s : σ) : (pure a : Edit σ α) s = .ok a s := rfl

/-- Two changes one after the other fail when the first does, or the second after it. -/
theorem bind_eq_error {β : Type} {x : Edit σ α} {f : α → Edit σ β} {s s' : σ} {e : Fault} :
    (x >>= f) s = .error e s' ↔
      x s = .error e s' ∨ ∃ a t, x s = .ok a t ∧ f a t = .error e s' := by
  show EStateM.bind x f s = _ ↔ _
  rw [EStateM.bind]
  cases x s with
  | ok a t =>
    exact ⟨fun h => .inr ⟨a, t, rfl, h⟩, fun h => by
      rcases h with h | ⟨_, _, h, h'⟩
      · cases h
      · cases h; exact h'⟩
  | error e t => simp

/-- Two changes one after the other succeed when both do. -/
theorem bind_eq_ok {β : Type} {x : Edit σ α} {f : α → Edit σ β} {s s' : σ} {b : β} :
    (x >>= f) s = .ok b s' ↔ ∃ a t, x s = .ok a t ∧ f a t = .ok b s' := by
  rw [bind_apply]
  cases x s with
  | ok a t =>
    refine ⟨fun h => ⟨a, t, rfl, h⟩, ?_⟩
    rintro ⟨_, _, ⟨⟩, h⟩
    exact h
  | error e t => simp

/-- A change that fails ends the one that it begins. -/
theorem outcome_bind_of_error {β : Type} {x : Edit σ α} {s s' : σ} {e : Fault}
    (h : x s = .error e s') (f : α → Edit σ β) : outcome (x >>= f) s = (.error e, s') :=
  outcome_eq_error.2 (bind_eq_error.2 (.inl h))

/-- A change that succeeds hands on to the one that follows. -/
theorem outcome_bind_of_ok {β : Type} {x : Edit σ α} {s s' : σ} {a : α} (h : x s = .ok a s')
    (f : α → Edit σ β) : outcome (x >>= f) s = outcome (f a) s' := by
  simp only [outcome, bind_apply, h]

/-- What is made of an answer does not matter for the state. -/
theorem outcome_bind_pure_snd {β : Type} (change : Edit σ α) (f : α → β) (s : σ) :
    (outcome (do return f (← change)) s).2 = (outcome change s).2 := by
  simp only [outcome, bind_apply]
  cases change s <;> rfl

@[simp] theorem pure_ne_error {s s' : σ} {a : α} {e : Fault} :
    (pure a : Edit σ α) s ≠ .error e s' := by
  show EStateM.Result.ok a s ≠ _
  simp

/-! ## Notes beside a state -/

section

variable {β ι : Type}

/-- The end of a change, with notes beside the state. -/
def withNotes (notes : List ι) : EStateM.Result Fault σ α → EStateM.Result Fault (σ × List ι) α
  | .ok a s => .ok a (s, notes)
  | .error e s => .error e (s, notes)

/-- Notes something. -/
def note (x : ι) : Edit (σ × List ι) Unit := fun (s, notes) => .ok () (s, notes ++ [x])

/-- A change of the state in which nothing is noted. -/
def unnoted (change : Edit σ α) : Edit (σ × List ι) α := fun (s, notes) =>
  withNotes notes (change s)

theorem withNotes_injective (notes : List ι) {r r' : EStateM.Result Fault σ α}
    (h : withNotes notes r = withNotes notes r') : r = r' := by
  cases r <;> cases r' <;> cases h <;> rfl

/-- A change that takes notes comes to a result, with just these notes behind those that there were
before. -/
def Notes (noted : Edit (σ × List ι) α) (s : σ) (result : EStateM.Result Fault σ α)
    (more : List ι) : Prop :=
  ∀ notes, noted (s, notes) = withNotes (notes ++ more) result

namespace Notes

variable {x : Edit (σ × List ι) α} {y : Edit σ α} {s s' : σ} {a : α} {more more' : List ι}
  {k : α → Edit (σ × List ι) β} {k' : α → Edit σ β} {r : EStateM.Result Fault σ β}

theorem unnoted : Notes (unnoted y) s (y s) ([] : List ι) := fun notes => by
  rw [List.append_nil]
  rfl

theorem pure (a : α) : Notes (pure a) s (.ok a s) ([] : List ι) := fun notes => by
  rw [List.append_nil]
  rfl

/-- What follows a change that succeeds has its notes behind those of the change. -/
theorem bind_of_ok (hx : Notes x s (.ok a s') more) (hk : Notes (k a) s' r more') :
    Notes (x >>= k) s r (more ++ more') := by
  intro notes
  rw [bind_apply, hx, ← List.append_assoc]
  exact hk _

/-- What follows a change without taking notes leaves those of the change. -/
theorem bind (hx : Notes x s (y s) more)
    (hk : ∀ a s', y s = .ok a s' → Notes (k a) s' (k' a s') []) :
    Notes (x >>= k) s ((y >>= k') s) more := by
  intro notes
  rw [bind_apply, bind_apply, hx]
  cases hy : y s with
  | error e s' => rfl
  | ok a s' =>
    have h := hk a s' hy (notes ++ more)
    rwa [List.append_nil] at h

end Notes

end

end Edit

end RankedMap
