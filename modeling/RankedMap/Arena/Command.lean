import RankedMap.Arena.Basic

/-!
# Running an arena by commands, and its account

An `Arena.Command` is one operation on an arena, with slots named by plain indices.  An index is
first made a handle, which fails for one that is too large, and only then is the arena asked.
`Command.runAll` goes on after a command that fails.

An `Account` says what an arena holds without saying how: which element is at each index, which
indices have been freed, the one freed last first, and the index that would come next.
`Account.run` answers the commands of an arena from its account alone.  Only the capacity, which is
no matter of the elements, is left open.
-/

set_option autoImplicit false

namespace RankedMap

namespace Arena

/-- One operation on an arena. -/
inductive Command (α : Type) where
  /-- Store an element. -/
  | allocate (x : α)
  /-- Look at the element at an index. -/
  | get (index : Nat)
  /-- Replace the element at an index. -/
  | exchange (index : Nat) (x : α)
  /-- Move the element at an index out, and free its slot. -/
  | release (index : Nat)
  /-- Drop all slots. -/
  | clear
  /-- Go on with a copy. -/
  | copy
  /-- Ask for the capacity. -/
  | capacity
  deriving Repr

/-- What a command answers. -/
inductive Reply (α : Type) where
  /-- The command answers nothing. -/
  | done
  /-- A number: an index, or a capacity. -/
  | number (n : Nat)
  /-- An element. -/
  | element (x : α)
  deriving DecidableEq, Repr

namespace Command

variable {α : Type}

/-- Runs one command. -/
def run : Command α → Edit (Arena α) (Reply α)
  | .allocate x => do
    let h ← Arena.allocate x
    return .number h.index
  | .get index => do
    let h ← Edit.read fun _ => Handle.ofIndex index
    return .element (← Edit.read (Arena.get · h))
  | .exchange index x => do
    let h ← Edit.read fun _ => Handle.ofIndex index
    return .element (← Arena.exchange h x)
  | .release index => do
    let h ← Edit.read fun _ => Handle.ofIndex index
    return .element (← Arena.release h)
  | .clear => fun a => .ok .done a.clear
  | .copy => fun a => .ok .done a.copy
  | .capacity => fun a => .ok (.number a.capacity) a

/-- Runs commands one after the other, and gives all their outcomes and the arena in the end. -/
def runAll : List (Command α) → Arena α → List (Except Fault (Reply α)) × Arena α
  | [], a => ([], a)
  | command :: rest, a =>
    let (reply, a) := command.run.outcome a
    let (replies, a) := runAll rest a
    (reply :: replies, a)

end Command

/-! ## Accounts -/

/-- What an arena holds. -/
structure Account (α : Type) where
  /-- The element at an index, if the index is live. -/
  live : Nat → Option α
  /-- The indices that were freed and not handed out since, the one freed last first. -/
  freed : List Nat
  /-- The least index that was never handed out. -/
  fresh : Nat

namespace Account

variable {α : Type}

/-- Nothing was ever handed out. -/
def empty : Account α := ⟨fun _ => none, [], 0⟩

/-- Puts an element at an index, or nothing. -/
def put (a : Account α) (index : Nat) (x : Option α) : Account α :=
  { a with live := fun i => if i = index then x else a.live i }

/-- The element at an index that a caller uses for something. -/
def demand (a : Account α) (access : Access) (index : Nat) : Except Fault α :=
  if Handle.maxIndex < index then .error .handleTooLarge
  else match a.live index with
    | some x => .ok x
    | none => .error (if index < a.fresh then .vacantSlot access else .slotOutOfRange a.fresh index)

/-- What a command answers, and the account after it.  Nothing is said of the capacity. -/
def run (a : Account α) : Command α → Option (Except Fault (Reply α)) × Account α
  | .allocate x =>
    match a.freed with
    | index :: freed => (some (.ok (.number index)), { a.put index (some x) with freed })
    | [] =>
      if a.fresh ≤ Handle.maxIndex then
        (some (.ok (.number a.fresh)), { a.put a.fresh (some x) with fresh := a.fresh + 1 })
      else
        (some (.error .arenaFull), a)
  | .get index =>
    match a.demand .read index with
    | .ok x => (some (.ok (.element x)), a)
    | .error e => (some (.error e), a)
  | .exchange index y =>
    match a.demand .write index with
    | .ok x => (some (.ok (.element x)), a.put index (some y))
    | .error e => (some (.error e), a)
  | .release index =>
    match a.demand .release index with
    | .ok x => (some (.ok (.element x)), { a.put index none with freed := index :: a.freed })
    | .error e => (some (.error e), a)
  | .clear => (some (.ok .done), empty)
  | .copy => (some (.ok .done), a)
  | .capacity => (none, a)

/-- What commands answer one after the other, and the account in the end. -/
def runAll : List (Command α) → Account α → List (Option (Except Fault (Reply α))) × Account α
  | [], a => ([], a)
  | command :: rest, a =>
    let (reply, a) := a.run command
    let (replies, a) := runAll rest a
    (reply :: replies, a)

end Account

end Arena

end RankedMap
