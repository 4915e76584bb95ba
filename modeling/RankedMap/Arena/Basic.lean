import RankedMap.Basic

/-!
# Arenas

A `Handle` names a slot of an arena by its index.  Handles are 32 bits wide and leave one pattern
for "nothing", so the largest index is `2 ^ 32 - 2`; the bound is part of the type.  A `Link` is a
handle or nothing, and stands for a subtree, the empty one included.

An `Arena α` stores elements in numbered slots and names each by a `Handle`.  A slot is occupied or
vacant.  Vacant slots are kept on a stack of freed handles, and a new element goes into the slot
freed last; only when none is free does it get a slot of its own, after all others.

Elements are added by `allocate` and moved out by `release`.  `get` looks at an element, `modifyGet`
changes one in place.  All but `allocate` fail for a handle that names no occupied slot.  An
operation that fails hands the arena on as it was.

The capacity is how many slots fit before the storage has to grow.  It is counted here and not
asked of the machine: storage that is full when a slot is added doubles, to 4 slots at least.  How
many bytes a slot takes is told by whoever reserves room (`emptyWithCapacity`).

The elements are seen through `Arena.live`, which says what a handle names, if it names anything.
Each operation succeeds for the handles that name an element, changes what one handle names, and
leaves all other elements alone (`live_put`, `live_allocate`, `live_release`).  An operation that
fails changes nothing at all (`modifyGet_eq_error`, `allocate_eq_error`, `release_eq_error`).
-/

set_option autoImplicit false

namespace RankedMap

/-- The index of a slot in an arena. -/
structure Handle where
  /-- The index, from 0. -/
  index : Nat
  /-- The index leaves room for "nothing" in 32 bits. -/
  index_le : index ≤ 4294967294
  deriving DecidableEq, Repr

instance : Nonempty Handle := ⟨⟨0, Nat.zero_le _⟩⟩

/-- A subtree: nothing, or the handle of its root. -/
abbrev Link : Type := Option Handle

namespace Handle

/-- The largest index that a handle can have. -/
def maxIndex : Nat := 4294967294

/-- The handle with a given index, if it is not too large. -/
def ofIndex (index : Nat) : Except Fault Handle :=
  if h : index ≤ maxIndex then .ok ⟨index, h⟩ else .error .handleTooLarge

@[ext] theorem ext {a b : Handle} (h : a.index = b.index) : a = b := by
  cases a; cases b; simp_all

theorem ofIndex_index (h : Handle) : ofIndex h.index = .ok h := dif_pos h.index_le

theorem ofIndex_eq_error_iff {index : Nat} {e : Fault} :
    ofIndex index = .error e ↔ maxIndex < index ∧ e = .handleTooLarge := by
  rw [ofIndex]
  split
  · rename_i h
    exact ⟨nofun, fun he => absurd h (Nat.not_le.2 he.1)⟩
  · rename_i h
    rw [Except.error.injEq, eq_comm]
    exact ⟨fun he => ⟨Nat.not_le.1 h, he⟩, fun he => he.2⟩

end Handle

/-- Elements in numbered slots. -/
structure Arena (α : Type) where
  /-- The slots; a vacant one holds `none`. -/
  slots : Array (Option α)
  /-- The handles of the vacant slots; the one freed last is at the end. -/
  free : Array Handle
  /-- How many slots fit before the storage has to grow. -/
  capacity : Nat
  deriving Repr

namespace Arena

variable {α β : Type}

/-- No slots and no storage. -/
def empty : Arena α := ⟨#[], #[], 0⟩

/-- The largest number of bytes that storage can have. -/
def maxBytes : Nat := 9223372036854775807

/-- No slots, and storage for a given number of them, of `slotBytes` bytes each. -/
def emptyWithCapacity (capacity slotBytes : Nat) : Except Fault (Arena α) :=
  if capacity * slotBytes ≤ maxBytes then .ok ⟨#[], #[], capacity⟩ else .error .capacityOverflow

/-- The number of occupied slots. -/
def size (a : Arena α) : Nat := a.slots.size - a.free.size

/-- The element that `h` names. -/
def get (a : Arena α) (h : Handle) : Except Fault α :=
  match a.slots[h.index]? with
  | some (some x) => .ok x
  | some none => .error (.vacantSlot .read)
  | none => .error (.slotOutOfRange a.slots.size h.index)

/-- Replaces the element that `h` names by the second component of `f`, and answers with the
first. -/
def modifyGet (h : Handle) (f : α → β × α) : Edit (Arena α) β := fun ⟨slots, free, capacity⟩ =>
  match slots[h.index]? with
  | some (some x) =>
    let (b, y) := f x
    .ok b ⟨slots.setIfInBounds h.index (some y), free, capacity⟩
  | some none => .error (.vacantSlot .write) ⟨slots, free, capacity⟩
  | none => .error (.slotOutOfRange slots.size h.index) ⟨slots, free, capacity⟩

/-- Replaces the element that `h` names by its image under `f`. -/
def modify (h : Handle) (f : α → α) : Edit (Arena α) Unit := modifyGet h fun x => ((), f x)

/-- Replaces the element that `h` names by `y`, and answers with the old one. -/
def exchange (h : Handle) (y : α) : Edit (Arena α) α := modifyGet h fun x => (x, y)

/-- The capacity after one more slot has been added to `slots` slots. -/
def grow (slots capacity : Nat) : Nat :=
  if slots < capacity then capacity else max (2 * capacity) 4

/-- Stores an element in the slot freed last, else in a new one, and answers with its handle. -/
def allocate (x : α) : Edit (Arena α) Handle := fun ⟨slots, free, capacity⟩ =>
  match free.back? with
  | some h =>
    if h.index < slots.size then
      .ok h ⟨slots.setIfInBounds h.index (some x), free.pop, capacity⟩
    else
      .error (.slotOutOfRange slots.size h.index) ⟨slots, free, capacity⟩
  | none =>
    if fits : slots.size ≤ Handle.maxIndex then
      let grown := grow slots.size capacity
      .ok ⟨slots.size, fits⟩ ⟨slots.push (some x), free, grown⟩
    else
      .error .arenaFull ⟨slots, free, capacity⟩

/-- Moves the element that `h` names out of its slot, and frees the slot. -/
def release (h : Handle) : Edit (Arena α) α := fun ⟨slots, free, capacity⟩ =>
  match slots[h.index]? with
  | some (some x) => .ok x ⟨slots.setIfInBounds h.index none, free.push h, capacity⟩
  | some none => .error (.vacantSlot .release) ⟨slots, free, capacity⟩
  | none => .error (.slotOutOfRange slots.size h.index) ⟨slots, free, capacity⟩

/-- Drops all slots and keeps the storage. -/
def clear (a : Arena α) : Arena α := ⟨#[], #[], a.capacity⟩

/-- A copy has the same slots and freed handles, and storage for just these slots. -/
def copy (a : Arena α) : Arena α := ⟨a.slots, a.free, a.slots.size⟩

/-! ## What the operations do to the elements -/

/-- The element that a handle names, if it names one. -/
def live (a : Arena α) (h : Handle) : Option α := a.slots[h.index]?.join

/-- The arena with another element, or none, in the slot that a handle names. -/
def put (a : Arena α) (h : Handle) (x : Option α) : Arena α :=
  { a with slots := a.slots.setIfInBounds h.index x }

theorem index_lt_of_live {a : Arena α} {h : Handle} {x : α} (hx : a.live h = some x) :
    h.index < a.slots.size := by
  rw [live] at hx
  by_cases hs : h.index < a.slots.size
  · exact hs
  · simp [Array.getElem?_eq_none (Nat.le_of_not_lt hs)] at hx

theorem getElem?_of_live {a : Arena α} {h : Handle} {x : α} (hx : a.live h = some x) :
    a.slots[h.index]? = some (some x) := by
  rw [live] at hx
  cases hs : a.slots[h.index]? with
  | none => simp [hs] at hx
  | some y => simpa [hs] using hx

/-- Storing in a slot changes what its handle names, and nothing else. -/
theorem live_put {a : Arena α} {h : Handle} {x : α} (hx : a.live h = some x) (y : Option α)
    (h' : Handle) : (a.put h y).live h' = if h' = h then y else a.live h' := by
  have hs := index_lt_of_live hx
  rw [live, live, put]
  by_cases he : h' = h
  · subst he; simp [hs]
  · have hi : h.index ≠ h'.index := fun e => he (Handle.ext e.symm)
    simp [Array.getElem?_setIfInBounds_ne hi, he]

theorem get_eq_ok {a : Arena α} {h : Handle} {x : α} : a.get h = .ok x ↔ a.live h = some x := by
  rw [get, live]
  split <;> simp_all

theorem modifyGet_of_live {a : Arena α} {h : Handle} {x : α} (hx : a.live h = some x)
    (f : α → β × α) : modifyGet h f a = .ok (f x).1 (a.put h (some (f x).2)) := by
  obtain ⟨slots, free, capacity⟩ := a
  have hs := getElem?_of_live hx
  simp only at hs
  simp [modifyGet, hs, put]

theorem modify_of_live {a : Arena α} {h : Handle} {x : α} (hx : a.live h = some x) (f : α → α) :
    modify h f a = .ok () (a.put h (some (f x))) := modifyGet_of_live hx _

/-- An element is changed in place where there is one. -/
theorem modifyGet_eq_ok {a a' : Arena α} {h : Handle} {f : α → β × α} {b : β} :
    modifyGet h f a = .ok b a' ↔
      ∃ x, a.live h = some x ∧ (f x).1 = b ∧ a.put h (some (f x).2) = a' := by
  constructor
  · intro hok
    cases hx : a.live h with
    | some x =>
      rw [modifyGet_of_live hx] at hok
      cases hok
      exact ⟨x, rfl, rfl, rfl⟩
    | none =>
      obtain ⟨slots, free, capacity⟩ := a
      simp only [modifyGet] at hok
      split at hok <;> simp_all [live]
  · rintro ⟨x, hx, rfl, rfl⟩
    exact modifyGet_of_live hx f

theorem modifyGet_eq_error {a a' : Arena α} {h : Handle} {f : α → β × α} {e : Fault}
    (he : modifyGet h f a = .error e a') : a' = a ∧ a.live h = none := by
  obtain ⟨slots, free, capacity⟩ := a
  simp only [modifyGet] at he
  split at he <;> simp_all [live]

/-- A new element takes the slot freed last, or one after all others. -/
theorem allocate_of_free {a : Arena α} {h : Handle} (hf : a.free.back? = some h)
    (hs : h.index < a.slots.size) (x : α) :
    allocate x a = .ok h { a.put h (some x) with free := a.free.pop } := by
  obtain ⟨slots, free, capacity⟩ := a
  simp only at hf hs
  simp [allocate, hf, hs, put]

theorem allocate_of_full {a : Arena α} (hf : a.free = #[]) (hs : a.slots.size ≤ Handle.maxIndex)
    (x : α) :
    allocate x a =
      .ok ⟨a.slots.size, hs⟩ ⟨a.slots.push (some x), #[], grow a.slots.size a.capacity⟩ := by
  obtain ⟨slots, free, capacity⟩ := a
  simp only at hf hs
  subst hf
  simp [allocate, hs]

/-- Adding changes what one handle names, and nothing else. -/
theorem live_allocate {a a' : Arena α} {h : Handle} {x : α} (ha : allocate x a = .ok h a')
    (h' : Handle) : a'.live h' = if h' = h then some x else a.live h' := by
  obtain ⟨slots, free, capacity⟩ := a
  simp only [allocate] at ha
  split at ha
  · rename_i top _
    split at ha
    · rename_i hs
      simp only [EStateM.Result.ok.injEq] at ha
      obtain ⟨rfl, rfl⟩ := ha
      rw [live, live]
      by_cases he : h' = top
      · subst he; simp [hs]
      · have hi : top.index ≠ h'.index := fun e => he (Handle.ext e.symm)
        simp [Array.getElem?_setIfInBounds_ne hi, he]
    · simp at ha
  · split at ha
    · simp only [EStateM.Result.ok.injEq] at ha
      obtain ⟨rfl, rfl⟩ := ha
      rw [live, live]
      by_cases he : h'.index = slots.size
      · simp [he, Handle.ext_iff]
      · simp [Array.getElem?_push, he, Handle.ext_iff]
    · simp at ha

theorem allocate_eq_error {a a' : Arena α} {x : α} {e : Fault}
    (he : allocate x a = .error e a') : a' = a := by
  obtain ⟨slots, free, capacity⟩ := a
  simp only [allocate] at he
  split at he
  · split at he <;> simp_all
  · split at he <;> simp_all

theorem release_of_live {a : Arena α} {h : Handle} {x : α} (hx : a.live h = some x) :
    release h a = .ok x { a.put h none with free := a.free.push h } := by
  obtain ⟨slots, free, capacity⟩ := a
  have hs := getElem?_of_live hx
  simp only at hs
  simp [release, hs, put]

theorem release_eq_error {a a' : Arena α} {h : Handle} {e : Fault}
    (he : release h a = .error e a') : a' = a ∧ a.live h = none := by
  obtain ⟨slots, free, capacity⟩ := a
  simp only [release] at he
  split at he <;> simp_all [live]

/-- An element is taken out where there is one. -/
theorem release_eq_ok {a a' : Arena α} {h : Handle} {x : α} :
    release h a = .ok x a' ↔
      a.live h = some x ∧ { a.put h none with free := a.free.push h } = a' := by
  constructor
  · intro hok
    have hx : a.live h = some x := by
      obtain ⟨slots, free, capacity⟩ := a
      simp only [release] at hok
      split at hok <;> simp_all [live]
    rw [release_of_live hx] at hok
    exact ⟨hx, (EStateM.Result.ok.inj hok).2⟩
  · rintro ⟨hx, rfl⟩
    exact release_of_live hx

/-- Taking out leaves all other elements alone. -/
theorem live_release {a a' : Arena α} {h : Handle} {x : α} (ha : release h a = .ok x a')
    (h' : Handle) : a.live h = some x ∧ a'.live h' = if h' = h then none else a.live h' := by
  obtain ⟨hx, rfl⟩ := release_eq_ok.1 ha
  exact ⟨hx, live_put hx none h'⟩

end Arena

end RankedMap
