import RankedMap.Proofs.OrdMap.Storage

/-!
# What can fail

A command on a map fails in three cases only, and each is the caller's doing: the value of a key is
demanded that is not found, a value is demanded or stored at a position behind the last entry, or
more slots are reserved than memory can have (`OrdMap.Misuse`).  The one further limit is the number
of handles (`OrdMap.Overfills`).  A command that fails leaves the map as it was.  Each kind of
command has one text of its own that it fails with (`OrdMap.Command.complaint?`).

All other faults are out of reach, whatever the comparisons are: no vacant slot is met, no rotation
misses a child, no record is too large, no node is lost, and a search for a position never takes more
from it than it is.  The number of freed slots, which `Arena.size` subtracts, is never more than that
of all slots.  Storage never grows beyond what memory can have, unless a slot takes a gigabyte.
-/

set_option autoImplicit false

namespace RankedMap

namespace OrdMap

variable {K V : Type}

/-! ## What a caller can do wrong -/

/-- The caller asks for what is not there, and the command fails for that reason. -/
def Misuse (m : OrdMap K V) (cmp : K → K → Ordering) : Command K V → Fault → Prop
  | .get key, e => e = .keyNotFound ∧ m.contains cmp key = .ok false
  | .getAt rank, e | .setAt rank _, e =>
    e = .rankOutOfBounds ∧ ∃ n, m.size = .ok n ∧ n ≤ rank.position
  | .reserve capacity slotBytes, e =>
    e = .capacityOverflow ∧ Arena.maxBytes < capacity * slotBytes
  | _, _ => False

/-- The command inserts one entry more than there are handles. -/
def Overfills (m : OrdMap K V) (cmp : K → K → Ordering) : Command K V → Prop
  | .insert key _ => m.contains cmp key = .ok false ∧ m.size = .ok Size.maxCount
  | _ => False

/-- No command of the run inserts one entry more than there are handles. -/
def Roomy : List ((K → K → Ordering) × Command K V) → OrdMap K V → Prop
  | [], _ => True
  | (cmp, command) :: rest, m =>
    ¬m.Overfills cmp command ∧ Roomy rest ((command.run cmp).outcome m).2

/-- The text that a command fails with when it is misused, if it can be. -/
def Command.complaint? : Command K V → Option String
  | .get _ => some "no entry found for key"
  | .getAt _ | .setAt _ _ => some "rank out of bounds"
  | .reserve _ _ => some "capacity overflow"
  | _ => none

/-- Misuse of a command is reported with the text of that command. -/
theorem Misuse.complaint?_eq {m : OrdMap K V} {cmp : K → K → Ordering} {command : Command K V}
    {e : Fault} (h : m.Misuse cmp command e) : command.complaint? = some e.message := by
  cases command with
  | get | getAt | setAt | reserve =>
    obtain ⟨rfl, -⟩ := h
    rfl
  | _ => exact h.elim

/-- Nothing goes wrong inside the map. -/
structure Safe (m : OrdMap K V) : Prop where
  /-- A command fails when it is misused or one entry too many is inserted, and in no other case.
  It changes nothing then. -/
  fault_iff : ∀ (cmp : K → K → Ordering) (command : Command K V) (e : Fault) (m' : OrdMap K V),
    (command.run cmp).outcome m = (.error e, m') ↔
      (m.Misuse cmp command e ∨ m.Overfills cmp command ∧ e = .arenaFull) ∧ m' = m
  /-- The text is that of the command, unless it is the handles that are used up. -/
  message_eq : ∀ (cmp : K → K → Ordering) (command : Command K V) (e : Fault) (m' : OrdMap K V),
    (command.run cmp).outcome m = (.error e, m') → ¬m.Overfills cmp command →
    command.complaint? = some e.message
  /-- Going through all entries never fails. -/
  fold_ok : ∀ {β : Type} (take : β → K → V → β) (start : β), ∃ b, m.fold take start = .ok b
  /-- A search for a position never fails, so none of its subtractions falls below zero. -/
  select_ok : ∀ rank, ∃ link, m.select rank = .ok link
  /-- The slots outnumber the freed ones, so that counting the others does not cut off. -/
  free_le : m.nodes.free.size ≤ m.nodes.slots.size

namespace Embodies

variable {m m' : OrdMap K V} {t : Placed K V} {cmp : K → K → Ordering} {command : Command K V}
  {key : K} {rank : Rank} {e : Fault}

theorem exists_size_le (hm : m.Embodies t) :
    (∃ n, m.size = .ok n ∧ n ≤ rank.position) ↔ t.bare.toList[rank.position]? = none := by
  simp [hm.size_eq]

theorem overfills_iff (hm : m.Embodies t) :
    m.Overfills cmp command ↔ t.bare.refuses cmp command = true := by
  cases command with
  | insert key value =>
    rw [Overfills, hm.contains_eq_false, hm.size_eq, Tree.refuses]
    simp [and_comm]
  | _ => exact iff_of_false id Bool.false_ne_true

/-- A command that is misused fails, and changes nothing. -/
theorem outcome_of_misuse (hm : m.Embodies t) (h : m.Misuse cmp command e) :
    (command.run cmp).outcome m = (.error e, m) := by
  cases command with
  | reserve n bytes =>
    obtain ⟨rfl, hn⟩ := h
    exact Edit.outcome_eq_error.2 (Command.run_reserve_of_gt (Nat.not_le.2 hn) cmp m)
  | get key =>
    obtain ⟨rfl, hc⟩ := h
    have hq : Edit.read (OrdMap.get · cmp key) m = .error .keyNotFound m := by
      rw [Edit.read_apply, hm.get_eq, hm.contains_eq_false.1 hc]
      rfl
    exact Edit.outcome_bind_of_error hq _
  | getAt rank =>
    obtain ⟨rfl, hr⟩ := h
    have hq : Edit.read (OrdMap.getAt · rank) m = .error .rankOutOfBounds m := by
      rw [Edit.read_apply, hm.getAt_eq, hm.exists_size_le.1 hr]
      rfl
    exact Edit.outcome_bind_of_error hq _
  | setAt rank value =>
    obtain ⟨rfl, hr⟩ := h
    exact Edit.outcome_bind_of_error (hm.setAt_of_getElem?_eq_none value (hm.exists_size_le.1 hr)) _
  | _ => exact h.elim

/-- So does a command that inserts one entry too many. -/
theorem outcome_of_overfills (hm : m.Embodies t) (h : m.Overfills cmp command) :
    (command.run cmp).outcome m = (.error .arenaFull, m) := by
  cases command with
  | insert key value =>
    exact Edit.outcome_bind_of_error (hm.insert_refused (hm.overfills_iff.1 h)) _
  | _ => exact h.elim

/-- All other commands succeed. -/
theorem exists_outcome_ok (hm : m.Embodies t) (hmis : ∀ e, ¬m.Misuse cmp command e)
    (hover : ¬m.Overfills cmp command) :
    ∃ answer, ((command.run cmp).outcome m).1 = .ok answer := by
  have hr : t.bare.refuses cmp command = false := by
    rwa [hm.overfills_iff, Bool.not_eq_true] at hover
  -- what the machine answers is an error only where a demand is not met
  have hrun := (hm.run cmp command hr).1
  cases command with
  | reserve n bytes =>
    have hn : n * bytes ≤ Arena.maxBytes := Nat.le_of_not_lt fun hlt => hmis _ ⟨rfl, hlt⟩
    rw [Tree.run, if_pos hn] at hrun
    exact ⟨_, hrun _ rfl⟩
  | capacity => exact ⟨_, rfl⟩
  | get key =>
    cases hf : t.bare.find? cmp key with
    | none => exact absurd ⟨rfl, hm.contains_eq_false.2 hf⟩ (hmis .keyNotFound)
    | some e =>
      rw [Tree.run, hf] at hrun
      exact ⟨_, hrun _ rfl⟩
  | getAt rank | setAt rank =>
    cases hf : t.bare.toList[rank.position]? with
    | none => exact absurd ⟨rfl, hm.exists_size_le.2 hf⟩ (hmis .rankOutOfBounds)
    | some e =>
      rw [Tree.run, hf] at hrun
      exact ⟨_, hrun _ rfl⟩
  | _ => exact ⟨_, hrun _ rfl⟩

theorem fault_iff (hm : m.Embodies t) :
    (command.run cmp).outcome m = (.error e, m') ↔
      (m.Misuse cmp command e ∨ m.Overfills cmp command ∧ e = .arenaFull) ∧ m' = m := by
  constructor
  · intro h
    by_cases hover : m.Overfills cmp command
    · rw [hm.outcome_of_overfills hover] at h
      cases h
      exact ⟨.inr ⟨hover, rfl⟩, rfl⟩
    · by_cases hmis : ∃ e, m.Misuse cmp command e
      · obtain ⟨e', hmis⟩ := hmis
        rw [hm.outcome_of_misuse hmis] at h
        cases h
        exact ⟨.inl hmis, rfl⟩
      · obtain ⟨answer, hok⟩ := hm.exists_outcome_ok (not_exists.1 hmis) hover
        rw [h] at hok
        cases hok
  · rintro ⟨hmis | ⟨hover, rfl⟩, rfl⟩
    · exact hm.outcome_of_misuse hmis
    · exact hm.outcome_of_overfills hover

theorem safe (hm : m.Embodies t) : m.Safe where
  fault_iff _ _ _ _ := hm.fault_iff
  message_eq _ _ _ _ hrun hover :=
    ((hm.fault_iff.1 hrun).1.resolve_right fun h => hover h.1).complaint?_eq
  fold_ok take start := ⟨_, hm.fold_eq take start⟩
  select_ok rank := ⟨_, hm.select_eq rank⟩
  free_le := by
    have hlen := hm.sound.length_add hm.nodup fun h => ⟨hm.holds.live_ne_none, hm.mem_handles h⟩
    omega

/-- **A whole run** that has room for its entries fails by misuse only, each command with its own
text. -/
theorem complaints_of_roomy (hm : m.Embodies t)
    {commands : List ((K → K → Ordering) × Command K V)} (hroom : Roomy commands m) :
    List.Forall₂ (fun c answer => ∀ e, answer = .error e → c.2.complaint? = some e.message)
      commands (Command.runAll commands m).1 := by
  induction commands generalizing m t with
  | nil => exact .nil
  | cons c rest ih =>
    obtain ⟨cmp, command⟩ := c
    obtain ⟨hover, hroom⟩ := hroom
    obtain ⟨-, t', hm', -⟩ := hm.step cmp command
    refine .cons (fun e he => ?_) (ih hm' hroom)
    exact hm.safe.message_eq cmp command e _ (Prod.ext he rfl) hover

end Embodies

/-- **Nothing but misuse fails.**  After any run, whatever the comparisons were, a command fails if
and only if it is misused or inserts one entry more than there are handles, and a command that fails
changes nothing; going through a map and comparing maps never fails.  In a run that has room for all
its entries each command can fail with its own text only.  Where slots take less than a gigabyte,
storage is never asked to grow beyond what memory can have. -/
theorem safe_after (commands : List ((K → K → Ordering) × Command K V)) :
    (after commands).Safe ∧
    (∀ [BEq K] [BEq V] (others : List ((K → K → Ordering) × Command K V)),
      ∃ same, (after commands).sameEntries (after others) = .ok same) ∧
    (Roomy commands empty →
      List.Forall₂ (fun c answer => ∀ e, answer = .error e → c.2.complaint? = some e.message)
        commands (Command.runAll commands empty).1) ∧
    (∀ bytes < 2 ^ 30,
      (∀ c ∈ commands, ∀ n slotBytes, c.2 = .reserve n slotBytes → slotBytes = bytes) →
      (after commands).capacity * bytes ≤ Arena.maxBytes) := by
  obtain ⟨t, hm⟩ := exists_embodies_after commands
  refine ⟨hm.safe, ?_, embodies_empty.complaints_of_roomy, ?_⟩
  · intro _ _ others
    obtain ⟨t', hm'⟩ := exists_embodies_after others
    exact ⟨_, hm.sameEntries_eq hm'⟩
  · intro bytes hbytes hreserve
    exact capacity_mul_le commands hbytes hreserve

/-- A run that is misused in all ways there are. -/
def misuseRun : List ((Nat → Nat → Ordering) × Command Nat Nat) :=
  [(compare, .insert 1 10), (compare, .get 2), (compare, .getAt ⟨1⟩), (compare, .setAt ⟨1⟩ 20),
    (compare, .reserve (2 ^ 60) 24)]

/-- There is room for its one entry; all later commands fail, each with its own text. -/
theorem complaints_misuseRun :
    Roomy misuseRun empty ∧
    (Command.runAll misuseRun empty).1 =
      [.ok (.valueOption none), .error .keyNotFound, .error .rankOutOfBounds,
        .error .rankOutOfBounds, .error .capacityOverflow] ∧
    List.Forall₂ (fun c answer => ∀ e, answer = .error e → c.2.complaint? = some e.message)
      misuseRun (Command.runAll misuseRun empty).1 ∧
    (after misuseRun).capacity * 24 ≤ Arena.maxBytes := by
  have hroom : Roomy misuseRun empty :=
    ⟨fun h => absurd (Except.ok.inj h.2) (by decide), id, id, id, id, trivial⟩
  have hreserve : ∀ c ∈ misuseRun, ∀ n slotBytes, c.2 = .reserve n slotBytes → slotBytes = 24 := by
    simp [misuseRun]
  obtain ⟨-, -, hcomplaints, hbytes⟩ := safe_after misuseRun
  exact ⟨hroom, by decide +kernel, hcomplaints hroom, hbytes 24 (by decide) hreserve⟩

end OrdMap

end RankedMap
