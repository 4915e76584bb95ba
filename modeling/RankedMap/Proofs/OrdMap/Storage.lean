import Mathlib.Order.Bounds.Basic
import RankedMap.Proofs.OrdMap.Machine

/-!
# The storage of a map

The slots of a map are as many as the most entries it has had since its slots were dropped last: an
entry that is taken out gives its slot back, an entry that is inserted takes such a slot if there is
one, and only when all slots are occupied is one more made.  So the storage after a command is told
from the storage before it and the number of entries after it (`Storage.step`), and nothing else of
the map counts (`Embodies.storage_step`).

The capacity follows from that, with storage that doubles when it is full.  `HighWater` says what is
known of both after a run, and `highWater_after` states it for every run from a new map.
-/

set_option autoImplicit false

namespace RankedMap

namespace Arena

/-- Storage that holds its slots has room for the slot it grew for. -/
theorem lt_grow {slots capacity : Nat} (h : slots ≤ capacity) : slots < grow slots capacity := by
  rw [grow]
  split <;> omega

end Arena

namespace Tree

variable {K V : Type} {cmp : K → K → Ordering} {key : K} {value : V} {t : Tree K V}

theorem size_insert_of_find? (h : t.find? cmp key ≠ none) :
    (t.insert cmp key value).1.size = t.size := by
  cases hp : t.landing cmp key with
  | hit rank =>
    rw [← length_toList, (toList_insert_of_hit hp).1, List.length_modify, length_toList]
  | miss rank => exact absurd (by rw [find?, hp]; rfl) h

theorem size_extract_le (cmp : K → K → Ordering) (key : K) (t : Tree K V) :
    (t.extract cmp key).1.size ≤ t.size := by
  rw [← length_toList, ← length_toList]
  cases hp : t.landing cmp key with
  | hit rank =>
    rw [(toList_extract_of_hit hp).1]
    exact List.length_eraseIdx_le _ _
  | miss rank => rw [(toList_extract_of_miss hp).1]

/-- Only inserting a key that is not found makes a tree larger. -/
theorem eq_insert_of_size_lt {command : OrdMap.Command K V}
    (h : t.size < (t.step cmp command).2.size) :
    ∃ key value, command = .insert key value ∧ t.find? cmp key = none := by
  rw [step] at h
  split at h
  · exact absurd h (Nat.lt_irrefl _)
  · cases command with
    | insert key value =>
      refine ⟨key, value, rfl, ?_⟩
      by_contra hfound
      rw [run, size_insert_of_find? hfound] at h
      exact Nat.lt_irrefl _ h
    | erase key | extract key => exact absurd h (Nat.not_lt.2 (size_extract_le cmp key t))
    | replaceAt rank value | setAt rank value =>
      rw [run, size_replaceAt] at h
      exact absurd h (Nat.lt_irrefl _)
    | replace key value =>
      rw [run, replace] at h
      split at h
      · rw [size_replaceAt] at h
        exact absurd h (Nat.lt_irrefl _)
      · exact absurd h (Nat.lt_irrefl _)
    | renew | clear => exact absurd h (Nat.not_lt_zero _)
    | reserve n bytes =>
      rw [run] at h
      split at h
      · exact absurd h (Nat.not_lt_zero _)
      · exact absurd h (Nat.lt_irrefl _)
    | _ => exact absurd h (Nat.lt_irrefl _)

end Tree

namespace OrdMap

variable {K V α : Type}

/-- How many slots there are, and how many fit before storage has to grow. -/
structure Storage where
  /-- The number of slots, occupied or freed. -/
  slots : Nat
  /-- The number of slots that fit. -/
  capacity : Nat
  deriving DecidableEq, Repr

/-- The storage of a map. -/
def storage (m : OrdMap K V) : Storage := ⟨m.nodes.slots.size, m.capacity⟩

namespace Storage

/-- The storage after the number of entries has come to be `size`.  It grows when that is more than
fit, and never otherwise. -/
def cover (s : Storage) (size : Nat) : Storage where
  slots := max s.slots size
  capacity := if size ≤ s.capacity then s.capacity else max (2 * s.capacity) 4

/-- The storage after a command that ends with a given number of entries. -/
def step (s : Storage) (size : Nat) : Command K V → Storage
  | .renew => ⟨0, 0⟩
  | .reserve n bytes => if n * bytes ≤ Arena.maxBytes then ⟨0, n⟩ else s.cover size
  | .clear => ⟨0, s.capacity⟩
  | .copy => ⟨s.slots, s.slots⟩
  | _ => s.cover size

/-- There is a slot for every entry, and all slots fit. -/
structure Fits (s : Storage) (size : Nat) : Prop where
  /-- There is a slot for every entry. -/
  size_le : size ≤ s.slots
  /-- All slots fit. -/
  slots_le : s.slots ≤ s.capacity

theorem Fits.cover_eq {s : Storage} {size : Nat} (h : s.Fits size) : s.cover size = s := by
  rw [cover, Nat.max_eq_left h.size_le, if_pos (h.size_le.trans h.slots_le)]

end Storage

namespace Embodies

variable {m m' : OrdMap K V} {t t' : Placed K V} {cmp : K → K → Ordering}

theorem size_le_slots (hm : m.Embodies t) : t.size ≤ m.nodes.slots.size :=
  hm.holds.size_le hm.nodup

/-- A change that makes no slot leaves the storage as it is. -/
theorem storage_of_same (hm' : m'.Embodies t') (hfit : m.storage.Fits t.size)
    (hsame : m'.storage = m.storage) :
    m'.storage = m.storage.cover t'.size ∧ m'.storage.Fits t'.size := by
  have hfit' : m'.storage.Fits t'.size := ⟨hm'.size_le_slots, hsame ▸ hfit.slots_le⟩
  exact ⟨by rw [← hsame, hfit'.cover_eq], hfit'⟩

theorem storage_of_confined {hs : List Handle} {f : Forest K V}
    (hc : Forest.Confined hs m.nodes f) (root : Link) :
    (⟨f, root⟩ : OrdMap K V).storage = m.storage := by
  rw [storage, storage, capacity, capacity, hc.size_eq, hc.capacity_eq]

theorem storage_replaceIn (hm : m.Embodies t) (rank : Nat) (value : V) :
    ((OrdMap.replaceIn t.handles[rank]? value).outcome m).2.storage = m.storage := by
  cases hh : t.handles[rank]? with
  | none => rfl
  | some h =>
    obtain ⟨n, hn, -⟩ := hm.live_of_getElem? hh
    rw [Edit.outcome, replaceIn_of_live hn value]
    exact storage_of_confined (Forest.Confined.put hn (n.setValue value)) m.root

theorem storage_replaceAt (hm : m.Embodies t) (rank : Nat) (value : V) :
    ((OrdMap.replaceAt rank value).outcome m).2.storage = m.storage := by
  have hread : (Edit.read (·.select rank) : Edit (OrdMap K V) Link) m = .ok t.handles[rank]? m :=
    Edit.read_eq_ok.2 ⟨hm.select_eq rank, rfl⟩
  rw [OrdMap.replaceAt, Edit.outcome_bind_of_ok hread]
  exact hm.storage_replaceIn rank value

theorem storage_setAt (hm : m.Embodies t) (rank : Rank) (value : V) :
    ((OrdMap.setAt rank value).outcome m).2.storage = m.storage := by
  obtain ⟨m', hok, -⟩ := hm.replaceAt rank.position value
  have hstorage := hm.storage_replaceAt rank.position value
  rw [Edit.outcome, hok] at hstorage
  rw [OrdMap.setAt, Edit.outcome_bind_of_ok hok]
  cases t.bare.toList[rank.position]? <;> exact hstorage

theorem storage_replace (hm : m.Embodies t) (key : K) (value : V) :
    ((OrdMap.replace cmp key value).outcome m).2.storage = m.storage := by
  have hread : (Edit.read (·.locate cmp key) : Edit (OrdMap K V) Link) m = .ok _ m :=
    Edit.read_eq_ok.2 ⟨hm.locate_eq, rfl⟩
  rw [OrdMap.replace, Edit.outcome_bind_of_ok hread, Edit.outcome_bind_pure_snd]
  cases (t.bare.landing cmp key).hit? with
  | none => rfl
  | some rank => exact hm.storage_replaceIn rank value

theorem storage_extract (hm : m.Embodies t) (key : K) :
    ((OrdMap.extract cmp key).outcome m).2.storage = m.storage := by
  obtain ⟨f', m', hc, hnone, hsome, hok, -⟩ := hm.extract_confined ⟨0, Nat.zero_le _⟩ cmp key
  rw [Edit.outcome, hok]
  show m'.storage = m.storage
  rw [← storage_of_confined hc m'.root]
  cases hgone : (t.extract (Tree.byKey cmp) (⟨0, Nat.zero_le _⟩, key)).2 with
  | none => rw [← hnone hgone]
  | some p =>
    obtain ⟨e, v⟩ := p
    obtain ⟨-, hnodes⟩ := Arena.release_eq_ok.1 (hsome e v hgone)
    rw [storage, capacity, ← hnodes]
    simp [storage, capacity, Arena.put]

/-- An insertion that makes an entry makes a slot when all slots are occupied. -/
theorem storage_insert (hm : m.Embodies t) (hfit : m.storage.Fits t.size) (key : K) (value : V)
    (hm' : ((OrdMap.insert cmp key value).outcome m).2.Embodies t') :
    ((OrdMap.insert cmp key value).outcome m).2.storage = m.storage.cover t'.size ∧
      ((OrdMap.insert cmp key value).outcome m).2.storage.Fits t'.size := by
  cases hp : t.bare.landing cmp key with
  | hit rank =>
    obtain ⟨m₁, hok, -, hc⟩ := hm.insert_hit_confined ⟨0, Nat.zero_le _⟩ hp value
    rw [Edit.outcome, hok] at hm' ⊢
    exact hm'.storage_of_same hfit (storage_of_confined hc m₁.root)
  | miss rank =>
    rcases Nat.lt_or_eq_of_le hm.size_le with hroom | hfull
    · obtain ⟨x, start, ha, -, m₁, hok, -, hc⟩ := hm.insert_miss_confined hp hroom value
      rw [Edit.outcome, hok] at hm' ⊢
      obtain ⟨-, rfl⟩ | ⟨-, -, rfl⟩ := hm.sound.allocate_cases ha
      · refine hm'.storage_of_same hfit ?_
        show m₁.storage = m.storage
        rw [storage, storage, capacity, capacity, hc.size_eq, hc.capacity_eq]
        simp [Arena.put]
      · -- no slot is free, so one is made
        have hslots : m₁.nodes.slots.size = m.nodes.slots.size + 1 := by
          rw [hc.size_eq, Array.size_push]
        have hcap : m₁.capacity = Arena.grow m.nodes.slots.size m.capacity := hc.capacity_eq
        have hcount : t'.size = m.nodes.slots.size + 1 := by
          rw [← hm'.nodes_size]
          show m₁.nodes.size = _
          rw [Arena.size, hslots, hc.free_eq, Array.size_empty, Nat.sub_zero]
        refine ⟨?_, ⟨hm'.size_le_slots, ?_⟩⟩
        · show m₁.storage = _
          rw [storage, hslots, hcap, Storage.cover, hcount]
          show _ = Storage.mk (max m.nodes.slots.size _) (Arena.grow m.nodes.slots.size m.capacity)
          rw [Nat.max_eq_right (Nat.le_succ _)]
        · show m₁.nodes.slots.size ≤ m₁.capacity
          rw [hslots, hcap]
          exact Arena.lt_grow hfit.slots_le
    · rw [Edit.outcome, hm.insert_of_full hp hfull] at hm' ⊢
      exact hm'.storage_of_same hfit rfl

/-- **One command**: the storage afterwards is told from the number of entries afterwards. -/
theorem storage_step (hm : m.Embodies t) (hfit : m.storage.Fits t.size) (command : Command K V)
    (hm' : ((command.run cmp).outcome m).2.Embodies t') :
    ((command.run cmp).outcome m).2.storage = m.storage.step t'.size command ∧
      ((command.run cmp).outcome m).2.storage.Fits t'.size := by
  cases command with
  | renew => exact ⟨rfl, hm'.size_le_slots, Nat.le_refl _⟩
  | clear => exact ⟨rfl, hm'.size_le_slots, Nat.zero_le _⟩
  | copy => exact ⟨rfl, hm'.size_le_slots, Nat.le_refl _⟩
  | reserve n bytes =>
    by_cases hn : n * bytes ≤ Arena.maxBytes
    · rw [Edit.outcome_eq_ok.2 (Command.run_reserve_of_le hn cmp m)] at hm' ⊢
      exact ⟨(if_pos hn).symm, hm'.size_le_slots, Nat.zero_le _⟩
    · rw [Edit.outcome_eq_error.2 (Command.run_reserve_of_gt hn cmp m)] at hm' ⊢
      rw [Storage.step, if_neg hn]
      exact hm'.storage_of_same hfit rfl
  | insert key value =>
    simp only [Command.run, Edit.outcome_bind_pure_snd] at hm' ⊢
    exact hm.storage_insert hfit key value hm'
  | extract key =>
    simp only [Command.run, Edit.outcome_bind_pure_snd] at hm' ⊢
    exact hm'.storage_of_same hfit (hm.storage_extract key)
  | erase key =>
    simp only [Command.run, OrdMap.erase, Edit.outcome_bind_pure_snd] at hm' ⊢
    exact hm'.storage_of_same hfit (hm.storage_extract key)
  | replace key value =>
    simp only [Command.run, Edit.outcome_bind_pure_snd] at hm' ⊢
    exact hm'.storage_of_same hfit (hm.storage_replace key value)
  | replaceAt rank value =>
    simp only [Command.run, Edit.outcome_bind_pure_snd] at hm' ⊢
    exact hm'.storage_of_same hfit (hm.storage_replaceAt rank value)
  | setAt rank value =>
    simp only [Command.run, Edit.outcome_bind_pure_snd] at hm' ⊢
    exact hm'.storage_of_same hfit (hm.storage_setAt rank value)
  | _ =>
    simp only [Command.run, Edit.outcome_bind_pure_snd, Edit.outcome_read] at hm' ⊢
    exact hm'.storage_of_same hfit rfl

end Embodies

/-! ## Which commands drop slots, and which storage -/

/-- The command drops all slots. -/
def Command.Empties : Command K V → Prop
  | .renew | .clear => True
  | .reserve n bytes => n * bytes ≤ Arena.maxBytes
  | _ => False

/-- The command goes on with the storage of another map. -/
def Command.Replaces : Command K V → Prop
  | .renew | .copy => True
  | .reserve n bytes => n * bytes ≤ Arena.maxBytes
  | _ => False

namespace Storage

variable {s : Storage} {size : Nat} {command : Command K V}

theorem step_of_empties (h : command.Empties) : (s.step size command).slots = 0 := by
  cases command with
  | renew | clear => rfl
  | reserve n bytes =>
    have hn : n * bytes ≤ Arena.maxBytes := h
    rw [step, if_pos hn]
  | _ => exact h.elim

theorem slots_step (h : ¬command.Empties) (hle : size ≤ (s.step size command).slots) :
    (s.step size command).slots = max s.slots size := by
  cases command with
  | renew | clear => exact absurd trivial h
  | reserve n bytes =>
    have hn : ¬n * bytes ≤ Arena.maxBytes := h
    rw [step, if_neg hn]
    rfl
  | copy => exact (Nat.max_eq_left hle).symm
  | _ => rfl

theorem capacity_step (h : ¬command.Replaces) (hle : size ≤ (s.step size command).slots) :
    (s.step size command).capacity =
      if size ≤ s.capacity then s.capacity else max (2 * s.capacity) 4 := by
  cases command with
  | renew | copy => exact absurd trivial h
  | reserve n bytes =>
    have hn : ¬n * bytes ≤ Arena.maxBytes := h
    rw [step, if_neg hn]
    rfl
  | clear => exact (if_pos (hle.trans (Nat.zero_le _))).symm
  | _ => rfl

/-- Storage for as many entries as there are handles does not grow beyond what memory can have,
unless a slot takes a gigabyte. -/
theorem cover_mul_le {bytes : Nat} (hbytes : bytes < 2 ^ 30)
    (hle : s.capacity * bytes ≤ Arena.maxBytes) (hsize : size ≤ Size.maxCount) :
    (s.cover size).capacity * bytes ≤ Arena.maxBytes := by
  rw [cover]
  split
  · exact hle
  · rename_i hlt
    have hcap : max (2 * s.capacity) 4 ≤ 2 ^ 33 := by
      rw [Size.maxCount, Handle.maxIndex] at hsize
      omega
    calc max (2 * s.capacity) 4 * bytes ≤ 2 ^ 33 * (2 ^ 30 - 1) :=
          Nat.mul_le_mul hcap (Nat.le_sub_one_of_lt hbytes)
      _ ≤ Arena.maxBytes := by decide

/-- Nor does any command bring more, when the slots that are reserved take as many bytes. -/
theorem step_mul_le {bytes : Nat} (hbytes : bytes < 2 ^ 30) (hfit : s.slots ≤ s.capacity)
    (hle : s.capacity * bytes ≤ Arena.maxBytes) (hsize : size ≤ Size.maxCount)
    (hreserve : ∀ n slotBytes, command = .reserve n slotBytes → slotBytes = bytes) :
    (s.step size command).capacity * bytes ≤ Arena.maxBytes := by
  cases command with
  | renew =>
    show 0 * bytes ≤ _
    rw [Nat.zero_mul]
    exact Nat.zero_le _
  | clear => exact hle
  | copy => exact (Nat.mul_le_mul_right bytes hfit).trans hle
  | reserve n slotBytes =>
    obtain rfl := hreserve n slotBytes rfl
    rw [step]
    split
    · assumption
    · exact cover_mul_le hbytes hle hsize
  | _ => exact cover_mul_le hbytes hle hsize

end Storage

/-! ## Runs -/

/-- The numbers of entries that a map has after a run, and after each further command. -/
def sizesSince (before behind : List ((K → K → Ordering) × Command K V)) : Set Nat :=
  {n | ∃ part, part <+: behind ∧ (after (before ++ part)).size = .ok n}

theorem sizesSince_nil {before : List ((K → K → Ordering) × Command K V)} {n : Nat}
    (h : (after before).size = .ok n) : sizesSince before [] = {n} := by
  ext k
  simp only [sizesSince, Set.mem_ofPred_eq, List.prefix_nil, exists_eq_left, List.append_nil, h,
    Except.ok.injEq, Set.mem_singleton_iff, eq_comm]

theorem sizesSince_concat {before behind : List ((K → K → Ordering) × Command K V)} {n : Nat}
    {c : (K → K → Ordering) × Command K V} (h : (after (before ++ (behind ++ [c]))).size = .ok n) :
    sizesSince before (behind ++ [c]) = sizesSince before behind ∪ {n} := by
  ext k
  simp only [sizesSince, Set.mem_union, Set.mem_singleton_iff, Set.mem_ofPred_eq,
    List.prefix_concat_iff, or_and_right, exists_or, exists_eq_left, h, Except.ok.injEq]
  rw [or_comm, eq_comm]

/-- **The invariant of the storage.** -/
theorem fits_after (commands : List ((K → K → Ordering) × Command K V)) :
    ∃ t, (after commands).Embodies t ∧ (after commands).storage.Fits t.size := by
  induction commands using List.reverseRecOn with
  | nil => exact ⟨.nil, embodies_empty, Nat.le_refl _, Nat.le_refl _⟩
  | append_singleton rest c ih =>
    obtain ⟨cmp, command⟩ := c
    obtain ⟨t, hm, hfit⟩ := ih
    obtain ⟨-, t', hm', -⟩ := hm.step cmp command
    rw [after_concat]
    exact ⟨t', hm', (hm.storage_step hfit command hm').2⟩

/-- One more command changes the storage as the number of entries says that there are then. -/
theorem storage_after_concat (commands : List ((K → K → Ordering) × Command K V))
    (cmp : K → K → Ordering) (command : Command K V) :
    ∃ n, (after (commands ++ [(cmp, command)])).size = .ok n ∧
      (after (commands ++ [(cmp, command)])).storage = (after commands).storage.step n command ∧
      n ≤ ((after commands).storage.step n command).slots := by
  obtain ⟨t, hm, hfit⟩ := fits_after commands
  obtain ⟨-, t', hm', -⟩ := hm.step cmp command
  rw [after_concat]
  obtain ⟨hstep, hfit'⟩ := hm.storage_step hfit command hm'
  exact ⟨t'.size, by rw [hm'.size_eq, Tree.size_bare], hstep, hstep ▸ hfit'.size_le⟩

/-- A map whose slots take less than a gigabyte never needs more storage than memory can have, even
when there are as many entries as handles. -/
theorem capacity_mul_le (commands : List ((K → K → Ordering) × Command K V)) {bytes : Nat}
    (hbytes : bytes < 2 ^ 30)
    (hreserve : ∀ c ∈ commands, ∀ n slotBytes, c.2 = .reserve n slotBytes → slotBytes = bytes) :
    (after commands).capacity * bytes ≤ Arena.maxBytes := by
  induction commands using List.reverseRecOn with
  | nil =>
    show 0 * bytes ≤ _
    rw [Nat.zero_mul]
    exact Nat.zero_le _
  | append_singleton rest c ih =>
    obtain ⟨cmp, command⟩ := c
    obtain ⟨t, hm, hfit⟩ := fits_after rest
    obtain ⟨-, t', hm', -⟩ := hm.step cmp command
    have hcap : ((command.run cmp).outcome (after rest)).2.capacity = _ :=
      congrArg Storage.capacity (hm.storage_step hfit command hm').1
    rw [after_concat, hcap]
    exact Storage.step_mul_le hbytes hfit.slots_le
      (ih fun c hc => hreserve c (List.mem_append_left _ hc)) hm'.size_le
      (hreserve (cmp, command) (by simp))

/-- The slots are as many as the most entries there have been, or as there were slots to begin
with. -/
theorem isGreatest_slots (before behind : List ((K → K → Ordering) × Command K V))
    (h : ∀ c ∈ behind, ¬c.2.Empties) :
    IsGreatest ({(after before).nodes.slots.size} ∪ sizesSince before behind)
      (after (before ++ behind)).nodes.slots.size := by
  induction behind using List.reverseRecOn with
  | nil =>
    obtain ⟨t, hm, hfit⟩ := fits_after before
    have hsize : (after before).size = .ok t.size := by rw [hm.size_eq, Tree.size_bare]
    have hgreatest :=
      (isGreatest_singleton (a := (after before).nodes.slots.size)).union
        (isGreatest_singleton (a := t.size))
    have hmax : max (after before).nodes.slots.size t.size = (after before).nodes.slots.size :=
      Nat.max_eq_left hfit.size_le
    rw [hmax, ← sizesSince_nil hsize] at hgreatest
    rwa [List.append_nil]
  | append_singleton rest c ih =>
    obtain ⟨cmp, command⟩ := c
    obtain ⟨n, hn, hstep, hle⟩ := storage_after_concat (before ++ rest) cmp command
    rw [List.append_assoc] at hn hstep
    have hslots : (after (before ++ (rest ++ [(cmp, command)]))).nodes.slots.size =
        max (after (before ++ rest)).nodes.slots.size n :=
      (congrArg Storage.slots hstep).trans (Storage.slots_step (h (cmp, command) (by simp)) hle)
    have hgreatest := (ih fun c hc => h c (List.mem_append_left _ hc)).union
      (isGreatest_singleton (a := n))
    rwa [sizesSince_concat hn, ← Set.union_assoc, hslots]

theorem slots_of_empties {before : List ((K → K → Ordering) × Command K V)}
    (h : before = [] ∨ ∃ c ∈ before.getLast?, c.2.Empties) :
    (after before).nodes.slots.size = 0 := by
  rcases List.eq_nil_or_concat before with rfl | ⟨rest, ⟨cmp, command⟩, rfl⟩
  · rfl
  · rw [List.concat_eq_append] at h ⊢
    obtain ⟨n, -, hstep, -⟩ := storage_after_concat rest cmp command
    have hempties : command.Empties := by simpa using h
    exact (congrArg Storage.slots hstep).trans (Storage.step_of_empties hempties)

/-- Since its slots were dropped last, a map has had as many entries as it has slots, and never
more. -/
theorem isGreatest_sizesSince {before behind : List ((K → K → Ordering) × Command K V)}
    (hbefore : before = [] ∨ ∃ c ∈ before.getLast?, c.2.Empties)
    (hbehind : ∀ c ∈ behind, ¬c.2.Empties) :
    IsGreatest (sizesSince before behind) (after (before ++ behind)).nodes.slots.size := by
  have hgreatest := isGreatest_slots before behind hbehind
  have hslots := slots_of_empties hbefore
  -- a map without slots has no entries, so there is nothing to begin with
  have hzero : 0 ∈ sizesSince before behind := by
    obtain ⟨t, hm, hfit⟩ := fits_after before
    have hle : t.size ≤ (after before).nodes.slots.size := hfit.size_le
    have hsize : t.size = 0 := Nat.le_zero.1 (hslots ▸ hle)
    refine ⟨[], List.nil_prefix, ?_⟩
    rw [List.append_nil, hm.size_eq, Tree.size_bare, hsize]
  rwa [hslots, Set.union_eq_self_of_subset_left (Set.singleton_subset_iff.2 hzero)] at hgreatest

/-- The capacity after one more command, by the number of entries that there are then. -/
theorem capacity_after_concat (commands : List ((K → K → Ordering) × Command K V))
    (cmp : K → K → Ordering) {command : Command K V} (h : ¬command.Replaces) :
    ∃ n, (after (commands ++ [(cmp, command)])).size = .ok n ∧
      (after (commands ++ [(cmp, command)])).capacity =
        if n ≤ (after commands).capacity then (after commands).capacity
        else max (2 * (after commands).capacity) 4 := by
  obtain ⟨n, hn, hstep, hle⟩ := storage_after_concat commands cmp command
  exact ⟨n, hn, (congrArg Storage.capacity hstep).trans (Storage.capacity_step h hle)⟩

theorem capacity_le {before behind : List ((K → K → Ordering) × Command K V)}
    (h : ∀ c ∈ behind, ¬c.2.Replaces) :
    (after before).capacity ≤ (after (before ++ behind)).capacity := by
  induction behind using List.reverseRecOn with
  | nil => rw [List.append_nil]
  | append_singleton rest c ih =>
    obtain ⟨cmp, command⟩ := c
    have hrest := ih fun c hc => h c (List.mem_append_left _ hc)
    obtain ⟨n, -, hcap⟩ := capacity_after_concat (before ++ rest) cmp (h (cmp, command) (by simp))
    rw [← List.append_assoc, hcap]
    split <;> omega

/-- Only an entry that is one more than fit makes the capacity change. -/
theorem capacity_ne_iff (commands : List ((K → K → Ordering) × Command K V))
    (cmp : K → K → Ordering) {command : Command K V} (h : ¬command.Replaces) :
    (after (commands ++ [(cmp, command)])).capacity ≠ (after commands).capacity ↔
      ∃ key value n, command = .insert key value ∧ (after commands).contains cmp key = .ok false ∧
        (after (commands ++ [(cmp, command)])).size = .ok n ∧ (after commands).capacity < n := by
  obtain ⟨n, hn, hcap⟩ := capacity_after_concat commands cmp h
  rw [hcap]
  constructor
  · intro hne
    have hlt : (after commands).capacity < n := by
      by_contra hle
      exact hne (if_pos (Nat.not_lt.1 hle))
    obtain ⟨t, hm, hfit⟩ := fits_after commands
    obtain ⟨-, t', hm', ht'⟩ := hm.step cmp command
    rw [← after_concat] at hm'
    have hn' : t'.size = n := by
      rw [hm'.size_eq, Tree.size_bare] at hn
      exact Except.ok.inj hn
    have hroom : t.size ≤ (after commands).capacity := hfit.size_le.trans hfit.slots_le
    have hmore : t.bare.size < (t.bare.step cmp command).2.size := by
      rw [← ht', Tree.size_bare, Tree.size_bare, hn']
      exact hroom.trans_lt hlt
    obtain ⟨key, value, rfl, hf⟩ := Tree.eq_insert_of_size_lt hmore
    exact ⟨key, value, n, rfl, by rw [hm.contains_eq, hf]; rfl, hn, hlt⟩
  · rintro ⟨-, -, k, -, -, hk, hlt⟩
    obtain rfl : n = k := Except.ok.inj (hn.symm.trans hk)
    rw [if_neg (Nat.not_le.2 hlt)]
    omega

/-- Room that was reserved is kept as long as there are no more entries than it was reserved for. -/
theorem capacity_of_reserve {before behind : List ((K → K → Ordering) × Command K V)}
    {cmp : K → K → Ordering} {n bytes : Nat} (hn : n * bytes ≤ Arena.maxBytes)
    (h : ∀ c ∈ behind, ¬c.2.Replaces)
    (hsizes : ∀ k ∈ sizesSince (before ++ [(cmp, .reserve n bytes)]) behind, k ≤ n) :
    (after (before ++ [(cmp, .reserve n bytes)] ++ behind)).capacity = n := by
  induction behind using List.reverseRecOn with
  | nil =>
    obtain ⟨k, -, hstep, -⟩ := storage_after_concat before cmp (.reserve n bytes)
    rw [Storage.step, if_pos hn] at hstep
    rw [List.append_nil]
    exact congrArg Storage.capacity hstep
  | append_singleton rest c ih =>
    obtain ⟨cmp', command⟩ := c
    obtain ⟨k, hk, hcap⟩ := capacity_after_concat (before ++ [(cmp, .reserve n bytes)] ++ rest) cmp'
      (h (cmp', command) (by simp))
    rw [List.append_assoc _ rest] at hk hcap
    rw [sizesSince_concat hk] at hsizes
    have hrest := ih (fun c hc => h c (List.mem_append_left _ hc)) fun j hj => hsizes j (.inl hj)
    rw [hcap, hrest, if_pos (hsizes k (.inr rfl))]

/-- What is known of slots and capacity after a run. -/
structure HighWater (commands : List ((K → K → Ordering) × Command K V)) : Prop where
  /-- There are as many slots as the most entries since the map was made or its slots were dropped
  last. -/
  slots_since : ∀ before behind, before ++ behind = commands →
    (before = [] ∨ ∃ c ∈ before.getLast?, c.2.Empties) → (∀ c ∈ behind, ¬c.2.Empties) →
    IsGreatest (sizesSince before behind) (after commands).nodes.slots.size
  /-- For a copy, as many as that or as the slots it began with. -/
  slots_copy : ∀ before cmp behind, before ++ [(cmp, .copy)] ++ behind = commands →
    (∀ c ∈ behind, ¬c.2.Empties) →
    IsGreatest ({(after before).nodes.slots.size} ∪ sizesSince (before ++ [(cmp, .copy)]) behind)
      (after commands).nodes.slots.size
  /-- All slots fit. -/
  slots_le_capacity : (after commands).nodes.slots.size ≤ (after commands).capacity
  /-- As long as the map is not replaced the capacity never gets less. -/
  capacity_le : ∀ before behind, before ++ behind = commands → (∀ c ∈ behind, ¬c.2.Replaces) →
    (after before).capacity ≤ (after commands).capacity
  /-- It changes when a key is inserted that is not found and there are more entries then than fit,
  and in no other case. -/
  capacity_ne_iff : ∀ cmp command, ¬command.Replaces →
    ((after (commands ++ [(cmp, command)])).capacity ≠ (after commands).capacity ↔
      ∃ key value n, command = .insert key value ∧ (after commands).contains cmp key = .ok false ∧
        (after (commands ++ [(cmp, command)])).size = .ok n ∧ (after commands).capacity < n)
  /-- It doubles then, to 4 at least. -/
  capacity_eq : ∀ cmp command, ¬command.Replaces →
    (after (commands ++ [(cmp, command)])).capacity ≠ (after commands).capacity →
    (after (commands ++ [(cmp, command)])).capacity = max (2 * (after commands).capacity) 4
  /-- Room that was reserved for a number of entries is kept while there are no more of them. -/
  capacity_reserve : ∀ before cmp n bytes behind,
    before ++ [(cmp, .reserve n bytes)] ++ behind = commands →
    n * bytes ≤ Arena.maxBytes → (∀ c ∈ behind, ¬c.2.Replaces) →
    (∀ k ∈ sizesSince (before ++ [(cmp, .reserve n bytes)]) behind, k ≤ n) →
    (after commands).capacity = n

/-- **Slots are a high-water mark.**  After any run, each command with a comparison of its own, there
are as many slots as the most entries there have been, and the capacity follows from that. -/
theorem highWater_after (commands : List ((K → K → Ordering) × Command K V)) :
    HighWater commands where
  slots_since := by
    rintro before behind rfl hbefore hbehind
    exact isGreatest_sizesSince hbefore hbehind
  slots_copy := by
    rintro before cmp behind rfl hbehind
    obtain ⟨n, -, hstep, -⟩ := storage_after_concat before cmp .copy
    have hslots : (after (before ++ [(cmp, .copy)])).nodes.slots.size =
        (after before).nodes.slots.size := congrArg Storage.slots hstep
    have hgreatest := isGreatest_slots (before ++ [(cmp, .copy)]) behind hbehind
    rwa [hslots] at hgreatest
  slots_le_capacity := by
    obtain ⟨t, -, hfit⟩ := fits_after commands
    exact hfit.slots_le
  capacity_le := by
    rintro before behind rfl h
    exact OrdMap.capacity_le h
  capacity_ne_iff cmp command h := OrdMap.capacity_ne_iff commands cmp h
  capacity_eq cmp command h hne := by
    obtain ⟨n, -, hcap⟩ := capacity_after_concat commands cmp h
    by_cases hle : n ≤ (after commands).capacity
    · rw [if_pos hle] at hcap
      exact absurd hcap hne
    · rwa [if_neg hle] at hcap
  capacity_reserve := by
    rintro before cmp n bytes behind rfl hn h hsizes
    exact capacity_of_reserve hn h hsizes

/-- Three keys are inserted and one is taken out again: its slot is left, and room for a fourth. -/
example : (after [(compare, .insert 1 10), (compare, .insert 2 20), (compare, .insert 3 30),
    (compare, .erase 2)] : OrdMap Nat Nat).storage = ⟨3, 4⟩ := by
  decide +kernel

end OrdMap

end RankedMap
