import Mathlib.Data.Set.Card
import RankedMap.Arena.Command
import RankedMap.Proofs.Arena.Sound

/-!
# An arena keeps to its account

`Arena.account` is the account of an arena: which element is at each index, which indices are free,
and how many there are.  The account of a sound arena is all there is to know about it.  It tells
what every command answers, and what it comes to by that is the account of the arena afterwards
(`Sound.run_account`).  So a whole run is told from the account at its start (`Sound.runAll_account`).

In the account of a sound arena every index that was handed out is live or free, and no index is
free twice (`Account.Consistent`).
-/

set_option autoImplicit false

namespace RankedMap

namespace Arena

variable {α β : Type} {a : Arena α} {h : Handle} {x : α}

/-- The account of an arena. -/
def account (a : Arena α) : Account α where
  live i := a.slots[i]?.join
  freed := a.free.toList.reverse.map Handle.index
  fresh := a.slots.size

/-! ## What is free -/

/-- Every index that was handed out is live, or it is free and so only once. -/
structure Account.Consistent (c : Account α) : Prop where
  /-- No index is free twice. -/
  freed_nodup : c.freed.Nodup
  /-- An index is free when it was handed out and is not live. -/
  mem_freed : ∀ i, i ∈ c.freed ↔ i < c.fresh ∧ c.live i = none
  /-- A live index was handed out. -/
  lt_fresh : ∀ i, c.live i ≠ none → i < c.fresh
  /-- What was handed out has a handle. -/
  fresh_le : c.fresh ≤ Handle.maxIndex + 1

theorem Sound.consistent (ha : a.Sound) : a.account.Consistent where
  freed_nodup := (List.nodup_reverse.2 ha.free_nodup).map Handle.index_injective
  mem_freed i := by
    simp only [account, List.mem_map, List.mem_reverse, Array.mem_toList_iff]
    constructor
    · rintro ⟨h, hh, rfl⟩
      exact (ha.mem_free h).1 hh
    · rintro ⟨hlt, hlive⟩
      have hle : i ≤ Handle.maxIndex := Nat.le_of_lt_succ (Nat.lt_of_lt_of_le hlt ha.slots_le)
      exact ⟨⟨i, hle⟩, (ha.mem_free _).2 ⟨hlt, hlive⟩, rfl⟩
  lt_fresh i hi := by
    by_contra hge
    exact hi (by simp [account, Array.getElem?_eq_none (Nat.le_of_not_lt hge)])
  fresh_le := ha.slots_le

/-- The live indices are those that were handed out, less the free ones. -/
theorem Account.Consistent.ncard_live {c : Account α} (hc : c.Consistent) :
    {i | c.live i ≠ none}.ncard = c.fresh - c.freed.length := by
  have hset : {i | c.live i ≠ none} = ↑(Finset.range c.fresh \ c.freed.toFinset) := by
    ext i
    rw [Set.mem_ofPred_eq, Finset.mem_coe, Finset.mem_sdiff, Finset.mem_range, List.mem_toFinset,
      hc.mem_freed]
    exact ⟨fun hi => ⟨hc.lt_fresh i hi, fun hf => hi hf.2⟩, fun hi hn => hi.2 ⟨hi.1, hn⟩⟩
  have hsub : c.freed.toFinset ⊆ Finset.range c.fresh := by
    intro i hi
    exact Finset.mem_range.2 ((hc.mem_freed i).1 (List.mem_toFinset.1 hi)).1
  rw [hset, Set.ncard_coe_finset, Finset.card_sdiff_of_subset hsub, Finset.card_range,
    List.toFinset_card_of_nodup hc.freed_nodup]

namespace Account.Consistent

variable {c : Account α} {i : Nat}

/-- A live index has its element to use. -/
theorem demand_eq_ok (hc : c.Consistent) (access : Access) :
    c.demand access i = .ok x ↔ c.live i = some x := by
  constructor
  · intro hd
    rw [Account.demand] at hd
    split at hd
    · cases hd
    · split at hd <;> simp_all
  · intro hx
    have hlt := hc.lt_fresh i (by simp [hx])
    have hle : ¬Handle.maxIndex < i := by have hfresh := hc.fresh_le; omega
    rw [Account.demand, if_neg hle, hx]

/-- A free index has none. -/
theorem demand_of_freed (hc : c.Consistent) (hi : i ∈ c.freed) (access : Access) :
    c.demand access i = .error (.vacantSlot access) := by
  obtain ⟨hlt, hx⟩ := (hc.mem_freed i).1 hi
  have hle : ¬Handle.maxIndex < i := by have hfresh := hc.fresh_le; omega
  rw [Account.demand, if_neg hle, hx]
  exact congrArg Except.error (if_pos hlt)

/-- An index that was never handed out has none either, and that is another fault. -/
theorem demand_of_fresh (hc : c.Consistent) (hi : c.fresh ≤ i) (hle : i ≤ Handle.maxIndex)
    (access : Access) : c.demand access i = .error (.slotOutOfRange c.fresh i) := by
  have hx : c.live i = none := by
    by_contra hlive
    exact Nat.not_lt.2 hi (hc.lt_fresh i hlive)
  rw [Account.demand, if_neg (Nat.not_lt.2 hle), hx]
  exact congrArg Except.error (if_neg (Nat.not_lt.2 hi))

end Account.Consistent

/-- The size of an arena is the number of live indices. -/
theorem Sound.size_eq_ncard (ha : a.Sound) : a.size = {i | a.account.live i ≠ none}.ncard := by
  rw [ha.consistent.ncard_live, size, account, List.length_map, List.length_reverse,
    Array.length_toList]

/-! ## Using a handle that names no element -/

/-- The fault of using a handle that names no element. -/
def refusal (a : Arena α) (access : Access) (h : Handle) : Fault :=
  if h.index < a.slots.size then .vacantSlot access else .slotOutOfRange a.slots.size h.index

theorem getElem?_of_vacant (hx : a.live h = none) :
    a.slots[h.index]? = if h.index < a.slots.size then some none else none := by
  by_cases hs : h.index < a.slots.size
  · simp_all [live]
  · rw [if_neg hs, Array.getElem?_eq_none (Nat.le_of_not_lt hs)]

theorem get_of_vacant (hx : a.live h = none) : a.get h = .error (a.refusal .read h) := by
  rw [get, getElem?_of_vacant hx, refusal]
  split <;> simp_all

theorem modifyGet_of_vacant (hx : a.live h = none) (f : α → β × α) :
    modifyGet h f a = .error (a.refusal .write h) a := by
  have hs := getElem?_of_vacant hx
  obtain ⟨slots, free, capacity⟩ := a
  simp only at hs
  simp only [modifyGet, hs, refusal]
  split <;> simp_all

theorem release_of_vacant (hx : a.live h = none) :
    release h a = .error (a.refusal .release h) a := by
  have hs := getElem?_of_vacant hx
  obtain ⟨slots, free, capacity⟩ := a
  simp only at hs
  simp only [release, hs, refusal]
  split <;> simp_all

theorem demand_of_vacant (hx : a.live h = none) (access : Access) :
    a.account.demand access h.index = .error (a.refusal access h) := by
  have hle : ¬Handle.maxIndex < h.index := Nat.not_lt.2 h.index_le
  have hlive : a.account.live h.index = none := hx
  rw [Account.demand, if_neg hle, hlive]
  rfl

/-- The account has the elements that handles name. -/
theorem demand_eq_ok {access : Access} {index : Nat} :
    a.account.demand access index = .ok x ↔ ∃ h : Handle, h.index = index ∧ a.live h = some x := by
  constructor
  · intro hd
    rw [Account.demand] at hd
    split at hd
    · cases hd
    · rename_i hle
      have hlive : a.account.live index = a.live ⟨index, Nat.not_lt.1 hle⟩ := rfl
      refine ⟨⟨index, Nat.not_lt.1 hle⟩, rfl, ?_⟩
      rw [hlive] at hd
      split at hd <;> simp_all
  · rintro ⟨h, rfl, hx⟩
    have hle : ¬Handle.maxIndex < h.index := Nat.not_lt.2 h.index_le
    have hlive : a.account.live h.index = some x := hx
    rw [Account.demand, if_neg hle, hlive]

/-! ## Changing one slot -/

theorem account_put (hs : h.index < a.slots.size) (y : Option α) :
    (a.put h y).account = a.account.put h.index y := by
  have hlive : ∀ i, (a.slots.setIfInBounds h.index y)[i]?.join =
      if i = h.index then y else a.slots[i]?.join := by
    intro i
    by_cases hi : i = h.index
    · simp [hi, hs]
    · rw [Array.getElem?_setIfInBounds_ne (Ne.symm hi), if_neg hi]
  simp only [account, put, Account.put, Array.size_setIfInBounds, hlive]

theorem Sound.put_some (ha : a.Sound) (hx : a.live h = some x) (y : α) :
    (a.put h (some y)).Sound := by
  refine ha.congr (by simp [put]) rfl fun h' => ?_
  rw [live_put hx]
  by_cases he : h' = h
  · simp [he, hx]
  · rw [if_neg he]

/-! ## One command -/

/-- The reply and the arena that a command ended in are what was said. -/
def Keeps (ended : Except Fault (Reply α) × Arena α)
    (said : Option (Except Fault (Reply α)) × Account α) : Prop :=
  (∀ reply ∈ said.1, ended.1 = reply) ∧ ended.2.account = said.2

/-- Uses the slot at an index, and answers with an element. -/
def use (index : Nat) (change : Handle → Edit (Arena α) α) : Edit (Arena α) (Reply α) := do
  let h ← Edit.read fun _ => Handle.ofIndex index
  return .element (← change h)

theorem outcome_use_of_ok {change : Handle → Edit (Arena α) α} {a' : Arena α}
    (hok : change h a = .ok x a') : (use h.index change).outcome a = (.ok (.element x), a') := by
  simp only [use, Edit.outcome, Edit.bind_apply, Edit.read_apply, Handle.ofIndex_index, hok,
    Edit.pure_apply]

/-- A change that fails for handles that name no element fails for indices that are not live. -/
theorem outcome_use_of_error {change : Handle → Edit (Arena α) α} {access : Access} {index : Nat}
    {e : Fault} (hvacant : ∀ h, a.live h = none → change h a = .error (a.refusal access h) a)
    (hd : a.account.demand access index = .error e) :
    (use index change).outcome a = (.error e, a) := by
  rcases Nat.lt_or_ge Handle.maxIndex index with hlt | hle
  · have hf : Handle.ofIndex index = .error .handleTooLarge :=
      Handle.ofIndex_eq_error_iff.2 ⟨hlt, rfl⟩
    rw [Account.demand, if_pos hlt] at hd
    cases hd
    simp only [use, Edit.outcome, Edit.bind_apply, Edit.read_apply, hf]
  · obtain ⟨h, rfl⟩ : ∃ h : Handle, h.index = index := ⟨⟨index, hle⟩, rfl⟩
    cases hx : a.live h with
    | some x => rw [demand_eq_ok.2 ⟨h, rfl, hx⟩] at hd; cases hd
    | none =>
      rw [demand_of_vacant hx] at hd
      cases hd
      simp only [use, Edit.outcome, Edit.bind_apply, Edit.read_apply, Handle.ofIndex_index,
        hvacant h hx]

/-- Using the slot at an index keeps to the account, if the change of it fails for a handle that names
no element and comes to the account `next` for one that names one. -/
theorem Sound.use_account (ha : a.Sound) {change : Handle → Edit (Arena α) α} {access : Access}
    {index : Nat} {next : Account α}
    (hvacant : ∀ h, a.live h = none → change h a = .error (a.refusal access h) a)
    (hlive : ∀ h x, h.index = index → a.live h = some x →
      ∃ a', change h a = .ok x a' ∧ a'.account = next ∧ a'.Sound) :
    Keeps ((use index change).outcome a) (match a.account.demand access index with
        | .ok x => (some (.ok (.element x)), next)
        | .error e => (some (.error e), a.account)) ∧
      ((use index change).outcome a).2.Sound := by
  cases hd : a.account.demand access index with
  | error e =>
    rw [outcome_use_of_error hvacant hd]
    exact ⟨⟨fun _ hr => Option.some.inj hr, rfl⟩, ha⟩
  | ok x =>
    obtain ⟨h, rfl, hx⟩ := demand_eq_ok.1 hd
    obtain ⟨a', hok, haccount, hsound⟩ := hlive h x rfl hx
    rw [outcome_use_of_ok hok]
    exact ⟨⟨fun _ hr => Option.some.inj hr, haccount⟩, hsound⟩

/-- An element is added where the account says. -/
theorem Sound.allocate_account (ha : a.Sound) (x : α) :
    Keeps ((Command.allocate x).run.outcome a) (a.account.run (.allocate x)) ∧
      ((Command.allocate x).run.outcome a).2.Sound := by
  cases hb : a.free.back? with
  | some h =>
    obtain ⟨rest, hrest⟩ := Array.back?_eq_some_iff.1 hb
    have hh := ((ha.mem_free h).1 (Array.mem_of_back? hb)).1
    have hok := allocate_of_free hb hh x
    have hroom : a.size ≤ Handle.maxIndex := by
      have hs := ha.slots_le
      rw [size, hrest, Array.size_push]
      omega
    have hsound : ({ a.put h (some x) with free := a.free.pop } : Arena α).Sound := by
      obtain ⟨h', a', hok', -, hsound⟩ := ha.allocate hroom x
      rw [hok] at hok'
      cases hok'
      exact hsound
    have hfreed : a.account.freed = h.index :: rest.toList.reverse.map Handle.index := by
      simp [account, hrest]
    simp only [Edit.outcome, Command.run, Edit.bind_apply, hok, Edit.pure_apply, Account.run, hfreed]
    refine ⟨⟨fun _ hr => Option.some.inj hr, ?_⟩, hsound⟩
    rw [← account_put hh, hrest, Array.pop_push]
    rfl
  | none =>
    have hf : a.free = #[] := Array.back?_eq_none_iff.1 hb
    have hfreed : a.account.freed = [] := by simp [account, hf]
    have hfresh : a.account.fresh = a.slots.size := rfl
    rcases Nat.lt_or_ge Handle.maxIndex a.slots.size with hfull | hs
    · have herr := ha.allocate_full (by simpa [size, hf] using hfull) x
      simp only [Edit.outcome, Command.run, Edit.bind_apply, herr, Account.run, hfreed, hfresh,
        if_neg (Nat.not_le.2 hfull)]
      exact ⟨⟨fun _ hr => Option.some.inj hr, rfl⟩, ha⟩
    · have hok := allocate_of_full hf hs x
      have hsound : (⟨a.slots.push (some x), #[], grow a.slots.size a.capacity⟩ : Arena α).Sound := by
        obtain ⟨h', a', hok', -, hsound⟩ := ha.allocate (by simpa [size, hf] using hs) x
        rw [hok] at hok'
        cases hok'
        exact hsound
      have hlive : ∀ i, (a.slots.push (some x))[i]?.join =
          if i = a.slots.size then some x else a.slots[i]?.join := by
        intro i
        rw [Array.getElem?_push]
        split <;> rfl
      simp only [Edit.outcome, Command.run, Edit.bind_apply, hok, Edit.pure_apply, Account.run,
        hfreed, hfresh, if_pos hs]
      refine ⟨⟨fun _ hr => Option.some.inj hr, ?_⟩, hsound⟩
      simp [account, Account.put, hlive, hf]

/-- **One command**: a sound arena does what its account says, and stays sound. -/
theorem Sound.run_account (ha : a.Sound) (command : Command α) :
    Keeps (command.run.outcome a) (a.account.run command) ∧ (command.run.outcome a).2.Sound := by
  cases command with
  | allocate x => exact ha.allocate_account x
  | get index =>
    refine ha.use_account (fun h hx => by rw [Edit.read_apply, get_of_vacant hx]) ?_
    intro h x _ hx
    exact ⟨a, Edit.read_eq_ok.2 ⟨get_eq_ok.2 hx, rfl⟩, rfl, ha⟩
  | exchange index y =>
    refine ha.use_account (fun h hx => modifyGet_of_vacant hx _) ?_
    rintro h x rfl hx
    exact ⟨_, modifyGet_of_live hx _, account_put (index_lt_of_live hx) _, ha.put_some hx y⟩
  | release index =>
    refine ha.use_account (fun h hx => release_of_vacant hx) ?_
    rintro h x rfl hx
    refine ⟨_, release_of_live hx, ?_, ha.release (release_of_live hx)⟩
    rw [← account_put (index_lt_of_live hx)]
    simp [account, put]
  | clear => exact ⟨⟨fun _ hr => Option.some.inj hr, rfl⟩, sound_of_slots_eq_empty rfl rfl⟩
  | copy => exact ⟨⟨fun _ hr => Option.some.inj hr, rfl⟩, ha.copy⟩
  | capacity => exact ⟨⟨by rintro _ ⟨⟩, rfl⟩, ha⟩

/-- **A whole run**: so it is for any number of commands. -/
theorem Sound.runAll_account (ha : a.Sound) (commands : List (Command α)) :
    List.Forall₂ (fun said reply => ∀ r ∈ said, reply = r) (Account.runAll commands a.account).1
        (Command.runAll commands a).1 ∧
      (Command.runAll commands a).2.account = (Account.runAll commands a.account).2 ∧
      (Command.runAll commands a).2.Sound := by
  induction commands generalizing a with
  | nil => exact ⟨.nil, rfl, ha⟩
  | cons command rest ih =>
    obtain ⟨⟨hreply, haccount⟩, hsound⟩ := ha.run_account command
    obtain ⟨hreplies, hrest, hsound'⟩ := ih hsound
    rw [haccount] at hreplies hrest
    exact ⟨.cons hreply hreplies, hrest, hsound'⟩

end Arena

end RankedMap
