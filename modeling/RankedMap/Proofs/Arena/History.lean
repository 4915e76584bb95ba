import RankedMap.Proofs.Arena.Accounts

/-!
# What an arena remembers of its history

The past of an arena is the list of its `Event`s, the commands it was given with their replies.  The
account of an arena can be told from the past alone: the element at an index is the one that was
stored there last, if nothing displaced it since, and an index was handed out if it was the reply to
an addition after all slots were dropped last (`Recorded`).

`Accounted` puts together what is known of an arena after a run: it is what its account says, its
account is what happened, and it goes on by the account.  `accounted_after` states it for every run
from an arena without slots, whatever indices the commands named.
-/

set_option autoImplicit false

namespace RankedMap

/-- An event of the first kind has happened, and none of the second kind since. -/
def Since {ε : Type} (kind other : ε → Prop) (past : List ε) : Prop :=
  ∃ before event behind, past = before ++ event :: behind ∧ kind event ∧ ∀ e ∈ behind, ¬other e

theorem not_since_nil {ε : Type} {kind other : ε → Prop} : ¬Since kind other [] := by
  rintro ⟨before, event, behind, hp, -⟩
  simp at hp

/-- One more event is of the first kind, or it leaves things as they were. -/
theorem since_concat {ε : Type} {kind other : ε → Prop} {past : List ε} {event : ε} :
    Since kind other (past ++ [event]) ↔ kind event ∨ ¬other event ∧ Since kind other past := by
  constructor
  · rintro ⟨before, e, behind, hp, he, hall⟩
    rcases List.eq_nil_or_concat behind with rfl | ⟨behind, last, rfl⟩
    · obtain ⟨-, hlast⟩ := List.append_inj' hp rfl
      exact .inl (List.singleton_inj.1 hlast ▸ he)
    · rw [List.concat_eq_append, ← List.cons_append, ← List.append_assoc] at hp
      obtain ⟨hpast, hlast⟩ := List.append_inj' hp rfl
      rw [List.concat_eq_append] at hall
      refine .inr ⟨?_, before, e, behind, hpast, he, fun d hd => hall d (List.mem_append_left _ hd)⟩
      exact List.singleton_inj.1 hlast ▸ hall last (List.mem_append_right _ (.head _))
  · rintro (he | ⟨hnot, before, e, behind, rfl, he, hall⟩)
    · exact ⟨past, event, [], rfl, he, nofun⟩
    · refine ⟨before, e, behind ++ [event], by simp, he, ?_⟩
      intro d hd
      rcases List.mem_append.1 hd with hd | hd
      · exact hall d hd
      · exact List.mem_singleton.1 hd ▸ hnot

namespace Arena

variable {α : Type}

/-- A command and the reply to it. -/
abbrev Event (α : Type) : Type := Command α × Except Fault (Reply α)

namespace Event

/-- The element `x` is stored at an index. -/
def Stores (index : Nat) (x : α) : Event α → Prop
  | (.allocate y, .ok (.number i)) => i = index ∧ y = x
  | (.exchange i y, .ok _) => i = index ∧ y = x
  | _ => False

/-- What was stored at an index is no longer there. -/
def Displaces (index : Nat) : Event α → Prop
  | (.allocate _, .ok (.number i)) => i = index
  | (.exchange i _, .ok _) => i = index
  | (.release i, .ok _) => i = index
  | (.clear, _) => True
  | _ => False

/-- An index is handed out. -/
def HandsOut (index : Nat) : Event α → Prop
  | (.allocate _, .ok (.number i)) => i = index
  | _ => False

/-- All slots are dropped. -/
def Clears : Event α → Prop
  | (.clear, _) => True
  | _ => False

end Event

/-! ## The account tells what happened -/

/-- The account agrees with the past. -/
structure Recorded (past : List (Event α)) (c : Account α) : Prop where
  /-- What is live at an index is what was stored there last. -/
  live_iff : ∀ i x, c.live i = some x ↔ Since (Event.Stores i x) (Event.Displaces i) past
  /-- The indices before the fresh one are those handed out since all slots were dropped. -/
  lt_fresh_iff : ∀ i, i < c.fresh ↔ Since (Event.HandsOut i) Event.Clears past

theorem recorded_empty : Recorded [] (Account.empty : Account α) where
  live_iff _ _ := ⟨nofun, fun h => absurd h not_since_nil⟩
  lt_fresh_iff _ := ⟨nofun, fun h => absurd h not_since_nil⟩

namespace Recorded

variable {past : List (Event α)} {c : Account α}

/-- An event that leaves the account as it is. -/
theorem idle (hr : Recorded past c) {event : Event α}
    (hstores : ∀ i x, ¬event.Stores i x) (hdisplaces : ∀ i, ¬event.Displaces i)
    (hhands : ∀ i, ¬event.HandsOut i) (hclears : ¬event.Clears) :
    Recorded (past ++ [event]) c where
  live_iff i x := by simp [since_concat, hstores i x, hdisplaces i, hr.live_iff]
  lt_fresh_iff i := by simp [since_concat, hhands i, hclears, hr.lt_fresh_iff]

/-- An event that puts an element, or nothing, at one index that was handed out before. -/
theorem put (hr : Recorded past c) {event : Event α} {i : Nat} {y : Option α}
    (hstores : ∀ j x, event.Stores j x ↔ i = j ∧ y = some x)
    (hdisplaces : ∀ j, event.Displaces j ↔ i = j) (hclears : ¬event.Clears)
    (hhands : ∀ j, event.HandsOut j → j < c.fresh) (freed : List Nat) :
    Recorded (past ++ [event]) { c.put i y with freed } where
  live_iff j x := by
    rw [since_concat, hstores, hdisplaces, ← hr.live_iff]
    by_cases hj : j = i
    · simp [Account.put, hj]
    · simp [Account.put, hj, Ne.symm hj]
  lt_fresh_iff j := by
    rw [since_concat, ← hr.lt_fresh_iff]
    exact ⟨fun hlt => .inr ⟨hclears, hlt⟩, fun h => h.elim (hhands j) (·.2)⟩

/-- **One command**: its reply is what the account needs to agree with the past again. -/
theorem step (hr : Recorded past c) (hc : c.Consistent) (command : Command α)
    {reply : Except Fault (Reply α)} (hreply : ∀ r ∈ (c.run command).1, reply = r) :
    Recorded (past ++ [(command, reply)]) (c.run command).2 := by
  cases command with
  | allocate x =>
    rw [Account.run] at hreply ⊢
    cases hf : c.freed with
    | cons i freed =>
      rw [hf] at hreply
      obtain rfl := hreply _ rfl
      have hi := ((hc.mem_freed i).1 (hf ▸ .head _)).1
      have hhands : ∀ j, Event.HandsOut j (Command.allocate x, .ok (.number i)) → j < c.fresh := by
        rintro j rfl
        exact hi
      exact hr.put (fun j y => by simp [Event.Stores]) (fun j => Iff.rfl) id hhands freed
    | nil =>
      simp only [hf] at hreply ⊢
      split at hreply
      · obtain rfl := hreply _ rfl
        rename_i hfits
        rw [if_pos hfits]
        refine ⟨?_, ?_⟩
        · intro j y
          rw [since_concat, ← hr.live_iff]
          by_cases hj : j = c.fresh
          · simp [Account.put, Event.Stores, Event.Displaces, hj]
          · simp [Account.put, Event.Stores, Event.Displaces, hj, Ne.symm hj]
        · intro j
          rw [since_concat, ← hr.lt_fresh_iff]
          show j < c.fresh + 1 ↔ c.fresh = j ∨ ¬False ∧ j < c.fresh
          simp only [not_false_eq_true, true_and]
          omega
      · obtain rfl := hreply _ rfl
        rename_i hfull
        rw [if_neg hfull]
        exact hr.idle (fun _ _ => id) (fun _ => id) (fun _ => id) id
  | get index =>
    rw [Account.run]
    cases c.demand .read index <;>
      exact hr.idle (fun _ _ => id) (fun _ => id) (fun _ => id) id
  | exchange index y =>
    rw [Account.run] at hreply ⊢
    cases hd : c.demand .write index with
    | error e =>
      rw [hd] at hreply
      obtain rfl := hreply _ rfl
      exact hr.idle (fun _ _ => id) (fun _ => id) (fun _ => id) id
    | ok x =>
      rw [hd] at hreply
      obtain rfl := hreply _ rfl
      exact hr.put (fun j z => by simp [Event.Stores]) (fun j => Iff.rfl) id
        (fun _ => False.elim) c.freed
  | release index =>
    rw [Account.run] at hreply ⊢
    cases hd : c.demand .release index with
    | error e =>
      rw [hd] at hreply
      obtain rfl := hreply _ rfl
      exact hr.idle (fun _ _ => id) (fun _ => id) (fun _ => id) id
    | ok x =>
      rw [hd] at hreply
      obtain rfl := hreply _ rfl
      exact hr.put (fun j z => by simp [Event.Stores]) (fun j => Iff.rfl) id
        (fun _ => False.elim) _
  | clear =>
    refine ⟨?_, ?_⟩
    · intro j x
      simp [since_concat, Account.run, Account.empty, Event.Stores, Event.Displaces]
    · intro j
      simp [since_concat, Account.run, Account.empty, Event.HandsOut, Event.Clears]
  | copy | capacity => exact hr.idle (fun _ _ => id) (fun _ => id) (fun _ => id) id

end Recorded

/-- **A whole run**: so it is after any number of commands. -/
theorem Sound.recorded_runAll {a : Arena α} (ha : a.Sound) {past : List (Event α)}
    (hr : Recorded past a.account) (commands : List (Command α)) :
    Recorded (past ++ commands.zip (Command.runAll commands a).1)
      (Command.runAll commands a).2.account := by
  induction commands generalizing a past with
  | nil => simpa [Command.runAll] using hr
  | cons command rest ih =>
    obtain ⟨⟨hreply, haccount⟩, hsound⟩ := ha.run_account command
    have hnext := ih hsound (haccount ▸ hr.step ha.consistent command hreply)
    rwa [List.append_assoc] at hnext

/-! ## Commands that fail -/

/-- A command that uses the slot at an index. -/
def Command.Uses (access : Access) (index : Nat) : Command α → Prop
  | .get i => access = .read ∧ i = index
  | .exchange i _ => access = .write ∧ i = index
  | .release i => access = .release ∧ i = index
  | _ => False

/-- Using a slot fails without a trace if the change of it does. -/
theorem use_eq_error {index : Nat} {change : Handle → Edit (Arena α) α} {a a' : Arena α} {e : Fault}
    (hchange : ∀ h s s' e', change h s = .error e' s' → s' = s)
    (he : use index change a = .error e a') : a' = a := by
  rw [use] at he
  rcases Edit.bind_eq_error.1 he with hindex | ⟨h, s, hindex, hrest⟩
  · exact (Edit.read_eq_error.1 hindex).2
  · obtain ⟨-, rfl⟩ := Edit.read_eq_ok.1 hindex
    rcases Edit.bind_eq_error.1 hrest with hused | ⟨x, t, -, hpure⟩
    · exact hchange _ _ _ _ hused
    · exact (Edit.pure_ne_error hpure).elim

/-- **A command that fails changes nothing**, be the arena sound or not. -/
theorem Command.run_eq_error {command : Command α} {a a' : Arena α} {e : Fault}
    (he : command.run a = .error e a') : a' = a := by
  cases command with
  | allocate x =>
    rw [Command.run] at he
    rcases Edit.bind_eq_error.1 he with hadded | ⟨h, s, -, hpure⟩
    · exact allocate_eq_error hadded
    · exact (Edit.pure_ne_error hpure).elim
  | get index => exact use_eq_error (fun _ _ _ _ hread => (Edit.read_eq_error.1 hread).2) he
  | exchange index y => exact use_eq_error (fun _ _ _ _ hput => (modifyGet_eq_error hput).1) he
  | release index => exact use_eq_error (fun _ _ _ _ hfreed => (release_eq_error hfreed).1) he
  | clear | copy | capacity => cases he

/-- A command that uses a slot answers with the element the account has there, or with the fault. -/
theorem Command.Uses.run_fst {access : Access} {index : Nat} {command : Command α}
    (hu : command.Uses access index) (c : Account α) :
    (c.run command).1 = some ((c.demand access index).map Reply.element) := by
  cases command with
  | get i | exchange i y | release i =>
    obtain ⟨rfl, rfl⟩ := hu
    rw [Account.run]
    cases c.demand _ i <;> rfl
  | allocate | clear | copy | capacity => exact hu.elim

namespace Sound

variable {a : Arena α} {command : Command α} {access : Access} {i : Nat}

/-- A command answers with an element if and only if the index it uses is live. -/
theorem yields (ha : a.Sound) (hu : command.Uses access i) (x : α) :
    (command.run.outcome a).1 = .ok (.element x) ↔ a.account.live i = some x := by
  have hreply := (ha.run_account command).1.1 _ (hu.run_fst a.account)
  rw [hreply, ← ha.consistent.demand_eq_ok access]
  cases a.account.demand access i with
  | ok y => simp [Except.map]
  | error e => simp [Except.map]

/-- A command that the account has no element for fails, and leaves the arena as it was. -/
theorem refuses (ha : a.Sound) (hu : command.Uses access i) {e : Fault}
    (hd : a.account.demand access i = .error e) : command.run.outcome a = (.error e, a) := by
  have hreply := (ha.run_account command).1.1 _ (hu.run_fst a.account)
  rw [hd] at hreply
  obtain ⟨reply, a', hout⟩ : ∃ reply a', command.run.outcome a = (reply, a') := ⟨_, _, rfl⟩
  rw [hout] at hreply
  obtain rfl : reply = .error e := hreply
  rw [hout, Command.run_eq_error (Edit.outcome_eq_error.1 hout)]

/-- An element is added at the index freed last, else at the next fresh one. -/
theorem adds (ha : a.Sound) (hroom : a.size ≤ Handle.maxIndex) (x : α) {i : Nat}
    (hi : a.account.freed.headD a.account.fresh = i) :
    a.account.live i = none ∧ ∃ a', (Command.allocate x).run.outcome a = (.ok (.number i), a') ∧
      ∀ j, a'.account.live j = if j = i then some x else a.account.live j := by
  have hc := ha.consistent
  have hsize : a.size = a.account.fresh - a.account.freed.length :=
    ha.size_eq_ncard.trans hc.ncard_live
  have hkeeps := (ha.run_account (.allocate x)).1
  rw [Keeps, Account.run] at hkeeps
  cases hf : a.account.freed with
  | cons top rest =>
    obtain rfl : top = i := by rw [hf] at hi; exact hi
    rw [hf] at hkeeps
    obtain ⟨hreply, haccount⟩ := hkeeps
    refine ⟨((hc.mem_freed top).1 (hf ▸ .head _)).2, _, Prod.ext (hreply _ rfl) rfl, ?_⟩
    intro j
    rw [haccount]
    rfl
  | nil =>
    obtain rfl : a.account.fresh = i := by rw [hf] at hi; exact hi
    have hle : a.account.fresh ≤ Handle.maxIndex := by
      rw [hf, List.length_nil, Nat.sub_zero] at hsize
      exact hsize ▸ hroom
    rw [hf] at hkeeps
    simp only [if_pos hle] at hkeeps
    obtain ⟨hreply, haccount⟩ := hkeeps
    refine ⟨?_, _, Prod.ext (hreply _ rfl) rfl, ?_⟩
    · by_contra hlive
      exact Nat.lt_irrefl _ (hc.lt_fresh _ hlive)
    · intro j
      rw [haccount]
      rfl

/-- An index that was released is not released again, and not freed twice. -/
theorem release_again (ha : a.Sound) {x : α} {a' : Arena α}
    (hout : (Command.release i).run.outcome a = (.ok (.element x), a')) :
    (Command.release i).run.outcome a' = (.error (.vacantSlot .release), a') := by
  have hu : Command.Uses .release i (Command.release i : Command α) := ⟨rfl, rfl⟩
  obtain ⟨⟨-, haccount⟩, hsound⟩ := ha.run_account (.release i)
  have hlive := (ha.yields hu x).1 (by rw [hout])
  rw [hout, Account.run, (ha.consistent.demand_eq_ok .release).2 hlive] at haccount
  rw [hout] at hsound
  have hfreed : i ∈ a'.account.freed := by
    rw [haccount]
    exact List.mem_cons_self
  exact hsound.refuses hu (hsound.consistent.demand_of_freed hfreed .release)

end Sound

end Arena

/-! ## The texts of the faults -/

theorem Fault.message_vacantSlot (access : Access) :
    ∃ site, (Fault.vacantSlot access).message = site ++ "`handle` is invalid!" := by
  cases access with
  | read => exact ⟨"`Arena::get()` - ", rfl⟩
  | write => exact ⟨"`Arena::get_mut()` - ", rfl⟩
  | release => exact ⟨"`Arena::take()` - ", rfl⟩

theorem Fault.message_slotOutOfRange (slots index : Nat) :
    ∃ rest, (Fault.slotOutOfRange slots index).message = "index out of bounds" ++ rest := by
  refine ⟨": the len is " ++ toString slots ++ " but the index is " ++ toString index, ?_⟩
  have hsplit : "index out of bounds: the len is " = "index out of bounds" ++ ": the len is " := by
    decide
  show "index out of bounds: the len is " ++ toString slots ++ " but the index is " ++
    toString index = _
  rw [hsplit]
  simp only [String.append_assoc]

namespace Arena

variable {α : Type}

/-! ## What is known after a run -/

/-- What is known of an arena with a given account after given events. -/
structure Accounted (a : Arena α) (c : Account α) (past : List (Event α)) : Prop where
  /-- The arena is what its account says. -/
  account_eq : a.account = c
  /-- Every index that was handed out is live, or it is free and so only once. -/
  consistent : c.Consistent
  /-- The account is what happened. -/
  recorded : Recorded past c
  /-- The size is the number of live indices. -/
  size_eq : a.size = {i | c.live i ≠ none}.ncard
  /-- Whatever command comes next, its reply and the account after it are told by the account. -/
  keeps : ∀ command : Command α, Keeps (command.run.outcome a) (c.run command)
  /-- Below the slot limit an element is added at the index freed last, if any is free, else at the
  next fresh one.  That index was not live, and no other element changes. -/
  adds : ∀ x i, a.size ≤ Handle.maxIndex → c.freed.headD c.fresh = i →
    c.live i = none ∧ ∃ a', (Command.allocate x).run.outcome a = (.ok (.number i), a') ∧
      ∀ j, a'.account.live j = if j = i then some x else c.live j
  /-- Using an index answers with an element if and only if it is the live one there. -/
  yields : ∀ access i (command : Command α), command.Uses access i →
    ∀ x, (command.run.outcome a).1 = .ok (.element x) ↔ c.live i = some x
  /-- An index that was never handed out since all slots were dropped last is out of bounds. -/
  refuses_fresh : ∀ access i (command : Command α), command.Uses access i → c.fresh ≤ i →
    i ≤ Handle.maxIndex → command.run.outcome a = (.error (.slotOutOfRange c.fresh i), a) ∧
      ∃ rest, (Fault.slotOutOfRange c.fresh i).message = "index out of bounds" ++ rest
  /-- A handle of a free index is invalid. -/
  refuses_freed : ∀ access i (command : Command α), command.Uses access i → i ∈ c.freed →
    command.run.outcome a = (.error (.vacantSlot access), a) ∧
      ∃ site, (Fault.vacantSlot access).message = site ++ "`handle` is invalid!"
  /-- A number that no handle has fails before the arena is asked. -/
  refuses_large : ∀ access i (command : Command α), command.Uses access i →
    Handle.maxIndex < i → command.run.outcome a = (.error .handleTooLarge, a)
  /-- A command that fails leaves slots, freed handles and capacity exactly as they were. -/
  unchanged : ∀ (command : Command α) e a', command.run.outcome a = (.error e, a') → a' = a
  /-- A second release of one index fails, and does not free it again. -/
  release_again : ∀ i x a', (Command.release i).run.outcome a = (.ok (.element x), a') →
    (Command.release i).run.outcome a' = (.error (.vacantSlot .release), a')

theorem Sound.accounted {a : Arena α} (ha : a.Sound) {past : List (Event α)}
    (hr : Recorded past a.account) : Accounted a a.account past where
  account_eq := rfl
  consistent := ha.consistent
  recorded := hr
  size_eq := ha.size_eq_ncard
  keeps command := (ha.run_account command).1
  adds x _ hroom hi := ha.adds hroom x hi
  yields _ _ _ hu x := ha.yields hu x
  refuses_fresh access _ _ hu hi hle :=
    ⟨ha.refuses hu (ha.consistent.demand_of_fresh hi hle access),
      Fault.message_slotOutOfRange _ _⟩
  refuses_freed access _ _ hu hi :=
    ⟨ha.refuses hu (ha.consistent.demand_of_freed hi access), Fault.message_vacantSlot access⟩
  refuses_large _ _ _ hu hlt := ha.refuses hu (if_pos hlt)
  unchanged _ _ _ hout := Command.run_eq_error (Edit.outcome_eq_error.1 hout)
  release_again _ _ _ hout := ha.release_again hout

/-- **After any run** from an arena without slots, with storage for any number of them, the replies
were those of the account that starts empty, and the arena is what that account and the events of the
run say of it.  The commands may name any indices, and those that fail are in the run as well. -/
theorem accounted_after (capacity : Nat) (commands : List (Command α)) :
    let start : Arena α := ⟨#[], #[], capacity⟩
    let said := Account.runAll commands Account.empty
    let ended := Command.runAll commands start
    List.Forall₂ (fun reply? reply => ∀ r ∈ reply?, reply = r) said.1 ended.1 ∧
      Accounted ended.2 said.2 (commands.zip ended.1) := by
  intro start said ended
  have hsound : start.Sound := sound_of_slots_eq_empty rfl rfl
  have hempty : start.account = Account.empty := by simp [start, account, Account.empty]
  obtain ⟨hreplies, haccount, hended⟩ := hsound.runAll_account commands
  have hrecorded := hsound.recorded_runAll (hempty ▸ recorded_empty) commands
  rw [hempty] at hreplies haccount
  exact ⟨hreplies, haccount ▸ hended.accounted hrecorded⟩

/-- Index 0 is released twice and then handed out again, once. -/
example : (Command.runAll [.allocate 5, .allocate 6, .release 0, .release 0, .allocate 7, .allocate 8,
    .get 0, .get 3] (empty : Arena Nat)).1 =
    [.ok (.number 0), .ok (.number 1), .ok (.element 5), .error (.vacantSlot .release),
      .ok (.number 0), .ok (.number 2), .ok (.element 7), .error (.slotOutOfRange 3 3)] := by
  rfl

end Arena

end RankedMap
