import RankedMap.OrdMap.Command
import RankedMap.Proofs.OrdMap.Changes

/-!
# A map as a machine on trees

`Tree.run` answers the commands of a map from a tree as a value, with the textbook operations and
nothing else: no handle, no slot and no record.  Only what a tree cannot know, the room in the
storage of a map, is left open.  `Tree.step` adds the one limit of maps, that there are
no more entries than handles.

A map that embodies a tree follows this machine command by command (`Embodies.step`), whatever
comparison each command comes with, and so does every run (`Embodies.runAll`).  Hence every map that
a run from a new map ends in embodies a tree (`exists_embodies_after`).
-/

set_option autoImplicit false

namespace RankedMap

namespace Tree

variable {K V : Type}

/-- Stores another value under a key, if it is there. -/
def replace (cmp : K → K → Ordering) (key : K) (value : V) (t : Tree K V) : Tree K V :=
  match t.landing cmp key with
  | .hit rank => t.replaceAt rank value
  | .miss _ => t

/-- What a command answers, and the tree after it.  Nothing is said of the capacity of a map. -/
def run (cmp : K → K → Ordering) (t : Tree K V) :
    OrdMap.Command K V → Option (Except Fault (OrdMap.Answer K V)) × Tree K V
  | .renew => (some (.ok .done), nil)
  | .reserve n bytes =>
    if n * bytes ≤ Arena.maxBytes then (some (.ok .done), nil)
    else (some (.error .capacityOverflow), t)
  | .clear => (some (.ok .done), nil)
  | .copy => (some (.ok .done), t)
  | .size => (some (.ok (.number t.size)), t)
  | .isEmpty => (some (.ok (.flag t.toList.isEmpty)), t)
  | .height => (some (.ok (.number t.height)), t)
  | .capacity => (none, t)
  | .first => (some (.ok (.entryOption t.toList.head?)), t)
  | .last => (some (.ok (.entryOption t.toList.getLast?)), t)
  | .value k => (some (.ok (.valueOption ((t.find? cmp k).map (·.2)))), t)
  | .entry k => (some (.ok (.entryOption (t.find? cmp k))), t)
  | .contains k => (some (.ok (.flag (t.find? cmp k).isSome)), t)
  | .rank k => (some (.ok (.rankOption (t.landing cmp k).hit?)), t)
  | .entryAt r => (some (.ok (.entryOption t.toList[r]?)), t)
  | .get k => (some (Listing.demand .keyNotFound ((t.find? cmp k).map (·.2))), t)
  | .getAt r => (some (Listing.demand .rankOutOfBounds (t.toList[r.position]?.map (·.2))), t)
  | .replace k v => (some (.ok (.valueOption ((t.find? cmp k).map (·.2)))), t.replace cmp k v)
  | .replaceAt r v => (some (.ok (.entryOption t.toList[r]?)), t.replaceAt r v)
  | .setAt r v =>
    (some (Listing.demand .rankOutOfBounds (t.toList[r.position]?.map (·.2))),
      t.replaceAt r.position v)
  | .insert k v => (some (.ok (.valueOption (t.insert cmp k v).2)), (t.insert cmp k v).1)
  | .erase k =>
    (some (.ok (.valueOption ((t.extract cmp k).2.map (·.2)))), (t.extract cmp k).1)
  | .extract k => (some (.ok (.entryOption (t.extract cmp k).2)), (t.extract cmp k).1)

/-- Does the command insert an entry for which no handle is left? -/
def refuses (cmp : K → K → Ordering) (t : Tree K V) : OrdMap.Command K V → Bool
  | .insert k _ => t.size == Size.maxCount && (t.find? cmp k).isNone
  | _ => false

/-- What a command answers, and the tree after it, within the limit of maps. -/
def step (cmp : K → K → Ordering) (t : Tree K V) (command : OrdMap.Command K V) :
    Option (Except Fault (OrdMap.Answer K V)) × Tree K V :=
  if t.refuses cmp command then (some (.error .arenaFull), t) else t.run cmp command

/-- The machine run by commands one after the other. -/
def runAll : List ((K → K → Ordering) × OrdMap.Command K V) → Tree K V →
    List (Option (Except Fault (OrdMap.Answer K V))) × Tree K V
  | [], t => ([], t)
  | (cmp, command) :: rest, t =>
    let (answer, t) := t.step cmp command
    let (answers, t) := runAll rest t
    (answer :: answers, t)

end Tree

namespace OrdMap

variable {K V α : Type}

/-- A map with room for some entries can be made where memory can have that room. -/
theorem emptyWithCapacity_eq_ok {n bytes : Nat} {m : OrdMap K V} :
    emptyWithCapacity n bytes = .ok m ↔
      n * bytes ≤ Arena.maxBytes ∧ m = ⟨⟨#[], #[], n⟩, none⟩ := by
  rw [emptyWithCapacity, Arena.emptyWithCapacity]
  split
  · rename_i hn
    exact ⟨fun h => ⟨hn, (Except.ok.inj h).symm⟩, fun h => congrArg Except.ok h.2.symm⟩
  · rename_i hn
    exact ⟨nofun, fun h => absurd h.1 hn⟩

/-- Room that memory can have can be reserved. -/
theorem Command.run_reserve_of_le {n bytes : Nat} (hn : n * bytes ≤ Arena.maxBytes)
    (cmp : K → K → Ordering) (m : OrdMap K V) :
    (reserve n bytes).run cmp m = .ok .done ⟨⟨#[], #[], n⟩, none⟩ := by
  simp only [run, Edit.bind_apply, Edit.read_apply, emptyWithCapacity_eq_ok.2 ⟨hn, rfl⟩]
  rfl

/-- More cannot. -/
theorem Command.run_reserve_of_gt {n bytes : Nat} (hn : ¬n * bytes ≤ Arena.maxBytes)
    (cmp : K → K → Ordering) (m : OrdMap K V) :
    (reserve n bytes).run cmp m = .error .capacityOverflow m := by
  simp only [run, Edit.bind_apply, Edit.read_apply, emptyWithCapacity, Arena.emptyWithCapacity,
    if_neg hn]
  rfl

/-- The answer and the map that a command ended in are those of the machine, as far as it says. -/
def Follows (ended : Except Fault (Answer K V) × OrdMap K V)
    (said : Option (Except Fault (Answer K V)) × Tree K V) : Prop :=
  (∀ answer ∈ said.1, ended.1 = answer) ∧ ∃ t, ended.2.Embodies t ∧ t.bare = said.2

/-- The answers are what was said, wherever something was said. -/
def Meets (said : List (Option (Except Fault (Answer K V))))
    (answers : List (Except Fault (Answer K V))) : Prop :=
  List.Forall₂ (fun said answer => ∀ a ∈ said, answer = a) said answers

namespace Embodies

variable {m m' : OrdMap K V} {t : Placed K V}

theorem follows_ok (hm' : m'.Embodies t) (answer : α → Answer K V) {change : Edit (OrdMap K V) α}
    {a : α} (hrun : change m = .ok a m') :
    Follows ((do return answer (← change) : Edit (OrdMap K V) _).outcome m)
      (some (.ok (answer a)), t.bare) := by
  simp only [Edit.outcome, Edit.bind_apply, hrun, Edit.pure_apply]
  exact ⟨fun _ h => Option.some.inj h, t, hm', rfl⟩

theorem follows_error (hm' : m'.Embodies t) (answer : α → Answer K V)
    {change : Edit (OrdMap K V) α} {e : Fault} (hrun : change m = .error e m') :
    Follows ((do return answer (← change) : Edit (OrdMap K V) _).outcome m)
      (some (.error e), t.bare) := by
  simp only [Edit.outcome, Edit.bind_apply, hrun]
  exact ⟨fun _ h => Option.some.inj h, t, hm', rfl⟩

/-- A question. -/
theorem follows_read (hm : m.Embodies t) (answer : α → Answer K V)
    {question : OrdMap K V → Except Fault α} {a : α} (hq : question m = .ok a) :
    Follows ((do return answer (← Edit.read question) : Edit (OrdMap K V) _).outcome m)
      (some (.ok (answer a)), t.bare) :=
  hm.follows_ok answer (Edit.read_eq_ok.2 ⟨hq, rfl⟩)

/-- A change that demands a value. -/
theorem follows_demand (hm' : m'.Embodies t) {change : Edit (OrdMap K V) V} {o : Option V}
    {fault : Fault} (hrun : change.outcome m = (o.elim (.error fault) .ok, m')) :
    Follows ((do return .value (← change) : Edit (OrdMap K V) _).outcome m)
      (some (Listing.demand fault o), t.bare) := by
  cases o with
  | none => exact hm'.follows_error .value (Edit.outcome_eq_error.1 hrun)
  | some v => exact hm'.follows_ok .value (Edit.outcome_eq_ok.1 hrun)

/-- An insertion that is not refused, on a hit or on a miss. -/
theorem insert (hm : m.Embodies t) {cmp : K → K → Ordering} {key : K} {value : V}
    (hr : t.bare.refuses cmp (.insert key value) = false) :
    ∃ m' t', OrdMap.insert cmp key value m = .ok (t.bare.insert cmp key value).2 m' ∧
      m'.Embodies t' ∧ t'.bare = (t.bare.insert cmp key value).1 := by
  cases hp : t.bare.landing cmp key with
  | hit rank => exact hm.insert_of_hit hp
  | miss rank =>
    refine hm.insert_of_miss hp (Nat.lt_of_le_of_ne hm.size_le fun hfull => ?_)
    simp [Tree.refuses, Tree.find?, hp, Landing.hit?, hfull] at hr

theorem insert_refused (hm : m.Embodies t) {cmp : K → K → Ordering} {key : K} {value : V}
    (hr : t.bare.refuses cmp (.insert key value) = true) :
    OrdMap.insert cmp key value m = .error .arenaFull m := by
  simp only [Tree.refuses, Bool.and_eq_true, beq_iff_eq, Option.isNone_iff_eq_none,
    Tree.size_bare] at hr
  obtain ⟨rank, hp⟩ := Tree.exists_miss_of_find?_eq_none hr.2
  exact hm.insert_of_full hp hr.1

/-- **A command that is not refused** does to the map what it does to the tree. -/
theorem run (hm : m.Embodies t) (cmp : K → K → Ordering) (command : Command K V)
    (hr : t.bare.refuses cmp command = false) :
    Follows ((command.run cmp).outcome m) (t.bare.run cmp command) := by
  cases command with
  | renew => exact ⟨fun _ h => Option.some.inj h, .nil, embodies_nil rfl rfl rfl, rfl⟩
  | reserve n bytes =>
    by_cases hn : n * bytes ≤ Arena.maxBytes
    · rw [Edit.outcome_eq_ok.2 (Command.run_reserve_of_le hn cmp m), Tree.run, if_pos hn]
      exact ⟨fun _ h => Option.some.inj h, .nil, embodies_nil rfl rfl rfl, rfl⟩
    · rw [Edit.outcome_eq_error.2 (Command.run_reserve_of_gt hn cmp m), Tree.run, if_neg hn]
      exact ⟨fun _ h => Option.some.inj h, t, hm, rfl⟩
  | clear => exact ⟨fun _ h => Option.some.inj h, .nil, embodies_nil rfl rfl rfl, rfl⟩
  | copy => exact ⟨fun _ h => Option.some.inj h, t, hm.copy, rfl⟩
  | size => exact hm.follows_read .number hm.size_eq
  | isEmpty => exact hm.follows_read .flag (congrArg Except.ok hm.isEmpty_eq)
  | height => exact hm.follows_read .number hm.height_eq
  | capacity => exact ⟨nofun, t, hm, rfl⟩
  | first => exact hm.follows_read .entryOption hm.first?_eq
  | last => exact hm.follows_read .entryOption hm.last?_eq
  | value k => exact hm.follows_read .valueOption hm.get?_eq
  | entry k => exact hm.follows_read .entryOption hm.find?_eq
  | contains k => exact hm.follows_read .flag hm.contains_eq
  | rank k => exact hm.follows_read .rankOption hm.rank?_eq
  | entryAt r => exact hm.follows_read .entryOption (hm.entryAt?_eq r)
  | get k => exact hm.follows_demand (by rw [Edit.outcome_read, hm.get_eq])
  | getAt r => exact hm.follows_demand (by rw [Edit.outcome_read, hm.getAt_eq])
  | replace k v =>
    cases hp : t.bare.landing cmp k with
    | hit rank =>
      obtain ⟨m', hok, hm'⟩ := hm.replace_of_hit hp
      simp only [Tree.run, Tree.replace, hp, Tree.replaceAt_bare]
      exact hm'.follows_ok .valueOption hok
    | miss rank =>
      simp only [Tree.run, Tree.replace, hp]
      exact hm.follows_ok .valueOption (hm.replace_of_miss hp)
  | replaceAt r v =>
    obtain ⟨m', hok, hm'⟩ := hm.replaceAt r v
    rw [Tree.run, Tree.replaceAt_bare]
    exact hm'.follows_ok .entryOption hok
  | setAt r v =>
    obtain ⟨m', hok, hm'⟩ := hm.setAt r v
    rw [Tree.run, Tree.replaceAt_bare]
    exact hm'.follows_demand hok
  | insert k v =>
    obtain ⟨m', t', hok, hm', ht'⟩ := hm.insert hr
    rw [Tree.run, ← ht']
    exact hm'.follows_ok .valueOption hok
  | erase k =>
    obtain ⟨m', t', hok, hm', ht'⟩ := hm.erase cmp k
    rw [Tree.run, ← ht']
    exact hm'.follows_ok .valueOption hok
  | extract k =>
    obtain ⟨m', t', hok, hm', ht'⟩ := hm.extract cmp k
    rw [Tree.run, ← ht']
    exact hm'.follows_ok .entryOption hok

/-- **One command**: a map that embodies a tree follows the machine. -/
theorem step (hm : m.Embodies t) (cmp : K → K → Ordering) (command : Command K V) :
    Follows ((command.run cmp).outcome m) (t.bare.step cmp command) := by
  rw [Tree.step]
  cases hr : t.bare.refuses cmp command with
  | false => exact hm.run cmp command hr
  | true =>
    cases command with
    | insert k v => exact hm.follows_error .valueOption (hm.insert_refused hr)
    | _ => cases hr

/-- **A whole run**: so do any number of commands, each with a comparison of its own. -/
theorem runAll (hm : m.Embodies t) (commands : List ((K → K → Ordering) × Command K V)) :
    Meets (t.bare.runAll commands).1 (Command.runAll commands m).1 ∧
      ∃ t', (Command.runAll commands m).2.Embodies t' ∧ t'.bare = (t.bare.runAll commands).2 := by
  induction commands generalizing m t with
  | nil => exact ⟨.nil, t, hm, rfl⟩
  | cons c rest ih =>
    obtain ⟨cmp, command⟩ := c
    obtain ⟨hanswer, t₁, hm₁, ht₁⟩ := hm.step cmp command
    obtain ⟨hanswers, t₂, hm₂, ht₂⟩ := ih hm₁
    rw [ht₁] at hanswers ht₂
    exact ⟨.cons hanswer hanswers, t₂, hm₂, ht₂⟩

end Embodies

/-- A map without entries embodies the empty tree. -/
theorem embodies_empty : (empty : OrdMap K V).Embodies .nil := embodies_nil rfl rfl rfl

/-- The map that a run from a new map ends in. -/
def after (commands : List ((K → K → Ordering) × Command K V)) : OrdMap K V :=
  (Command.runAll commands empty).2

theorem after_append (before behind : List ((K → K → Ordering) × Command K V)) :
    after (before ++ behind) = (Command.runAll behind (after before)).2 := by
  rw [after, after]
  generalize (empty : OrdMap K V) = m
  induction before generalizing m with
  | nil => rfl
  | cons c rest ih =>
    obtain ⟨cmp, command⟩ := c
    exact ih _

/-- One more command. -/
theorem after_concat (commands : List ((K → K → Ordering) × Command K V))
    (cmp : K → K → Ordering) (command : Command K V) :
    after (commands ++ [(cmp, command)]) = ((command.run cmp).outcome (after commands)).2 :=
  after_append commands [(cmp, command)]

/-- **The invariant**: every map that a run ends in embodies a tree. -/
theorem exists_embodies_after (commands : List ((K → K → Ordering) × Command K V)) :
    ∃ t, (after commands).Embodies t :=
  let ⟨_, t, ht, _⟩ := embodies_empty.runAll commands
  ⟨t, ht⟩

end OrdMap

end RankedMap
