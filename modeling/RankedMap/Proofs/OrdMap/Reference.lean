import RankedMap.Proofs.OrdMap.Machine
import RankedMap.Proofs.Tree.Sorted

/-!
# Maps answer as sorted listings do

With one lawful comparison throughout, a map cannot be told from the plain list of its entries, kept
in the order of their keys and looked through from the front (`runAll_listing`).  The comparison
need not tell different keys apart: of keys that compare the same, the one that came first is kept.

`Listing.step` adds to `Listing.run` the one limit of maps, that there are no more entries than
handles, so that nothing has to be assumed of how many commands there are.
-/

set_option autoImplicit false

namespace RankedMap

variable {K V : Type} {cmp : K → K → Ordering}

namespace Listing

/-- Does the command insert an entry for which no handle is left? -/
def refuses (cmp : K → K → Ordering) (es : Listing K V) : OrdMap.Command K V → Bool
  | .insert k _ => es.length == Size.maxCount && (find? cmp k es).isNone
  | _ => false

/-- What a command answers, and the listing after it, within the limit of maps. -/
def step (cmp : K → K → Ordering) (es : Listing K V) (command : OrdMap.Command K V) :
    Option (Except Fault (OrdMap.Answer K V)) × Listing K V :=
  if refuses cmp es command then (some (.error .arenaFull), es) else run cmp es command

/-- What commands answer one after the other, and the listing after all of them. -/
def runAll (cmp : K → K → Ordering) : List (OrdMap.Command K V) → Listing K V →
    List (Option (Except Fault (OrdMap.Answer K V))) × Listing K V
  | [], es => ([], es)
  | command :: rest, es =>
    let (answer, es) := step cmp es command
    let (answers, es) := runAll cmp rest es
    (answer :: answers, es)

end Listing

namespace Tree

open Std

variable [TransCmp cmp] {t : Tree K V}

/-- What the machine on trees says of a command, the listing says as well, as far as it says
anything; the entries after it are the listing after it, and their keys ascend. -/
theorem run_listing (hs : Listing.Sorted cmp t.toList) (command : OrdMap.Command K V) :
    (∀ answer ∈ (Listing.run cmp t.toList command).1, (t.run cmp command).1 = some answer) ∧
      (t.run cmp command).2.toList = (Listing.run cmp t.toList command).2 ∧
      Listing.Sorted cmp (t.run cmp command).2.toList := by
  cases command with
  | renew => exact ⟨fun _ h => h, rfl, .nil⟩
  | reserve n bytes =>
    rw [run, Listing.run]
    split
    · exact ⟨fun _ h => h, rfl, .nil⟩
    · exact ⟨fun _ h => h, rfl, hs⟩
  | clear => exact ⟨fun _ h => h, rfl, .nil⟩
  | size =>
    rw [run, Listing.run, length_toList]
    exact ⟨fun _ h => h, rfl, hs⟩
  | value k | entry k | contains k | get k =>
    rw [run, Listing.run, find?_eq hs]
    exact ⟨fun _ h => h, rfl, hs⟩
  | rank k =>
    rw [run, Listing.run, hit?_landing hs]
    exact ⟨fun _ h => h, rfl, hs⟩
  | height | capacity => exact ⟨fun _ h => absurd h (Option.not_mem_none _), rfl, hs⟩
  | copy | isEmpty | first | last | entryAt r | getAt r => exact ⟨fun _ h => h, rfl, hs⟩
  | replace k v =>
    rw [run, Listing.run, find?_eq hs, Listing.replace, ← hit?_landing hs, Tree.replace]
    cases t.landing cmp k with
    | hit rank =>
      refine ⟨fun _ h => h, toList_replaceAt rank v t, ?_⟩
      rw [toList_replaceAt]
      exact Listing.sorted_replaceAt rank v hs
    | miss rank => exact ⟨fun _ h => h, rfl, hs⟩
  | replaceAt r v =>
    rw [run, Listing.run, toList_replaceAt]
    exact ⟨fun _ h => h, rfl, Listing.sorted_replaceAt r v hs⟩
  | setAt r v =>
    rw [run, Listing.run, toList_replaceAt]
    exact ⟨fun _ h => h, rfl, Listing.sorted_replaceAt r.position v hs⟩
  | insert k v =>
    rw [run, Listing.run, snd_insert, find?_eq hs]
    exact ⟨fun _ h => h, toList_insert hs⟩
  | erase k | extract k =>
    rw [run, Listing.run, snd_extract, find?_eq hs]
    exact ⟨fun _ h => h, toList_extract hs⟩

/-- **One command**: within the limit of maps too. -/
theorem step_listing (hs : Listing.Sorted cmp t.toList) (command : OrdMap.Command K V) :
    (∀ answer ∈ (Listing.step cmp t.toList command).1, (t.step cmp command).1 = some answer) ∧
      (t.step cmp command).2.toList = (Listing.step cmp t.toList command).2 ∧
      Listing.Sorted cmp (t.step cmp command).2.toList := by
  have hr : t.refuses cmp command = Listing.refuses cmp t.toList command := by
    cases command with
    | insert k v => rw [refuses, Listing.refuses, find?_eq hs, length_toList]
    | _ => rfl
  rw [step, Listing.step, hr]
  split
  · exact ⟨fun _ h => h, rfl, hs⟩
  · exact run_listing hs command

/-- **A whole run** with one comparison. -/
theorem runAll_listing (hs : Listing.Sorted cmp t.toList)
    (commands : List (OrdMap.Command K V)) :
    List.Forall₂ (fun said answer => ∀ a ∈ said, answer = some a)
        (Listing.runAll cmp commands t.toList).1
        (t.runAll (commands.map fun command => (cmp, command))).1 ∧
      (t.runAll (commands.map fun command => (cmp, command))).2.toList =
        (Listing.runAll cmp commands t.toList).2 ∧
      Listing.Sorted cmp (t.runAll (commands.map fun command => (cmp, command))).2.toList := by
  induction commands generalizing t with
  | nil => exact ⟨.nil, rfl, hs⟩
  | cons command rest ih =>
    obtain ⟨hanswer, hlist, hsorted⟩ := step_listing hs command
    obtain ⟨hanswers, hrest⟩ := ih hsorted
    rw [hlist] at hanswers hrest
    exact ⟨.cons hanswer hanswers, hrest⟩

end Tree

namespace OrdMap

open Std

/-- Who says less than another who is met is met too. -/
theorem Meets.of_forall₂ {said told : List (Option (Except Fault (Answer K V)))}
    {answers : List (Except Fault (Answer K V))} (ht : Meets told answers)
    (hs : List.Forall₂ (fun said told => ∀ a ∈ said, told = some a) said told) :
    Meets said answers := by
  induction hs generalizing answers with
  | nil => exact ht
  | cons hfirst _ ih =>
    cases ht with
    | cons hanswer hrest => exact .cons (fun a ha => hanswer a (hfirst a ha)) (ih hrest)

/-- **A map answers as a sorted listing does.**  With one lawful comparison, every command of a run
from a new map is answered as the listing answers it; and after the run the entries at the positions
from 0 on are the listing, whose keys ascend.

The heights and capacities that a run asks for are the only answers that a listing does not know. -/
theorem runAll_reference [TransCmp cmp] (commands : List (Command K V)) :
    Meets (Listing.runAll cmp commands []).1
        (Command.runAll (commands.map fun command => (cmp, command)) empty).1 ∧
      Listing.Sorted cmp (Listing.runAll cmp commands []).2 ∧
      (after (commands.map fun command => (cmp, command))).size =
        .ok (Listing.runAll cmp commands []).2.length ∧
      ∀ rank, (after (commands.map fun command => (cmp, command))).entryAt? rank =
        .ok (Listing.runAll cmp commands []).2[rank]? := by
  have hnil : Listing.Sorted cmp (Tree.nil : Tree K V).toList := .nil
  obtain ⟨hsaid, hlist, hsorted⟩ := Tree.runAll_listing hnil commands
  obtain ⟨hmeets, t, hm, ht⟩ :=
    embodies_empty.runAll (commands.map fun command => (cmp, command))
  rw [Tree.toList] at hsaid hlist
  rw [hlist] at hsorted
  rw [← hlist, Tree.length_toList]
  refine ⟨hmeets.of_forall₂ hsaid, ?_, ?_, ?_⟩
  · rwa [hlist]
  · rw [after, hm.size_eq, ht]
    rfl
  · intro rank
    rw [after, hm.entryAt?_eq, ht]
    rfl

/-- Of two keys that compare the same the first one is kept, with the value that came last. -/
theorem entryAt?_of_same_keys :
    TransCmp (compareOn (Prod.fst : Nat × Nat → Nat)) ∧
      (after ([.insert (1, 0) 5, .insert (1, 1) 6].map fun command : Command (Nat × Nat) Nat =>
        (compareOn Prod.fst, command))).entryAt? 0 = .ok (some ((1, 0), 6)) :=
  ⟨inferInstance, (runAll_reference [.insert (1, 0) 5, .insert (1, 1) 6]).2.2.2 0⟩

end OrdMap

end RankedMap
