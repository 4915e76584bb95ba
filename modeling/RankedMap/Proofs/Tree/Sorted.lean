import RankedMap.OrdMap.Command
import RankedMap.Proofs.Tree.Sequence

/-!
# Searching a tree whose keys ascend

When the keys of a tree ascend by a lawful comparison, the place where a search ends parts the
entries: the keys before it are smaller, the keys behind it are greater (`parted_of_hit`,
`parted_of_miss`).  The operations of `Listing` look for such a place from the front, and what each
does on a listing that is parted so is said once for a hit and once for a miss.  Put together, the
operations on trees and on listings agree (`toList_insert`, `toList_extract`, `find?_eq`), and the
keys keep ascending.

The comparison has to be transitive and the same both ways round, no more: keys that compare the
same may be different keys.
-/

set_option autoImplicit false

namespace RankedMap

open Std

variable {K V : Type} {cmp : K → K → Ordering} {key : K} {value : V} {e : K × V}

/-! ## Parted listings -/

namespace Listing

variable {as bs es : Listing K V}

/-- A key belongs between two listings: after all keys of the first, before all of the second. -/
structure Parts (cmp : K → K → Ordering) (key : K) (as bs : Listing K V) : Prop where
  /-- The keys of the first listing are smaller. -/
  before : ∀ a ∈ as, cmp key a.1 = .gt
  /-- The keys of the second one are greater. -/
  behind : ∀ b ∈ bs, cmp key b.1 = .lt

theorem sorted_append :
    Sorted cmp (as ++ bs) ↔
      Sorted cmp as ∧ Sorted cmp bs ∧ ∀ a ∈ as, ∀ b ∈ bs, cmp a.1 b.1 = .lt :=
  List.pairwise_append

theorem sorted_cons :
    Sorted cmp (e :: es) ↔ (∀ b ∈ es, cmp e.1 b.1 = .lt) ∧ Sorted cmp es :=
  List.pairwise_cons

/-- Only keys count. -/
theorem sorted_iff_of_map_eq {es es' : Listing K V} (h : es.map Prod.fst = es'.map Prod.fst) :
    Sorted cmp es ↔ Sorted cmp es' := by
  have hmap : ∀ xs : Listing K V,
      Sorted cmp xs ↔ (xs.map Prod.fst).Pairwise fun a b => cmp a b = .lt := fun xs =>
    (List.pairwise_map (f := Prod.fst) (R := fun a b => cmp a b = .lt)).symm
  rw [hmap, h, ← hmap]

/-- Storing another value leaves the keys ascending. -/
theorem sorted_replaceAt (rank : Nat) (value : V) (hs : Sorted cmp es) :
    Sorted cmp (replaceAt rank value es) := by
  refine (sorted_iff_of_map_eq (List.ext_getElem? ?_)).2 hs
  intro j
  simp only [replaceAt, List.getElem?_map, List.getElem?_modify]
  split <;> cases es[j]? <;> rfl

/-! ### On a hit -/

namespace Parts

theorem find?_hit (hp : Parts cmp key as bs) (he : cmp key e.1 = .eq) :
    find? cmp key (as ++ e :: bs) = some e := by
  have has : List.find? (fun e => cmp key e.1 == .eq) as = none :=
    List.find?_eq_none.2 fun a ha => by simp [hp.before a ha]
  rw [find?, List.find?_append, has, Option.none_or, List.find?_cons_of_pos (by simp [he])]

theorem rank?_hit (hp : Parts cmp key as bs) (he : cmp key e.1 = .eq) :
    rank? cmp key (as ++ e :: bs) = some as.length := by
  have has : as.findIdx? (fun e => cmp key e.1 == .eq) = none :=
    List.findIdx?_eq_none_iff.2 fun a ha => by simp [hp.before a ha]
  rw [rank?, List.findIdx?_append, has]
  simp [List.findIdx?_cons, he]

theorem insert_hit (hp : Parts cmp key as bs) (he : cmp key e.1 = .eq) :
    insert cmp key value (as ++ e :: bs) = as ++ (e.1, value) :: bs := by
  have has := hp.before
  induction as with
  | nil => simp only [List.nil_append, insert, he]
  | cons a as ih =>
    simp only [List.cons_append, insert, has a (.head _)]
    rw [ih ⟨fun b hb => has b (.tail _ hb), hp.behind⟩ fun b hb => has b (.tail _ hb)]

theorem erase_hit (hp : Parts cmp key as bs) (he : cmp key e.1 = .eq) :
    erase cmp key (as ++ e :: bs) = as ++ bs := by
  rw [erase, List.eraseP_append_right _ fun a ha => by simp [hp.before a ha],
    List.eraseP_cons_of_pos (by simp [he])]

/-! ### On a miss -/

theorem find?_miss (hp : Parts cmp key as bs) : find? cmp key (as ++ bs) = none := by
  rw [find?, List.find?_eq_none]
  intro a ha
  rcases List.mem_append.1 ha with ha | ha
  · simp [hp.before a ha]
  · simp [hp.behind a ha]

theorem rank?_miss (hp : Parts cmp key as bs) : rank? cmp key (as ++ bs) = none := by
  rw [rank?, List.findIdx?_eq_none_iff]
  intro a ha
  rcases List.mem_append.1 ha with ha | ha
  · simp [hp.before a ha]
  · simp [hp.behind a ha]

theorem insert_miss (hp : Parts cmp key as bs) :
    insert cmp key value (as ++ bs) = as ++ (key, value) :: bs := by
  have has := hp.before
  induction as with
  | nil =>
    cases bs with
    | nil => rfl
    | cons b bs => simp only [List.nil_append, insert, hp.behind b (.head _)]
  | cons a as ih =>
    simp only [List.cons_append, insert, has a (.head _)]
    rw [ih ⟨fun b hb => has b (.tail _ hb), hp.behind⟩ fun b hb => has b (.tail _ hb)]

theorem erase_miss (hp : Parts cmp key as bs) : erase cmp key (as ++ bs) = as ++ bs := by
  refine List.eraseP_of_forall_not ?_
  intro a ha
  rcases List.mem_append.1 ha with ha | ha
  · simp [hp.before a ha]
  · simp [hp.behind a ha]

/-- What is behind a greater key is behind too. -/
theorem behind_append [TransCmp cmp] {k : K} {v : V} {cs : Listing K V} (hp : Parts cmp key as bs)
    (hc : cmp key k = .lt) (hcs : ∀ c ∈ cs, cmp k c.1 = .lt) :
    ∀ b ∈ bs ++ (k, v) :: cs, cmp key b.1 = .lt := by
  intro b hb
  rw [List.mem_append, List.mem_cons] at hb
  rcases hb with hb | rfl | hb
  · exact hp.behind b hb
  · exact hc
  · exact TransCmp.lt_trans hc (hcs b hb)

/-- What is before a smaller key is before too. -/
theorem before_append [TransCmp cmp] {k : K} {v : V} {cs : Listing K V} (hp : Parts cmp key as bs)
    (hc : cmp key k = .gt) (hcs : ∀ c ∈ cs, cmp k c.1 = .gt) :
    ∀ a ∈ cs ++ (k, v) :: as, cmp key a.1 = .gt := by
  intro a ha
  rw [List.mem_append, List.mem_cons] at ha
  rcases ha with ha | rfl | ha
  · exact TransCmp.gt_trans hc (hcs a ha)
  · exact hc
  · exact hp.before a ha

/-- A new key keeps the keys ascending. -/
theorem sorted_insert_miss [OrientedCmp cmp] (hp : Parts cmp key as bs)
    (hs : Sorted cmp (as ++ bs)) : Sorted cmp (as ++ (key, value) :: bs) := by
  obtain ⟨has, hbs, hlt⟩ := sorted_append.1 hs
  refine sorted_append.2 ⟨has, sorted_cons.2 ⟨hp.behind, hbs⟩, ?_⟩
  intro a ha b hb
  rcases List.mem_cons.1 hb with rfl | hb
  · exact OrientedCmp.lt_of_gt (hp.before a ha)
  · exact hlt a ha b hb

end Parts

end Listing

/-! ## Trees whose keys ascend -/

namespace Tree

open Listing

variable [TransCmp cmp] {t : Tree K V} {r : Nat}

/-- **On a hit** the entry where the search ends has a key that compares the same, and parts the
others. -/
theorem parted_of_hit (hs : Sorted cmp t.toList) (hp : t.landing cmp key = .hit r) :
    ∃ as e bs, t.toList = as ++ e :: bs ∧ as.length = r ∧ Parts cmp key as bs ∧
      cmp key e.1 = .eq := by
  induction t generalizing r with
  | nil => cases hp
  | node l k v right ihl ihr =>
    rw [toList, sorted_append, sorted_cons] at hs
    obtain ⟨hsl, ⟨hkr, hsr⟩, hlk⟩ := hs
    have hkl : ∀ a ∈ l.toList, cmp k a.1 = .gt := fun a ha =>
      OrientedCmp.gt_of_lt (hlk a ha (k, v) (.head _))
    simp only [landing] at hp
    rw [toList]
    cases hc : cmp key k with
    | lt =>
      simp only [hc] at hp
      obtain ⟨as, e, bs, hl, hlen, hparts, he⟩ := ihl hsl hp
      refine ⟨as, e, bs ++ (k, v) :: right.toList, by simp [hl], hlen,
        ⟨hparts.before, hparts.behind_append hc hkr⟩, he⟩
    | eq =>
      simp only [hc, Landing.hit.injEq] at hp
      refine ⟨l.toList, (k, v), right.toList, rfl, by rwa [length_toList], ⟨?_, ?_⟩,
        hc⟩
      · intro a ha
        exact TransCmp.gt_of_eq_of_gt hc (hkl a ha)
      · intro b hb
        exact TransCmp.lt_of_eq_of_lt hc (hkr b hb)
    | gt =>
      simp only [hc, Landing.shift_eq_hit] at hp
      obtain ⟨q, hq, rfl⟩ := hp
      obtain ⟨as, e, bs, hr, hlen, hparts, he⟩ := ihr hsr hq
      refine ⟨l.toList ++ (k, v) :: as, e, bs, by simp [hr], by simp [hlen]; omega,
        ⟨hparts.before_append hc hkl, hparts.behind⟩, he⟩

/-- **On a miss** the place where the search ends parts the entries. -/
theorem parted_of_miss (hs : Sorted cmp t.toList) (hp : t.landing cmp key = .miss r) :
    ∃ as bs, t.toList = as ++ bs ∧ as.length = r ∧ Parts cmp key as bs := by
  induction t generalizing r with
  | nil =>
    cases hp
    exact ⟨[], [], rfl, rfl, nofun, nofun⟩
  | node l k v right ihl ihr =>
    rw [toList, sorted_append, sorted_cons] at hs
    obtain ⟨hsl, ⟨hkr, hsr⟩, hlk⟩ := hs
    have hkl : ∀ a ∈ l.toList, cmp k a.1 = .gt := fun a ha =>
      OrientedCmp.gt_of_lt (hlk a ha (k, v) (.head _))
    simp only [landing] at hp
    rw [toList]
    cases hc : cmp key k with
    | lt =>
      simp only [hc] at hp
      obtain ⟨as, bs, hl, hlen, hparts⟩ := ihl hsl hp
      exact ⟨as, bs ++ (k, v) :: right.toList, by simp [hl], hlen,
        ⟨hparts.before, hparts.behind_append hc hkr⟩⟩
    | eq => simp only [hc, reduceCtorEq] at hp
    | gt =>
      simp only [hc, Landing.shift_eq_miss] at hp
      obtain ⟨q, hq, rfl⟩ := hp
      obtain ⟨as, bs, hr, hlen, hparts⟩ := ihr hsr hq
      exact ⟨l.toList ++ (k, v) :: as, bs, by simp [hr], by simp [hlen]; omega,
        ⟨hparts.before_append hc hkl, hparts.behind⟩⟩

/-! ## The operations of trees are those of listings -/

theorem find?_eq (hs : Sorted cmp t.toList) : t.find? cmp key = Listing.find? cmp key t.toList := by
  rw [Tree.find?]
  cases hp : t.landing cmp key with
  | hit r =>
    obtain ⟨as, e, bs, hl, rfl, hparts, he⟩ := parted_of_hit hs hp
    rw [hl, hparts.find?_hit he, Landing.hit?, Option.bind_some]
    simp
  | miss r =>
    obtain ⟨as, bs, hl, -, hparts⟩ := parted_of_miss hs hp
    rw [hl, hparts.find?_miss, Landing.hit?, Option.bind_none]

theorem hit?_landing (hs : Sorted cmp t.toList) :
    (t.landing cmp key).hit? = Listing.rank? cmp key t.toList := by
  cases hp : t.landing cmp key with
  | hit r =>
    obtain ⟨as, e, bs, hl, rfl, hparts, he⟩ := parted_of_hit hs hp
    rw [hl, hparts.rank?_hit he, Landing.hit?]
  | miss r =>
    obtain ⟨as, bs, hl, -, hparts⟩ := parted_of_miss hs hp
    rw [hl, hparts.rank?_miss, Landing.hit?]

/-- **Inserting** into the tree is inserting into the listing. -/
theorem toList_insert (hs : Sorted cmp t.toList) :
    (t.insert cmp key value).1.toList = Listing.insert cmp key value t.toList ∧
      Sorted cmp (t.insert cmp key value).1.toList := by
  cases hp : t.landing cmp key with
  | hit r =>
    rw [(toList_insert_of_hit hp).1]
    refine ⟨?_, sorted_replaceAt r value hs⟩
    obtain ⟨as, e, bs, hl, rfl, hparts, he⟩ := parted_of_hit hs hp
    rw [hl, modify_append_cons, hparts.insert_hit he]
  | miss r =>
    obtain ⟨as, bs, hl, rfl, hparts⟩ := parted_of_miss hs hp
    rw [(toList_insert_of_miss hp).1, hl, insertIdx_append, hparts.insert_miss]
    exact ⟨rfl, hparts.sorted_insert_miss (hl ▸ hs)⟩

/-- **Taking out** of the tree is taking out of the listing. -/
theorem toList_extract (hs : Sorted cmp t.toList) :
    (t.extract cmp key).1.toList = Listing.erase cmp key t.toList ∧
      Sorted cmp (t.extract cmp key).1.toList := by
  cases hp : t.landing cmp key with
  | hit r =>
    rw [(toList_extract_of_hit hp).1]
    refine ⟨?_, hs.sublist (List.eraseIdx_sublist _ _)⟩
    obtain ⟨as, e, bs, hl, rfl, hparts, he⟩ := parted_of_hit hs hp
    rw [hl, hparts.erase_hit he]
    simp [List.eraseIdx_append_of_length_le]
  | miss r =>
    obtain ⟨as, bs, hl, -, hparts⟩ := parted_of_miss hs hp
    rw [(toList_extract_of_miss hp).1]
    exact ⟨by rw [hl, hparts.erase_miss], hs⟩

end Tree

end RankedMap
