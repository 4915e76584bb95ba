import RankedMap.Tree
import RankedMap.Proofs.Tree.Sides

/-!
# What the operations on trees do to the sequence of entries

An operation on a tree edits its sequence of entries at one position, the one where the search for
the key ends.  On a hit an insertion replaces a value and `extract` drops the entry; on a miss an
insertion puts a new entry there and `extract` leaves all entries alone.  No law of the comparison
is used: the position comes from `Tree.landing`, whatever the comparison answered on the way.

`Tree.find?` is the entry where the search ends, and `Tree.replaceAt` stores a value at a position.
On a hit the keys that the search compares with end in the key of that entry, the only one of them
that compares the same (`path_of_hit`); on a miss none does (`path_of_miss`).

Of a balanced tree more can be said: an insertion on a hit is `Tree.replaceAt`, shape and all
(`fst_insert_of_hit`), and `extract` on a miss gives back the very tree (`extract_of_miss`).
-/

set_option autoImplicit false

namespace RankedMap

/-! ## Editing a list around one element -/

section Lists

variable {α : Type} {as bs : List α} {a : α} {i : Nat}

/-- An edit past one element of a list leaves all up to that element alone. -/
theorem modifyTailIdx_past (f : List α → List α) :
    (as ++ a :: bs).modifyTailIdx (as.length + 1 + i) f = as ++ a :: bs.modifyTailIdx i f := by
  rw [Nat.add_assoc, List.modifyTailIdx_add, Nat.add_comm, List.modifyTailIdx_succ_cons]

theorem getElem?_past : (as ++ a :: bs)[as.length + 1 + i]? = bs[i]? := by
  rw [List.getElem?_append_right (by omega), Nat.add_assoc, Nat.add_sub_cancel_left, Nat.add_comm,
    List.getElem?_cons_succ]

theorem insertIdx_append_of_le (h : i ≤ as.length) (x : α) :
    (as ++ bs).insertIdx i x = as.insertIdx i x ++ bs := by
  induction as generalizing i with
  | nil => simp_all
  | cons a as ih =>
    cases i with
    | zero => rfl
    | succ i => simp [ih (Nat.le_of_succ_le_succ h)]

theorem modify_append_of_lt (h : i < as.length) (f : α → α) :
    (as ++ bs).modify i f = as.modify i f ++ bs := by
  induction as generalizing i with
  | nil => cases h
  | cons a as ih =>
    cases i with
    | zero => rfl
    | succ i => simp [ih (Nat.lt_of_succ_lt_succ h)]

theorem modify_append_cons (f : α → α) :
    (as ++ a :: bs).modify as.length f = as ++ f a :: bs :=
  List.modifyTailIdx_add _ 0 as (a :: bs)

theorem modify_eq_set_of_getElem? (h : as[i]? = some a) (f : α → α) :
    as.modify i f = as.set i (f a) := by
  obtain ⟨hlt, rfl⟩ := List.getElem?_eq_some_iff.1 h
  refine List.ext_getElem? ?_
  intro j
  rw [List.getElem?_modify, List.getElem?_set]
  by_cases hj : i = j
  · subst hj
    simp [hlt]
  · simp [hj]

theorem insertIdx_append (x : α) : (as ++ bs).insertIdx as.length x = as ++ x :: bs :=
  List.modifyTailIdx_add _ 0 as bs

end Lists

theorem Landing.shift_eq_hit {p : Landing} {n r : Nat} :
    p.shift n = .hit r ↔ ∃ q, p = .hit q ∧ r = n + q := by
  cases p <;> simp [shift, eq_comm]

theorem Landing.hit?_eq_some {p : Landing} {r : Nat} : p.hit? = some r ↔ p = .hit r := by
  cases p <;> simp [hit?]

theorem Landing.shift_eq_miss {p : Landing} {n r : Nat} :
    p.shift n = .miss r ↔ ∃ q, p = .miss q ∧ r = n + q := by
  cases p <;> simp [shift, eq_comm]

namespace Tree

variable {K V : Type}

/-- The entry where the search for a key ends, if it ends at an entry. -/
def find? (cmp : K → K → Ordering) (key : K) (t : Tree K V) : Option (K × V) :=
  (t.landing cmp key).hit?.bind fun r => t.toList[r]?

/-- Stores another value at a position that is there. -/
def replaceAt (rank : Nat) (value : V) : Tree K V → Tree K V
  | nil => nil
  | node l k v r =>
    match compare rank l.size with
    | .lt => node (l.replaceAt rank value) k v r
    | .eq => node l k value r
    | .gt => node l k v (r.replaceAt (rank - l.size - 1) value)

variable {cmp : K → K → Ordering} {key : K} {value : V} {t : Tree K V} {r : Nat}

theorem lt_size_of_hit (h : t.landing cmp key = .hit r) : r < t.size := by
  have hr := rank_landing cmp key t
  rwa [h] at hr

theorem le_size_of_miss (h : t.landing cmp key = .miss r) : r ≤ t.size := by
  have hr := rank_landing cmp key t
  rwa [h] at hr

/-- Where no entry is found the search ends between entries. -/
theorem exists_miss_of_find?_eq_none (h : t.find? cmp key = none) :
    ∃ r, t.landing cmp key = .miss r := by
  rw [find?] at h
  cases hp : t.landing cmp key with
  | miss r => exact ⟨r, rfl⟩
  | hit r =>
    rw [hp, Landing.hit?, Option.bind_some, List.getElem?_eq_none_iff, length_toList] at h
    exact absurd (lt_size_of_hit hp) (Nat.not_lt.2 h)

theorem exists_hit_of_find?_eq_some {e : K × V} (h : t.find? cmp key = some e) :
    ∃ r, t.landing cmp key = .hit r := by
  rw [find?] at h
  cases hp : t.landing cmp key with
  | hit r => exact ⟨r, rfl⟩
  | miss r =>
    rw [hp] at h
    cases h

/-! ## The keys that a key is compared with -/

/-- A search that ends at an entry compares the key with that of the entry last, and it is the only
one that compares the same. -/
theorem path_of_hit (h : t.landing cmp key = .hit r) :
    ∃ before e, t.path cmp key = before ++ [e.1] ∧ t.toList[r]? = some e ∧ cmp key e.1 = .eq ∧
      ∀ k ∈ before, cmp key k ≠ .eq := by
  induction t generalizing r with
  | nil => cases h
  | node l k v right ihl ihr =>
    rw [landing] at h
    rw [path, toList]
    cases hc : cmp key k with
    | lt =>
      simp only [hc] at h
      obtain ⟨before, e, hpath, he, heq, hne⟩ := ihl h
      have hlt : r < l.toList.length := by rw [length_toList]; exact lt_size_of_hit h
      refine ⟨k :: before, e, by rw [hpath]; rfl, ?_, heq, ?_⟩
      · rw [List.getElem?_append_left hlt, he]
      · rw [List.forall_mem_cons]
        exact ⟨by simp [hc], hne⟩
    | eq =>
      simp only [hc, Landing.hit.injEq, ← length_toList] at h
      subst h
      exact ⟨[], (k, v), rfl, by simp, hc, List.forall_mem_nil _⟩
    | gt =>
      simp only [hc, Landing.shift_eq_hit] at h
      obtain ⟨q, hq, rfl⟩ := h
      obtain ⟨before, e, hpath, he, heq, hne⟩ := ihr hq
      refine ⟨k :: before, e, by rw [hpath]; rfl, ?_, heq, ?_⟩
      · rw [← length_toList l, getElem?_past, he]
      · rw [List.forall_mem_cons]
        exact ⟨by simp [hc], hne⟩

/-- In a search that ends between entries no key compares the same. -/
theorem path_of_miss (h : t.landing cmp key = .miss r) : ∀ k ∈ t.path cmp key, cmp key k ≠ .eq := by
  induction t generalizing r with
  | nil => nofun
  | node l k v right ihl ihr =>
    rw [landing] at h
    rw [path]
    cases hc : cmp key k with
    | lt =>
      simp only [hc] at h
      rw [List.forall_mem_cons]
      exact ⟨by simp [hc], ihl h⟩
    | eq => simp only [hc, reduceCtorEq] at h
    | gt =>
      simp only [hc, Landing.shift_eq_miss] at h
      obtain ⟨q, hq, -⟩ := h
      rw [List.forall_mem_cons]
      exact ⟨by simp [hc], ihr hq⟩

/-- A key is compared with keys of entries only. -/
theorem exists_mem_of_mem_path {k : K} (h : k ∈ t.path cmp key) : ∃ v, (k, v) ∈ t.toList := by
  induction t with
  | nil => cases h
  | node l k' v right ihl ihr =>
    rw [path] at h
    simp only [toList, List.mem_append, List.mem_cons]
    cases hc : cmp key k' with
    | lt =>
      simp only [hc, List.mem_cons] at h
      obtain rfl | h := h
      · exact ⟨v, .inr (.inl rfl)⟩
      · obtain ⟨w, hw⟩ := ihl h
        exact ⟨w, .inl hw⟩
    | eq =>
      simp only [hc, List.mem_singleton] at h
      subst h
      exact ⟨v, .inr (.inl rfl)⟩
    | gt =>
      simp only [hc, List.mem_cons] at h
      obtain rfl | h := h
      · exact ⟨v, .inr (.inl rfl)⟩
      · obtain ⟨w, hw⟩ := ihr h
        exact ⟨w, .inr (.inr hw)⟩

/-! ## Inserting -/

/-- An insertion on a hit replaces the value there, and answers with the old one. -/
theorem toList_insert_of_hit (h : t.landing cmp key = .hit r) :
    (t.insert cmp key value).1.toList = t.toList.modify r (fun e => (e.1, value)) ∧
      (t.insert cmp key value).2 = t.toList[r]?.map (·.2) := by
  induction t generalizing r with
  | nil => cases h
  | node l k v right ihl ihr =>
    simp only [landing] at h
    simp only [insert]
    cases hc : cmp key k with
    | lt =>
      simp only [hc] at h
      obtain ⟨hlist, hold⟩ := ihl h
      have hr : r < l.toList.length := by rw [length_toList]; exact lt_size_of_hit h
      simp only [toList_balance, toList, modify_append_of_lt hr, List.getElem?_append_left hr]
      exact ⟨by rw [hlist], hold⟩
    | eq =>
      simp only [hc, Landing.hit.injEq, ← length_toList] at h
      subst h
      simp only [toList, modify_append_cons, true_and]
      simp
    | gt =>
      simp only [hc, Landing.shift_eq_hit] at h
      obtain ⟨q, hq, rfl⟩ := h
      obtain ⟨hlist, hold⟩ := ihr hq
      rw [← length_toList l]
      simp only [toList_balance, toList, List.modify, modifyTailIdx_past, getElem?_past]
      exact ⟨by rw [hlist, List.modify], hold⟩

/-- An insertion on a miss puts the entry at the place where the search ends. -/
theorem toList_insert_of_miss (h : t.landing cmp key = .miss r) :
    (t.insert cmp key value).1.toList = t.toList.insertIdx r (key, value) ∧
      (t.insert cmp key value).2 = none := by
  induction t generalizing r with
  | nil =>
    cases h
    exact ⟨rfl, rfl⟩
  | node l k v right ihl ihr =>
    simp only [landing] at h
    simp only [insert]
    cases hc : cmp key k with
    | lt =>
      simp only [hc] at h
      obtain ⟨hlist, hold⟩ := ihl h
      have hr : r ≤ l.toList.length := by rw [length_toList]; exact le_size_of_miss h
      simp only [toList_balance, toList, insertIdx_append_of_le hr]
      exact ⟨by rw [hlist], hold⟩
    | eq => simp only [hc, reduceCtorEq] at h
    | gt =>
      simp only [hc, Landing.shift_eq_miss] at h
      obtain ⟨q, hq, rfl⟩ := h
      obtain ⟨hlist, hold⟩ := ihr hq
      rw [← length_toList l]
      simp only [toList_balance, toList, List.insertIdx, modifyTailIdx_past]
      exact ⟨by rw [hlist, List.insertIdx], hold⟩

theorem snd_insert : (t.insert cmp key value).2 = (t.find? cmp key).map (·.2) := by
  rw [find?]
  cases h : t.landing cmp key with
  | hit r => exact (toList_insert_of_hit h).2
  | miss r => exact (toList_insert_of_miss h).2

/-! ## Taking out -/

theorem toList_extractFirst {t rest : Tree K V} {e : K × V} (h : t.extractFirst = some (e, rest)) :
    t.toList = e :: rest.toList := by
  induction t generalizing rest with
  | nil => cases h
  | node l k v r ihl _ =>
    rw [extractFirst] at h
    cases hf : l.extractFirst with
    | none =>
      rw [hf] at h
      cases h
      rw [extractFirst_eq_none_iff.1 hf]
      rfl
    | some p =>
      obtain ⟨e', l'⟩ := p
      rw [hf] at h
      cases h
      rw [toList, ihl hf, toList_balance]
      rfl

@[simp] theorem toList_join (l r : Tree K V) : (join l r).toList = l.toList ++ r.toList := by
  cases l with
  | nil => rfl
  | node ll k v lr =>
    cases hf : r.extractFirst with
    | none =>
      rw [extractFirst_eq_none_iff.1 hf, join_nil]
      exact (List.append_nil _).symm
    | some p =>
      obtain ⟨⟨key, value⟩, rest⟩ := p
      rw [join_of_some (l := node ll k v lr) nofun hf, toList_balance, toList_extractFirst hf]

/-- On a hit the entry there is taken out, and it is the answer. -/
theorem toList_extract_of_hit (h : t.landing cmp key = .hit r) :
    (t.extract cmp key).1.toList = t.toList.eraseIdx r ∧
      (t.extract cmp key).2 = t.toList[r]? := by
  induction t generalizing r with
  | nil => cases h
  | node l k v right ihl ihr =>
    simp only [landing] at h
    simp only [extract]
    cases hc : cmp key k with
    | lt =>
      simp only [hc] at h
      obtain ⟨hlist, hgone⟩ := ihl h
      have hr : r < l.toList.length := by rw [length_toList]; exact lt_size_of_hit h
      simp only [toList_balance, toList, List.eraseIdx_append_of_lt_length hr,
        List.getElem?_append_left hr]
      exact ⟨by rw [hlist], hgone⟩
    | eq =>
      simp only [hc, Landing.hit.injEq, ← length_toList] at h
      subst h
      simp [toList, List.eraseIdx_append_of_length_le]
    | gt =>
      simp only [hc, Landing.shift_eq_hit] at h
      obtain ⟨q, hq, rfl⟩ := h
      obtain ⟨hlist, hgone⟩ := ihr hq
      rw [← length_toList l]
      simp only [toList_balance, toList, List.eraseIdx_eq_modifyTailIdx, modifyTailIdx_past,
        getElem?_past]
      exact ⟨by rw [hlist, List.eraseIdx_eq_modifyTailIdx], hgone⟩

/-- On a miss nothing is taken out. -/
theorem toList_extract_of_miss (h : t.landing cmp key = .miss r) :
    (t.extract cmp key).1.toList = t.toList ∧ (t.extract cmp key).2 = none := by
  induction t generalizing r with
  | nil => exact ⟨rfl, rfl⟩
  | node l k v right ihl ihr =>
    simp only [landing] at h
    simp only [extract]
    cases hc : cmp key k with
    | lt =>
      simp only [hc] at h
      obtain ⟨hlist, hgone⟩ := ihl h
      exact ⟨by rw [toList_balance, hlist, toList], hgone⟩
    | eq => simp only [hc, reduceCtorEq] at h
    | gt =>
      simp only [hc, Landing.shift_eq_miss] at h
      obtain ⟨q, hq, rfl⟩ := h
      obtain ⟨hlist, hgone⟩ := ihr hq
      exact ⟨by rw [toList_balance, hlist, toList], hgone⟩

theorem snd_extract : (t.extract cmp key).2 = t.find? cmp key := by
  rw [find?]
  cases h : t.landing cmp key with
  | hit r => exact (toList_extract_of_hit h).2
  | miss r => exact (toList_extract_of_miss h).2

/-! ## Replacing a value -/

theorem toList_replaceAt (rank : Nat) (value : V) (t : Tree K V) :
    (t.replaceAt rank value).toList = t.toList.modify rank (fun e => (e.1, value)) := by
  induction t generalizing rank with
  | nil => exact (List.modify_nil _ _).symm
  | node l k v r ihl ihr =>
    rw [replaceAt]
    rcases Nat.lt_trichotomy rank l.size with hlt | rfl | hgt
    · have hr : rank < l.toList.length := by rwa [length_toList]
      simp only [Nat.compare_eq_lt.2 hlt, toList, ihl, modify_append_of_lt hr]
    · simp only [Nat.compare_eq_eq.2, toList]
      rw [← length_toList l, modify_append_cons]
    · obtain ⟨i, rfl⟩ : ∃ i, rank = l.toList.length + 1 + i :=
        ⟨rank - l.size - 1, by rw [length_toList]; omega⟩
      have hi : l.toList.length + 1 + i - l.size - 1 = i := by rw [length_toList]; omega
      simp only [Nat.compare_eq_gt.2 hgt, toList, hi, ihr, List.modify, modifyTailIdx_past]

theorem replaceAt_of_size_le {rank : Nat} (value : V) {t : Tree K V} (h : t.size ≤ rank) :
    t.replaceAt rank value = t := by
  induction t generalizing rank with
  | nil => rfl
  | node l k v r _ ihr =>
    rw [size] at h
    have hgt : l.size < rank := by omega
    have hr : r.size ≤ rank - l.size - 1 := by omega
    simp only [replaceAt, Nat.compare_eq_gt.2 hgt, ihr hr]

@[simp] theorem size_replaceAt (rank : Nat) (value : V) (t : Tree K V) :
    (t.replaceAt rank value).size = t.size := by
  rw [← length_toList, toList_replaceAt, List.length_modify, length_toList]

@[simp] theorem height_replaceAt (rank : Nat) (value : V) (t : Tree K V) :
    (t.replaceAt rank value).height = t.height := by
  induction t generalizing rank with
  | nil => rfl
  | node l k v r ihl ihr =>
    rw [replaceAt]
    cases compare rank l.size <;> simp only [height, ihl, ihr]

theorem balanced_replaceAt (rank : Nat) (value : V) {t : Tree K V} (ht : t.Balanced) :
    (t.replaceAt rank value).Balanced := by
  induction t generalizing rank with
  | nil => trivial
  | node l k v r ihl ihr =>
    obtain ⟨h1, h2, hl, hr⟩ := ht
    rw [replaceAt]
    cases compare rank l.size <;> simp only [Balanced, height_replaceAt]
    · exact ⟨h1, h2, ihl _ hl, hr⟩
    · exact ⟨h1, h2, hl, hr⟩
    · exact ⟨h1, h2, hl, ihr _ hr⟩

/-! ## What is left alone in a balanced tree -/

/-- In a balanced tree an insertion on a hit is the replacement of a value: no height has changed, so
there is nothing to balance on the way back. -/
theorem fst_insert_of_hit (ht : t.Balanced) (h : t.landing cmp key = .hit r) :
    (t.insert cmp key value).1 = t.replaceAt r value := by
  induction t generalizing r with
  | nil => cases h
  | node l k v right ihl ihr =>
    obtain ⟨h1, h2, hl, hr⟩ := ht
    rw [landing] at h
    rw [insert, replaceAt]
    cases hc : cmp key k with
    | lt =>
      simp only [hc] at h
      simp only [Nat.compare_eq_lt.2 (lt_size_of_hit h), ihl hl h]
      exact balance_of_near (by rwa [height_replaceAt]) (by rwa [height_replaceAt])
    | eq =>
      simp only [hc, Landing.hit.injEq] at h
      subst h
      simp only [Nat.compare_eq_eq.2]
    | gt =>
      simp only [hc, Landing.shift_eq_hit] at h
      obtain ⟨q, hq, rfl⟩ := h
      have hlt : l.size < l.size + 1 + q := by omega
      have hsub : l.size + 1 + q - l.size - 1 = q := by omega
      simp only [Nat.compare_eq_gt.2 hlt, hsub, ihr hr hq]
      exact balance_of_near (by rwa [height_replaceAt]) (by rwa [height_replaceAt])

/-- In a balanced tree nothing at all changes when there is nothing to take out. -/
theorem extract_of_miss (ht : t.Balanced) (h : t.landing cmp key = .miss r) :
    t.extract cmp key = (t, none) := by
  induction t generalizing r with
  | nil => rfl
  | node l k v right ihl ihr =>
    obtain ⟨h1, h2, hl, hr⟩ := ht
    rw [landing] at h
    rw [extract]
    cases hc : cmp key k with
    | lt =>
      simp only [hc] at h
      simp only [ihl hl h, balance_of_near h1 h2]
    | eq => simp only [hc, reduceCtorEq] at h
    | gt =>
      simp only [hc, Landing.shift_eq_miss] at h
      obtain ⟨q, hq, -⟩ := h
      simp only [ihr hr hq, balance_of_near h1 h2]

end Tree

end RankedMap
