import RankedMap.Proofs.OrdMap.Position
import RankedMap.Proofs.OrdMap.Reference

/-!
# All operations find the same entry

A key is looked for to read its value or its whole entry, to tell its position, to store another
value, to insert it and to take it out.  Each of these goes down the tree by itself, and all of them
end at the same place.  So for every key and every comparison either no operation finds an entry
(`OrdMap.Absent`), or all find the same one, which is also the one at its position
(`OrdMap.Present`).

If there has been one lawful comparison throughout, the position of a key is the number of smaller
keys, and looking up by key and by position undo each other.  The main result `agrees_after` says
both.
-/

set_option autoImplicit false

namespace RankedMap

open Std

variable {K V : Type} {cmp : K → K → Ordering} {key : K} {rank : Nat} {e : K × V}

/-! ## Positions in a tree whose keys ascend -/

namespace Tree

open Listing

variable [TransCmp cmp] {t : Tree K V}

/-- The position of a key is the number of smaller keys. -/
theorem countP_of_hit (hs : Sorted cmp t.toList) (hp : t.landing cmp key = .hit rank) :
    t.toList.countP (fun e => cmp e.1 key == .lt) = rank := by
  obtain ⟨as, e, bs, hl, rfl, hparts, he⟩ := parted_of_hit hs hp
  -- all entries before the hit count, and none from there on
  have hbefore : ∀ a ∈ as, (cmp a.1 key == .lt) = true := by
    intro a ha
    rw [OrientedCmp.lt_of_gt (hparts.before a ha)]
    rfl
  have hbehind : ∀ b ∈ e :: bs, ¬(cmp b.1 key == .lt) = true := by
    intro b hb
    rcases List.mem_cons.1 hb with rfl | hb
    · rw [OrientedCmp.eq_symm he]
      exact Bool.false_ne_true
    · rw [OrientedCmp.gt_of_lt (hparts.behind b hb)]
      exact Bool.false_ne_true
  rw [hl, List.countP_append, List.countP_eq_length.2 hbefore, List.countP_eq_zero.2 hbehind,
    Nat.add_zero]

/-- The search for a stored key ends where it is stored. -/
theorem hit?_of_getElem? (hs : Sorted cmp t.toList) (he : t.toList[rank]? = some e) :
    (t.landing cmp e.1).hit? = some rank := by
  obtain ⟨hlt, hget⟩ := List.getElem?_eq_some_iff.1 he
  have hsplit : t.toList = t.toList.take rank ++ e :: t.toList.drop (rank + 1) := by
    rw [← hget, List.getElem_cons_drop, List.take_append_drop]
  have hlen : (t.toList.take rank).length = rank := List.length_take_of_le hlt.le
  have hs' := hs
  rw [hsplit, sorted_append, sorted_cons] at hs'
  obtain ⟨-, ⟨hbehind, -⟩, hbefore⟩ := hs'
  have hparts : Parts cmp e.1 (t.toList.take rank) (t.toList.drop (rank + 1)) :=
    ⟨fun a ha => OrientedCmp.gt_of_lt (hbefore a ha e (.head _)), hbehind⟩
  rw [hit?_landing hs, hsplit, hparts.rank?_hit ReflCmp.compare_self, hlen]

end Tree

namespace OrdMap

/-! ## Absent or present -/

/-- No operation finds an entry with the key. -/
structure Absent (m : OrdMap K V) (cmp : K → K → Ordering) (key : K) (value : V) : Prop where
  /-- There is none. -/
  contains_eq : m.contains cmp key = .ok false
  /-- No entry can be read. -/
  find?_eq : m.find? cmp key = .ok none
  /-- No value can be read. -/
  get?_eq : m.get? cmp key = .ok none
  /-- A demand for the value fails. -/
  get_eq : m.get cmp key = .error .keyNotFound
  /-- The key has no position. -/
  rank?_eq : m.rank? cmp key = .ok none
  /-- No value can be stored under the key. -/
  replace_eq : OrdMap.replace cmp key value m = .ok none m
  /-- An insertion replaces nothing, if there is a handle for a new entry. -/
  insert_eq : ∀ n, m.size = .ok n → n < Size.maxCount →
    ∃ m', OrdMap.insert cmp key value m = .ok none m'
  /-- No value is taken out. -/
  erase_eq : ∃ m', OrdMap.erase cmp key m = .ok none m'
  /-- No entry is taken out. -/
  extract_eq : ∃ m', OrdMap.extract cmp key m = .ok none m'

/-- All operations find the entry `e` with the key, and it is the entry at position `rank`. -/
structure Present (m : OrdMap K V) (cmp : K → K → Ordering) (key : K) (value : V) (rank : Nat)
    (e : K × V) : Prop where
  /-- The position is inside the map. -/
  rank_lt : ∃ n, m.size = .ok n ∧ rank < n
  /-- It is the position of the key. -/
  rank?_eq : m.rank? cmp key = .ok (some rank)
  /-- The entry is there. -/
  entryAt?_eq : m.entryAt? rank = .ok (some e)
  /-- There is an entry with the key. -/
  contains_eq : m.contains cmp key = .ok true
  /-- It can be read. -/
  find?_eq : m.find? cmp key = .ok (some e)
  /-- Its value can be read. -/
  get?_eq : m.get? cmp key = .ok (some e.2)
  /-- A demand for the value is met. -/
  get_eq : m.get cmp key = .ok e.2
  /-- Storing another value answers with its value. -/
  replace_eq : ∃ m', OrdMap.replace cmp key value m = .ok (some e.2) m'
  /-- So does inserting. -/
  insert_eq : ∃ m', OrdMap.insert cmp key value m = .ok (some e.2) m'
  /-- Its value is taken out. -/
  erase_eq : ∃ m', OrdMap.erase cmp key m = .ok (some e.2) m'
  /-- The whole of it is taken out. -/
  extract_eq : ∃ m', OrdMap.extract cmp key m = .ok (some e) m'

namespace Embodies

variable {m : OrdMap K V} {t : Placed K V}

theorem absent (hm : m.Embodies t) (hh : m.Misses cmp key rank) (value : V) :
    m.Absent cmp key value := by
  have hp := hm.landing_of_misses hh
  have hf : t.bare.find? cmp key = none := by
    rw [Tree.find?, hp]
    rfl
  refine ⟨?_, ?_, ?_, ?_, ?_, ?_, ?_, ?_, ?_⟩
  · rw [hm.contains_eq, hf]
    rfl
  · rw [hm.find?_eq, hf]
  · rw [hm.get?_eq, hf]
    rfl
  · rw [hm.get_eq, hf]
    rfl
  · rw [hm.rank?_eq, hp]
    rfl
  · rw [hm.replace_of_miss hp, hf]
    rfl
  · intro n hn hroom
    rw [hm.size_eq, Tree.size_bare, Except.ok.injEq] at hn
    obtain ⟨m', hok, -⟩ := hm.insert_misses hh value (hn ▸ hroom)
    exact ⟨m', hok⟩
  · obtain ⟨m', t', hok, -⟩ := hm.erase cmp key
    rw [Tree.snd_extract, hf] at hok
    exact ⟨m', hok⟩
  · obtain ⟨m', hok, -⟩ := hm.extract_misses hh
    exact ⟨m', hok⟩

theorem present (hm : m.Embodies t) (hh : m.Hits cmp key rank e) (value : V) :
    m.Present cmp key value rank e := by
  obtain ⟨hp, he⟩ := hm.landing_of_hits hh
  have hf : t.bare.find? cmp key = some e := by
    rw [Tree.find?, hp]
    exact he
  have hv : (t.bare.find? cmp key).map (·.2) = some e.2 := congrArg (Option.map (·.2)) hf
  refine ⟨⟨_, hm.size_eq, Tree.lt_size_of_hit hp⟩, ?_, ?_, ?_, ?_, ?_, ?_, ?_, ?_, ?_, ?_⟩
  · rw [hm.rank?_eq, hp]
    rfl
  · rw [hm.entryAt?_eq, he]
  · rw [hm.contains_eq, hf]
    rfl
  · rw [hm.find?_eq, hf]
  · rw [hm.get?_eq, hv]
  · rw [hm.get_eq, hv]
    rfl
  · rw [← hv]
    exact (hm.replace_of_hit hp).imp fun _ h => h.1
  · obtain ⟨m', hok, -⟩ := hm.insert_hits hh value
    exact ⟨m', hok⟩
  · obtain ⟨m', t', hok, -⟩ := hm.erase cmp key
    rw [Tree.snd_extract, hv] at hok
    exact ⟨m', hok⟩
  · obtain ⟨m', hok, -⟩ := hm.extract_hits hh
    exact ⟨m', hok⟩

end Embodies

/-! ## One lawful comparison -/

/-- With one lawful comparison throughout, the keys of a map ascend. -/
theorem exists_sorted_after [TransCmp cmp] {commands : List ((K → K → Ordering) × Command K V)}
    (hc : ∀ c ∈ commands, c.1 = cmp) :
    ∃ t, (after commands).Embodies t ∧ Listing.Sorted cmp t.bare.toList := by
  have hmap : (commands.map Prod.snd).map (fun command => (cmp, command)) = commands := by
    rw [List.map_map]
    refine (List.map_congr_left ?_).trans (List.map_id commands)
    intro c hmem
    rw [← hc c hmem]
    rfl
  have hnil : Listing.Sorted cmp (Tree.nil : Tree K V).toList := .nil
  have hsorted := (Tree.runAll_listing hnil (commands.map Prod.snd)).2.2
  obtain ⟨-, t, hm, ht⟩ := embodies_empty.runAll commands
  rw [hmap] at hsorted
  exact ⟨t, hm, ht ▸ hsorted⟩

/-- **All operations find the same entry.**  After any run, whatever the comparisons were, either no
operation finds an entry with the key or all find the same one.  If all commands came with one lawful
comparison, the position of a key is the number of smaller keys, and it is found again by the key at
that position. -/
theorem agrees_after (commands : List ((K → K → Ordering) × Command K V)) :
    (∀ cmp key value, (after commands).Absent cmp key value ∨
      ∃ rank e, (after commands).Present cmp key value rank e) ∧
    ∀ (cmp : K → K → Ordering) [TransCmp cmp], (∀ c ∈ commands, c.1 = cmp) →
      ∃ es, (after commands).Lists es ∧ (after commands).size = .ok es.length ∧
        (∀ key rank, (after commands).rank? cmp key = .ok (some rank) →
          es.countP (fun e => cmp e.1 key == .lt) = rank) ∧
        ∀ rank < es.length, ∃ e, (after commands).entryAt? rank = .ok (some e) ∧
          (after commands).rank? cmp e.1 = .ok (some rank) := by
  constructor
  · intro cmp key value
    obtain ⟨t, hm⟩ := exists_embodies_after commands
    cases hp : t.bare.landing cmp key with
    | miss rank => exact .inl (hm.absent (hm.misses_of_landing hp) value)
    | hit rank =>
      obtain ⟨e, hh⟩ := hm.hits_of_landing hp
      exact .inr ⟨rank, e, hm.present hh value⟩
  · intro cmp _ hc
    obtain ⟨t, hm, hs⟩ := exists_sorted_after hc
    refine ⟨t.bare.toList, hm.lists, by rw [hm.size_eq, Tree.length_toList], ?_, ?_⟩
    · intro key rank hr
      rw [hm.rank?_eq, Except.ok.injEq] at hr
      cases hp : t.bare.landing cmp key with
      | miss q => simp [hp, Landing.hit?] at hr
      | hit q =>
        rw [hp, Landing.hit?, Option.some.injEq] at hr
        rw [Tree.countP_of_hit hs hp, hr]
    · intro rank hlt
      have he := List.getElem?_eq_getElem hlt
      exact ⟨_, by rw [hm.entryAt?_eq, he], by rw [hm.rank?_eq, Tree.hit?_of_getElem? hs he]⟩

/-- Two insertions of pairs that are compared by their first components. -/
def pairRun : List ((Nat × Nat → Nat × Nat → Ordering) × Command (Nat × Nat) Nat) :=
  [(compareOn Prod.fst, .insert (20, 0) 5), (compareOn Prod.fst, .insert (10, 0) 6)]

/-- A key that compares the same as a stored one has its position, behind the one smaller key. -/
theorem rank?_pairRun :
    TransCmp (compareOn (Prod.fst : Nat × Nat → Nat)) ∧
      (∀ c ∈ pairRun, c.1 = compareOn Prod.fst) ∧
      (after pairRun).rank? (compareOn Prod.fst) (20, 1) = .ok (some 1) ∧
      ∃ es, (after pairRun).Lists es ∧
        es.countP (fun e => compareOn Prod.fst e.1 (20, 1) == .lt) = 1 ∧ 1 < es.length ∧
        ∃ e, (after pairRun).entryAt? 1 = .ok (some e) ∧
          (after pairRun).rank? (compareOn Prod.fst) e.1 = .ok (some 1) := by
  have hc : ∀ c ∈ pairRun, c.1 = compareOn Prod.fst := by simp [pairRun]
  have hrank : (after pairRun).rank? (compareOn Prod.fst) (20, 1) = .ok (some 1) := rfl
  obtain ⟨es, hes, hsize, hcount, hfound⟩ := (agrees_after pairRun).2 (compareOn Prod.fst) hc
  have hlen : es.length = 2 := (Except.ok.inj hsize).symm
  have hlt : 1 < es.length := by omega
  exact ⟨inferInstance, hc, hrank, es, hes, hcount (20, 1) 1 hrank, hlt, hfound 1 hlt⟩

end OrdMap

end RankedMap
