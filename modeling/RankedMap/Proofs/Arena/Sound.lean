import Mathlib.Data.List.Nodup
import RankedMap.Arena.Basic

/-!
# Sound arenas

An arena is sound when its stack of freed handles names the vacant slots, each once, and when it has
no more slots than handles can name.  Every operation keeps it so.  In a sound arena `allocate` fails
only when every handle names an element already (`Sound.allocate`, `Sound.allocate_full`) and gives
out the handle freed last, if there is one (`Sound.allocate_cases`); and the elements and the freed
handles together are as many as the slots (`Sound.length_add`).
-/

set_option autoImplicit false

namespace RankedMap

theorem Handle.index_injective : Function.Injective Handle.index := fun _ _ h => Handle.ext h

namespace Arena

variable {α β : Type}

/-- The freed handles are the vacant slots, each named once. -/
structure Sound (a : Arena α) : Prop where
  /-- Every slot has a handle. -/
  slots_le : a.slots.size ≤ Handle.maxIndex + 1
  /-- No handle was freed twice. -/
  free_nodup : a.free.toList.Nodup
  /-- A handle is free when it names a slot that holds nothing. -/
  mem_free : ∀ h, h ∈ a.free ↔ h.index < a.slots.size ∧ a.live h = none

theorem sound_of_slots_eq_empty {a : Arena α} (hs : a.slots = #[]) (hf : a.free = #[]) :
    a.Sound := by
  refine ⟨by simp [hs], by simp [hf], ?_⟩
  intro h
  simp [hs, hf]

theorem live_of_slots_eq_empty {a : Arena α} (hs : a.slots = #[]) (h : Handle) :
    a.live h = none := by
  rw [live, hs]
  rfl

/-- Soundness is a matter of which slots are vacant, and of what was freed. -/
theorem Sound.congr {a b : Arena α} (ha : a.Sound) (hsize : b.slots.size = a.slots.size)
    (hfree : b.free = a.free) (hlive : ∀ h, b.live h = none ↔ a.live h = none) : b.Sound := by
  refine ⟨hsize ▸ ha.slots_le, hfree ▸ ha.free_nodup, ?_⟩
  intro h
  rw [hfree, hsize, hlive]
  exact ha.mem_free h

/-- A sound arena is told from its elements, the handles freed, and how many slots there are and
fit. -/
theorem Sound.ext {a b : Arena α} (ha : a.Sound) (hsize : b.slots.size = a.slots.size)
    (hfree : b.free = a.free) (hcap : b.capacity = a.capacity) (hlive : ∀ h, b.live h = a.live h) :
    b = a := by
  obtain ⟨slots, free, capacity⟩ := a
  obtain ⟨slots', free', capacity'⟩ := b
  simp only at hsize hfree hcap
  have hslots : slots' = slots := by
    refine Array.ext hsize ?_
    intro i hi' hi
    -- the bound on the slots is what gives each of them a handle
    have hle : i ≤ 4294967294 := Nat.le_of_lt_succ (Nat.lt_of_lt_of_le hi ha.slots_le)
    have hi₀ := hlive ⟨i, hle⟩
    simpa only [live, Array.getElem?_eq_getElem hi, Array.getElem?_eq_getElem hi', Option.join_some]
      using hi₀
  rw [hslots, hfree, hcap]

theorem Sound.copy {a : Arena α} (ha : a.Sound) : a.copy.Sound :=
  ha.congr rfl rfl fun _ => Iff.rfl

/-! ## How many elements there are -/

/-- Elements and freed handles are as many as the slots. -/
theorem Sound.length_add {a : Arena α} (ha : a.Sound) {hs : List Handle} (hnd : hs.Nodup)
    (hmem : ∀ h, h ∈ hs ↔ a.live h ≠ none) : hs.length + a.free.size = a.slots.size := by
  have hdisj : ∀ h ∈ a.free.toList, ∀ h' ∈ hs, h ≠ h' := by
    rintro h hf _ hl rfl
    exact (hmem h).1 hl ((ha.mem_free h).1 (Array.mem_toList_iff.1 hf)).2
  have hall : (a.free.toList ++ hs).Nodup := List.nodup_append.2 ⟨ha.free_nodup, hnd, hdisj⟩
  have hperm : ((a.free.toList ++ hs).map Handle.index).Perm (List.range a.slots.size) := by
    rw [List.perm_ext_iff_of_nodup (hall.map Handle.index_injective) List.nodup_range]
    intro i
    rw [List.mem_map, List.mem_range]
    constructor
    · rintro ⟨h, hm, rfl⟩
      rcases List.mem_append.1 hm with hf | hl
      · exact ((ha.mem_free h).1 (Array.mem_toList_iff.1 hf)).1
      · obtain ⟨x, hx⟩ := Option.ne_none_iff_exists'.1 ((hmem h).1 hl)
        exact index_lt_of_live hx
    · intro hi
      have hle : i ≤ 4294967294 := Nat.le_of_lt_succ (Nat.lt_of_lt_of_le hi ha.slots_le)
      refine ⟨⟨i, hle⟩, List.mem_append.2 ?_, rfl⟩
      by_cases hx : a.live ⟨i, hle⟩ = none
      · exact .inl (Array.mem_toList_iff.2 ((ha.mem_free _).2 ⟨hi, hx⟩))
      · exact .inr ((hmem _).2 hx)
  have hlen := hperm.length_eq
  rw [List.length_map, List.length_append, List.length_range, Array.length_toList] at hlen
  omega

theorem Sound.size_eq {a : Arena α} (ha : a.Sound) {hs : List Handle} (hnd : hs.Nodup)
    (hmem : ∀ h, h ∈ hs ↔ a.live h ≠ none) : a.size = hs.length := by
  have hlen := ha.length_add hnd hmem
  rw [size]
  omega

/-! ## Adding and taking out -/

/-- **A sound arena that is not full takes every element**, in a slot that was vacant. -/
theorem Sound.allocate {a : Arena α} (ha : a.Sound) (hroom : a.size ≤ Handle.maxIndex) (x : α) :
    ∃ h a', Arena.allocate x a = .ok h a' ∧ a.live h = none ∧ a'.Sound := by
  cases hb : a.free.back? with
  | none =>
    have hf : a.free = #[] := Array.back?_eq_none_iff.1 hb
    have hs : a.slots.size ≤ Handle.maxIndex := by simpa [size, hf] using hroom
    have hnew : a.live ⟨a.slots.size, hs⟩ = none := by simp [live]
    have hok := allocate_of_full hf hs x
    refine ⟨_, _, hok, hnew, ⟨?_, List.nodup_nil, ?_⟩⟩
    · rw [Array.size_push]
      exact Nat.succ_le_succ hs
    · -- nothing was freed before, and the new slot is not vacant
      intro h
      rw [live_allocate hok, Array.size_push]
      have hm := ha.mem_free h
      simp only [hf, Array.not_mem_empty, false_iff, not_and] at hm ⊢
      intro hlt
      by_cases he : h = ⟨a.slots.size, hs⟩
      · rw [if_pos he]
        exact Option.some_ne_none x
      · rw [if_neg he]
        exact hm (Nat.lt_of_le_of_ne (Nat.le_of_lt_succ hlt) fun hi => he (Handle.ext hi))
  | some h =>
    obtain ⟨rest, hrest⟩ := Array.back?_eq_some_iff.1 hb
    have hh := (ha.mem_free h).1 (Array.mem_of_back? hb)
    have hok := allocate_of_free hb hh.1 x
    have hnd := ha.free_nodup
    simp only [hrest, Array.toList_push, List.nodup_append, List.mem_singleton] at hnd
    refine ⟨_, _, hok, hh.2, ⟨?_, ?_, ?_⟩⟩
    · simpa [put] using ha.slots_le
    · simpa [hrest] using hnd.1
    · intro h'
      rw [live_allocate hok]
      have hm := ha.mem_free h'
      simp only [hrest, Array.mem_push, Array.pop_push, put, Array.size_setIfInBounds] at hm ⊢
      by_cases he : h' = h
      · subst he
        rw [if_pos rfl]
        simp only [reduceCtorEq, and_false, iff_false]
        intro hr
        exact hnd.2.2 h' (Array.mem_toList_iff.2 hr) h' rfl rfl
      · rw [if_neg he, ← hm]
        exact ⟨Or.inl, fun hr => hr.resolve_right he⟩

/-- A sound arena refuses an element when every handle names one already. -/
theorem Sound.allocate_full {a : Arena α} (ha : a.Sound) (hfull : Handle.maxIndex < a.size)
    (x : α) : Arena.allocate x a = .error .arenaFull a := by
  have hs := ha.slots_le
  rw [size] at hfull
  have hf : a.free.size = 0 := by omega
  obtain ⟨slots, free, capacity⟩ := a
  simp only at hs hf hfull
  have hb : free.back? = none := Array.back?_eq_none_iff.2 (Array.size_eq_zero_iff.1 hf)
  simp only [Arena.allocate, hb]
  rw [dif_neg (by omega)]

/-- An element was added in the slot freed last, or when none was free in a new one behind all
others. -/
theorem Sound.allocate_cases {a a' : Arena α} {h : Handle} {x : α} (ha : a.Sound)
    (hok : Arena.allocate x a = .ok h a') :
    (a.free.back? = some h ∧ a' = { a.put h (some x) with free := a.free.pop }) ∨
      (a.free = #[] ∧ h.index = a.slots.size ∧
        a' = ⟨a.slots.push (some x), #[], grow a.slots.size a.capacity⟩) := by
  cases hb : a.free.back? with
  | some top =>
    have htop := ((ha.mem_free top).1 (Array.mem_of_back? hb)).1
    rw [allocate_of_free hb htop, EStateM.Result.ok.injEq] at hok
    obtain ⟨rfl, rfl⟩ := hok
    exact .inl ⟨rfl, rfl⟩
  | none =>
    have hf : a.free = #[] := Array.back?_eq_none_iff.1 hb
    rcases Nat.lt_or_ge Handle.maxIndex a.slots.size with hfull | hs
    · rw [ha.allocate_full (by simpa [size, hf] using hfull) x] at hok
      cases hok
    · rw [allocate_of_full hf hs, EStateM.Result.ok.injEq] at hok
      obtain ⟨rfl, rfl⟩ := hok
      exact .inr ⟨hf, rfl, rfl⟩

/-- The slot of a new element was vacant. -/
theorem Sound.live_of_allocate {a a' : Arena α} {h : Handle} {x : α} (ha : a.Sound)
    (hok : Arena.allocate x a = .ok h a') : a.live h = none := by
  rcases ha.allocate_cases hok with ⟨hb, -⟩ | ⟨-, hi, -⟩
  · exact ((ha.mem_free h).1 (Array.mem_of_back? hb)).2
  · simp [live, hi]

/-- Taking an element out of a sound arena leaves it sound. -/
theorem Sound.release {a a' : Arena α} {h : Handle} {x : α} (ha : a.Sound)
    (hr : Arena.release h a = .ok x a') : a'.Sound := by
  have hlive := fun h' => (live_release hr h').2
  obtain ⟨hx, rfl⟩ := release_eq_ok.1 hr
  have hnot : h ∉ a.free := fun hm => by simp [((ha.mem_free h).1 hm).2] at hx
  refine ⟨by simpa [put] using ha.slots_le, ?_, ?_⟩
  · rw [Array.toList_push, List.nodup_append]
    refine ⟨ha.free_nodup, List.nodup_singleton h, ?_⟩
    rintro h' hm _ hs rfl
    exact hnot (List.mem_singleton.1 hs ▸ Array.mem_toList_iff.1 hm)
  · intro h'
    rw [hlive, Array.mem_push, ha.mem_free h']
    simp only [put, Array.size_setIfInBounds]
    by_cases he : h' = h
    · subst he
      simp [index_lt_of_live hx]
    · simp [he]

end Arena

end RankedMap
