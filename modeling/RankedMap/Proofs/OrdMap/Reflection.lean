import RankedMap.Proofs.Forest.Reflection
import RankedMap.Proofs.OrdMap.States

/-!
# Left and right are alike

A run with comparisons that have less and greater exchanged ends in the reflection of the map that
the run itself ends in: slot by slot, with the two subtrees of every node exchanged and all else the
same (`evenHanded_after`).  Keys are found, stored, inserted and taken out with the same answers,
and positions are counted from the other end.  So there is no difference between how the left and
how the right is treated, in any rotation, any rule for ties and any order of writes.

There is one exception by design.  A node over two subtrees that is taken out is replaced by the
node behind it, so a run must not take out such a node (`UnforkedRun`).

The proof is by the trees that the maps embody.  Changing the reversed tree gives the reversed tree
of the changed one, and which slots are taken and freed does not depend on left and right.
-/

set_option autoImplicit false

namespace RankedMap

namespace OrdMap

variable {K V α β : Type}

/-- The map with left and right exchanged: every node stays in its slot. -/
def reflect (m : OrdMap K V) : OrdMap K V := ⟨m.nodes.reflect, m.root⟩

/-- The commands with less and greater exchanged in every comparison. -/
def exchanged (commands : List ((K → K → Ordering) × Command K V)) :
    List ((K → K → Ordering) × Command K V) :=
  commands.map fun c => (swapped c.1, c.2)

/-- The command takes no node out that has two subtrees, and stores no value at a position. -/
def Unforked (m : OrdMap K V) (cmp : K → K → Ordering) : Command K V → Prop
  | .erase key | .extract key => ∀ h, m.locate cmp key = .ok (some h) →
      ∀ n, m.nodes.live h = some n → n.left = none ∨ n.right = none
  | .replaceAt _ _ | .setAt _ _ => False
  | _ => True

instance (m : OrdMap K V) (cmp : K → K → Ordering) : DecidablePred (m.Unforked cmp)
  | .erase key | .extract key =>
    decidable_of_iff (∀ h ∈ (m.locate cmp key).toOption.join, ∀ n ∈ m.nodes.live h,
      n.left = none ∨ n.right = none) <| by
      cases hloc : m.locate cmp key <;> simp [Unforked, hloc, Except.toOption]
  | .replaceAt _ _ | .setAt _ _ => .isFalse id
  | .renew | .reserve _ _ | .clear | .copy | .size | .isEmpty | .height | .capacity | .first | .last
  | .value _ | .entry _ | .contains _ | .rank _ | .entryAt _ | .get _ | .getAt _ | .replace _ _
  | .insert _ _ => .isTrue trivial

/-- No command of the run does. -/
def UnforkedRun : List ((K → K → Ordering) × Command K V) → OrdMap K V → Prop
  | [], _ => True
  | (cmp, command) :: rest, m =>
    m.Unforked cmp command ∧ UnforkedRun rest ((command.run cmp).outcome m).2

instance UnforkedRun.decidable :
    (commands : List ((K → K → Ordering) × Command K V)) → (m : OrdMap K V) →
      Decidable (UnforkedRun commands m)
  | [], _ => .isTrue trivial
  | (cmp, command) :: rest, m =>
    have := decidable rest ((command.run cmp).outcome m).2
    inferInstanceAs (Decidable (_ ∧ _))

/-- What the command asks for has to do with positions. -/
def Command.Positional : Command K V → Prop
  | .first | .last | .rank _ | .entryAt _ | .getAt _ | .replaceAt _ _ | .setAt _ _ => True
  | _ => False

/-- In the reflection of a map the second change does what the first does in the map. -/
def Reflects (m : OrdMap K V) (x y : Edit (OrdMap K V) α) : Prop :=
  y.outcome m.reflect = ((x.outcome m).1, (x.outcome m).2.reflect)

variable {m m' : OrdMap K V} {t : Placed K V} {cmp : K → K → Ordering} {key : K}

namespace Reflects

theorem ok {x y : Edit (OrdMap K V) α} {a : α} (hx : x m = .ok a m')
    (hy : y m.reflect = .ok a m'.reflect) : m.Reflects x y := by
  rw [Reflects, Edit.outcome_eq_ok.2 hx, Edit.outcome_eq_ok.2 hy]

theorem error {x y : Edit (OrdMap K V) α} {e : Fault} (hx : x m = .error e m')
    (hy : y m.reflect = .error e m'.reflect) : m.Reflects x y := by
  rw [Reflects, Edit.outcome_eq_error.2 hx, Edit.outcome_eq_error.2 hy]

/-- A question that has the same answer in both. -/
theorem read {p q : OrdMap K V → Except Fault α} (h : q m.reflect = p m) :
    m.Reflects (Edit.read p) (Edit.read q) := by
  rw [Reflects, Edit.outcome_read, Edit.outcome_read, h]

/-- Something is made of the answer. -/
theorem map {x y : Edit (OrdMap K V) α} (h : m.Reflects x y) (f : α → β) :
    m.Reflects (do return f (← x)) (do return f (← y)) := by
  cases hx : x m with
  | ok a m' =>
    rw [Reflects, Edit.outcome_eq_ok.2 hx, Edit.outcome_eq_ok] at h
    exact .ok (Edit.bind_eq_ok.2 ⟨a, m', hx, rfl⟩) (Edit.bind_eq_ok.2 ⟨a, _, h, rfl⟩)
  | error e m' =>
    rw [Reflects, Edit.outcome_eq_error.2 hx, Edit.outcome_eq_error] at h
    exact .error (Edit.bind_eq_error.2 (.inl hx)) (Edit.bind_eq_error.2 (.inl h))

theorem state_and_answer {x y : Edit (OrdMap K V) α} {P : Prop} (h : m.Reflects x y) :
    (y.outcome m.reflect).2 = (x.outcome m).2.reflect ∧
      (P → (y.outcome m.reflect).1 = (x.outcome m).1) := by
  rw [h]
  exact ⟨rfl, fun _ => rfl⟩

end Reflects

/-- No question changes the map, whatever it asks for. -/
theorem outcome_read_reflect (m : OrdMap K V) (p q : OrdMap K V → Except Fault α) (f : α → β) :
    ((do return f (← Edit.read q) : Edit (OrdMap K V) β).outcome m.reflect).2 =
      ((do return f (← Edit.read p) : Edit (OrdMap K V) β).outcome m).2.reflect := by
  rw [Edit.outcome_bind_pure_snd, Edit.outcome_bind_pure_snd, Edit.outcome_read, Edit.outcome_read]

/-- A map without slots is its own reflection. -/
theorem reflect_of_no_slots (capacity : Nat) :
    reflect (⟨⟨#[], #[], capacity⟩, none⟩ : OrdMap K V) = ⟨⟨#[], #[], capacity⟩, none⟩ := by
  simp [reflect, Forest.reflect]

theorem reflect_copy (m : OrdMap K V) : m.reflect.copy = m.copy.reflect := by
  simp [reflect, copy, Forest.reflect, Arena.copy]

theorem reflect_put (m : OrdMap K V) (h : Handle) (n : Node K V) :
    reflect ⟨m.nodes.put h (some n), m.root⟩ =
      ⟨m.reflect.nodes.put h (some n.reflect), m.reflect.root⟩ := by
  rw [reflect, Forest.put_reflect]
  rfl

/-- A new map, or the old one when too much room is asked for. -/
theorem reserve_reflects (m : OrdMap K V) (cmp : K → K → Ordering) (n bytes : Nat) :
    m.Reflects ((Command.reserve n bytes).run cmp) ((Command.reserve n bytes).run (swapped cmp)) := by
  by_cases hn : n * bytes ≤ Arena.maxBytes
  · refine .ok (Command.run_reserve_of_le hn cmp m) ?_
    rw [reflect_of_no_slots]
    exact Command.run_reserve_of_le hn _ _
  · exact .error (Command.run_reserve_of_gt hn cmp m) (Command.run_reserve_of_gt hn _ _)

namespace Embodies

theorem reflect (hm : m.Embodies t) : m.reflect.Embodies t.reverse where
  root_eq := hm.root_eq.trans (Tree.root_reverse t).symm
  holds := hm.holds.reflect
  nodup := by
    rw [Tree.handles_reverse, List.nodup_reverse]
    exact hm.nodup
  balanced := Tree.balanced_reverse.2 hm.balanced
  mem_handles h hh := by
    rw [Tree.handles_reverse, List.mem_reverse]
    refine hm.mem_handles h fun hx => hh ?_
    rw [OrdMap.reflect, Forest.live_reflect, hx]
    rfl
  sound := by
    refine hm.sound.congr (by simp [OrdMap.reflect, Forest.reflect]) rfl fun h => ?_
    rw [OrdMap.reflect, Forest.live_reflect, Option.map_eq_none_iff]

/-- A map that embodies the reversed tree is the reflection, when it has the same handles freed and
the same storage. -/
theorem eq_reflect (hm : m.Embodies t) (hm' : m'.Embodies t.reverse)
    (hsize : m'.nodes.slots.size = m.nodes.slots.size) (hfree : m'.nodes.free = m.nodes.free)
    (hcap : m'.nodes.capacity = m.nodes.capacity) : m' = m.reflect := by
  refine hm.reflect.ext hm' ?_ hfree hcap
  simpa [OrdMap.reflect, Forest.reflect] using hsize

/-- So it is when both have come about from a forest and its reflection, within slots. -/
theorem eq_reflect_of_confined {start : Forest K V} {hs hs' : List Handle} (hm : m.Embodies t)
    (hm' : m'.Embodies t.reverse) (hc : Forest.Confined hs start m.nodes)
    (hc' : Forest.Confined hs' start.reflect m'.nodes) : m' = m.reflect := by
  refine hm.eq_reflect hm' ?_ (hc'.free_eq.trans hc.free_eq.symm)
    (hc'.capacity_eq.trans hc.capacity_eq.symm)
  rw [hc'.size_eq, hc.size_eq, Forest.reflect, Array.size_map]

/-! ## Questions -/

theorem locate_reflect (hm : m.Embodies t) :
    m.reflect.locate (swapped cmp) key = m.locate cmp key := by
  rw [hm.reflect.locate_eq, hm.locate_eq, Tree.bare_reverse, Tree.landing_reverse,
    Tree.handles_reverse]
  cases hp : t.bare.landing cmp key with
  | miss r => rfl
  | hit r =>
    have hlt := Tree.lt_size_of_hit hp
    rw [Tree.size_bare] at hlt
    simp only [Landing.reverse, Landing.hit?, Option.bind_some, Tree.size_bare]
    rw [List.getElem?_reverse (by rw [Tree.length_handles]; omega), Tree.length_handles]
    congr 2
    omega

theorem find?_reflect (hm : m.Embodies t) :
    m.reflect.find? (swapped cmp) key = m.find? cmp key := by
  rw [hm.reflect.find?_eq, hm.find?_eq, Tree.bare_reverse, Tree.find?_reverse]

theorem get?_reflect (hm : m.Embodies t) : m.reflect.get? (swapped cmp) key = m.get? cmp key := by
  rw [get?, get?, hm.find?_reflect]

theorem entryAt?_reflect (hm : m.Embodies t) {rank : Nat} (hr : rank < t.size) :
    m.reflect.entryAt? rank = m.entryAt? (t.size - 1 - rank) := by
  rw [hm.reflect.entryAt?_eq, hm.entryAt?_eq, Tree.bare_reverse, Tree.toList_reverse,
    List.getElem?_reverse (by rwa [Tree.length_toList, Tree.size_bare]), Tree.length_toList,
    Tree.size_bare]

/-! ## Changes -/

theorem insert_reflects (hm : m.Embodies t) (cmp : K → K → Ordering) (key : K) (value : V) :
    m.Reflects (OrdMap.insert cmp key value) (OrdMap.insert (swapped cmp) key value) := by
  have hland := Tree.landing_reverse cmp key t.bare
  have hanswer := congrArg Prod.snd (Tree.insert_reverse cmp key value t.bare)
  rw [← Tree.bare_reverse] at hland hanswer
  have htree : ∀ x, (t.reverse.insert (Tree.byKey (swapped cmp)) (x, key) value).1 =
      (t.insert (Tree.byKey cmp) (x, key) value).1.reverse := fun x =>
    congrArg Prod.fst (Tree.insert_reverse (Tree.byKey cmp) (x, key) value t)
  cases hp : t.bare.landing cmp key with
  | hit rank =>
    rw [hp] at hland
    obtain ⟨x⟩ : Nonempty Handle := inferInstance
    obtain ⟨m₁, hok, hm₁, hc⟩ := hm.insert_hit_confined x hp value
    obtain ⟨m₂, hok', hm₂, hc'⟩ := hm.reflect.insert_hit_confined x hland value
    rw [htree] at hm₂
    obtain rfl := hm₁.eq_reflect_of_confined hm₂ hc hc'
    exact .ok hok (hanswer ▸ hok')
  | miss rank =>
    rw [hp] at hland
    rcases Nat.lt_or_ge t.size Size.maxCount with hroom | hfull
    · obtain ⟨x, start, ha, -, m₁, hok, hm₁, hc⟩ := hm.insert_miss_confined hp hroom value
      obtain ⟨x', start', ha', -, m₂, hok', hm₂, hc'⟩ :=
        hm.reflect.insert_miss_confined hland (by rwa [Tree.size_reverse]) value
      -- the same slot is taken, since a leaf is its own reflection
      obtain ⟨rfl, rfl⟩ := EStateM.Result.ok.inj ((Forest.allocate_reflect ha).symm.trans ha')
      rw [htree] at hm₂
      obtain rfl := hm₁.eq_reflect_of_confined hm₂ hc hc'
      exact .ok hok (hanswer ▸ hok')
    · have hfull := Nat.le_antisymm hm.size_le hfull
      exact .error (hm.insert_of_full hp hfull)
        (hm.reflect.insert_of_full hland (by rwa [Tree.size_reverse]))

theorem extract_reflects (hm : m.Embodies t) (hone : m.Unforked cmp (.extract key)) :
    m.Reflects (OrdMap.extract cmp key) (OrdMap.extract (swapped cmp) key) := by
  obtain ⟨x⟩ : Nonempty Handle := inferInstance
  have hun : t.Unforked (Tree.byKey cmp) (x, key) := by
    refine hm.holds.unforked hm.height_le_stepLimit ?_
    rw [← hm.root_eq]
    exact hone
  have hrev : t.reverse.extract (Tree.byKey (swapped cmp)) (x, key) =
      ((t.extract (Tree.byKey cmp) (x, key)).1.reverse, (t.extract (Tree.byKey cmp) (x, key)).2) :=
    Tree.extract_reverse (Tree.byKey cmp) (x, key) hun
  obtain ⟨f₁, m₁, hc, hnone, hsome, hok, hm₁⟩ := hm.extract_confined x cmp key
  obtain ⟨f₂, m₂, hc', hnone', hsome', hok', hm₂⟩ := hm.reflect.extract_confined x (swapped cmp) key
  rw [Tree.extract_bare _ x] at hok hok'
  rw [hrev] at hnone' hsome' hok' hm₂
  cases hgone : (t.extract (Tree.byKey cmp) (x, key)).2 with
  | none =>
    rw [hgone] at hok hok'
    obtain rfl := hm₁.eq_reflect_of_confined hm₂ (hnone hgone ▸ hc) (hnone' hgone ▸ hc')
    exact .ok hok hok'
  | some e =>
    obtain ⟨⟨h, k⟩, v⟩ := e
    rw [hgone] at hok hok'
    obtain ⟨-, hnodes⟩ := Arena.release_eq_ok.1 (hsome (h, k) v hgone)
    obtain ⟨-, hnodes'⟩ := Arena.release_eq_ok.1 (hsome' (h, k) v hgone)
    have hreflect : m₂ = m₁.reflect := by
      refine hm₁.eq_reflect hm₂ ?_ ?_ ?_ <;> rw [← hnodes, ← hnodes']
      · simp only [Arena.put, Array.size_setIfInBounds]
        rw [hc'.size_eq, hc.size_eq, OrdMap.reflect, Forest.reflect, Array.size_map]
      · exact congrArg (Array.push · h) (hc'.free_eq.trans hc.free_eq.symm)
      · exact hc'.capacity_eq.trans hc.capacity_eq.symm
    subst hreflect
    exact .ok hok hok'

/-- Storing a value under a key does it in the same slot. -/
theorem replace_reflects (hm : m.Embodies t) (cmp : K → K → Ordering) (key : K) (value : V) :
    m.Reflects (OrdMap.replace cmp key value) (OrdMap.replace (swapped cmp) key value) := by
  have hloc : m.reflect.locate (swapped cmp) key = m.locate cmp key := hm.locate_reflect
  obtain ⟨link, hlink⟩ : ∃ link, m.locate cmp key = .ok link := ⟨_, hm.locate_eq⟩
  rw [hlink] at hloc
  cases link with
  | none => exact .ok (replace_of_locate_none hlink value) (replace_of_locate_none hloc value)
  | some h =>
    obtain ⟨rank, -, hh⟩ := hm.locate_eq_some_iff.1 hlink
    obtain ⟨n, hn, -⟩ := hm.live_of_getElem? hh
    have hn' : m.reflect.nodes.live h = some n.reflect := by
      rw [OrdMap.reflect, Forest.live_reflect, hn]
      rfl
    refine .ok (replace_of_locate hlink hn value) ?_
    rw [reflect_put]
    exact replace_of_locate hloc hn' value

/-! ## Commands -/

/-- **One command** that takes out no node over two subtrees. -/
theorem run_reflect (hm : m.Embodies t) {command : Command K V} (hun : m.Unforked cmp command) :
    ((command.run (swapped cmp)).outcome m.reflect).2 = ((command.run cmp).outcome m).2.reflect ∧
      (¬command.Positional →
        ((command.run (swapped cmp)).outcome m.reflect).1 = ((command.run cmp).outcome m).1) := by
  cases command with
  | renew =>
    have hempty : (empty : OrdMap K V).reflect = empty := reflect_of_no_slots 0
    exact ⟨hempty.symm, fun _ => rfl⟩
  | reserve n bytes => exact (reserve_reflects m cmp n bytes).state_and_answer
  | clear =>
    have hclear : m.clear.reflect = m.clear := reflect_of_no_slots m.capacity
    exact ⟨hclear.symm, fun _ => rfl⟩
  | copy => exact ⟨reflect_copy m, fun _ => rfl⟩
  | size =>
    refine ((Reflects.read ?_).map _).state_and_answer
    rw [hm.reflect.size_eq, hm.size_eq, Tree.size_bare, Tree.size_bare, Tree.size_reverse]
  | isEmpty => exact ((Reflects.read rfl).map _).state_and_answer
  | height =>
    refine ((Reflects.read ?_).map _).state_and_answer
    rw [hm.reflect.height_eq, hm.height_eq, Tree.height_bare, Tree.height_bare, Tree.height_reverse]
  | capacity => exact ((Reflects.read rfl).map _).state_and_answer
  | value key => exact ((Reflects.read hm.get?_reflect).map _).state_and_answer
  | entry key => exact ((Reflects.read hm.find?_reflect).map _).state_and_answer
  | contains key =>
    refine ((Reflects.read ?_).map _).state_and_answer
    rw [contains, contains, hm.locate_reflect]
  | get key =>
    refine ((Reflects.read ?_).map _).state_and_answer
    rw [get, get, hm.get?_reflect]
  | first | last | rank key | entryAt rank | getAt rank =>
    exact ⟨outcome_read_reflect m _ _ _, fun h => (h trivial).elim⟩
  | replaceAt | setAt => exact hun.elim
  | replace key value => exact ((hm.replace_reflects cmp key value).map _).state_and_answer
  | insert key value => exact ((hm.insert_reflects cmp key value).map _).state_and_answer
  | erase key => exact (((hm.extract_reflects hun).map _).map _).state_and_answer
  | extract key => exact ((hm.extract_reflects hun).map _).state_and_answer

/-- **A whole run** of such commands. -/
theorem runAll_reflect (hm : m.Embodies t)
    {commands : List ((K → K → Ordering) × Command K V)} (hun : UnforkedRun commands m) :
    (Command.runAll (exchanged commands) m.reflect).2 = (Command.runAll commands m).2.reflect ∧
      ∀ (i : Nat) c, commands[i]? = some c → ¬c.2.Positional →
        (Command.runAll (exchanged commands) m.reflect).1[i]? =
          (Command.runAll commands m).1[i]? := by
  induction commands generalizing m t with
  | nil => exact ⟨rfl, nofun⟩
  | cons c rest ih =>
    obtain ⟨cmp, command⟩ := c
    obtain ⟨hone, hrest⟩ := hun
    obtain ⟨hstate, hanswer⟩ := hm.run_reflect hone
    obtain ⟨-, t₁, hm₁, -⟩ := hm.step cmp command
    obtain ⟨hstates, hanswers⟩ := ih hm₁ hrest
    rw [← hstate] at hstates hanswers
    refine ⟨hstates, fun i c hi hp => ?_⟩
    cases i with
    | zero =>
      obtain rfl := Option.some.inj hi
      exact congrArg some (hanswer hp)
    | succ i => exact hanswers i c hi hp

end Embodies

/-- A run and the run with less and greater exchanged in every comparison differ in nothing but left
and right. -/
structure EvenHanded (commands : List ((K → K → Ordering) × Command K V)) : Prop where
  /-- The maps that they end in are reflections of each other, slot by slot. -/
  after_eq : after (exchanged commands) = (after commands).reflect
  /-- Commands that have nothing to do with positions answer the same. -/
  answer_eq : ∀ (i : Nat) c, commands[i]? = some c → ¬c.2.Positional →
    (Command.runAll (exchanged commands) empty).1[i]? = (Command.runAll commands empty).1[i]?
  /-- The entry at a position is at the same distance from the other end. -/
  entryAt?_eq : ∃ n, (after commands).size = .ok n ∧ ∀ i, i < n →
    ∃ e, (after (exchanged commands)).entryAt? i = .ok (some e) ∧
      (after commands).entryAt? (n - 1 - i) = .ok (some e)

/-- **Left and right are alike.**  Whatever the comparisons are, a run that takes out no node over
two subtrees keeps its course when less and greater are exchanged in all of them. -/
theorem evenHanded_after (commands : List ((K → K → Ordering) × Command K V))
    (hun : UnforkedRun commands empty) : EvenHanded commands := by
  have hempty : (empty : OrdMap K V).reflect = empty := reflect_of_no_slots 0
  obtain ⟨hstate, hanswers⟩ := embodies_empty.runAll_reflect hun
  rw [hempty] at hstate hanswers
  obtain ⟨t, hm⟩ := exists_embodies_after commands
  refine ⟨hstate, hanswers, t.size, by rw [hm.size_eq, Tree.size_bare], fun i hi => ?_⟩
  have hlt : t.size - 1 - i < t.bare.toList.length := by
    rw [Tree.length_toList, Tree.size_bare]
    omega
  have hentry : (after commands).entryAt? (t.size - 1 - i) =
      .ok (some t.bare.toList[t.size - 1 - i]) := by
    rw [hm.entryAt?_eq, List.getElem?_eq_getElem hlt]
  refine ⟨_, ?_, hentry⟩
  rw [← hentry, ← hm.entryAt?_reflect hi]
  exact congrArg (·.entryAt? i) hstate

/-- Insertions with a double rotation, and removals of a node over one subtree, of a key that is not
there and of a leaf, with lookups between them. -/
def unforkedRun : List ((Nat → Nat → Ordering) × Command Nat Nat) :=
  [(compare, .insert 5 50), (compare, .insert 1 10), (compare, .insert 3 30),
    (compare, .insert 4 40), (compare, .value 4), (compare, .extract 5), (compare, .erase 5),
    (compare, .erase 1), (compare, .rank 4)]

/-- No removal of this run meets a node over two subtrees. -/
theorem evenHanded_unforkedRun :
    UnforkedRun unforkedRun empty ∧ EvenHanded unforkedRun := by
  have hun : UnforkedRun unforkedRun empty := by decide +kernel
  exact ⟨hun, evenHanded_after unforkedRun hun⟩

end OrdMap

end RankedMap
