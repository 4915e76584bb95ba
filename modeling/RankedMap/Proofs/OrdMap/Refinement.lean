import RankedMap.Proofs.OrdMap.Machine

/-!
# Maps refine trees as values

`Forest.Represents` says what tree the links of a forest spell out, with no bound on how far they are
followed, and `OrdMap.tree` is that tree for every map that a run ends in.  Inserting and taking out
are the textbook operations on it, shape and answer, for every comparison of keys
(`OrdMap.Refines`).

A map shows nothing but its tree, apart from its capacity: two maps with the same tree give the same
answers and have the same tree after whatever is done to both (`OrdMap.Alike`).  Slots, freed handles
and records may differ.  So a copy is like the map, and a map that was cleared, or made with room for
some entries, is like a new one.
-/

set_option autoImplicit false

namespace RankedMap

namespace Forest

variable {K V : Type} {f : Forest K V}

/-- The links below a link spell out a tree. -/
inductive Represents (f : Forest K V) : Link → Tree K V → Prop
  /-- No link is the empty tree. -/
  | nil : Represents f none .nil
  /-- A link to a node is that node over what its two links are. -/
  | node {h : Handle} {n : Node K V} {l r : Tree K V} (hn : f.live h = some n)
      (hl : Represents f n.left l) (hr : Represents f n.right r) :
      Represents f (some h) (.node l n.key n.value r)

/-- Links spell out one tree at most. -/
theorem Represents.unique {link : Link} {t t' : Tree K V} (ht : f.Represents link t)
    (ht' : f.Represents link t') : t = t' := by
  induction ht generalizing t' with
  | nil => cases ht'; rfl
  | node hn _ _ ihl ihr =>
    cases ht' with
    | node hn' hl' hr' =>
      cases hn.symm.trans hn'
      rw [ihl hl', ihr hr']

theorem Holds.represents {t : Placed K V} (ht : f.Holds t) : f.Represents t.root t.bare := by
  induction t with
  | nil => exact .nil
  | node l e v r ihl ihr =>
    obtain ⟨h, k⟩ := e
    obtain ⟨⟨n, hn, hnt⟩, hl, hr⟩ := ht
    obtain ⟨rfl, rfl, hleft, hright⟩ := hnt.joins
    exact .node hn (hleft ▸ ihl hl) (hright ▸ ihr hr)

end Forest

/-! ## What the machine says -/

namespace Tree

variable {K V : Type} {cmp : K → K → Ordering}

/-- The machine says what a command answers, unless it asks for the capacity. -/
theorem exists_answer_step (t : Tree K V) (cmp : K → K → Ordering) {command : OrdMap.Command K V}
    (hc : command ≠ .capacity) : ∃ answer, (t.step cmp command).1 = some answer := by
  rw [step]
  split
  · exact ⟨_, rfl⟩
  · cases command with
    | capacity => exact absurd rfl hc
    | reserve n bytes =>
      rw [run]
      split <;> exact ⟨_, rfl⟩
    | _ => exact ⟨_, rfl⟩

theorem exists_answer_runAll {commands : List ((K → K → Ordering) × OrdMap.Command K V)}
    {i : Nat} {command : OrdMap.Command K V} (hi : commands[i]? = some (cmp, command))
    (hc : command ≠ .capacity) (t : Tree K V) :
    ∃ answer, (t.runAll commands).1[i]? = some (some answer) := by
  induction commands generalizing i t with
  | nil => cases hi
  | cons first rest ih =>
    cases i with
    | zero =>
      cases hi
      obtain ⟨answer, ha⟩ := t.exists_answer_step cmp hc
      exact ⟨answer, by rw [← ha]; rfl⟩
    | succ i => exact ih hi _

end Tree

namespace OrdMap

variable {K V : Type} {m m' : OrdMap K V} {t t' : Placed K V}

/-- A map does to its tree what the textbook operations do. -/
structure Refines (m : OrdMap K V) : Prop where
  /-- The links from the root spell out the tree of the map. -/
  represents : m.nodes.Represents m.root m.tree
  /-- An insertion is `Tree.insert`, with the same answer. -/
  insert : ∀ cmp key value, m.tree.refuses cmp (.insert key value) = false →
    ∃ m', OrdMap.insert cmp key value m = .ok (m.tree.insert cmp key value).2 m' ∧
      m'.tree = (m.tree.insert cmp key value).1
  /-- An insertion of one entry more than there are handles fails and changes nothing. -/
  refused : ∀ cmp key value, m.tree.refuses cmp (.insert key value) = true →
    OrdMap.insert cmp key value m = .error .arenaFull m
  /-- Taking out an entry is `Tree.extract`, with the same answer. -/
  extract : ∀ cmp key,
    ∃ m', OrdMap.extract cmp key m = .ok (m.tree.extract cmp key).2 m' ∧
      m'.tree = (m.tree.extract cmp key).1
  /-- So it is when only the value is answered. -/
  erase : ∀ cmp key,
    ∃ m', OrdMap.erase cmp key m = .ok ((m.tree.extract cmp key).2.map (·.2)) m' ∧
      m'.tree = (m.tree.extract cmp key).1

/-- No further run tells the maps apart, except by the capacity: it gets the same answers, and ends
in the same tree. -/
def Alike (m m' : OrdMap K V) : Prop :=
  ∀ further : List ((K → K → Ordering) × Command K V),
    (∀ (i : Nat) (cmp : K → K → Ordering) (command : Command K V),
      further[i]? = some (cmp, command) → command ≠ .capacity →
        (Command.runAll further m).1[i]? = (Command.runAll further m').1[i]?) ∧
    (Command.runAll further m).2.tree = (Command.runAll further m').2.tree

theorem Embodies.refines (hm : m.Embodies t) : m.Refines where
  represents := by
    rw [hm.tree_eq, hm.root_eq]
    exact hm.holds.represents
  insert cmp key value hr := by
    rw [hm.tree_eq] at hr ⊢
    obtain ⟨m', t', hok, hm', ht'⟩ := hm.insert hr
    exact ⟨m', hok, hm'.tree_eq.trans ht'⟩
  refused cmp key value hr := by
    rw [hm.tree_eq] at hr
    exact hm.insert_refused hr
  extract cmp key := by
    rw [hm.tree_eq]
    obtain ⟨m', t', hok, hm', ht'⟩ := hm.extract cmp key
    exact ⟨m', hok, hm'.tree_eq.trans ht'⟩
  erase cmp key := by
    rw [hm.tree_eq]
    obtain ⟨m', t', hok, hm', ht'⟩ := hm.erase cmp key
    exact ⟨m', hok, hm'.tree_eq.trans ht'⟩

/-- An answer that the machine gives is the answer of the map. -/
theorem Embodies.answer_eq (hm : m.Embodies t)
    {commands : List ((K → K → Ordering) × Command K V)} {i : Nat}
    {answer : Except Fault (Answer K V)}
    (hi : (t.bare.runAll commands).1[i]? = some (some answer)) :
    (Command.runAll commands m).1[i]? = some answer := by
  have hall := (hm.runAll commands).1
  obtain ⟨hlt, hget⟩ := List.getElem?_eq_some_iff.1 hi
  have hlt' := hall.length_eq ▸ hlt
  rw [List.getElem?_eq_getElem hlt']
  exact congrArg some (hall.get hlt hlt' answer hget)

theorem Embodies.alike (hm : m.Embodies t) (hm' : m'.Embodies t') (ht : t.bare = t'.bare) :
    m.Alike m' := by
  intro further
  refine ⟨?_, ?_⟩
  · intro i cmp command hi hc
    obtain ⟨answer, ha⟩ := Tree.exists_answer_runAll hi hc t.bare
    rw [hm.answer_eq ha, hm'.answer_eq (ht ▸ ha)]
  · obtain ⟨-, t₁, hm₁, ht₁⟩ := hm.runAll further
    obtain ⟨-, t₁', hm₁', ht₁'⟩ := hm'.runAll further
    rw [hm₁.tree_eq, ht₁, hm₁'.tree_eq, ht₁', ht]

/-- **Maps refine trees.**  After any run, each command with a comparison of its own, the map does
to its tree what the textbook operations do, and any other run that ends in the same tree ends in a
map that is like it.  Its copy is like it, and a cleared map and one with room reserved are like a new
one. -/
theorem refines_after (commands : List ((K → K → Ordering) × Command K V)) :
    (after commands).Refines ∧
      (∀ others : List ((K → K → Ordering) × Command K V),
        (after others).tree = (after commands).tree → (after others).Alike (after commands)) ∧
      (after commands).copy.Alike (after commands) ∧
      (after commands).clear.Alike empty ∧
      ∀ (n bytes : Nat) (m : OrdMap K V), emptyWithCapacity n bytes = .ok m → m.Alike empty := by
  obtain ⟨t, hm⟩ := exists_embodies_after commands
  refine ⟨hm.refines, ?_, hm.copy.alike hm rfl, ?_, ?_⟩
  · intro others htree
    obtain ⟨t', hm'⟩ := exists_embodies_after others
    rw [hm.tree_eq, hm'.tree_eq] at htree
    exact hm'.alike hm htree
  · exact (embodies_nil rfl rfl rfl).alike embodies_empty rfl
  · intro n bytes m hok
    obtain ⟨-, rfl⟩ := emptyWithCapacity_eq_ok.1 hok
    exact (embodies_nil rfl rfl rfl).alike embodies_empty rfl

/-- Two keys, the greater one first. -/
def directRun : List ((Nat → Nat → Ordering) × Command Nat Nat) :=
  [(compare, .insert 2 20), (compare, .insert 1 10)]

/-- The same after a rotation, with the slot of a third key left over. -/
def detourRun : List ((Nat → Nat → Ordering) × Command Nat Nat) :=
  [(compare, .insert 3 30), (compare, .insert 2 20), (compare, .insert 1 10), (compare, .erase 3)]

/-- The two runs end in one tree, kept in different slots. -/
theorem alike_detourRun :
    (after detourRun).nodes.slots.size ≠ (after directRun).nodes.slots.size ∧
      (after detourRun).tree = (after directRun).tree ∧
      (after detourRun).Alike (after directRun) ∧
      ∃ m : OrdMap Nat Nat, emptyWithCapacity 8 24 = .ok m ∧ m.Alike empty := by
  obtain ⟨-, htree, -, -, hroom⟩ := refines_after directRun
  have hsame : (after detourRun).tree = (after directRun).tree := by decide +kernel
  exact ⟨by decide +kernel, hsame, htree detourRun hsame, _, rfl, hroom 8 24 _ rfl⟩

end OrdMap

end RankedMap
