import RankedMap.Proofs.Forest.Descent
import RankedMap.Proofs.Forest.Lookup
import RankedMap.Proofs.Forest.Rotation

/-!
# Watching a descent

Every recursion along links can be run so that a note is taken of each node that it enters, at the
moment when it enters it, also where the forest is changed below that node later (`Watched.editing`).
A watched operation does what the operation does and only notes nodes besides (`…_holds`): on a held
tree the two end alike, for any two numbers of steps that are not less than the height, so that the
limit on steps plays no part.

What is noted by the searches and by the changes is one way down from the root; going through all
entries notes every node once.  The keys that a key is compared with are those of the nodes on its way
(`path_holds`).
-/

set_option autoImplicit false

namespace RankedMap

namespace Forest

variable {K V α β ι : Type}

/-- A forest, and the nodes that were entered so far. -/
abbrev Watched (K V : Type) : Type := Forest K V × List Handle

namespace Watched

/-! ## The operations -/

/-- Every node is noted. -/
def editing : Editing (Edit (Watched K V)) K V := .noting fun h _ => h

/-- `Forest.locate`, watched. -/
def locate (cmp : K → K → Ordering) (key : K) (steps : Nat) (link : Link) :
    Edit (Watched K V) Link :=
  editing.locate cmp key steps link

/-- `Forest.rankOf`, watched. -/
def rankOf (cmp : K → K → Ordering) (key : K) (steps : Nat) (link : Link) (before : Nat) :
    Edit (Watched K V) (Option Nat) :=
  editing.rankOf cmp key steps link before

/-- `Forest.select`, watched. -/
def select (steps : Nat) (link : Link) (rank : Nat) : Edit (Watched K V) Link :=
  editing.select steps link rank

/-- `Forest.visit`, watched. -/
def visit (take : β → K → V → β) (steps : Nat) (link : Link) (acc : β) : Edit (Watched K V) β :=
  editing.visit take steps link acc

/-- `Forest.insertBelow`, watched. -/
def insertBelow (cmp : K → K → Ordering) (key : K) (value : V) (steps : Nat) (link : Link) :
    Edit (Watched K V) (Handle × Option V) :=
  editing.insertBelow cmp key value steps link

/-- `Forest.extractFirst`, watched. -/
def extractFirst (steps : Nat) (h : Handle) : Edit (Watched K V) (Link × Handle) :=
  editing.extractFirst steps h

/-- `Forest.join`, watched. -/
def join (steps : Nat) (left right : Link) : Edit (Watched K V) Link :=
  editing.join steps left right

/-- `Forest.extractBelow`, watched. -/
def extractBelow (cmp : K → K → Ordering) (key : K) (steps : Nat) (link : Link) :
    Edit (Watched K V) (Link × Option Handle) :=
  editing.extractBelow cmp key steps link

end Watched

/-- An operation below a link ends, and until then it enters the nodes of a list one after the other:
so it is for every number of steps that is not less than the height the link has on record. -/
structure Enters (f : Forest K V) (link : Link) (watched : Nat → Edit (Watched K V) α)
    (plain : Nat → Edit (Forest K V) α) (nodes : List Handle) : Prop where
  /-- The watched operation does what the operation does with all steps that it is allowed, and
  enters these nodes. -/
  watched_eq : ∀ height steps, f.heightAt link = .ok height → height.levels ≤ steps →
    watched steps (f, []) = Edit.withNotes nodes (plain f.stepLimit f)
  /-- The operation does the same with no more steps than that height. -/
  plain_eq : ∀ height steps, f.heightAt link = .ok height → height.levels ≤ steps →
    plain steps f = plain f.stepLimit f
  /-- It does not run out of steps. -/
  not_tooDeep : ∀ f', plain f.stepLimit f ≠ .error .tooDeep f'

/-- An operation on a held tree enters what it enters with any two numbers of steps. -/
theorem Holds.enters {f : Forest K V} {t : Placed K V} (ht : f.Holds t) (hd : t.handles.Nodup)
    {watched : Nat → Edit (Watched K V) α} {plain : Nat → Edit (Forest K V) α}
    {nodes : List Handle}
    (h : ∀ {steps steps'}, t.height ≤ steps → t.height ≤ steps' →
      (watched steps).Notes f (plain steps' f) nodes)
    (hdeep : ∀ f', plain f.stepLimit f ≠ .error .tooDeep f') :
    f.Enters t.root watched plain nodes := by
  have hlimit := ht.height_le_stepLimit hd
  obtain ⟨height, hheight, hlevels⟩ := heightAt_root ht
  have hle : ∀ {height' : Height} {steps : Nat}, f.heightAt t.root = .ok height' →
      height'.levels ≤ steps → t.height ≤ steps := by
    intro height' steps hheight' hsteps
    obtain rfl := Except.ok.inj (hheight.symm.trans hheight')
    exact hlevels ▸ hsteps
  refine ⟨?_, ?_, hdeep⟩
  · intro height' steps hheight' hsteps
    exact h (hle hheight' hsteps) hlimit []
  · intro height' steps hheight' hsteps
    have hsame := hle hheight' hsteps
    exact Edit.withNotes_injective nodes ((h hsame hsame []).symm.trans (h hsame hlimit []))

variable {f : Forest K V} {t l r : Placed K V} {h : Handle} {k : K} {v : V} {n : Node K V}
  {cmp : K → K → Ordering} {key : K} {steps steps' : Nat} {label : Handle → K → ι}
  {result : EStateM.Result Fault (Forest K V) α} {more : List ι}

/-! ## Searches -/

/-- A node is noted when it is entered, before all that follows. -/
theorem noting_enter (hn : f.live h = some n) {next : Node K V → Edit (Forest K V × List ι) α}
    (hnext : (next n).Notes f result more) :
    ((Editing.noting label).enter h >>= next).Notes f result (label h n.key :: more) := by
  have henter : ((Editing.noting label).enter h).Notes f (.ok n f) [label h n.key] := by
    intro notes
    simp only [Editing.noting, Edit.bind_apply, Edit.unnoted, Edit.read_apply, Arena.get_eq_ok.2 hn,
      Edit.withNotes, Edit.note, Edit.pure_apply]
  exact .bind_of_ok henter hnext

/-- No note is taken of a question. -/
theorem noting_ask {question : Forest K V → Except Fault β} {b : β} (hq : question f = .ok b)
    {next : β → Edit (Forest K V × List ι) α} (hnext : (next b).Notes f result more) :
    ((Editing.noting label).ask question >>= next).Notes f result more := by
  have hask : ((Editing.noting label).ask question).Notes f (Edit.read question f) [] := .unnoted
  rw [Edit.read_apply, hq] at hask
  exact .bind_of_ok hask hnext

/-- **The search for a key** enters the nodes where `Tree.stations` has the key compared. -/
theorem noting_locate_holds (ht : f.Holds t) (hsteps : t.height ≤ steps)
    (hsteps' : t.height ≤ steps') :
    ((Editing.noting label).locate cmp key steps t.root).Notes f
      (Edit.read (Forest.locate · cmp key steps' t.root) f)
      ((t.stations cmp key).map fun e => label e.1 e.2) := by
  induction t generalizing steps steps' with
  | nil =>
    rw [Tree.root, Reading.locate, Edit.read_apply, locate_none]
    exact .pure none
  | node l e v r ihl ihr =>
    obtain ⟨h, k⟩ := e
    obtain ⟨⟨n, hn, hnt⟩, hl, hr⟩ := ht
    obtain ⟨rfl, -, hleft, hright⟩ := hnt.joins
    obtain ⟨steps, rfl, hsl, hsr⟩ := Tree.exists_steps_of_height_le hsteps
    obtain ⟨steps', rfl, hsl', hsr'⟩ := Tree.exists_steps_of_height_le hsteps'
    rw [Tree.root, Reading.locate, Edit.read_apply, locate_of_live hn, Tree.stations_node]
    cases hc : cmp key n.key with
    | lt =>
      refine noting_enter hn ?_
      simp only [hc, Side.ofOrdering, Node.child, hleft]
      exact ihl hl hsl hsl'
    | eq =>
      refine noting_enter hn ?_
      simp only [hc, Side.ofOrdering]
      exact .pure _
    | gt =>
      refine noting_enter hn ?_
      simp only [hc, Side.ofOrdering, Node.child, hright]
      exact ihr hr hsr hsr'

theorem Watched.locate_holds (ht : f.Holds t) (hsteps : t.height ≤ steps)
    (hsteps' : t.height ≤ steps') :
    (Watched.locate cmp key steps t.root).Notes f
      (Edit.read (Forest.locate · cmp key steps' t.root) f) (t.trail cmp key) :=
  noting_locate_holds ht hsteps hsteps'

/-- The keys that a key is compared with are those that it is compared with in the tree. -/
theorem path_holds (ht : f.Holds t) (hsteps : t.height ≤ steps) :
    f.path cmp key steps t.root = .ok (t.bare.path cmp key) := by
  have hnotes : ((Editing.noting fun _ k => k).locate cmp key steps t.root).Notes f _ _ :=
    noting_locate_holds ht hsteps hsteps
  rw [Edit.read_apply, Forest.locate_holds ht hsteps] at hnotes
  rw [path, hnotes [], Tree.path_bare]
  rfl

theorem Watched.rankOf_holds (ht : f.Holds t) (hsteps : t.height ≤ steps)
    (hsteps' : t.height ≤ steps') (before : Nat) :
    (Watched.rankOf cmp key steps t.root before).Notes f
      (Edit.read (Forest.rankOf · cmp key steps' t.root before) f) (t.trail cmp key) := by
  induction t generalizing steps steps' before with
  | nil =>
    rw [Tree.root, Watched.rankOf, Reading.rankOf, Edit.read_apply, rankOf_none]
    exact .pure none
  | node l e v r ihl ihr =>
    obtain ⟨h, k⟩ := e
    obtain ⟨⟨n, hn, hnt⟩, hl, hr⟩ := ht
    obtain ⟨rfl, -, hleft, hright⟩ := hnt.joins
    obtain ⟨size, hsize, -⟩ := sizeAt_root hl
    rw [← hleft] at hsize
    obtain ⟨steps, rfl, hsl, hsr⟩ := Tree.exists_steps_of_height_le hsteps
    obtain ⟨steps', rfl, hsl', hsr'⟩ := Tree.exists_steps_of_height_le hsteps'
    rw [Tree.root, Watched.rankOf, Reading.rankOf, Edit.read_apply, rankOf_of_live hn hsize,
      Tree.trail_node]
    cases hc : cmp key n.key with
    | lt =>
      refine noting_enter hn (noting_ask hsize ?_)
      simp only [hc, Side.ofOrdering, hleft]
      exact ihl hl hsl hsl' before
    | eq =>
      refine noting_enter hn (noting_ask hsize ?_)
      simp only [hc, Side.ofOrdering]
      exact .pure _
    | gt =>
      refine noting_enter hn (noting_ask hsize ?_)
      simp only [hc, Side.ofOrdering, hright]
      exact ihr hr hsr hsr' _

/-- A position is looked for on one way down. -/
theorem Watched.select_holds (ht : f.Holds t) (rank : Nat) :
    ∃ trail, f.Way t.root trail ∧ trail.head? = t.root ∧
      ∀ {steps steps'}, t.height ≤ steps → t.height ≤ steps' →
        (Watched.select steps t.root rank).Notes f
          (Edit.read (Forest.select · steps' t.root rank) f) trail := by
  induction t generalizing rank with
  | nil =>
    refine ⟨[], .stop _, rfl, ?_⟩
    intro steps steps' _ _
    rw [Tree.root, Watched.select, Reading.select, Edit.read_apply, select_none]
    exact .pure none
  | node l e v r ihl ihr =>
    obtain ⟨h, k⟩ := e
    obtain ⟨⟨n, hn, hnt⟩, hl, hr⟩ := id ht
    obtain ⟨-, -, hleft, hright⟩ := hnt.joins
    obtain ⟨size, hsize, -⟩ := sizeAt_root hl
    rw [← hleft] at hsize
    obtain ⟨trail, hw, -, htrail⟩ := ihl hl rank
    obtain ⟨trail', hw', -, htrail'⟩ := ihr hr (rank - size.count - 1)
    simp only [Tree.root, Watched.select, Edit.read_apply]
    -- the sizes on record alone say which of the two ways is taken
    cases hc : compare rank size.count with
    | lt =>
      refine ⟨h :: trail, ht.way_node_iff.2 (.inr ⟨_, rfl, .inl hw⟩), rfl, ?_⟩
      intro steps steps' hsteps hsteps'
      obtain ⟨steps, rfl, hsl, -⟩ := Tree.exists_steps_of_height_le hsteps
      obtain ⟨steps', rfl, hsl', -⟩ := Tree.exists_steps_of_height_le hsteps'
      rw [Reading.select, select_of_live hn hsize]
      refine noting_enter hn (noting_ask hsize ?_)
      simp only [hc, hleft]
      exact htrail hsl hsl'
    | eq =>
      refine ⟨[h], ht.way_node_iff.2 (.inr ⟨_, rfl, .inl (.stop _)⟩), rfl, ?_⟩
      intro steps steps' hsteps hsteps'
      obtain ⟨steps, rfl, -⟩ := Tree.exists_steps_of_height_le hsteps
      obtain ⟨steps', rfl, -⟩ := Tree.exists_steps_of_height_le hsteps'
      rw [Reading.select, select_of_live hn hsize]
      refine noting_enter hn (noting_ask hsize ?_)
      simp only [hc]
      exact .pure _
    | gt =>
      refine ⟨h :: trail', ht.way_node_iff.2 (.inr ⟨_, rfl, .inr hw'⟩), rfl, ?_⟩
      intro steps steps' hsteps hsteps'
      obtain ⟨steps, rfl, -, hsr⟩ := Tree.exists_steps_of_height_le hsteps
      obtain ⟨steps', rfl, -, hsr'⟩ := Tree.exists_steps_of_height_le hsteps'
      have hlt : size.count < rank := Nat.compare_eq_gt.1 hc
      rw [Reading.select, select_of_live hn hsize]
      refine noting_enter hn (noting_ask hsize ?_)
      simp only [hc, hright]
      exact noting_ask (minus_of_le hlt.le)
        (noting_ask (minus_of_le (Nat.sub_pos_of_lt hlt)) (htrail' hsr hsr'))

/-- Going through all entries enters every node once. -/
theorem Watched.visit_holds (ht : f.Holds t) (take : β → K → V → β) :
    ∃ trail, trail.Perm t.handles ∧
      ∀ {steps steps'} (acc : β), t.height ≤ steps → t.height ≤ steps' →
        (Watched.visit take steps t.root acc).Notes f
          (Edit.read (Forest.visit · take steps' t.root acc) f) trail := by
  induction t with
  | nil =>
    refine ⟨[], .refl _, ?_⟩
    intro steps steps' acc _ _
    rw [Tree.root, Watched.visit, Reading.visit, Edit.read_apply, visit_none]
    exact .pure acc
  | node l e v r ihl ihr =>
    obtain ⟨h, k⟩ := e
    obtain ⟨⟨n, hn, hnt⟩, hl, hr⟩ := ht
    obtain ⟨-, -, hleft, hright⟩ := hnt.joins
    obtain ⟨before, hbefore, htrail⟩ := ihl hl
    obtain ⟨behind, hbehind, htrail'⟩ := ihr hr
    refine ⟨h :: (before ++ behind), ?_, ?_⟩
    · rw [Tree.handles_node]
      exact ((hbefore.append hbehind).cons h).trans List.perm_middle.symm
    · intro steps steps' acc hsteps hsteps'
      obtain ⟨steps, rfl, hsl, hsr⟩ := Tree.exists_steps_of_height_le hsteps
      obtain ⟨steps', rfl, hsl', hsr'⟩ := Tree.exists_steps_of_height_le hsteps'
      have hvisit := Forest.visit_holds hl hsl' take acc
      have hfirst := htrail acc hsl hsl'
      rw [Edit.read_apply, hvisit] at hfirst
      rw [← hleft] at hvisit hfirst
      rw [Tree.root, Watched.visit, Reading.visit, Edit.read_apply, visit_of_live hn hvisit, hright]
      exact noting_enter hn (hfirst.bind_of_ok (hright ▸ htrail' _ hsr hsr'))

/-! ## Changes -/

/-- Entering a node in the course of a change. -/
theorem noting_enter_read (hn : f.live h = some n)
    {next : Node K V → Edit (Forest K V × List ι) α} {next' : Node K V → Edit (Forest K V) α}
    (hnext : (next n).Notes f (next' n f) more) :
    ((Editing.noting label).enter h >>= next).Notes f ((Edit.read (Arena.get · h) >>= next') f)
      (label h n.key :: more) := by
  rw [Edit.bind_apply, Edit.read_apply, Arena.get_eq_ok.2 hn]
  exact noting_enter hn hnext

/-- The way back up takes no notes. -/
theorem noting_climb (edit : Edit (Forest K V) Unit) (h : Handle) (answer : Handle → α) :
    (do
      (Editing.noting label).change edit
      let root ← (Editing.noting label).rebalance h
      return answer root).Notes f
      ((do
        edit
        let root ← rebalance h
        return answer root) f) [] :=
  .bind .unnoted fun _ _ _ => .bind .unnoted fun _ _ _ => .pure _

/-- An insertion goes the way of the search, be it refused in the end or not. -/
theorem Watched.insertBelow_holds {value : V} (ht : f.Holds t) (hsteps : t.height ≤ steps)
    (hsteps' : t.height ≤ steps') :
    (Watched.insertBelow cmp key value steps t.root).Notes f
      (Forest.insertBelow cmp key value steps' t.root f) (t.trail cmp key) := by
  induction t generalizing steps steps' with
  | nil =>
    rw [Tree.root, Watched.insertBelow, Editing.insertBelow, insertBelow_none]
    exact .bind .unnoted fun _ _ _ => .pure _
  | node l e v r ihl ihr =>
    obtain ⟨h, k⟩ := e
    obtain ⟨⟨n, hn, hnt⟩, hl, hr⟩ := ht
    obtain ⟨rfl, -, hleft, hright⟩ := hnt.joins
    obtain ⟨steps, rfl, hsl, hsr⟩ := Tree.exists_steps_of_height_le hsteps
    obtain ⟨steps', rfl, hsl', hsr'⟩ := Tree.exists_steps_of_height_le hsteps'
    rw [Tree.root, Watched.insertBelow, Editing.insertBelow, insertBelow_some, Tree.trail_node]
    cases hc : cmp key n.key with
    | lt =>
      refine noting_enter_read hn ?_
      simp only [hc, Side.ofOrdering, Node.child, hleft]
      exact (ihl hl hsl hsl').bind fun p _ _ => noting_climb _ h (·, p.2)
    | eq =>
      refine noting_enter_read hn ?_
      simp only [hc, Side.ofOrdering]
      exact .bind .unnoted fun _ _ _ => .pure _
    | gt =>
      refine noting_enter_read hn ?_
      simp only [hc, Side.ofOrdering, Node.child, hright]
      exact (ihr hr hsr hsr').bind fun p _ _ => noting_climb _ h (·, p.2)

/-- Taking out the first node of a subtree goes one way down. -/
theorem Watched.extractFirst_holds (ht : f.Holds t) (hroot : t.root = some h) :
    ∃ trail, f.Way t.root trail ∧ trail.head? = t.root ∧
      ∀ {steps steps'}, t.height ≤ steps → t.height ≤ steps' →
        (Watched.extractFirst steps h).Notes f (Forest.extractFirst steps' h f) trail := by
  induction t generalizing h with
  | nil => cases hroot
  | node l e v r ihl _ =>
    obtain ⟨h', k⟩ := e
    obtain rfl : h = h' := (Option.some.inj hroot).symm
    obtain ⟨⟨n, hn, hnt⟩, hl, -⟩ := id ht
    obtain ⟨-, -, hleft, -⟩ := hnt.joins
    cases hlr : l.root with
    | none =>
      refine ⟨[h], ht.way_node_iff.2 (.inr ⟨_, rfl, .inl (.stop _)⟩), rfl, ?_⟩
      intro steps steps' hsteps hsteps'
      obtain ⟨steps, rfl, -, -⟩ := Tree.exists_steps_of_height_le hsteps
      obtain ⟨steps', rfl, -, -⟩ := Tree.exists_steps_of_height_le hsteps'
      rw [Watched.extractFirst, Editing.extractFirst, extractFirst_succ]
      refine noting_enter_read hn ?_
      simp only [hleft, hlr]
      exact .bind .unnoted fun _ _ _ => .pure _
    | some left =>
      obtain ⟨trail, hw, -, htrail⟩ := ihl hl hlr
      refine ⟨h :: trail, ht.way_node_iff.2 (.inr ⟨_, rfl, .inl hw⟩), rfl, ?_⟩
      intro steps steps' hsteps hsteps'
      obtain ⟨steps, rfl, hsl, -⟩ := Tree.exists_steps_of_height_le hsteps
      obtain ⟨steps', rfl, hsl', -⟩ := Tree.exists_steps_of_height_le hsteps'
      rw [Watched.extractFirst, Editing.extractFirst, extractFirst_succ]
      refine noting_enter_read hn ?_
      simp only [hleft, hlr]
      exact (htrail hsl hsl').bind fun p _ _ => noting_climb _ h (some ·, p.2)

/-- Joining two subtrees goes down the right one, or nowhere. -/
theorem Watched.join_holds (hr : f.Holds r) (left : Link) :
    ∃ trail, f.Way r.root trail ∧
      ∀ {steps steps'}, r.height ≤ steps → r.height ≤ steps' →
        (Watched.join steps left r.root).Notes f (Forest.join steps' left r.root f) trail := by
  rcases left with _ | left
  · exact ⟨[], .stop _, fun _ _ => .pure _⟩
  rcases hrr : r.root with _ | right
  · exact ⟨[], .stop _, fun _ _ => .pure _⟩
  · obtain ⟨trail, hw, -, htrail⟩ := Watched.extractFirst_holds hr hrr
    refine ⟨trail, hrr ▸ hw, ?_⟩
    intro steps steps' hsteps hsteps'
    rw [join_some]
    exact (htrail hsteps hsteps').bind fun p _ _ => noting_climb _ p.2 some

/-- The node where the search ends is made a leaf first, and then its two subtrees are joined. -/
theorem Watched.detach_join_holds (hn : f.live h = some n) (hleft : n.left = l.root)
    (hright : n.right = r.root) (hr : f.Holds r) (hnot : h ∉ r.handles) :
    ∃ trail, f.Way r.root trail ∧
      ∀ {steps steps'}, r.height ≤ steps → r.height ≤ steps' →
        (do
          let (left, right) ← Watched.editing.change (detach h)
          let rest ← Watched.editing.join steps left right
          return (rest, some h)).Notes f
          ((do
            let (left, right) ← detach h
            let rest ← Forest.join steps' left right
            return (rest, some h)) f) trail := by
  have hr₁ : Holds (f.put h (some n.detach)) r :=
    hr.confined (Confined.put hn n.detach) (List.disjoint_singleton.2 hnot)
  obtain ⟨trail, hw, htrail⟩ := Watched.join_holds hr₁ l.root
  refine ⟨trail, hr₁.way_of_holds hr hw, ?_⟩
  intro steps steps' hsteps hsteps'
  have hdetach : detach h f = .ok (l.root, r.root) (f.put h (some n.detach)) := by
    rw [detach, Arena.modifyGet_of_live hn, Node.children, hleft, hright]
  have hnoted : (Watched.editing.change (detach h)).Notes f (detach h f) [] := .unnoted
  rw [Edit.bind_apply, hdetach]
  rw [hdetach] at hnoted
  exact hnoted.bind_of_ok ((htrail hsteps hsteps').bind fun _ _ _ => .pure _)

/-- **Taking an entry out** goes the way of the search, and on from its end in the right subtree when
there is something to put in the place of what was taken out. -/
theorem Watched.extractBelow_holds (cmp : K → K → Ordering) (key : K) (ht : f.Holds t)
    (hd : t.handles.Nodup) :
    ∃ more, f.Way t.root (t.trail cmp key ++ more) ∧
      ∀ {steps steps'}, t.height ≤ steps → t.height ≤ steps' →
        (Watched.extractBelow cmp key steps t.root).Notes f
          (Forest.extractBelow cmp key steps' t.root f) (t.trail cmp key ++ more) := by
  induction t with
  | nil =>
    refine ⟨[], .stop _, ?_⟩
    intro steps steps' _ _
    rw [Tree.root, Watched.extractBelow, Editing.extractBelow, extractBelow_none]
    exact .pure _
  | node l e v r ihl ihr =>
    obtain ⟨h, k⟩ := e
    obtain ⟨⟨n, hn, hnt⟩, hl, hr⟩ := id ht
    obtain ⟨rfl, -, hleft, hright⟩ := hnt.joins
    have hnot := Tree.nodup_handles_node.1 hd
    rw [Tree.trail_node]
    cases hc : cmp key n.key with
    | lt =>
      obtain ⟨more, hw, htrail⟩ := ihl hl hnot.1
      refine ⟨more, ht.way_node_iff.2 (.inr ⟨_, rfl, .inl hw⟩), ?_⟩
      intro steps steps' hsteps hsteps'
      obtain ⟨steps, rfl, hsl, -⟩ := Tree.exists_steps_of_height_le hsteps
      obtain ⟨steps', rfl, hsl', -⟩ := Tree.exists_steps_of_height_le hsteps'
      rw [Tree.root, Watched.extractBelow, Editing.extractBelow, extractBelow_some]
      refine noting_enter_read hn ?_
      simp only [hc, Side.ofOrdering, Node.child, hleft]
      exact (htrail hsl hsl').bind fun p _ _ => noting_climb _ h (some ·, p.2)
    | eq =>
      obtain ⟨more, hw, htrail⟩ := Watched.detach_join_holds hn hleft hright hr hnot.2.2.2.1
      refine ⟨more, ht.way_node_iff.2 (.inr ⟨_, rfl, .inr hw⟩), ?_⟩
      intro steps steps' hsteps hsteps'
      obtain ⟨steps, rfl, -, hsr⟩ := Tree.exists_steps_of_height_le hsteps
      obtain ⟨steps', rfl, -, hsr'⟩ := Tree.exists_steps_of_height_le hsteps'
      rw [Tree.root, Watched.extractBelow, Editing.extractBelow, extractBelow_some]
      refine noting_enter_read hn ?_
      simp only [hc, Side.ofOrdering]
      exact htrail hsr hsr'
    | gt =>
      obtain ⟨more, hw, htrail⟩ := ihr hr hnot.2.1
      refine ⟨more, ht.way_node_iff.2 (.inr ⟨_, rfl, .inr hw⟩), ?_⟩
      intro steps steps' hsteps hsteps'
      obtain ⟨steps, rfl, -, hsr⟩ := Tree.exists_steps_of_height_le hsteps
      obtain ⟨steps', rfl, -, hsr'⟩ := Tree.exists_steps_of_height_le hsteps'
      rw [Tree.root, Watched.extractBelow, Editing.extractBelow, extractBelow_some]
      refine noting_enter_read hn ?_
      simp only [hc, Side.ofOrdering, Node.child, hright]
      exact (htrail hsr hsr').bind fun p _ _ => noting_climb _ h (some ·, p.2)

end Forest

end RankedMap
