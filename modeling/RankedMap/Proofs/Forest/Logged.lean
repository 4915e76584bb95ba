import RankedMap.Proofs.Forest.Rebuilt

/-!
# The log of a change

Every recursion that rebuilds a subtree can be run with a log (`Logged.editing`).  It is noted when
balance is about to be restored at a node, with the forest as it is then, and when an errand below a
link has ended, with the forest before and after and the link that it answers with, at every level
of the recursion.

A moment is fair (`Moment.Fair`) when the node stands over two balanced subtrees which differ in
height by two at most, or when the errand has turned a balanced subtree into a balanced one and kept
to the levels it may add or drop.  A logged operation does what the operation does and only takes
notes besides, and all that it notes below a balanced subtree is fair (`LogsFairly`): this is proved
operation by operation, by induction on the tree that is held.
-/

set_option autoImplicit false

namespace RankedMap

namespace Forest

variable {K V α β : Type}

/-- What can be noted in the course of a change. -/
inductive Moment (K V : Type) where
  /-- Balance is about to be restored at a node. -/
  | restoring (f : Forest K V) (h : Handle)
  /-- An errand below a link was begun in one forest and has ended in another, with another link. -/
  | ended (errand : Errand K) (f : Forest K V) (link : Link) (f' : Forest K V) (link' : Link)

/-- All is as it should be. -/
def Moment.Fair : Moment K V → Prop
  | .restoring f h => ∃ n xs ys i j, f.Restorable h n xs ys i j
  | .ended errand f link f' link' =>
    ∃ xs ys i j, f.Subtree link xs i ∧ f'.Subtree link' ys j ∧ errand.Allows f link i j

/-- A forest, and what was noted so far. -/
abbrev Logged (K V : Type) : Type := Forest K V × List (Moment K V)

namespace Logged

/-- Notes the end of an errand, if the change succeeds. -/
def ending (errand : Errand K) (link : Link) (root : α → Link) (change : Edit (Logged K V) α) :
    Edit (Logged K V) α := fun (f, log) =>
  match change (f, log) with
  | .ok a (f', log) => .ok a (f', log ++ [.ended errand f link f' (root a)])
  | .error e s => .error e s

/-- `Forest.rebalance`, logged. -/
def rebalance (h : Handle) : Edit (Logged K V) Handle := fun (f, log) =>
  Edit.withNotes (log ++ [.restoring f h]) (Forest.rebalance h f)

/-- Every moment is noted. -/
def editing : Editing (Edit (Logged K V)) K V :=
  { Editing.through Edit.unnoted with rebalance := rebalance, errand := ending }

/-- `Forest.insertBelow`, logged. -/
def insertBelow (cmp : K → K → Ordering) (key : K) (value : V) (steps : Nat) (link : Link) :
    Edit (Logged K V) (Handle × Option V) :=
  editing.insertBelow cmp key value steps link

/-- `Forest.extractFirst`, logged. -/
def extractFirst (steps : Nat) (h : Handle) : Edit (Logged K V) (Link × Handle) :=
  editing.extractFirst steps h

/-- `Forest.join`, logged. -/
def join (steps : Nat) (left right : Link) : Edit (Logged K V) Link :=
  editing.join steps left right

/-- `Forest.extractBelow`, logged. -/
def extractBelow (cmp : K → K → Ordering) (key : K) (steps : Nat) (link : Link) :
    Edit (Logged K V) (Link × Option Handle) :=
  editing.extractBelow cmp key steps link

end Logged

/-! ## Fair logs -/

/-- A logged change does what the change does, and all that it notes is fair. -/
def LogsFairly (f : Forest K V) (logged : Edit (Logged K V) α) (plain : Edit (Forest K V) α) :
    Prop :=
  ∃ moments, logged.Notes f (plain f) moments ∧ ∀ moment ∈ moments, moment.Fair

namespace LogsFairly

variable {f : Forest K V} {x : Edit (Logged K V) α} {y : Edit (Forest K V) α}

theorem unnoted : f.LogsFairly (Edit.unnoted y) y := ⟨[], .unnoted, nofun⟩

theorem pure (a : α) : f.LogsFairly (pure a) (pure a) := ⟨[], .pure a, nofun⟩

theorem bind {k : α → Edit (Logged K V) β} {k' : α → Edit (Forest K V) β} (hx : f.LogsFairly x y)
    (hk : ∀ a f', y f = .ok a f' → f'.LogsFairly (k a) (k' a)) :
    f.LogsFairly (x >>= k) (y >>= k') := by
  obtain ⟨moments, hlog, hfair⟩ := hx
  cases hy : y f with
  | error e f' =>
    refine ⟨moments, hlog.bind fun a f' hok => ?_, hfair⟩
    cases hy.symm.trans hok
  | ok a f' =>
    obtain ⟨moments', hlog', hfair'⟩ := hk a f' hy
    refine ⟨moments ++ moments', ?_, ?_⟩
    · rw [Edit.bind_apply, hy]
      exact (hy ▸ hlog).bind_of_ok hlog'
    · intro moment hm
      exact (List.mem_append.1 hm).elim (hfair moment) (hfair' moment)

/-- A question is asked first, and answered. -/
theorem read {question : Forest K V → Except Fault α} {a : α} {k : α → Edit (Logged K V) β}
    {k' : α → Edit (Forest K V) β} (hq : question f = .ok a) (hk : f.LogsFairly (k a) (k' a)) :
    f.LogsFairly (Edit.unnoted (Edit.read question) >>= k) (Edit.read question >>= k') := by
  refine .bind .unnoted fun b f' hread => ?_
  obtain ⟨hq', rfl⟩ := Edit.read_eq_ok.1 hread
  obtain rfl := Except.ok.inj (hq.symm.trans hq')
  exact hk

theorem rebalance {h : Handle} (hr : ∃ n xs ys i j, f.Restorable h n xs ys i j) :
    f.LogsFairly (Logged.rebalance h) (Forest.rebalance h) := by
  refine ⟨[.restoring f h], fun log => rfl, ?_⟩
  intro moment hm
  obtain rfl := List.mem_singleton.1 hm
  exact hr

theorem ending {errand : Errand K} {link : Link} {root : α → Link} (hx : f.LogsFairly x y)
    (hfair : ∀ a f', y f = .ok a f' → (Moment.ended errand f link f' (root a)).Fair) :
    f.LogsFairly (Logged.ending errand link root x) y := by
  obtain ⟨moments, hlog, hmoments⟩ := hx
  cases hy : y f with
  | error e f' =>
    refine ⟨moments, fun log => ?_, hmoments⟩
    rw [Logged.ending, hlog, hy]
    rfl
  | ok a f' =>
    refine ⟨moments ++ [.ended errand f link f' (root a)], fun log => ?_, ?_⟩
    · rw [Logged.ending, hlog, hy, ← List.append_assoc]
      rfl
    · intro moment hm
      rcases List.mem_append.1 hm with hm | hm
      · exact hmoments moment hm
      · obtain rfl := List.mem_singleton.1 hm
        exact hfair a f' hy

end LogsFairly

section Errands

variable {f f' : Forest K V} {t t' l r near far far' : Placed K V} {h : Handle} {n : Node K V}
  {k : K} {v : V} {s : Side} {cmp : K → K → Ordering} {key : K} {value : V} {steps : Nat}
  {errand : Errand K}

theorem Rebuilt.fair (hre : Rebuilt errand f t f' t') (ht : f.Holds t) (hd : t.handles.Nodup)
    (hb : t.Balanced) : (Moment.ended errand f t.root f' t'.root).Fair :=
  ⟨_, _, _, _, ht.subtree hd hb, hre.holds.subtree hre.nodup hre.balanced, hre.allows⟩

/-- **One step on the way back up**: it is fair to restore balance above a subtree that has been
rebuilt. -/
theorem Rebuilt.climb {link : Link} (answer : Handle → α) (hre : Rebuilt errand f far f' far')
    (hroot : far'.root = link) (hn : f.live h = some n)
    (hj : n.Joins (.nodeOn s near (h, k) v far)) (hnear : f.Holds near)
    (hd : (Tree.nodeOn s near (h, k) v far).handles.Nodup)
    (hb : (Tree.nodeOn s near (h, k) v far).Balanced) :
    f'.LogsFairly
      (do
        Edit.unnoted (Arena.modify h (·.setChild s link))
        let root ← Logged.rebalance h
        return answer root)
      (do
        Arena.modify h (·.setChild s link)
        let root ← Forest.rebalance h
        return answer root) := by
  subst hroot
  refine .bind .unnoted fun _ f₂ hmod => .bind (.rebalance ?_) fun _ _ _ => .pure _
  exact hre.restorable hn hj hnear hd hb hmod

theorem insertBelow_fair {p : Handle × Option V} (hs : f.Sound) (ht : f.Holds t)
    (hd : t.handles.Nodup) (hb : t.Balanced) (hsteps : t.height ≤ steps)
    (hok : Forest.insertBelow cmp key value steps t.root f = .ok p f') :
    (Moment.ended (.insert cmp key) f t.root f' (some p.1)).Fair := by
  obtain ⟨t', hroot, hre⟩ := insertBelow_rebuilt hs ht hd hb hsteps hok
  exact hroot ▸ hre.fair ht hd hb

/-- **Inserting** into a balanced subtree is fair at every level. -/
theorem insertBelow_logsFairly (hs : f.Sound) (ht : f.Holds t) (hd : t.handles.Nodup)
    (hb : t.Balanced) (hsteps : t.height ≤ steps) :
    f.LogsFairly (Logged.insertBelow cmp key value steps t.root)
      (Forest.insertBelow cmp key value steps t.root) := by
  induction t generalizing steps with
  | nil =>
    rw [Tree.root, Logged.insertBelow, Editing.insertBelow]
    refine .ending ?_ fun p f' hok => insertBelow_fair (t := .nil) hs ht hd hb hsteps hok
    rw [Forest.insertBelow_none]
    exact .bind .unnoted fun _ _ _ => .pure _
  | node l e v r ihl ihr =>
    obtain ⟨h, k⟩ := e
    obtain ⟨⟨n, hn, hnt⟩, hl, hr⟩ := id ht
    obtain ⟨hdl, hdr, -⟩ := Tree.nodup_handles_node.1 hd
    obtain ⟨-, -, hbl, hbr⟩ := id hb
    have hleft := hnt.joins.child_left
    have hright := hnt.joins.child_right
    obtain ⟨steps, rfl, hsl, hsr⟩ := Tree.exists_steps_of_height_le hsteps
    rw [Tree.root, Logged.insertBelow, Editing.insertBelow]
    refine .ending ?_ fun p f' hok => insertBelow_fair hs ht hd hb hsteps hok
    rw [Forest.insertBelow_some]
    refine .read (Arena.get_eq_ok.2 hn) ?_
    cases Side.ofOrdering (cmp key n.key) with
    | none => exact .bind .unnoted fun _ _ _ => .pure _
    | some side =>
      cases side with
      | left =>
        simp only [hleft]
        refine .bind (ihl hl hdl hbl hsl) ?_
        rintro ⟨child, old⟩ f₁ hok
        obtain ⟨t', hroot, hre⟩ := insertBelow_rebuilt hs hl hdl hbl hsl hok
        exact hre.climb (s := .left) (·, old) hroot hn hnt.joins hr hd hb
      | right =>
        simp only [hright]
        refine .bind (ihr hr hdr hbr hsr) ?_
        rintro ⟨child, old⟩ f₁ hok
        obtain ⟨t', hroot, hre⟩ := insertBelow_rebuilt hs hr hdr hbr hsr hok
        exact hre.climb (s := .right) (·, old) hroot hn hnt.joins hl hd hb

/-- **Taking the first node out** of a balanced subtree is fair at every level. -/
theorem extractFirst_logsFairly (ht : f.Holds t) (hd : t.handles.Nodup) (hb : t.Balanced)
    (hsteps : t.height ≤ steps) (hroot : t.root = some h) :
    f.LogsFairly (Logged.extractFirst steps h) (Forest.extractFirst steps h) := by
  induction t generalizing steps h with
  | nil => cases hroot
  | node l e v r ihl _ =>
    have hend : ∀ p f', Forest.extractFirst steps h f = .ok p f' →
        (Moment.ended .extractFirst f (some h) f' p.1).Fair := by
      intro p f' hok
      obtain ⟨rest, hrest, hre, -⟩ := extractFirst_rebuilt ht hd hb hsteps hroot hok
      exact hroot ▸ hrest ▸ hre.fair ht hd hb
    obtain ⟨h', k⟩ := e
    obtain rfl : h = h' := (Option.some.inj hroot).symm
    obtain ⟨⟨n, hn, hnt⟩, hl, hr⟩ := ht
    obtain ⟨hdl, -⟩ := Tree.nodup_handles_node.1 hd
    obtain ⟨-, -, hbl, -⟩ := id hb
    obtain ⟨steps, rfl, hsl, -⟩ := Tree.exists_steps_of_height_le hsteps
    rw [Logged.extractFirst, Editing.extractFirst]
    refine .ending ?_ hend
    rw [Forest.extractFirst_succ]
    refine .read (Arena.get_eq_ok.2 hn) ?_
    rw [hnt.joins.2.2.1]
    cases hlr : l.root with
    | none => exact .bind .unnoted fun _ _ _ => .pure _
    | some left =>
      refine .bind (ihl hl hdl hbl hsl hlr) ?_
      rintro ⟨rest, first⟩ f₁ hok
      obtain ⟨t', hrest, hre, -⟩ := extractFirst_rebuilt hl hdl hbl hsl hlr hok
      exact hre.climb (s := .left) (some ·, first) hrest hn hnt.joins hr hd hb

/-- Joining two subtrees is fair. -/
theorem join_logsFairly (hl : f.Holds l) (hr : f.Holds r) (hd : (l.handles ++ r.handles).Nodup)
    (hbl : l.Balanced) (hbr : r.Balanced) (h1 : l.height ≤ r.height + 1)
    (h2 : r.height ≤ l.height + 1) (hsteps : r.height ≤ steps) :
    f.LogsFairly (Logged.join steps l.root r.root) (Forest.join steps l.root r.root) := by
  obtain ⟨hdl, hdr, hdis⟩ := List.nodup_append'.1 hd
  rcases hlr : l.root with _ | left
  · exact .pure _
  rcases hrr : r.root with _ | right
  · exact .pure _
  refine .bind (extractFirst_logsFairly hr hdr hbr hsteps hrr) ?_
  rintro ⟨rest, first⟩ f₁ hok
  obtain ⟨t', hrest, hre, hh, k, v, hfirst⟩ := extractFirst_rebuilt hr hdr hbr hsteps hrr hok
  obtain ⟨h3, h4⟩ := Errand.Allows.le_succ hre.allows
  have hl₁ := hre.holds_elsewhere hl hdis
  have hd' : (Tree.nodeOn .right l (first, k) v t').handles.Nodup := by
    rwa [Tree.nodeOn, Tree.handles_node, ← hh]
  have hj : ((((Node.single k v).setChild .left (some left)).setChild .right rest)).Joins
      (.nodeOn .right l (first, k) v t') := ⟨rfl, rfl, hlr.symm, hrest.symm⟩
  refine .bind .unnoted fun _ f₂ hmod => .bind (.rebalance ?_) fun _ _ _ => .pure _
  exact rejoin_restorable (fun node => (node.setChild .left (some left)).setChild .right rest)
    hfirst hj hl₁ hre.holds hd' hbl hre.balanced (by omega) (by omega) hmod

theorem extractBelow_fair {p : Link × Option Handle} (ht : f.Holds t) (hd : t.handles.Nodup)
    (hb : t.Balanced) (hsteps : t.height ≤ steps)
    (hok : Forest.extractBelow cmp key steps t.root f = .ok p f') :
    (Moment.ended (.extract cmp key) f t.root f' p.1).Fair := by
  obtain ⟨t', hroot, hre⟩ := extractBelow_rebuilt ht hd hb hsteps hok
  exact hroot ▸ hre.fair ht hd hb

/-- **Taking an entry out** of a balanced subtree is fair at every level. -/
theorem extractBelow_logsFairly (ht : f.Holds t) (hd : t.handles.Nodup) (hb : t.Balanced)
    (hsteps : t.height ≤ steps) :
    f.LogsFairly (Logged.extractBelow cmp key steps t.root)
      (Forest.extractBelow cmp key steps t.root) := by
  induction t generalizing steps with
  | nil =>
    rw [Tree.root, Logged.extractBelow, Editing.extractBelow]
    show f.LogsFairly (Logged.ending (.extract cmp key) none (·.1) (pure (none, none))) _
    refine .ending ?_ fun p f' hok => extractBelow_fair (t := .nil) ht hd hb hsteps hok
    rw [Forest.extractBelow_none]
    exact .pure _
  | node l e v r ihl ihr =>
    obtain ⟨h, k⟩ := e
    obtain ⟨⟨n, hn, hnt⟩, hl, hr⟩ := id ht
    obtain ⟨hdl, hdr, hnl, hnr, hdis⟩ := Tree.nodup_handles_node.1 hd
    obtain ⟨h1, h2, hbl, hbr⟩ := id hb
    have hleft := hnt.joins.child_left
    have hright := hnt.joins.child_right
    obtain ⟨steps, rfl, hsl, hsr⟩ := Tree.exists_steps_of_height_le hsteps
    rw [Tree.root, Logged.extractBelow, Editing.extractBelow]
    refine .ending ?_ fun p f' hok => extractBelow_fair ht hd hb hsteps hok
    rw [Forest.extractBelow_some]
    refine .read (Arena.get_eq_ok.2 hn) ?_
    cases Side.ofOrdering (cmp key n.key) with
    | none =>
      refine .bind .unnoted ?_
      rintro ⟨left, right⟩ f₁ hdetach
      -- the node is made a leaf first, and its two subtrees do not notice
      obtain ⟨n', hn', hchildren, rfl⟩ := Arena.modifyGet_eq_ok.1 hdetach
      obtain rfl := Option.some.inj (hn.symm.trans hn')
      obtain ⟨rfl, rfl⟩ := Prod.mk.inj hchildren
      have hc := Confined.put hn n.detach
      have hl₁ := hl.confined hc (List.disjoint_singleton.2 hnl)
      have hr₁ := hr.confined hc (List.disjoint_singleton.2 hnr)
      have hd' := List.nodup_append'.2 ⟨hdl, hdr, hdis⟩
      have hjoin := join_logsFairly hl₁ hr₁ hd' hbl hbr h1 h2 hsr
      rw [← hleft, ← hright] at hjoin
      exact .bind hjoin fun _ _ _ => .pure _
    | some side =>
      cases side with
      | left =>
        simp only [hleft]
        refine .bind (ihl hl hdl hbl hsl) ?_
        rintro ⟨child, gone⟩ f₁ hok
        obtain ⟨t', hroot, hre⟩ := extractBelow_rebuilt hl hdl hbl hsl hok
        exact hre.climb (s := .left) (some ·, gone) hroot hn hnt.joins hr hd hb
      | right =>
        simp only [hright]
        refine .bind (ihr hr hdr hbr hsr) ?_
        rintro ⟨child, gone⟩ f₁ hok
        obtain ⟨t', hroot, hre⟩ := extractBelow_rebuilt hr hdr hbr hsr hok
        exact hre.climb (s := .right) (some ·, gone) hroot hn hnt.joins hl hd hb

end Errands

end Forest

end RankedMap
