import RankedMap.Proofs.Forest.Links
import RankedMap.Proofs.Forest.Rotation

/-!
# Balanced subtrees, and restoring balance

`Forest.Subtree f link xs k` says of the links and records alone that a balanced subtree of `k`
levels is below a link, with the nodes `xs` from left to right.  It is the same as to say that a
placed tree is held there (`subtree_iff`).

`Forest.rebalance` is called for a node that stands over two such subtrees which differ in height by
at most two (`Restorable`), and what it then ends in is a balanced subtree again, over the same
nodes in the same order (`Restored`).  Which slots it writes to is a matter of its code alone: in
any forest whatever it leaves all others as they are (`rebalance_confined`).
-/

set_option autoImplicit false

namespace RankedMap

namespace Tree

variable {K V : Type}

/-- The nodes of a placed tree from left to right, with their entries. -/
def nodes (t : Placed K V) : List (Handle × K × V) := t.toList.map fun e => (e.1.1, e.1.2, e.2)

@[simp] theorem nodes_node (l r : Placed K V) (h : Handle) (k : K) (v : V) :
    nodes (node l (h, k) v r) = l.nodes ++ (h, k, v) :: r.nodes := by
  simp [nodes, toList]

@[simp] theorem length_nodes (t : Placed K V) : t.nodes.length = t.size := by
  rw [nodes, List.length_map, length_toList]

@[simp] theorem map_fst_nodes (t : Placed K V) : t.nodes.map (·.1) = t.handles := by
  rw [nodes, List.map_map]
  rfl

@[simp] theorem nodes_balance (l r : Placed K V) (h : Handle) (k : K) (v : V) :
    nodes (balance l (h, k) v r) = l.nodes ++ (h, k, v) :: r.nodes := by
  simp [nodes]

end Tree

namespace Forest

variable {K V : Type}

/-- A balanced subtree is below a link: it has these nodes and entries from left to right, each in a
slot of its own, and this number of levels, and all its records are true. -/
inductive Subtree (f : Forest K V) : Link → List (Handle × K × V) → Nat → Prop
  /-- The empty subtree. -/
  | nil : Subtree f none [] 0
  /-- A node over two subtrees that are about equally high. -/
  | node {h : Handle} {n : Node K V} {xs ys : List (Handle × K × V)} {i j : Nat}
      (hn : f.live h = some n) (hl : Subtree f n.left xs i) (hr : Subtree f n.right ys j)
      (hd : ((xs ++ (h, n.entry) :: ys).map (·.1)).Nodup) (hij : i ≤ j + 1) (hji : j ≤ i + 1)
      (hsize : n.size.count = xs.length + ys.length + 1) (hheight : n.height.levels = max i j + 1) :
      Subtree f (some h) (xs ++ (h, n.entry) :: ys) (max i j + 1)

variable {f f' : Forest K V} {link : Link} {xs ys : List (Handle × K × V)} {i j k : Nat}
  {t : Placed K V} {a b c : Handle} {n : Node K V} {s : Side}

theorem Holds.subtree (ht : f.Holds t) (hd : t.handles.Nodup) (hb : t.Balanced) :
    f.Subtree t.root t.nodes t.height := by
  induction t with
  | nil => exact .nil
  | node l e v r ihl ihr =>
    obtain ⟨h, k⟩ := e
    obtain ⟨⟨n, hn, hnt⟩, hl, hr⟩ := ht
    obtain ⟨rfl, rfl, hleft, hright⟩ := hnt.joins
    obtain ⟨h1, h2, hbl, hbr⟩ := hb
    obtain ⟨hdl, hdr, -⟩ := Tree.nodup_handles_node.1 hd
    rw [Tree.nodes_node]
    refine .node hn (hleft ▸ ihl hl hdl hbl) (hright ▸ ihr hr hdr hbr) ?_ h1 h2 ?_ hnt.height_eq
    · rw [← Tree.map_fst_nodes, Tree.nodes_node] at hd
      exact hd
    · rw [Tree.length_nodes, Tree.length_nodes]
      exact hnt.size_eq

theorem Subtree.exists_holds (h : f.Subtree link xs k) :
    ∃ t : Placed K V, t.root = link ∧ t.nodes = xs ∧ t.height = k ∧ f.Holds t ∧ t.handles.Nodup ∧
      t.Balanced := by
  induction h with
  | nil => exact ⟨.nil, rfl, rfl, rfl, trivial, List.nodup_nil, trivial⟩
  | @node h n xs ys i j hn _ _ hd hij hji hsize hheight ihl ihr =>
    obtain ⟨l, hleft, rfl, rfl, hl, -, hbl⟩ := ihl
    obtain ⟨r, hright, rfl, rfl, hr, -, hbr⟩ := ihr
    rw [Tree.length_nodes, Tree.length_nodes] at hsize
    refine ⟨.node l (h, n.key) n.value r, rfl, Tree.nodes_node .., rfl, ⟨⟨n, hn, ?_⟩, hl, hr⟩, ?_,
      hij, hji, hbl, hbr⟩
    · exact ⟨⟨rfl, rfl, hleft.symm, hright.symm⟩, hsize, hheight⟩
    · rw [← Tree.map_fst_nodes, Tree.nodes_node]
      exact hd

/-- **Two ways to say the same**: a balanced subtree is below a link when a balanced placed tree is
held there. -/
theorem subtree_iff :
    f.Subtree link xs k ↔
      ∃ t : Placed K V, t.root = link ∧ t.nodes = xs ∧ t.height = k ∧ f.Holds t ∧
        t.handles.Nodup ∧ t.Balanced := by
  refine ⟨Subtree.exists_holds, ?_⟩
  rintro ⟨t, rfl, rfl, rfl, ht, hd, hb⟩
  exact ht.subtree hd hb

theorem Subtree.sizeAt_eq (h : f.Subtree link xs k) :
    ∃ size, f.sizeAt link = .ok size ∧ size.count = xs.length := by
  obtain ⟨t, rfl, rfl, -, ht, -⟩ := h.exists_holds
  rw [Tree.length_nodes]
  exact sizeAt_root ht

theorem Subtree.heightAt_eq (h : f.Subtree link xs k) :
    ∃ height, f.heightAt link = .ok height ∧ height.levels = k := by
  obtain ⟨t, rfl, -, rfl, ht, -⟩ := h.exists_holds
  exact heightAt_root ht

/-- The empty link is that of the empty subtree, and of no other. -/
theorem Subtree.eq_none_iff (h : f.Subtree link xs k) : link = none ↔ xs = [] := by
  cases h with
  | nil => simp
  | node => simp

/-- A way down a subtree is no longer than there are slots. -/
theorem Subtree.le_stepLimit (h : f.Subtree link xs k) : k ≤ f.stepLimit := by
  obtain ⟨t, -, -, rfl, ht, hd, -⟩ := h.exists_holds
  exact ht.height_le_stepLimit hd

/-- The root of a subtree has its number of nodes and of levels on record. -/
theorem Subtree.exists_root (h : f.Subtree (some a) xs k) :
    ∃ n, f.live a = some n ∧ n.size.count = xs.length ∧ n.height.levels = k := by
  cases h with
  | @node _ n xs ys i j hn _ _ _ _ _ hsize hheight =>
    refine ⟨n, hn, ?_, hheight⟩
    rw [hsize, List.length_append, List.length_cons, Nat.add_assoc]

/-! ## Which slots are written to -/

/-- The slots that are turned around when the child of a node on a side is too high: that of the
node, that of the child, and that of the inner child of the child. -/
def pivots (f : Forest K V) (a : Handle) (heavy : Side) : List Handle :=
  a :: ((f.linkAt a heavy).toList ++ ((f.linkAt a heavy).bind (f.linkAt · heavy.opposite)).toList)

theorem childAt_eq_ok {x : Link} (hx : f.childAt a s = .ok x) : f.linkAt a s = x := by
  rw [childAt] at hx
  cases hn : f.get a with
  | error e => simp [hn, bind, Except.bind] at hx
  | ok n =>
    rw [hn] at hx
    rw [linkAt_of_live (Arena.get_eq_ok.1 hn)]
    exact Except.ok.inj hx

theorem modify_confined {g : Node K V → Node K V} {u : Unit} (h : Arena.modify a g f = .ok u f') :
    Confined [a] f f' := by
  obtain ⟨n, hn, -, rfl⟩ := Arena.modifyGet_eq_ok.1 h
  exact .put hn _

theorem refresh_confined {u : Unit} (h : refresh a f = .ok u f') : Confined [a] f f' := by
  obtain ⟨_, _, hread, hmod⟩ := Edit.bind_eq_ok.1 h
  obtain ⟨-, rfl⟩ := Edit.read_eq_ok.1 hread
  exact modify_confined hmod

/-- Linking a node and measuring it writes to its slot. -/
theorem relink_confined {g : Node K V → Node K V} {f₁ : Forest K V} {u u' : Unit}
    (h : Arena.modify a g f = .ok u f₁) (h' : refresh a f₁ = .ok u' f') : Confined [a] f f' :=
  (modify_confined h).trans (refresh_confined h')

/-- **A rotation writes to three slots at most**, in any forest. -/
theorem rotate_confined (hok : rotate s a f = .ok c f') : Confined (f.pivots a s) f f' := by
  obtain ⟨x, f, hread, h⟩ := Edit.bind_eq_ok.1 hok
  obtain ⟨hx, rfl⟩ := Edit.read_eq_ok.1 hread
  cases x with
  | none => cases h
  | some b =>
    simp only [Edit.bind_eq_ok, Edit.read_eq_ok] at h
    obtain ⟨inner, _, ⟨hinner, rfl⟩, outer, _, ⟨-, rfl⟩, i, _, ⟨-, rfl⟩, j, f, ⟨-, rfl⟩, h⟩ := h
    have hpivots : f.pivots a s = a :: b :: inner.toList := by
      rw [pivots, childAt_eq_ok hx, Option.bind_some, childAt_eq_ok hinner]
      rfl
    rw [hpivots]
    split at h
    · simp only [Edit.bind_eq_ok] at h
      obtain ⟨_, f₁, hm₁, _, f₂, hr₁, _, f₃, hm₂, _, f₄, hr₂, h⟩ := h
      cases h
      have hc₁ := relink_confined hm₁ hr₁
      have hc₂ := relink_confined hm₂ hr₂
      exact (hc₁.mono (by simp)).trans (hc₂.mono (by simp))
    · cases inner with
      | none => cases h
      | some g =>
        simp only [Edit.bind_eq_ok, Edit.read_eq_ok] at h
        obtain ⟨near, _, ⟨-, rfl⟩, far, _, ⟨-, rfl⟩, _, f₁, hm₁, _, f₂, hr₁, _, f₃, hm₂, _, f₄, hr₂,
          _, f₅, hm₃, _, f₆, hr₃, h⟩ := h
        cases h
        have hc₁ := relink_confined hm₁ hr₁
        have hc₂ := relink_confined hm₂ hr₂
        have hc₃ := relink_confined hm₃ hr₃
        exact (hc₁.mono (by simp)).trans ((hc₂.mono (by simp)).trans (hc₃.mono (by simp)))

/-- **Restoring balance** writes to the slot of the node, and turns the slots around the side that
is too high, if there is one. -/
theorem rebalance_confined {heavy : Option Side} (hheavy : f.heavySideAt a = .ok heavy)
    (h : rebalance a f = .ok c f') :
    Confined (heavy.elim [a] (f.pivots a)) f f' := by
  obtain ⟨_, _, hread, h⟩ := Edit.bind_eq_ok.1 h
  obtain ⟨hheavy', rfl⟩ := Edit.read_eq_ok.1 hread
  obtain rfl := Except.ok.inj (hheavy.symm.trans hheavy')
  cases heavy with
  | some s => exact rotate_confined h
  | none =>
    obtain ⟨_, f₁, hr, h⟩ := Edit.bind_eq_ok.1 h
    cases h
    exact refresh_confined hr

/-! ## Restoring balance -/

/-- A node whose balance can be restored.  It stands over two balanced subtrees that differ in
height by two at most, and may have anything on record itself. -/
structure Restorable (f : Forest K V) (a : Handle) (n : Node K V) (xs ys : List (Handle × K × V))
    (i j : Nat) : Prop where
  /-- The node is in its slot. -/
  live_eq : f.live a = some n
  /-- Its left subtree has the nodes `xs` and `i` levels. -/
  left : f.Subtree n.left xs i
  /-- Its right subtree has the nodes `ys` and `j` levels. -/
  right : f.Subtree n.right ys j
  /-- The two share no slot, and neither of them has that of the node. -/
  nodup : ((xs ++ (a, n.entry) :: ys).map (·.1)).Nodup
  /-- The left one is not too high. -/
  left_le : i ≤ j + 2
  /-- Nor is the right one. -/
  right_le : j ≤ i + 2

/-- What becomes of such a node: the forest `f'`, with the node `c` at the root of the subtree. -/
structure Restored (f : Forest K V) (a : Handle) (n : Node K V) (xs ys : List (Handle × K × V))
    (i j : Nat) (c : Handle) (f' : Forest K V) : Prop where
  /-- It is a balanced subtree over the same nodes in the same order, as high as the higher one of
  the two was or one level higher. -/
  subtree : ∃ k, f'.Subtree (some c) (xs ++ (a, n.entry) :: ys) k ∧ (k = max i j ∨ k = max i j + 1)
  /-- Its root has a size on record that is one more than the sizes the two had, and its height. -/
  record : ∃ left right n', f.sizeAt n.left = .ok left ∧ f.sizeAt n.right = .ok right ∧
    f'.live c = some n' ∧ n'.size.count = left.count + right.count + 1 ∧
      (n'.height.levels = max i j ∨ n'.height.levels = max i j + 1)
  /-- A node that was balanced gets a new record and stays where it is, and all else stays as it
  is. -/
  near : i ≤ j + 1 → j ≤ i + 1 →
    c = a ∧ ∃ size height, f' = f.put a (some (n.record size height))
  /-- Where the left subtree was too high, all slots but those around it stay as they are. -/
  left_heavy : j + 1 < i → Confined (f.pivots a .left) f f'
  /-- So it is where the right one was too high. -/
  right_heavy : i + 1 < j → Confined (f.pivots a .right) f f'

theorem Subtree.nodup (h : f.Subtree link xs k) : (xs.map (·.1)).Nodup := by
  obtain ⟨t, -, rfl, -, -, hd, -⟩ := h.exists_holds
  rwa [Tree.map_fst_nodes]

namespace Restorable

/-- The node as the root of a placed tree that is perhaps out of balance. -/
theorem exists_joins (h : f.Restorable a n xs ys i j) :
    ∃ l r : Placed K V, n.Joins (.node l (a, n.key) n.value r) ∧ l.nodes = xs ∧ r.nodes = ys ∧
      l.height = i ∧ r.height = j ∧ f.Holds l ∧ f.Holds r ∧ l.Balanced ∧ r.Balanced ∧
      (Tree.node l (a, n.key) n.value r).handles.Nodup := by
  obtain ⟨l, hleft, rfl, rfl, hl, -, hbl⟩ := h.left.exists_holds
  obtain ⟨r, hright, rfl, rfl, hr, -, hbr⟩ := h.right.exists_holds
  refine ⟨l, r, ⟨rfl, rfl, hleft.symm, hright.symm⟩, rfl, rfl, rfl, rfl, hl, hr, hbl, hbr, ?_⟩
  rw [← Tree.map_fst_nodes, Tree.nodes_node]
  exact h.nodup

/-- On which side it is too high is told from the heights of the two subtrees. -/
theorem heavySideAt_eq (h : f.Restorable a n xs ys i j) :
    f.heavySideAt a =
      .ok (if i + 1 < j then some .right else if j + 1 < i then some .left else none) := by
  obtain ⟨l, r, hj, rfl, rfl, rfl, rfl, hl, hr, -⟩ := h.exists_joins
  exact heavySideAt_of_joins h.live_eq hj hl hr

end Restorable

/-- Measuring a node writes to its record only. -/
theorem refresh_eq_put {u : Unit} (hn : f.live a = some n) (h : refresh a f = .ok u f') :
    ∃ size height, f' = f.put a (some (n.record size height)) := by
  obtain ⟨⟨size, height⟩, f, hread, hmod⟩ := Edit.bind_eq_ok.1 h
  obtain ⟨-, rfl⟩ := Edit.read_eq_ok.1 hread
  obtain ⟨n', hn', -, rfl⟩ := Arena.modifyGet_eq_ok.1 hmod
  obtain rfl := Option.some.inj (hn.symm.trans hn')
  exact ⟨size, height, rfl⟩

/-- A node that is balanced is measured, and that is all. -/
theorem rebalance_eq_put (hn : f.live a = some n) (hheavy : f.heavySideAt a = .ok none)
    (h : rebalance a f = .ok c f') :
    c = a ∧ ∃ size height, f' = f.put a (some (n.record size height)) := by
  simp only [rebalance, Edit.bind_apply, Edit.read_apply, hheavy] at h
  rw [← Edit.bind_apply] at h
  obtain ⟨_, _, hr, h⟩ := Edit.bind_eq_ok.1 h
  cases h
  exact ⟨rfl, refresh_eq_put hn hr⟩

/-- **Balance is restored** at every node over two balanced subtrees that differ in height by two at
most, whatever the node has on record. -/
theorem rebalance_restores (h : f.Restorable a n xs ys i j) :
    ∃ c f', rebalance a f = .ok c f' ∧ f.Restored a n xs ys i j c f' := by
  have hheavy := h.heavySideAt_eq
  obtain ⟨left, hsl, hleft⟩ := h.left.sizeAt_eq
  obtain ⟨right, hsr, hright⟩ := h.right.sizeAt_eq
  obtain ⟨l, r, hj, rfl, rfl, rfl, rfl, hl, hr, hbl, hbr, hd⟩ := h.exists_joins
  obtain ⟨c, f', hok, hroot, hold, -⟩ :=
    rebalance_holds h.live_eq hj hl hr hd hbl hbr h.left_le h.right_le
  obtain ⟨hb, hh⟩ := Tree.balanced_balance (k := (a, n.key)) (v := n.value) hbl hbr h.left_le
    h.right_le
  have hheight : (Tree.balance l (a, n.key) n.value r).height = max l.height r.height ∨
      (Tree.balance l (a, n.key) n.value r).height = max l.height r.height + 1 := by omega
  have hsub : f'.Subtree (some c) (l.nodes ++ (a, n.entry) :: r.nodes)
      (Tree.balance l (a, n.key) n.value r).height := by
    have hd' : (Tree.balance l (a, n.key) n.value r).handles.Nodup := by
      rwa [Tree.handles_balance, ← Tree.handles_node]
    have hsub := hold.subtree hd' hb
    rwa [hroot, Tree.nodes_balance] at hsub
  refine ⟨c, f', hok, ⟨_, hsub, hheight⟩, ⟨left, right, ?_⟩, ?_, ?_, ?_⟩
  · obtain ⟨n', hn', hsize, hlevels⟩ := hsub.exists_root
    refine ⟨n', hsl, hsr, hn', ?_, hlevels ▸ hheight⟩
    rw [hsize, hleft, hright, List.length_append, List.length_cons, Nat.add_assoc]
  · intro h1 h2
    rw [if_neg (by omega), if_neg (by omega)] at hheavy
    exact rebalance_eq_put h.live_eq hheavy hok
  · intro hlt
    rw [if_neg (by omega), if_pos hlt] at hheavy
    exact rebalance_confined hheavy hok
  · intro hlt
    rw [if_pos hlt] at hheavy
    exact rebalance_confined hheavy hok

/-- A node with nothing true on record, over no subtree on the left and one on the right that is two
levels high and higher on its inner side. -/
def crooked : Forest Nat Nat :=
  ⟨#[some ⟨1, 10, none, some ⟨1, by decide⟩, ⟨9, by decide⟩, ⟨7, by decide⟩⟩,
    some ⟨3, 30, some ⟨2, by decide⟩, none, ⟨2, by decide⟩, ⟨2, by decide⟩⟩,
    some ⟨2, 20, none, none, .one, .one⟩], #[], 3⟩

/-- The inner grandchild rises above both, and the record is made good. -/
theorem rebalance_crooked :
    ∃ n, crooked.Restorable ⟨0, by decide⟩ n []
        [(⟨2, by decide⟩, 2, 20), (⟨1, by decide⟩, 3, 30)] 0 2 ∧
      ∃ f', rebalance ⟨0, by decide⟩ crooked = .ok ⟨2, by decide⟩ f' ∧
        crooked.Restored ⟨0, by decide⟩ n [] [(⟨2, by decide⟩, 2, 20), (⟨1, by decide⟩, 3, 30)] 0 2
          ⟨2, by decide⟩ f' := by
  have hg : crooked.live ⟨2, by decide⟩ = some (.single 2 20) := rfl
  have hb : crooked.live ⟨1, by decide⟩ =
    some ⟨3, 30, some ⟨2, by decide⟩, none, ⟨2, by decide⟩, ⟨2, by decide⟩⟩ := rfl
  have hinner := Subtree.node hg .nil .nil (by decide) (by decide) (by decide) rfl rfl
  have hright := Subtree.node hb hinner .nil (by decide) (by decide) (by decide) rfl rfl
  have hready : crooked.Restorable ⟨0, by decide⟩ _ []
      [(⟨2, by decide⟩, 2, 20), (⟨1, by decide⟩, 3, 30)] 0 2 :=
    ⟨rfl, .nil, hright, by decide, by decide, by decide⟩
  obtain ⟨c, f', hok, hres⟩ := rebalance_restores hready
  have hroot : (Edit.outcome (rebalance ⟨0, by decide⟩) crooked).1 = .ok ⟨2, by decide⟩ := rfl
  rw [Edit.outcome_eq_ok.2 hok] at hroot
  obtain rfl := Except.ok.inj hroot
  exact ⟨_, hready, f', hok, hres⟩

end Forest

end RankedMap
