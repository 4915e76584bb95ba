import RankedMap.Forest.Basic
import RankedMap.Proofs.Forest.Placed

/-!
# Restoring balance in a forest

`Forest.rebalance` does to linked nodes what `Tree.balance` does to a tree as a value
(`rebalance_holds`).  The node it is called for may have anything on record: its subtrees are what
counts, and they must be held, balanced, and not differ in height by more than two.

All three nodes that a rotation can turn are linked anew and measured anew in the same way, from
below upwards.  `relink_holds` is that one step: a node which is given two held subtrees and then
refreshed is the root of a held tree, and no other node is touched.
-/

set_option autoImplicit false

namespace RankedMap

namespace Forest

variable {K V : Type} {f : Forest K V} {n : Node K V} {h : Handle} {k : K} {v : V}
  {l r near far : Placed K V} {s : Side} {hs : List Handle}

/-! ## Measuring one node -/

theorem measure_of_joins (hn : f.live h = some n) (hj : n.Joins (.node l (h, k) v r))
    (hl : f.Holds l) (hr : f.Holds r) (hs : l.size + r.size + 1 ≤ Size.maxCount)
    (hh : max l.height r.height + 1 ≤ Height.maxLevels) :
    ∃ size height, f.measure h = .ok (size, height) ∧ size.count = l.size + r.size + 1 ∧
      height.levels = max l.height r.height + 1 := by
  obtain ⟨-, -, hleft, hright⟩ := hj
  obtain ⟨sl, hsl, hsl'⟩ := sizeAt_root hl
  obtain ⟨sr, hsr, hsr'⟩ := sizeAt_root hr
  obtain ⟨tl, htl, htl'⟩ := heightAt_root hl
  obtain ⟨tr, htr, htr'⟩ := heightAt_root hr
  have hsize : Size.ofNat (sl.count + sr.count + 1) = .ok ⟨l.size + r.size + 1, hs⟩ := by
    rw [hsl', hsr']
    exact dif_pos hs
  have hheight : (max tl tr).above = .ok ⟨max l.height r.height + 1, hh⟩ := by
    rw [Height.above, Height.levels_max, htl', htr']
    exact dif_pos hh
  refine ⟨⟨l.size + r.size + 1, hs⟩, ⟨max l.height r.height + 1, hh⟩, ?_, rfl, rfl⟩
  simp only [measure, Arena.get_eq_ok.2 hn, hleft, hright, bind, Except.bind, hsl, hsr, htl, htr,
    hsize, hheight]
  rfl

/-- A node that is linked to two held trees gets their true measures by a refresh. -/
theorem refresh_of_joins (hn : f.live h = some n) (hj : n.Joins (.node l (h, k) v r))
    (hl : f.Holds l) (hr : f.Holds r) (hs : l.size + r.size + 1 ≤ Size.maxCount)
    (hh : max l.height r.height + 1 ≤ Height.maxLevels) :
    ∃ n', refresh h f = .ok () (f.put h (some n')) ∧ n'.Tops (.node l (h, k) v r) := by
  obtain ⟨size, height, hm, hsize, hheight⟩ := measure_of_joins hn hj hl hr hs hh
  refine ⟨n.record size height, ?_, ⟨hj, hsize, hheight⟩⟩
  simp only [refresh, Edit.bind_apply, Edit.read_apply, hm, Arena.modify_of_live hn]

/-- **Linking and measuring one node.**  A node that is linked to two held trees on either side and
then refreshed is the root of a held tree. -/
theorem relink_holds (g : Node K V → Node K V) (hn : f.live h = some n)
    (hj : (g n).Joins (.nodeOn s near (h, k) v far)) (hnear : f.Holds near) (hfar : f.Holds far)
    (hnot : h ∉ near.handles) (hnot' : h ∉ far.handles)
    (hs : near.size + far.size + 1 ≤ Size.maxCount)
    (hh : max near.height far.height + 1 ≤ Height.maxLevels) :
    ∃ f₁ f₂, Arena.modify h g f = .ok () f₁ ∧ refresh h f₁ = .ok () f₂ ∧
      f₂.Holds (.nodeOn s near (h, k) v far) ∧ Confined [h] f f₂ := by
  have hc := Confined.put hn (g n)
  have hn₁ : (f.put h (some (g n))).live h = some (g n) := by rw [Arena.live_put hn, if_pos rfl]
  have hnear₁ := hnear.confined hc (by simpa using hnot)
  have hfar₁ := hfar.confined hc (by simpa using hnot')
  obtain ⟨n', hok, ht⟩ : ∃ n', refresh h (f.put h (some (g n))) =
      .ok () ((f.put h (some (g n))).put h (some n')) ∧ n'.Tops (.nodeOn s near (h, k) v far) := by
    cases s with
    | left => exact refresh_of_joins hn₁ hj hfar₁ hnear₁ (by omega) (by omega)
    | right => exact refresh_of_joins hn₁ hj hnear₁ hfar₁ hs hh
  have hc' := Confined.put hn₁ n'
  refine ⟨_, _, Arena.modify_of_live hn g, hok, holds_nodeOn.2 ⟨⟨n', ?_, ht⟩, ?_, ?_⟩, hc.trans hc'⟩
  · rw [Arena.live_put hn₁, if_pos rfl]
  · exact hnear₁.confined hc' (by simpa using hnot)
  · exact hfar₁.confined hc' (by simpa using hnot')

/-! ## Turning a subtree -/

theorem childAt_of_live (hn : f.live h = some n) (s : Side) : f.childAt h s = .ok (n.child s) := by
  simp only [childAt, Arena.get_eq_ok.2 hn]
  rfl

section Rotate

variable {a b g : Handle} {nb ng : Node K V} {kb kg : K} {vb vg : V}
  {inner outer nearer further : Placed K V}

/-- A single rotation: the child on the side that is too high rises. -/
theorem rotate_holds_of_le (hn : f.live a = some n)
    (hj : n.Joins (.nodeOn s near (a, k) v (.nodeOn s inner (b, kb) vb outer))) (hnear : f.Holds near)
    (hfar : f.Holds (.nodeOn s inner (b, kb) vb outer))
    (hd : (Tree.nodeOn s near (a, k) v (.nodeOn s inner (b, kb) vb outer)).handles.Nodup)
    (hle : inner.height ≤ outer.height)
    (hh : max near.height outer.height + 2 ≤ Height.maxLevels) :
    ∃ f', rotate s a f = .ok b f' ∧
      f'.Holds (.nodeOn s (.nodeOn s near (a, k) v inner) (b, kb) vb outer) ∧
      Confined [a, b] f f' := by
  have hsize := Tree.size_le_maxCount hd
  simp only [Tree.size_nodeOn] at hsize
  simp only [Tree.nodup_handles_nodeOn, Tree.mem_handles_nodeOn, Tree.disjoint_handles_nodeOn,
    not_or] at hd
  obtain ⟨⟨nb, hnb, htb⟩, hinner, houter⟩ := holds_nodeOn.1 hfar
  have hjb := htb.joins
  obtain ⟨hi, hhi, hhi'⟩ := heightAt_root hinner
  obtain ⟨ho, hho, hho'⟩ := heightAt_root houter
  have hle' : hi ≤ ho := by rw [Height.le_def]; omega
  obtain ⟨f₁, f₂, hm₁, hr₁, hold₁, hc₁⟩ := relink_holds (·.setChild s inner.root) hn
    (hj.setChild inner) hnear hinner (by tauto) (by tauto) (by omega) (by omega)
  have hnb₁ : f₂.live b = some nb := by rwa [hc₁.live_eq b (by simp; tauto)]
  obtain ⟨f₃, f₄, hm₂, hr₂, hold₂, hc₂⟩ := relink_holds (·.setChild s.opposite (some a)) hnb₁
    (by simpa using hjb.setChild_opposite (.nodeOn s near (a, k) v inner)) hold₁
    (houter.confined hc₁ (by simp; tauto)) (by rw [Tree.mem_handles_nodeOn]; tauto) (by tauto)
    (by rw [Tree.size_nodeOn]; omega) (by rw [Tree.height_nodeOn]; omega)
  refine ⟨f₄, ?_, hold₂, (hc₁.mono (by simp)).trans (hc₂.mono (by simp))⟩
  simp only [rotate, Edit.bind_apply, Edit.read_apply, childAt_of_live hn, childAt_of_live hnb,
    hj.child, hjb.child_opposite, hjb.child, Tree.root_nodeOn, hhi, hho, if_pos hle', hm₁, hr₁, hm₂,
    hr₂]
  rfl

/-- A double rotation: the inner grandchild rises above both. -/
theorem rotate_holds_of_lt (hn : f.live a = some n)
    (hj : n.Joins
      (.nodeOn s near (a, k) v (.nodeOn s (.nodeOn s nearer (g, kg) vg further) (b, kb) vb outer)))
    (hnear : f.Holds near)
    (hfar : f.Holds (.nodeOn s (.nodeOn s nearer (g, kg) vg further) (b, kb) vb outer))
    (hd : (Tree.nodeOn s near (a, k) v
      (.nodeOn s (.nodeOn s nearer (g, kg) vg further) (b, kb) vb outer)).handles.Nodup)
    (hlt : outer.height < max nearer.height further.height + 1)
    (hh : max near.height (max nearer.height further.height + 1) + 2 ≤ Height.maxLevels) :
    ∃ f', rotate s a f = .ok g f' ∧
      f'.Holds (.nodeOn s (.nodeOn s near (a, k) v nearer) (g, kg) vg
        (.nodeOn s further (b, kb) vb outer)) ∧
      Confined [a, b, g] f f' := by
  have hsize := Tree.size_le_maxCount hd
  simp only [Tree.size_nodeOn] at hsize
  simp only [Tree.nodup_handles_nodeOn, Tree.mem_handles_nodeOn, Tree.disjoint_handles_nodeOn,
    List.disjoint_comm, not_or] at hd
  obtain ⟨⟨nb, hnb, htb⟩, hinner, houter⟩ := holds_nodeOn.1 hfar
  obtain ⟨⟨ng, hng, htg⟩, hnearer, hfurther⟩ := holds_nodeOn.1 hinner
  have hjb := htb.joins
  have hjg := htg.joins
  obtain ⟨hi, hhi, hhi'⟩ := heightAt_root hinner
  obtain ⟨ho, hho, hho'⟩ := heightAt_root houter
  rw [Tree.root_nodeOn] at hhi
  rw [Tree.height_nodeOn] at hhi'
  have hle' : ¬hi ≤ ho := by rw [Height.le_def]; omega
  obtain ⟨f₁, f₂, hm₁, hr₁, hold₁, hc₁⟩ := relink_holds (·.setChild s nearer.root) hn
    (hj.setChild nearer) hnear hnearer (by tauto) (by tauto) (by omega) (by omega)
  have hnb₁ : f₂.live b = some nb := by rwa [hc₁.live_eq b (by simp; tauto)]
  obtain ⟨f₃, f₄, hm₂, hr₂, hold₂, hc₂⟩ := relink_holds (·.setChild s.opposite further.root) hnb₁
    (hjb.setChild_opposite further) (hfurther.confined hc₁ (by simp; tauto))
    (houter.confined hc₁ (by simp; tauto)) (by tauto) (by tauto) (by omega) (by omega)
  have hng₂ : f₄.live g = some ng := by
    rwa [hc₂.live_eq g (by simp; tauto), hc₁.live_eq g (by simp; tauto)]
  have hjg₂ := (hjg.setChild_opposite (.nodeOn s near (a, k) v nearer)).setChild
    (.nodeOn s further (b, kb) vb outer)
  obtain ⟨f₅, f₆, hm₃, hr₃, hold₃, hc₃⟩ := relink_holds
    (fun n => (n.setChild s.opposite (some a)).setChild s (some b)) hng₂ (by simpa using hjg₂)
    (hold₁.confined hc₂ (by simp [Tree.mem_handles_nodeOn]; tauto)) hold₂
    (by rw [Tree.mem_handles_nodeOn]; tauto) (by rw [Tree.mem_handles_nodeOn]; tauto)
    (by simp only [Tree.size_nodeOn]; omega) (by simp only [Tree.height_nodeOn]; omega)
  refine ⟨f₆, ?_, hold₃,
    (hc₁.mono (by simp)).trans ((hc₂.mono (by simp)).trans (hc₃.mono (by simp)))⟩
  simp only [rotate, Edit.bind_apply, Edit.read_apply, childAt_of_live hn, childAt_of_live hnb,
    childAt_of_live hng, hj.child, hjb.child_opposite, hjb.child, hjg.child_opposite, hjg.child,
    Tree.root_nodeOn, hhi, hho, if_neg hle', hm₁, hr₁, hm₂, hr₂, hm₃, hr₃]
  rfl

/-- **Turning a subtree** is `Tree.raise`. -/
theorem rotate_holds (hn : f.live a = some n) (hj : n.Joins (.nodeOn s near (a, k) v far))
    (hnear : f.Holds near) (hfar : f.Holds far)
    (hd : (Tree.nodeOn s near (a, k) v far).handles.Nodup) (hb : far.Balanced)
    (hh : far.height = near.height + 2) :
    ∃ c f', rotate s a f = .ok c f' ∧ (Tree.raise s near (a, k) v far).root = some c ∧
      f'.Holds (Tree.raise s near (a, k) v far) ∧
      Confined (Tree.nodeOn s near (a, k) v far).handles f f' := by
  have hsize := Tree.size_le_maxCount hd
  rw [Tree.size_nodeOn] at hsize
  have h45 := Tree.height_le hb (by omega)
  obtain ⟨inner, ⟨b, kb⟩, vb, outer, rfl⟩ := Tree.exists_nodeOn s (t := far) (by omega)
  rw [Tree.height_nodeOn] at h45 hh
  have h255 : Height.maxLevels = 255 := rfl
  rcases Nat.lt_or_ge outer.height inner.height with hlt | hle
  · obtain ⟨nearer, ⟨g, kg⟩, vg, further, rfl⟩ := Tree.exists_nodeOn s (t := inner) (by omega)
    rw [Tree.raise_of_lt hlt]
    rw [Tree.height_nodeOn] at h45 hh hlt
    obtain ⟨f', hok, hold, hc⟩ := rotate_holds_of_lt hn hj hnear hfar hd hlt (by omega)
    exact ⟨g, f', hok, Tree.root_nodeOn .., hold, hc.mono (by simp [Tree.mem_handles_nodeOn])⟩
  · obtain ⟨f', hok, hold, hc⟩ := rotate_holds_of_le hn hj hnear hfar hd hle (by omega)
    rw [Tree.raise_of_le hle]
    exact ⟨b, f', hok, Tree.root_nodeOn .., hold, hc.mono (by simp [Tree.mem_handles_nodeOn])⟩

end Rotate

/-! ## Restoring balance -/

theorem heavySideAt_of_joins (hn : f.live h = some n) (hj : n.Joins (.node l (h, k) v r))
    (hl : f.Holds l) (hr : f.Holds r) :
    f.heavySideAt h = .ok
      (if l.height + 1 < r.height then some .right
        else if r.height + 1 < l.height then some .left
        else none) := by
  obtain ⟨-, -, hleft, hright⟩ := hj
  obtain ⟨tl, htl, htl'⟩ := heightAt_root hl
  obtain ⟨tr, htr, htr'⟩ := heightAt_root hr
  have hlo : tl.diff tr < -1 ↔ l.height + 1 < r.height := by rw [Height.diff]; omega
  have hhi : tl.diff tr > 1 ↔ r.height + 1 < l.height := by rw [Height.diff]; omega
  simp only [heavySideAt, Arena.get_eq_ok.2 hn, hleft, hright, bind, Except.bind, htl, htr,
    heavySide, hlo, hhi]
  rfl

/-- **Restoring balance** is `Tree.balance`.  The node may have anything on record, and its two
subtrees may differ in height by two. -/
theorem rebalance_holds (hn : f.live h = some n) (hj : n.Joins (.node l (h, k) v r))
    (hl : f.Holds l) (hr : f.Holds r) (hd : (Tree.node l (h, k) v r).handles.Nodup)
    (hbl : l.Balanced) (hbr : r.Balanced) (h1 : l.height ≤ r.height + 2)
    (h2 : r.height ≤ l.height + 2) :
    ∃ c f', rebalance h f = .ok c f' ∧ (Tree.balance l (h, k) v r).root = some c ∧
      f'.Holds (Tree.balance l (h, k) v r) ∧ Confined (Tree.node l (h, k) v r).handles f f' := by
  have hheavy := heavySideAt_of_joins hn hj hl hr
  rcases Nat.lt_or_ge (l.height + 1) r.height with hlt | hge
  · obtain ⟨c, f', hok, hroot, hold, hc⟩ := rotate_holds (s := .right) hn hj hl hr hd hbr (by omega)
    rw [Tree.balance_of_right hlt]
    refine ⟨c, f', ?_, hroot, hold, hc⟩
    simp only [rebalance, Edit.bind_apply, Edit.read_apply, hheavy, if_pos hlt, hok]
  rcases Nat.lt_or_ge (r.height + 1) l.height with hlt | hge'
  · obtain ⟨c, f', hok, hroot, hold, hc⟩ := rotate_holds (s := .left) hn hj hr hl hd hbl (by omega)
    rw [Tree.balance_of_left hlt]
    refine ⟨c, f', ?_, hroot, hold, hc⟩
    simp only [rebalance, Edit.bind_apply, Edit.read_apply, hheavy, if_neg (Nat.not_lt.2 hge),
      if_pos hlt, hok]
  · have hs := Tree.size_le_maxCount hd
    simp only [Tree.size] at hs
    have h45 := Tree.height_le hbl (by omega)
    have h45' := Tree.height_le hbr (by omega)
    obtain ⟨n', hok, ht⟩ := refresh_of_joins hn hj hl hr hs (by simp only [Height.maxLevels]; omega)
    have hc := Confined.put hn n'
    rw [Tree.nodup_handles_node] at hd
    rw [Tree.balance_of_near hge' hge]
    refine ⟨h, _, ?_, rfl, ⟨⟨n', ?_, ht⟩, ?_, ?_⟩, hc.mono (by simp)⟩
    · simp only [rebalance, Edit.bind_apply, Edit.read_apply, hheavy, if_neg (Nat.not_lt.2 hge),
        if_neg (Nat.not_lt.2 hge'), hok]
      rfl
    · rw [Arena.live_put hn, if_pos rfl]
    · exact hl.confined hc (by simp; tauto)
    · exact hr.confined hc (by simp; tauto)

/-- A node that is linked to two held subtrees and then rebalanced. -/
theorem rejoin_holds (g : Node K V → Node K V) (hn : f.live h = some n)
    (hj : (g n).Joins (.nodeOn s near (h, k) v far)) (hnear : f.Holds near) (hfar : f.Holds far)
    (hd : (Tree.nodeOn s near (h, k) v far).handles.Nodup) (hbn : near.Balanced) (hbf : far.Balanced)
    (h1 : near.height ≤ far.height + 2) (h2 : far.height ≤ near.height + 2) :
    ∃ c f₁ f₂, Arena.modify h g f = .ok () f₁ ∧ rebalance h f₁ = .ok c f₂ ∧
      (Tree.balanceOn s near (h, k) v far).root = some c ∧
      f₂.Holds (Tree.balanceOn s near (h, k) v far) ∧
      Confined (Tree.nodeOn s near (h, k) v far).handles f f₂ := by
  have hc := Confined.put hn (g n)
  have hn₁ : (f.put h (some (g n))).live h = some (g n) := by rw [Arena.live_put hn, if_pos rfl]
  have hnot := Tree.nodup_handles_nodeOn.1 hd
  have hnear₁ := hnear.confined hc (by simp; tauto)
  have hfar₁ := hfar.confined hc (by simp; tauto)
  have hmod := Arena.modify_of_live hn g
  have hsub : [h] ⊆ (Tree.nodeOn s near (h, k) v far).handles := by simp [Tree.mem_handles_nodeOn]
  cases s with
  | left =>
    obtain ⟨c, f₂, hok, hroot, hold, hc'⟩ := rebalance_holds hn₁ hj hfar₁ hnear₁ hd hbf hbn h2 h1
    exact ⟨c, _, f₂, hmod, hok, hroot, hold, (hc.mono hsub).trans hc'⟩
  | right =>
    obtain ⟨c, f₂, hok, hroot, hold, hc'⟩ := rebalance_holds hn₁ hj hnear₁ hfar₁ hd hbn hbf h1 h2
    exact ⟨c, _, f₂, hmod, hok, hroot, hold, (hc.mono hsub).trans hc'⟩

/-- **One step on the way back up**: the subtree on one side has been changed into another one,
within the slots of that; the node is linked to it and rebalanced. -/
theorem climb_holds {start : Forest K V} {far' : Placed K V} {link : Link}
    (hn : start.live h = some n) (hj : n.Joins (.nodeOn s near (h, k) v far)) (hnear : start.Holds near)
    (hfar : f.Holds far') (hc : Confined hs start f) (hlink : far'.root = link)
    (hnot : h ∉ hs) (hdis : near.handles.Disjoint hs)
    (hd : (Tree.nodeOn s near (h, k) v far').handles.Nodup) (hbn : near.Balanced)
    (hbf : far'.Balanced) (h1 : near.height ≤ far'.height + 2) (h2 : far'.height ≤ near.height + 2) :
    ∃ c f₁ f₂, Arena.modify h (·.setChild s link) f = .ok () f₁ ∧ rebalance h f₁ = .ok c f₂ ∧
      (Tree.balanceOn s near (h, k) v far').root = some c ∧
      f₂.Holds (Tree.balanceOn s near (h, k) v far') ∧
      Confined (Tree.nodeOn s near (h, k) v far').handles f f₂ := by
  subst hlink
  exact rejoin_holds (·.setChild s far'.root) ((hc.live_eq h hnot).trans hn) (hj.setChild far')
    (hnear.confined hc hdis) hfar hd hbn hbf h1 h2

end Forest

end RankedMap
