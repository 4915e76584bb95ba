import RankedMap.OrdMap.Command
import RankedMap.Proofs.Forest.Extraction
import RankedMap.Proofs.Forest.Subtree

/-!
# Detaching the first node of a subtree

When a node with two subtrees is taken out of the tree, the first node of its right subtree takes
its place.  `Forest.extractFirst` is called to get hold of that node: it goes down on the left as
far as there are nodes, makes a leaf of the last one, and restores balance at every node on the way
back up, so that each of the subtrees it came through may get another root.

`Forest.Detached` says what the caller can rely on afterwards, in terms of links, records and slots
alone.  The first node is a leaf in its slot, what is left is a balanced subtree over all the other
nodes, and the arena around the subtree is as it was.  That this is what the call ends in, for every
balanced subtree in any arena, is `extractFirst_detaches`.

The number of steps that the descent is given has no part in the answer: as many as the subtree has
levels are enough, there are never fewer slots than that, and a call that succeeds would do the same
with more of them (`extractFirst_of_le`).
-/

set_option autoImplicit false

namespace RankedMap

namespace Tree

variable {K V : Type}

/-- The first node is taken from the head of the list of nodes. -/
theorem nodes_extractFirst {t rest : Placed K V} {first : Handle} {k : K} {v : V}
    (h : t.extractFirst = some (((first, k), v), rest)) :
    t.nodes = (first, k, v) :: rest.nodes := by
  rw [nodes, toList_extractFirst h]
  rfl

end Tree

namespace Forest

variable {K V : Type} {f f' : Forest K V} {a : Handle} {xs : List (Handle × K × V)} {k : Nat}

/-- What taking out the first node `x` comes to, in a subtree of `k` levels at `a` in which the
nodes `xs` follow it: the forest `f'`, with `rest` for the link to what is left of the subtree. -/
structure Detached (f : Forest K V) (a : Handle) (x : Handle × K × V) (xs : List (Handle × K × V))
    (k : Nat) (rest : Link) (f' : Forest K V) : Prop where
  /-- The first node is a leaf now.  It is still in its slot, and has the entry that it had. -/
  leaf : f'.live x.1 = some (Node.single x.2.1 x.2.2)
  /-- What is left is a balanced subtree over the other nodes in the same order, as high as the
  whole was or one level lower. -/
  subtree : ∃ j, f'.Subtree rest xs j ∧ (j = k ∨ j + 1 = k)
  /-- The first node is not in it. -/
  notMem : x.1 ∉ xs.map (·.1)
  /-- It has a size on record that is one less than that of the whole was. -/
  size : ∃ size size', f.sizeAt (some a) = .ok size ∧ f'.sizeAt rest = .ok size' ∧
    size'.count + 1 = size.count
  /-- It has a height on record that is that of the whole, or one less. -/
  height : ∃ height height', f.heightAt (some a) = .ok height ∧ f'.heightAt rest = .ok height' ∧
    (height' = height ∨ height'.levels + 1 = height.levels)
  /-- Nothing is left where the first node was the only one, and only there. -/
  eq_none_iff : rest = none ↔ xs = []
  /-- Nothing was allocated or freed, and all slots but those of the subtree stay as they are. -/
  confined : Confined ((x :: xs).map (·.1)) f f'

/-- **More steps make no difference** to a descent that succeeds. -/
theorem extractFirst_of_le {steps steps' : Nat} {p : Link × Handle} (hle : steps ≤ steps')
    (hok : extractFirst steps a f = .ok p f') : extractFirst steps' a f = .ok p f' := by
  -- on the number that was enough, since each step down uses up one of both
  induction steps generalizing steps' f a p f' with
  | zero => cases hok
  | succ steps ih =>
    obtain ⟨steps', rfl⟩ := Nat.exists_eq_succ_of_ne_zero (Nat.ne_zero_of_lt hle)
    rw [extractFirst_succ] at hok ⊢
    obtain ⟨node, f₁, hread, hok⟩ := Edit.bind_eq_ok.1 hok
    refine Edit.bind_eq_ok.2 ⟨node, f₁, hread, ?_⟩
    cases hleft : node.left with
    | none => simpa only [hleft] using hok
    | some left =>
      simp only [hleft] at hok ⊢
      obtain ⟨below, f₂, hbelow, hok⟩ := Edit.bind_eq_ok.1 hok
      exact Edit.bind_eq_ok.2 ⟨below, f₂, ih (Nat.le_of_succ_le_succ hle) hbelow, hok⟩

/-- **The first node is detached** from every balanced subtree in any arena, and what is left is a
balanced subtree. -/
theorem extractFirst_detaches {nodes : List (Handle × K × V)} (h : f.Subtree (some a) nodes k) :
    ∃ x xs rest f', nodes = x :: xs ∧ k ≤ f.stepLimit ∧
      (∀ steps, k ≤ steps → extractFirst steps a f = .ok (rest, x.1) f') ∧
      f.Detached a x xs k rest f' := by
  have hlimit := h.le_stepLimit
  have hnodup := h.nodup
  obtain ⟨size, hsize, hcount⟩ := h.sizeAt_eq
  obtain ⟨height, hheight, hlevels⟩ := h.heightAt_eq
  obtain ⟨t, hroot, rfl, rfl, ht, hd, hb⟩ := h.exists_holds
  obtain ⟨first, key, value, rest, he⟩ := Tree.exists_extractFirst hroot
  -- one call with just enough steps stands for all of them
  obtain ⟨f', hok, hold, hleaf, hc⟩ := extractFirst_holds ht hd hb le_rfl hroot he
  obtain ⟨hb', hlow⟩ := Tree.balanced_extractFirst hb he
  have hnodes := Tree.nodes_extractFirst he
  rw [hnodes, List.map_cons, List.nodup_cons] at hnodup
  have hrest : f'.Subtree rest.root rest.nodes rest.height :=
    hold.subtree (by rw [← Tree.map_fst_nodes]; exact hnodup.2) hb'
  obtain ⟨size', hsize', hcount'⟩ := hrest.sizeAt_eq
  obtain ⟨height', hheight', hlevels'⟩ := hrest.heightAt_eq
  refine ⟨(first, key, value), rest.nodes, rest.root, f', hnodes, hlimit,
    fun steps hsteps => extractFirst_of_le hsteps hok, ?_⟩
  refine ⟨hleaf, ⟨_, hrest, hlow⟩, hnodup.1, ⟨size, size', hsize, hsize', ?_⟩,
    ⟨height, height', hheight, hheight', ?_⟩, hrest.eq_none_iff, ?_⟩
  · rw [hcount, hcount', hnodes, List.length_cons]
  · rw [Height.ext_iff, hlevels, hlevels']
    exact hlow
  · rwa [← hnodes, Tree.map_fst_nodes]

/-- A run after which six entries are below the first one, and the slot of an eighth is vacant. -/
def sevenEntriesRun : List ((Nat → Nat → Ordering) × OrdMap.Command Nat Nat) :=
  [(compare, .insert 5 50), (compare, .insert 2 20), (compare, .insert 7 70),
    (compare, .insert 1 10), (compare, .insert 6 60), (compare, .insert 9 90),
    (compare, .insert 8 80), (compare, .insert 3 30), (compare, .erase 3)]

/-- The nodes after that run. -/
def sevenEntries : Forest Nat Nat := (OrdMap.Command.runAll sevenEntriesRun .empty).2.nodes

/-- The right subtree of the root is higher on its own right, and there on the inner side.  Without
its first node the other three turn around, and the inner one rises. -/
theorem extractFirst_sevenEntries :
    sevenEntries.Subtree (some ⟨2, by decide⟩)
        [(⟨4, by decide⟩, 6, 60), (⟨2, by decide⟩, 7, 70), (⟨6, by decide⟩, 8, 80),
          (⟨5, by decide⟩, 9, 90)] 3 ∧
      ∃ f', extractFirst 3 ⟨2, by decide⟩ sevenEntries =
          .ok (some ⟨6, by decide⟩, ⟨4, by decide⟩) f' ∧
        sevenEntries.Detached ⟨2, by decide⟩ (⟨4, by decide⟩, 6, 60)
          [(⟨2, by decide⟩, 7, 70), (⟨6, by decide⟩, 8, 80), (⟨5, by decide⟩, 9, 90)] 3
          (some ⟨6, by decide⟩) f' := by
  have hfirst : sevenEntries.live ⟨4, by decide⟩ = some (.single 6 60) := by decide +kernel
  have hinner : sevenEntries.live ⟨6, by decide⟩ = some (.single 8 80) := by decide +kernel
  have hright : sevenEntries.live ⟨5, by decide⟩ =
    some ⟨9, 90, some ⟨6, by decide⟩, none, ⟨2, by decide⟩, ⟨2, by decide⟩⟩ := by decide +kernel
  have hroot : sevenEntries.live ⟨2, by decide⟩ =
    some ⟨7, 70, some ⟨4, by decide⟩, some ⟨5, by decide⟩, ⟨4, by decide⟩, ⟨3, by decide⟩⟩ := by
    decide +kernel
  have hsub₁ := Subtree.node hfirst .nil .nil (by decide) (by decide) (by decide) rfl rfl
  have hsub₂ := Subtree.node hinner .nil .nil (by decide) (by decide) (by decide) rfl rfl
  have hsub₃ := Subtree.node hright hsub₂ .nil (by decide) (by decide) (by decide) rfl rfl
  have hsub := Subtree.node hroot hsub₁ hsub₃ (by decide) (by decide) (by decide) rfl rfl
  obtain ⟨x, xs, rest, f', hnodes, -, hok, hdet⟩ := extractFirst_detaches hsub
  have hrest : (Edit.outcome (extractFirst 3 ⟨2, by decide⟩) sevenEntries).1 =
    .ok (some ⟨6, by decide⟩, ⟨4, by decide⟩) := by decide +kernel
  have hok := hok 3 le_rfl
  rw [Edit.outcome_eq_ok.2 hok] at hrest
  obtain ⟨rfl, -⟩ := Prod.mk.inj (Except.ok.inj hrest)
  obtain ⟨rfl, rfl⟩ := List.cons.inj hnodes
  exact ⟨hsub, f', hok, hdet⟩

end Forest

end RankedMap
