import Mathlib.Data.Nat.Fib.Basic
import Mathlib.Order.Bounds.Defs
import RankedMap.Proofs.Forest.Links
import RankedMap.Proofs.OrdMap.Machine

/-!
# How high a map can get

A balanced tree of `k` levels has at least `fib (k + 2) - 1` nodes and fewer than `2 ^ k`
(`Tree.fib_le_size`, `Tree.size_lt_two_pow_height`).  The first bound is the best one there is:
`Tree.sparse` attains it (`Tree.isLeast_size`).  Together with the number of handles it limits a map
to 45 levels, and a tree of so few levels has no more than `1.44 * log2 (n + 2)` of them.  The
constant 1.44 is a little smaller than the one that Fibonacci numbers grow by, so this last bound is
one of maps and not of balanced trees in general.

`Bounded` puts the bounds together, and `bounded_after` states them for every map that a run ends in
and for what every node has on record.
-/

set_option autoImplicit false

namespace RankedMap

/-- How the number of nodes of a tree and the number of its levels bound each other. -/
structure Bounded (size height : Nat) : Prop where
  /-- There is a handle for every node. -/
  size_le : size ≤ 2 ^ 32 - 1
  /-- There are no fewer nodes than in the sparsest balanced tree. -/
  fib_le : Nat.fib (height + 2) - 1 ≤ size
  /-- There are no more nodes than in the fullest tree. -/
  size_le_two_pow : size ≤ 2 ^ height - 1
  /-- There are few levels. -/
  height_le : height ≤ 45
  /-- There are `1.44 * log2 (size + 2)` levels at most. -/
  two_pow_le : 2 ^ (25 * height) ≤ (size + 2) ^ 36

namespace Tree

variable {K V : Type}

/-! ## The sparsest trees -/

/-- A balanced tree with a given number of levels and no node too many. -/
def sparse : Nat → Tree Unit Unit
  | 0 => nil
  | 1 => node nil () () nil
  | n + 2 => node (sparse (n + 1)) () () (sparse n)

@[simp] theorem height_sparse (n : Nat) : (sparse n).height = n := by
  fun_induction sparse n with
  | case1 => rfl
  | case2 => rfl
  | case3 n ih1 ih0 =>
    rw [height, ih1, ih0]
    omega

theorem size_sparse (n : Nat) : (sparse n).size + 1 = Nat.fib (n + 2) := by
  fun_induction sparse n with
  | case1 => rfl
  | case2 => rfl
  | case3 n ih1 ih0 =>
    rw [size, Nat.fib_add_two, ← ih1, ← ih0]
    omega

theorem balanced_sparse (n : Nat) : (sparse n).Balanced := by
  fun_induction sparse n with
  | case1 => trivial
  | case2 => exact ⟨Nat.zero_le _, Nat.zero_le _, trivial, trivial⟩
  | case3 n ih1 ih0 =>
    have h1 := height_sparse (n + 1)
    have h0 := height_sparse n
    exact ⟨by omega, by omega, ih1, ih0⟩

/-- The least number of nodes in a balanced tree with a given number of levels. -/
theorem isLeast_size (k : Nat) :
    IsLeast {n | ∃ t : Tree Unit Unit, t.Balanced ∧ t.height = k ∧ t.size = n}
      (Nat.fib (k + 2) - 1) := by
  constructor
  · refine ⟨sparse k, balanced_sparse k, height_sparse k, ?_⟩
    rw [← size_sparse, Nat.add_sub_cancel]
  · rintro n ⟨t, ht, rfl, rfl⟩
    exact Nat.sub_le_of_le_add (fib_le_size ht)

/-! ## The logarithmic bound -/

/-- The sparsest trees of up to 45 levels satisfy the logarithmic bound. -/
theorem two_pow_le_fib : ∀ k ≤ 45, 2 ^ (25 * k) ≤ (Nat.fib (k + 2) + 1) ^ 36 := by
  decide +kernel

theorem Balanced.bounded {t : Tree K V} (ht : t.Balanced) (hs : t.size ≤ Size.maxCount) :
    Bounded t.size t.height where
  size_le := hs
  fib_le := Nat.sub_le_of_le_add (fib_le_size ht)
  size_le_two_pow := Nat.le_sub_one_of_lt (size_lt_two_pow_height t)
  height_le := height_le ht hs
  two_pow_le := by
    -- 1.44 is too small a constant for all heights, so the 46 that occur are computed
    have hfib := fib_le_size ht
    calc 2 ^ (25 * t.height) ≤ (Nat.fib (t.height + 2) + 1) ^ 36 :=
          two_pow_le_fib t.height (height_le ht hs)
      _ ≤ (t.size + 2) ^ 36 := Nat.pow_le_pow_left (by omega) 36

end Tree

/-! ## Maps -/

/-- What a node of a held tree has on record is bounded. -/
theorem Forest.Holds.bounded {K V : Type} {f : Forest K V} {t : Placed K V} {h : Handle}
    (ht : f.Holds t) (hb : t.Balanced) (hd : t.handles.Nodup) (hh : h ∈ t.handles) :
    ∃ n, f.live h = some n ∧ Bounded n.size.count n.height.levels := by
  obtain ⟨l, k, v, r, ⟨⟨n, hn, hnt⟩, -, -⟩, hb', hsub⟩ := ht.exists_node hb hh
  refine ⟨n, hn, ?_⟩
  rw [hnt.size_eq, hnt.height_eq]
  exact hb'.bounded (Tree.size_le_maxCount (hd.sublist hsub))

namespace OrdMap

variable {K V : Type}

/-- **Size and height bound each other.**  After any run this holds of the size and the height that
the map answers, and of what every node under the root has on record; and the lower bound of the
size is the best one there is. -/
theorem bounded_after (commands : List ((K → K → Ordering) × Command K V)) :
    (∃ n k, (after commands).size = .ok n ∧ (after commands).height = .ok k ∧ Bounded n k) ∧
    (∀ h, (after commands).nodes.Under (after commands).root h →
      ∃ n, (after commands).nodes.live h = some n ∧ Bounded n.size.count n.height.levels) ∧
    ∀ k, IsLeast {n | ∃ t : Tree Unit Unit, t.Balanced ∧ t.height = k ∧ t.size = n}
      (Nat.fib (k + 2) - 1) := by
  obtain ⟨t, hm⟩ := exists_embodies_after commands
  refine ⟨⟨t.bare.size, t.bare.height, hm.size_eq, hm.height_eq, ?_⟩, ?_, Tree.isLeast_size⟩
  · rw [Tree.size_bare, Tree.height_bare]
    exact hm.balanced.bounded hm.size_le
  · intro h hu
    rw [hm.root_eq] at hu
    exact hm.holds.bounded hm.balanced hm.nodup ((Forest.under_iff hm.holds hm.nodup).1 hu)

end OrdMap

end RankedMap
