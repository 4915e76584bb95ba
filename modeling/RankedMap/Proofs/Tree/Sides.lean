import RankedMap.Node
import RankedMap.Tree

/-!
# Trees seen from one side

What the operations on trees say once for the left and once for the right is said here for a side.
`nodeOn s near k v far` is the node over two subtrees of which `far` is on side `s`, and `raise` lets
the child on that side rise.  Turning a linked subtree is written for a side, and it is through
these that it is compared with `balance`, which is `balanceOn` for a side.
-/

set_option autoImplicit false

namespace RankedMap

namespace Tree

variable {K V : Type} {s : Side} {near far inner outer nearer further l r : Tree K V}
  {k kb kg : K} {v vb vg : V}

/-- The node over two subtrees, of which `far` is the one on side `s`. -/
def nodeOn (s : Side) (near : Tree K V) (key : K) (value : V) (far : Tree K V) : Tree K V :=
  match s with
  | .left => node far key value near
  | .right => node near key value far

/-- A node whose child on side `s` is too high, with that child or its inner child risen to the
root. -/
def raise (s : Side) (near : Tree K V) (key : K) (value : V) (far : Tree K V) : Tree K V :=
  match s with
  | .left => raiseLeft far key value near
  | .right => raiseRight near key value far

/-- The node over two subtrees, with balance restored there. -/
def balanceOn (s : Side) (near : Tree K V) (key : K) (value : V) (far : Tree K V) : Tree K V :=
  match s with
  | .left => balance far key value near
  | .right => balance near key value far

@[simp] theorem size_nodeOn : (nodeOn s near k v far).size = near.size + far.size + 1 := by
  cases s
  · simp only [nodeOn, size]; omega
  · rfl

@[simp] theorem height_nodeOn : (nodeOn s near k v far).height = max near.height far.height + 1 := by
  cases s
  · rw [nodeOn, height, Nat.max_comm]
  · rfl

theorem balanced_nodeOn_iff :
    (nodeOn s near k v far).Balanced ↔
      near.height ≤ far.height + 1 ∧ far.height ≤ near.height + 1 ∧ near.Balanced ∧
        far.Balanced := by
  cases s
  · exact ⟨fun ⟨h1, h2, hl, hr⟩ => ⟨h2, h1, hr, hl⟩, fun ⟨h1, h2, hl, hr⟩ => ⟨h2, h1, hr, hl⟩⟩
  · exact Iff.rfl

/-- A tree that is not empty is a node over two subtrees, whichever side they are seen from. -/
theorem exists_nodeOn (s : Side) {t : Tree K V} (ht : t.height ≠ 0) :
    ∃ near k v far, t = nodeOn s near k v far := by
  cases t with
  | nil => exact absurd rfl ht
  | node l k v r =>
    cases s
    · exact ⟨r, k, v, l, rfl⟩
    · exact ⟨l, k, v, r, rfl⟩

/-- Steps that are enough for a node leave enough for either subtree. -/
theorem exists_steps_of_height_le {steps : Nat} (h : (node l k v r).height ≤ steps) :
    ∃ n, steps = n + 1 ∧ l.height ≤ n ∧ r.height ≤ n := by
  rw [height] at h
  exact ⟨steps - 1, by omega, by omega, by omega⟩

/-- The child on side `s` rises when its outer subtree is at least as high as its inner one. -/
theorem raise_of_le (h : inner.height ≤ outer.height) :
    raise s near k v (nodeOn s inner kb vb outer) = nodeOn s (nodeOn s near k v inner) kb vb outer := by
  cases inner with
  | nil => cases s <;> rfl
  | node =>
    have hn := Nat.not_lt.2 h
    cases s
    · simp only [raise, nodeOn, raiseLeft, if_neg hn]
    · simp only [raise, nodeOn, raiseRight, if_neg hn]

/-- The inner grandchild rises when it is higher than the outer one. -/
theorem raise_of_lt (h : outer.height < (nodeOn s nearer kg vg further).height) :
    raise s near k v (nodeOn s (nodeOn s nearer kg vg further) kb vb outer) =
      nodeOn s (nodeOn s near k v nearer) kg vg (nodeOn s further kb vb outer) := by
  cases s <;> simp_all [raise, nodeOn, raiseLeft, raiseRight]

theorem balance_of_left (h : r.height + 1 < l.height) :
    balance l k v r = raise .left r k v l := if_pos h

theorem balance_of_right (h : l.height + 1 < r.height) :
    balance l k v r = raise .right l k v r := by
  rw [balance, if_neg (by omega), if_pos h]
  rfl

/-- A node that is balanced already stays as it is. -/
theorem balance_of_near (h1 : l.height ≤ r.height + 1) (h2 : r.height ≤ l.height + 1) :
    balance l k v r = node l k v r := by
  rw [balance, if_neg (by omega), if_neg (by omega)]

theorem balanceOn_of_lt (h : near.height + 1 < far.height) :
    balanceOn s near k v far = raise s near k v far := by
  cases s
  · exact balance_of_left h
  · exact balance_of_right h

theorem balanceOn_of_near (h1 : near.height ≤ far.height + 1) (h2 : far.height ≤ near.height + 1) :
    balanceOn s near k v far = nodeOn s near k v far := by
  cases s
  · exact balance_of_near h2 h1
  · exact balance_of_near h1 h2

/-! ## Taking the first entry out -/

theorem extractFirst_eq_none_iff {t : Tree K V} : t.extractFirst = none ↔ t = nil := by
  cases t with
  | nil => exact ⟨fun _ => rfl, fun _ => rfl⟩
  | node l k v r =>
    rw [extractFirst]
    split <;> exact ⟨nofun, nofun⟩

@[simp] theorem nil_join (r : Tree K V) : join nil r = r := rfl

@[simp] theorem join_nil (l : Tree K V) : join l nil = l := by
  cases l <;> rfl

theorem join_of_some {rest : Tree K V} (hl : l ≠ nil) (h : r.extractFirst = some ((k, v), rest)) :
    join l r = balance l k v rest := by
  cases l with
  | nil => exact absurd rfl hl
  | node => simp only [join, h]

end Tree

end RankedMap
