import RankedMap.Proofs.Forest.Logged
import RankedMap.Proofs.OrdMap.Machine

/-!
# How the height of a map changes

An insertion adds one level at most and drops none, and adds none when the key is found.  Taking an
entry out drops one level at most and adds none, and leaves the map as high as it was when the key
is not found.  This holds of every map that a run ends in, and at every level of the recursion it
holds of the subtree there, so that balance is restored only where it can be (`OrdMap.Steady`).
-/

set_option autoImplicit false

namespace RankedMap

namespace OrdMap

variable {K V : Type}

/-- A map of `k` levels gains or loses one level at most with one change, for every comparison. -/
structure Steady (m : OrdMap K V) (k : Nat) : Prop where
  /-- The map answers with its height. -/
  height_eq : m.height = .ok k
  /-- It says of every key whether it is found. -/
  contains_ok : ∀ cmp key, m.contains cmp key = .ok true ∨ m.contains cmp key = .ok false
  /-- Inserting under a key that is found leaves the height. -/
  insert_hit : ∀ cmp key value, m.contains cmp key = .ok true →
    ∃ old m', OrdMap.insert cmp key value m = .ok (some old) m' ∧ m'.height = .ok k
  /-- Inserting under a key that is not found leaves the height or adds one level. -/
  insert_miss : ∀ cmp key value, m.contains cmp key = .ok false →
    m.size ≠ .ok Size.maxCount →
    ∃ m', OrdMap.insert cmp key value m = .ok none m' ∧
      (m'.height = .ok k ∨ m'.height = .ok (k + 1))
  /-- When every handle names an entry, inserting under such a key fails and changes nothing. -/
  insert_full : ∀ cmp key value, m.contains cmp key = .ok false →
    m.size = .ok Size.maxCount → OrdMap.insert cmp key value m = .error .arenaFull m
  /-- Taking out an entry that is found leaves the height or drops one level. -/
  extract_hit : ∀ cmp key, m.contains cmp key = .ok true →
    ∃ e m', OrdMap.extract cmp key m = .ok (some e) m' ∧
      ∃ j, m'.height = .ok j ∧ (j = k ∨ j + 1 = k)
  /-- Taking out an entry that is not found leaves the height. -/
  extract_miss : ∀ cmp key, m.contains cmp key = .ok false →
    ∃ m', OrdMap.extract cmp key m = .ok none m' ∧ m'.height = .ok k
  /-- Erasing ends in the same map as taking out, and answers with the value. -/
  erase_eq : ∀ cmp key e m', OrdMap.extract cmp key m = .ok e m' →
    OrdMap.erase cmp key m = .ok (e.map (·.2)) m'
  /-- At every level of an insertion the subtree below keeps to this, and balance is restored only
  at nodes where it can be. -/
  insert_logs : ∀ cmp key value, m.nodes.LogsFairly
    (Forest.Logged.insertBelow cmp key value m.nodes.stepLimit m.root)
    (Forest.insert cmp key value m.root)
  /-- So it is when an entry is taken out. -/
  extract_logs : ∀ cmp key, m.nodes.LogsFairly
    (Forest.Logged.extractBelow cmp key m.nodes.stepLimit m.root)
    (Forest.extract cmp key m.root)

namespace Embodies

variable {m : OrdMap K V} {t : Placed K V} {cmp : K → K → Ordering} {key : K}

theorem height_insert_hit (hm : m.Embodies t) (value : V) (hc : m.contains cmp key = .ok true) :
    ∃ old m', OrdMap.insert cmp key value m = .ok (some old) m' ∧ m'.height = .ok t.height := by
  obtain ⟨e, hf⟩ := hm.contains_eq_true.1 hc
  obtain ⟨rank, hp⟩ := Tree.exists_hit_of_find?_eq_some hf
  obtain ⟨x⟩ : Nonempty Handle := inferInstance
  obtain ⟨m', hok, hm', -⟩ := hm.insert_hit_confined x hp value
  rw [Tree.snd_insert, hf] at hok
  refine ⟨_, m', hok, ?_⟩
  rw [Tree.landing_bare cmp x] at hp
  rw [hm'.height_eq, Tree.height_bare, Tree.fst_insert_of_hit hm.balanced hp, Tree.height_replaceAt]

theorem height_insert_miss (hm : m.Embodies t) (value : V) (hc : m.contains cmp key = .ok false)
    (hroom : m.size ≠ .ok Size.maxCount) :
    ∃ m', OrdMap.insert cmp key value m = .ok none m' ∧
      (m'.height = .ok t.height ∨ m'.height = .ok (t.height + 1)) := by
  have hf := hm.contains_eq_false.1 hc
  obtain ⟨rank, hp⟩ := Tree.exists_miss_of_find?_eq_none hf
  have hlt : t.size < Size.maxCount := by
    refine Nat.lt_of_le_of_ne hm.size_le fun he => hroom ?_
    rw [hm.size_eq, Tree.size_bare, he]
  obtain ⟨x, start, -, -, m', hok, hm', -⟩ := hm.insert_miss_confined hp hlt value
  rw [Tree.snd_insert, hf] at hok
  refine ⟨m', hok, ?_⟩
  rw [hm'.height_eq, Tree.height_bare, Except.ok.injEq, Except.ok.injEq]
  exact (Tree.balanced_insert (Tree.byKey cmp) (x, key) value hm.balanced).2

theorem insert_full (hm : m.Embodies t) (value : V) (hc : m.contains cmp key = .ok false)
    (hfull : m.size = .ok Size.maxCount) : OrdMap.insert cmp key value m = .error .arenaFull m := by
  obtain ⟨rank, hp⟩ := Tree.exists_miss_of_find?_eq_none (hm.contains_eq_false.1 hc)
  rw [hm.size_eq, Tree.size_bare, Except.ok.injEq] at hfull
  exact hm.insert_of_full hp hfull

theorem height_extract_hit (hm : m.Embodies t) (hc : m.contains cmp key = .ok true) :
    ∃ e m', OrdMap.extract cmp key m = .ok (some e) m' ∧
      ∃ j, m'.height = .ok j ∧ (j = t.height ∨ j + 1 = t.height) := by
  obtain ⟨e, hf⟩ := hm.contains_eq_true.1 hc
  obtain ⟨x⟩ : Nonempty Handle := inferInstance
  obtain ⟨f', m', -, -, -, hok, hm'⟩ := hm.extract_confined x cmp key
  rw [Tree.snd_extract, hf] at hok
  refine ⟨e, m', hok, _, hm'.height_eq, ?_⟩
  rw [Tree.height_bare]
  exact (Tree.balanced_extract (Tree.byKey cmp) (x, key) hm.balanced).2

theorem height_extract_miss (hm : m.Embodies t) (hc : m.contains cmp key = .ok false) :
    ∃ m', OrdMap.extract cmp key m = .ok none m' ∧ m'.height = .ok t.height := by
  have hf := hm.contains_eq_false.1 hc
  obtain ⟨rank, hp⟩ := Tree.exists_miss_of_find?_eq_none hf
  obtain ⟨x⟩ : Nonempty Handle := inferInstance
  obtain ⟨f', m', -, -, -, hok, hm'⟩ := hm.extract_confined x cmp key
  rw [Tree.snd_extract, hf] at hok
  refine ⟨m', hok, ?_⟩
  rw [Tree.landing_bare cmp x] at hp
  rw [hm'.height_eq, Tree.height_bare, Tree.extract_of_miss hm.balanced hp]

theorem insert_logs (hm : m.Embodies t) (cmp : K → K → Ordering) (key : K) (value : V) :
    m.nodes.LogsFairly (Forest.Logged.insertBelow cmp key value m.nodes.stepLimit m.root)
      (Forest.insert cmp key value m.root) := by
  rw [hm.root_eq]
  exact Forest.insertBelow_logsFairly hm.sound hm.holds hm.nodup hm.balanced hm.height_le_stepLimit

theorem extract_logs (hm : m.Embodies t) (cmp : K → K → Ordering) (key : K) :
    m.nodes.LogsFairly (Forest.Logged.extractBelow cmp key m.nodes.stepLimit m.root)
      (Forest.extract cmp key m.root) := by
  rw [hm.root_eq]
  exact Forest.extractBelow_logsFairly hm.holds hm.nodup hm.balanced hm.height_le_stepLimit

theorem steady (hm : m.Embodies t) : m.Steady t.height where
  height_eq := hm.height_eq.trans (by rw [Tree.height_bare])
  contains_ok cmp key := by
    rw [hm.contains_eq]
    cases (t.bare.find? cmp key).isSome
    · exact .inr rfl
    · exact .inl rfl
  insert_hit _ _ value hc := hm.height_insert_hit value hc
  insert_miss _ _ value hc hroom := hm.height_insert_miss value hc hroom
  insert_full _ _ value hc hfull := hm.insert_full value hc hfull
  extract_hit _ _ hc := hm.height_extract_hit hc
  extract_miss _ _ hc := hm.height_extract_miss hc
  erase_eq _ _ _ _ hok := erase_of_extract hok
  insert_logs := hm.insert_logs
  extract_logs := hm.extract_logs

end Embodies

/-- **Heights change step by step.**  After any run, whatever the comparisons were and whatever the
next one is, an insertion or a removal moves the height by one level at most, in the direction that
it may, and so it does with the height of every subtree that it rebuilds. -/
theorem steady_after (commands : List ((K → K → Ordering) × Command K V)) :
    ∃ k, (after commands).Steady k :=
  let ⟨_, hm⟩ := exists_embodies_after commands
  ⟨_, hm.steady⟩

end OrdMap

end RankedMap
