import Mathlib.Data.Finset.Card
import Mathlib.Data.Finset.Range
import Mathlib.Logic.Function.Basic
import Mathlib.Tactic.SplitIfs
import Mathlib.Tactic.Push

/-! Linear probing over a ring of `n` slots, with deletion by backward shift.
Slots are numbers below `n`; the forward distance `gap` replaces modular
arithmetic, so every cyclic argument is a case split for `omega`. Any type with
a zero serves as the keys: the zero marks an empty slot. -/
namespace LinearProbing

/-- The slot after `i` on a ring of `n` slots. -/
def next (n i : Nat) : Nat := if i + 1 = n then 0 else i + 1

/-- How many times `next` leads from `i` to `j`. -/
def gap (n i j : Nat) : Nat := if i ≤ j then j - i else n + j - i

theorem next_lt (range : i < n) : next n i < n := by
  unfold next
  split_ifs <;> omega

theorem gap_lt (hi : i < n) (hj : j < n) : gap n i j < n := by
  unfold gap
  split_ifs <;> omega

theorem gap_self (n i : Nat) : gap n i i = 0 := by simp [gap]

theorem gap_eq_zero (hi : i < n) (same : gap n i j = 0) : j = i := by
  unfold gap at same
  split_ifs at same <;> omega

theorem gap_next (hi : i < n) (short : gap n i j + 1 < n) :
    gap n i (next n j) = gap n i j + 1 := by
  unfold gap next at *
  split_ifs at * <;> omega

theorem gap_inj (hi : i < n) (hj : j < n) (hk : k < n) (same : gap n i j = gap n i k) : j = k := by
  unfold gap at same
  split_ifs at same <;> omega

section Tables

variable {α : Type} [Zero α] {n : Nat} {home : α → Nat} {table : Nat → α}

/-- The slots that a probe for `key` passes before it reaches `slot`. -/
def Before (n : Nat) (home : α → Nat) (key : α) (slot p : Nat) : Prop :=
  gap n (home key) p < gap n (home key) slot

/-- No stored key is cut off from its home slot, and none is stored twice. -/
structure Chained (n : Nat) (home : α → Nat) (table : Nat → α) : Prop where
  reachable : ∀ s < n, table s ≠ 0 → ∀ p < n, Before n home (table s) s p → table p ≠ 0
  unique : ∀ s < n, ∀ s' < n, table s ≠ 0 → table s = table s' → s = s'

/-- The keys of a table, as a set. -/
def keys (n : Nat) (table : Nat → α) : Set α := {key | key ≠ 0 ∧ ∃ s < n, table s = key}

/-- A probe for `key` that has come as far as `slot` without an answer. -/
def Passed (n : Nat) (home : α → Nat) (table : Nat → α) (key : α) (slot : Nat) : Prop :=
  ∀ p < n, Before n home key slot p → table p ≠ 0 ∧ table p ≠ key

theorem passed_home (key : α) : Passed n home table key (home key) := by
  intro p _ before
  simp [Before, gap_self] at before

theorem passed_next (bound : home key < n) (range : slot < n)
    (passed : Passed n home table key slot) (occupied : table slot ≠ 0) (other : table slot ≠ key)
    (short : gap n (home key) slot + 1 < n) : Passed n home table key (next n slot) := by
  intro p hp before
  unfold Before at before
  rw [gap_next bound short] at before
  by_cases last : gap n (home key) p = gap n (home key) slot
  · rw [gap_inj bound hp range last]
    exact ⟨occupied, other⟩
  · exact passed p hp (by unfold Before; omega)

/-- An empty slot at the end of a probe answers it: the key is nowhere. -/
theorem absent_of_empty (chained : Chained n home table) (range : slot < n)
    (bound : home key < n) (passed : Passed n home table key slot) (empty : table slot = 0)
    (real : key ≠ 0) : key ∉ keys n table := by
  rintro ⟨_, s, hs, stored⟩
  rcases Nat.lt_trichotomy (gap n (home key) s) (gap n (home key) slot) with nearer | same | farther
  · exact (passed s hs nearer).2 stored
  · rw [gap_inj bound hs range same, empty] at stored
    exact real stored.symm
  · refine chained.reachable s hs (stored ▸ real) slot range ?_ empty
    simpa only [Before, stored] using farther

theorem insert (chained : Chained n home table) (range : slot < n)
    (passed : Passed n home table key slot)
    (empty : table slot = 0) (fresh : key ∉ keys n table) (real : key ≠ 0) :
    Chained n home (Function.update table slot key) := by
  refine ⟨?_, ?_⟩
  · intro s hs stored p hp before
    by_cases target : p = slot
    · simpa [target] using real
    · rw [Function.update_of_ne target]
      by_cases placed : s = slot
      · subst placed
        rw [Function.update_self] at before
        exact (passed p hp before).1
      · rw [Function.update_of_ne placed] at stored before
        exact chained.reachable s hs stored p hp before
  · intro s hs s' hs' stored same
    by_cases first : s = slot <;> by_cases second : s' = slot
    · rw [first, second]
    · rw [first, Function.update_self, Function.update_of_ne second] at same
      exact absurd ⟨real, s', hs', same.symm⟩ fresh
    · rw [second, Function.update_self, Function.update_of_ne first] at same
      exact absurd ⟨real, s, hs, same⟩ fresh
    · rw [Function.update_of_ne first] at stored
      rw [Function.update_of_ne first, Function.update_of_ne second] at same
      exact chained.unique s hs s' hs' stored same

theorem keys_insert (range : slot < n) (empty : table slot = 0) (real : key ≠ 0) :
    keys n (Function.update table slot key) = Set.insert key (keys n table) := by
  ext other
  constructor
  · rintro ⟨nonzero, s, hs, stored⟩
    by_cases placed : s = slot
    · left
      rw [placed, Function.update_self] at stored
      exact stored.symm
    · right
      rw [Function.update_of_ne placed] at stored
      exact ⟨nonzero, s, hs, stored⟩
  · rintro (rfl | ⟨nonzero, s, hs, stored⟩)
    · exact ⟨real, slot, range, Function.update_self ..⟩
    · refine ⟨nonzero, s, hs, ?_⟩
      rw [Function.update_of_ne]
      · exact stored
      · rintro rfl
        exact nonzero (stored.symm.trans empty)

/-- The table while a deletion is under way, with `hole` already blanked. Only
the hole can cut a key off, and a key it cuts off lies beyond the slot `seen`
that the sweep has come to. -/
structure Open (n : Nat) (home : α → Nat) (table : Nat → α) (hole seen : Nat) : Prop where
  blank : table hole = 0
  cut : ∀ s < n, table s ≠ 0 → ∀ p < n, Before n home (table s) s p → table p = 0 →
    p = hole ∧ gap n hole seen < gap n hole s
  unique : ∀ s < n, ∀ s' < n, table s ≠ 0 → table s = table s' → s = s'

theorem opened (chained : Chained n home table) (range : hole < n) :
    Open n home (Function.update table hole 0) hole hole := by
  refine ⟨Function.update_self .., ?_, ?_⟩
  · intro s hs stored p hp before empty
    have other : s ≠ hole := by rintro rfl; simp at stored
    rw [Function.update_of_ne other] at stored before
    by_cases target : p = hole
    · refine ⟨target, ?_⟩
      rw [gap_self]
      exact Nat.pos_of_ne_zero (fun zero => other (gap_eq_zero range zero))
    · rw [Function.update_of_ne target] at empty
      exact absurd empty (chained.reachable s hs stored p hp before)
  · intro s hs s' hs' stored same
    by_cases first : s = hole
    · simp [first] at stored
    · rw [Function.update_of_ne first] at stored same
      by_cases second : s' = hole
      · rw [second, Function.update_self] at same
        exact absurd same stored
      · rw [Function.update_of_ne second] at same
        exact chained.unique s hs s' hs' stored same

/-- The sweep leaves a key in place when its home lies behind the hole. -/
theorem Open.skip (opened : Open n home table hole seen) (range : hole < n) (last : seen < n)
    (short : gap n hole seen + 1 < n) (bound : home (table (next n seen)) < n)
    (behind : 0 < gap n hole (home (table (next n seen))) ∧
      gap n hole (home (table (next n seen))) ≤ gap n hole (next n seen)) :
    Open n home table hole (next n seen) := by
  refine ⟨opened.blank, ?_, opened.unique⟩
  intro s hs stored p hp before empty
  obtain ⟨rfl, farther⟩ := opened.cut s hs stored p hp before empty
  refine ⟨rfl, ?_⟩
  rw [gap_next range short] at *
  rcases Nat.lt_or_ge (gap n p seen + 1) (gap n p s) with beyond | reached
  · exact beyond
  · -- the key at `s` would be the one just met, whose path starts behind the hole
    exfalso
    have here : s = next n seen :=
      gap_inj range hs (next_lt last) (by rw [gap_next range short]; omega)
    rw [← here] at behind bound
    unfold Before at before
    have reach : gap n p s = gap n p seen + 1 := by omega
    rw [← reach] at behind
    clear farther reached reach here
    unfold gap at before behind
    split_ifs at before behind <;> omega

/-- A key whose path runs through the hole moves back into it; its old slot is
the new hole. -/
theorem Open.move (opened : Open n home table hole seen) (range : hole < n) (last : seen < n)
    (short : gap n hole seen + 1 < n) (bound : home (table (next n seen)) < n)
    (stranded : ¬ (0 < gap n hole (home (table (next n seen))) ∧
      gap n hole (home (table (next n seen))) ≤ gap n hole (next n seen)))
    (occupied : table (next n seen) ≠ 0) :
    Open n home (Function.update (Function.update table hole (table (next n seen))) (next n seen) 0)
      (next n seen) (next n seen) := by
  have ahead := gap_next range short
  have hj := next_lt last
  generalize next n seen = j at *
  have apart : hole ≠ j := by rintro rfl; rw [gap_self] at ahead; omega
  refine ⟨Function.update_self .., ?_, ?_⟩
  · intro s hs stored p hp before empty
    have other : s ≠ j := by rintro rfl; simp at stored
    have beyond : gap n j j < gap n j s := by
      rw [gap_self]
      exact Nat.pos_of_ne_zero (fun zero => other (gap_eq_zero hj zero))
    by_cases target : p = j
    · exact ⟨target, beyond⟩
    · exfalso
      rw [Function.update_of_ne target] at empty
      rw [Function.update_of_ne other] at stored before
      have filled : p ≠ hole := by rintro rfl; simp [occupied] at empty
      rw [Function.update_of_ne filled] at empty
      by_cases placed : s = hole
      · -- the moved key: its new path is the part of the old one before the hole
        subst placed
        rw [Function.update_self] at before
        refine filled (opened.cut j hj occupied p hp ?_ empty).1
        unfold Before gap at *
        split_ifs at * <;> omega
      · rw [Function.update_of_ne placed] at stored before
        exact filled (opened.cut s hs stored p hp before empty).1
  · intro s hs s' hs' stored same
    have left : s ≠ j := by rintro rfl; simp at stored
    have right : s' ≠ j := by
      rintro rfl
      rw [Function.update_self, Function.update_of_ne left] at same
      rw [Function.update_of_ne left] at stored
      exact stored same
    rw [Function.update_of_ne left] at stored same
    rw [Function.update_of_ne right] at same
    by_cases first : s = hole <;> by_cases second : s' = hole
    · rw [first, second]
    · rw [first, Function.update_self, Function.update_of_ne second] at same
      exact absurd (opened.unique j hj s' hs' occupied same).symm right
    · rw [second, Function.update_self, Function.update_of_ne first] at same
      exact absurd (opened.unique j hj s hs occupied same.symm).symm left
    · rw [Function.update_of_ne first] at stored
      rw [Function.update_of_ne first, Function.update_of_ne second] at same
      exact opened.unique s hs s' hs' stored same

/-- At the end of the cluster no key can be cut off any more. -/
theorem Open.close (opened : Open n home table hole seen) (range : hole < n) (last : seen < n)
    (homes : ∀ key, home key < n) (short : gap n hole seen + 1 < n)
    (empty : table (next n seen) = 0) : Chained n home table := by
  refine ⟨?_, opened.unique⟩
  intro s hs stored p hp before blank
  obtain ⟨rfl, farther⟩ := opened.cut s hs stored p hp before blank
  have ahead := gap_next range short
  have hj := next_lt last
  generalize next n seen = j at *
  rcases Nat.eq_or_lt_of_le (show gap n p j ≤ gap n p s by omega) with same | beyond
  · exact stored (gap_inj range hj hs same ▸ empty)
  · have between : Before n home (table s) s j := by
      have := homes (table s)
      unfold Before gap at *
      split_ifs at * <;> omega
    obtain ⟨rfl, _⟩ := opened.cut s hs stored j hj between empty
    rw [gap_self] at ahead
    omega

theorem keys_move (range : hole < n) (apart : hole ≠ slot) (blank : table hole = 0)
    (hslot : slot < n) :
    keys n (Function.update (Function.update table hole (table slot)) slot 0) = keys n table := by
  ext key
  constructor
  · rintro ⟨real, s, hs, stored⟩
    by_cases left : s = slot
    · rw [left, Function.update_self] at stored
      exact absurd stored.symm real
    · rw [Function.update_of_ne left] at stored
      by_cases placed : s = hole
      · rw [placed, Function.update_self] at stored
        exact ⟨real, slot, hslot, stored⟩
      · rw [Function.update_of_ne placed] at stored
        exact ⟨real, s, hs, stored⟩
  · rintro ⟨real, s, hs, stored⟩
    by_cases moved : s = slot
    · refine ⟨real, hole, range, ?_⟩
      rw [Function.update_of_ne apart, Function.update_self, ← moved, stored]
    · refine ⟨real, s, hs, ?_⟩
      rw [Function.update_of_ne moved, Function.update_of_ne, stored]
      rintro rfl
      exact real (stored.symm.trans blank)

theorem keys_blank (chained : Chained n home table) (range : hole < n) (occupied : table hole ≠ 0) :
    keys n (Function.update table hole 0) = keys n table \ {table hole} := by
  ext key
  constructor
  · rintro ⟨real, s, hs, stored⟩
    by_cases erased : s = hole
    · rw [erased, Function.update_self] at stored
      exact absurd stored.symm real
    · rw [Function.update_of_ne erased] at stored
      refine ⟨⟨real, s, hs, stored⟩, ?_⟩
      rintro rfl
      exact erased (chained.unique hole range s hs occupied stored.symm).symm
  · rintro ⟨⟨real, s, hs, stored⟩, other⟩
    refine ⟨real, s, hs, ?_⟩
    rw [Function.update_of_ne, stored]
    rintro rfl
    exact other stored.symm

/-- Fewer keys than slots leave a slot empty. -/
theorem exists_empty {l : List α} (chained : Chained n home table)
    (stored : keys n table ⊆ {key | key ∈ l}) (room : l.length < n) : ∃ e < n, table e = 0 := by
  classical
  by_contra full
  push Not at full
  have maps : ∀ s ∈ Finset.range n, table s ∈ l.toFinset := by
    intro s hs
    have bound := Finset.mem_range.mp hs
    exact List.mem_toFinset.mpr (stored ⟨full s bound, s, bound, rfl⟩)
  have injective : Set.InjOn table (Finset.range n) := by
    intro s hs s' hs' same
    have first := Finset.mem_range.mp (Finset.mem_coe.mp hs)
    have second := Finset.mem_range.mp (Finset.mem_coe.mp hs')
    exact chained.unique s first s' second (full s first) same
  have count := Finset.card_le_card_of_injOn table maps injective
  rw [Finset.card_range] at count
  exact absurd (l.toFinset_card_le) (by omega)

/-- The raw index test for a home in the cyclic interval from the hole
(excluded) to a slot (included). -/
theorem between_iff (hi : hole < n) (hk : k < n) (hj : j < n) :
    (if hole ≤ j then hole < k ∧ k ≤ j else hole < k ∨ k ≤ j) ↔
      0 < gap n hole k ∧ gap n hole k ≤ gap n hole j := by
  unfold gap
  split_ifs <;> omega

end Tables

end LinearProbing
