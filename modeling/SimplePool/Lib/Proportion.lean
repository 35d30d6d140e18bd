import Mathlib.Algebra.BigOperators.Ring.List
import Mathlib.Algebra.Order.Floor.Ring
import Mathlib.Data.List.Dedup
import Mathlib.Tactic.Linarith
import Mathlib.Tactic.Ring

/-! Dividing an amount in proportion to weights, with every share rounded down. -/
namespace SimplePool.Proportion

section Floor

variable {K : Type} [Field K] [LinearOrder K] [IsStrictOrderedRing K] [FloorRing K]

/-- The share of one weight. -/
def share (amount total weight : K) : Int := ⌊amount * (weight / total)⌋

omit [LinearOrder K] [IsStrictOrderedRing K] [FloorRing K] in
theorem sum_exact (amount total : K) (weights : List K) :
    (weights.map fun weight => amount * (weight / total)).sum = amount * (weights.sum / total) := by
  induction weights with
  | nil => simp
  | cons weight rest ih =>
    rw [List.map_cons, List.sum_cons, ih, List.sum_cons, add_div, mul_add]

/-- Rounding takes something off, and less than one for each weight. -/
theorem sum_share_bounds (amount total : K) (weights : List K) :
    (((weights.map (share amount total)).sum : Int) : K) ≤ amount * (weights.sum / total) ∧
      (weights ≠ [] → amount * (weights.sum / total) <
        ((weights.map (share amount total)).sum : Int) + (weights.length : K)) := by
  rw [← sum_exact]
  induction weights with
  | nil => simp
  | cons weight rest ih =>
    obtain ⟨below, above⟩ := ih
    have floor := Int.floor_le (amount * (weight / total))
    have ceil := Int.lt_floor_add_one (amount * (weight / total))
    simp only [List.map_cons, List.sum_cons, List.length_cons, Int.cast_add, Nat.cast_add,
      Nat.cast_one]
    constructor
    · rw [share]
      linarith
    · intro _
      rw [share]
      cases rest with
      | nil => simp
      | cons next rest =>
        have later := above (by simp)
        linarith

/-- The weights share the whole amount. -/
theorem sum_share (amount : K) {weights : List K} (someone : weights ≠ [])
    (total : weights.sum ≠ 0) :
    (((weights.map (share amount weights.sum)).sum : Int) : K) ≤ amount ∧
      amount < ((weights.map (share amount weights.sum)).sum : Int) + (weights.length : K) := by
  obtain ⟨below, above⟩ := sum_share_bounds amount weights.sum weights
  rw [div_self total, mul_one] at below above
  exact ⟨below, above someone⟩

theorem share_nonneg {amount total weight : K} (amount_nonneg : 0 ≤ amount)
    (total_nonneg : 0 ≤ total) (nonneg : 0 ≤ weight) :
    0 ≤ share amount total weight :=
  Int.floor_nonneg.mpr (mul_nonneg amount_nonneg (div_nonneg nonneg total_nonneg))

end Floor

section Survivors

variable {ι K : Type} [Field K]

/-- Every weight's part of the whole, less the part of the kept that it has if it is kept. -/
def moved (items : List ι) (weight : ι → K) (kept : ι → Bool) (x : ι) : K :=
  weight x / (items.map weight).sum - if kept x then weight x / ((items.filter kept).map weight).sum
    else 0

theorem sum_parts (items : List ι) (weight : ι → K) (kept : ι → Bool) (total own : K) :
    (items.map fun x => weight x / total - if kept x then weight x / own else 0).sum =
      (items.map weight).sum / total - ((items.filter kept).map weight).sum / own := by
  induction items with
  | nil => simp
  | cons x rest ih =>
    rw [List.map_cons, List.sum_cons, ih, List.map_cons, List.sum_cons, add_div, List.filter_cons]
    split_ifs
    · rw [List.map_cons, List.sum_cons, add_div]
      ring
    · ring

/-- Parts only move between the weights. -/
theorem sum_moved {items : List ι} {weight : ι → K} {kept : ι → Bool}
    (total : (items.map weight).sum ≠ 0) (own : ((items.filter kept).map weight).sum ≠ 0) :
    (items.map (moved items weight kept)).sum = 0 := by
  have parts :=
    sum_parts items weight kept (items.map weight).sum ((items.filter kept).map weight).sum
  rw [div_self total, div_self own, sub_self] at parts
  exact parts

end Survivors

section Groups

variable {α κ M : Type} [DecidableEq κ] [AddCommMonoid M] {key : α → κ} {weight : α → M}

theorem sum_indicator {keys : List κ} (nodup : keys.Nodup) {k : κ} (here : k ∈ keys) (x : M) :
    (keys.map fun other => if k = other then x else 0).sum = x := by
  induction keys with
  | nil => cases here
  | cons other rest ih =>
    obtain ⟨apart, nodup⟩ := List.nodup_cons.mp nodup
    rw [List.map_cons, List.sum_cons]
    rcases List.mem_cons.mp here with rfl | later
    · have none : (rest.map fun other => if k = other then x else 0).sum = 0 := by
        apply List.sum_eq_zero
        intro y member
        obtain ⟨other, inside, rfl⟩ := List.mem_map.mp member
        rw [if_neg]
        rintro rfl
        exact apart inside
      rw [if_pos rfl, none, add_zero]
    · rw [if_neg (by rintro rfl; exact apart later), zero_add, ih nodup later]

/-- The sums of the groups add up to the sum of everything. -/
theorem sum_groups {keys : List κ} (nodup : keys.Nodup) {items : List α}
    (covers : ∀ a ∈ items, key a ∈ keys) :
    (keys.map fun k => ((items.filter fun a => key a = k).map weight).sum).sum =
      (items.map weight).sum := by
  induction items with
  | nil => simp
  | cons a rest ih =>
    have split : (keys.map fun k => (((a :: rest).filter fun b => key b = k).map weight).sum) =
        keys.map fun k => (if key a = k then weight a else 0) +
          ((rest.filter fun b => key b = k).map weight).sum := by
      apply List.map_congr_left
      intro k _
      by_cases same : key a = k
      · simp [same]
      · simp [same]
    rw [split, List.sum_map_add, sum_indicator nodup (covers a List.mem_cons_self),
      ih fun b member => covers b (List.mem_cons_of_mem _ member), List.map_cons, List.sum_cons]

end Groups

end SimplePool.Proportion
