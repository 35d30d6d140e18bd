import Mathlib.Algebra.Order.BigOperators.Group.List
import Mathlib.Algebra.Order.Field.Basic
import Mathlib.Tactic.Linarith
import Mathlib.Tactic.Ring

/-! A window over a sequence of weighted items, taken from the front until its
weight is used up. The item that crosses the boundary belongs to the window
whole. Weights live in any ordered field; the results need them positive. -/
namespace RunningWindow

variable {α K : Type} [Field K] [LinearOrder K] [IsStrictOrderedRing K] {weight : α → K}

/-- The items that start before the budget is used up. -/
def select (weight : α → K) : K → List α → List α
  | _, [] => []
  | budget, a :: rest => if 0 < budget then a :: select weight (budget - weight a) rest else []

/-- Every item with the total up to and including it, on top of `acc`. -/
def running (weight : α → K) : K → List α → List (α × K)
  | _, [] => []
  | acc, a :: rest => (a, acc + weight a) :: running weight (acc + weight a) rest

omit [LinearOrder K] [IsStrictOrderedRing K] in
theorem map_fst_running (items : List α) (acc : K) :
    (running weight acc items).map Prod.fst = items := by
  induction items generalizing acc with
  | nil => rfl
  | cons a rest ih => simp only [running, List.map_cons, ih]

theorem running_lower (positive : ∀ a ∈ items, 0 < weight a) (acc : K) :
    ∀ entry ∈ running weight acc items, acc ≤ entry.2 - weight entry.1 := by
  induction items generalizing acc with
  | nil => simp [running]
  | cons a rest ih =>
    intro entry member
    simp only [running, List.mem_cons] at member
    rcases member with rfl | later
    · simp
    · have step := ih (fun b hb => positive b (by simp [hb])) (acc + weight a) entry later
      have gain := positive a (by simp)
      linarith

/-- Filtering on the total that excludes the item itself selects the window. -/
theorem filter_running (positive : ∀ a ∈ items, 0 < weight a) (acc budget : K) :
    (running weight acc items).filter (fun entry => entry.2 - weight entry.1 < budget) =
      running weight acc (select weight (budget - acc) items) := by
  induction items generalizing acc with
  | nil => rfl
  | cons a rest ih =>
    have later : ∀ b ∈ rest, 0 < weight b := fun b hb => positive b (by simp [hb])
    by_cases inside : acc < budget
    · have test : acc + weight a - weight a < budget := by simpa using inside
      have left : 0 < budget - acc := by linarith
      have spent : budget - (acc + weight a) = budget - acc - weight a := by ring
      simp only [running, List.filter_cons, test, decide_true, if_true, select, left, ih later,
        spent]
    · have closed : ¬ 0 < budget - acc := by linarith
      have lower := running_lower positive acc
      have none :
          ∀ entry ∈ running weight acc (a :: rest), ¬ entry.2 - weight entry.1 < budget := by
        intro entry member
        have := lower entry member
        linarith
      rw [List.filter_eq_nil_iff.mpr (by simpa using none)]
      simp only [select, closed, if_false, running]

/-- The last total is the largest, and it is the total of everything. -/
theorem running_upper (nonneg : ∀ a ∈ items, 0 ≤ weight a) (acc : K) :
    ∀ entry ∈ running weight acc items, entry.2 ≤ acc + (items.map weight).sum := by
  induction items generalizing acc with
  | nil => simp [running]
  | cons a rest ih =>
    intro entry member
    have later : ∀ b ∈ rest, 0 ≤ weight b := fun b hb => nonneg b (by simp [hb])
    simp only [running, List.mem_cons] at member
    rw [List.map_cons, List.sum_cons, ← add_assoc]
    rcases member with rfl | member
    · have : 0 ≤ (rest.map weight).sum := by
        apply List.sum_nonneg
        simpa using later
      simpa using this
    · exact ih later _ entry member

omit [LinearOrder K] [IsStrictOrderedRing K] in
theorem total_mem_running (acc : K) (first : α) (rest : List α) :
    acc + ((first :: rest).map weight).sum ∈ (running weight acc (first :: rest)).map Prod.snd := by
  induction rest generalizing acc first with
  | nil => simp [running]
  | cons second rest ih =>
    have step := ih (acc + weight first) second
    rw [running, List.map_cons, List.mem_cons]
    right
    simpa only [List.map_cons, List.sum_cons, add_assoc] using step

omit [IsStrictOrderedRing K] in
theorem select_take (n : Nat) (budget : K) (items : List α) :
    select weight budget (items.take n) = (select weight budget items).take n := by
  induction items generalizing n budget with
  | nil => simp [select]
  | cons a rest ih =>
    cases n with
    | zero => simp [select]
    | succ n =>
      simp only [List.take_succ_cons, select]
      split
      · rw [ih, List.take_succ_cons]
      · simp

omit [IsStrictOrderedRing K] in
theorem select_front (budget : K) (items : List α) : select weight budget items <+: items := by
  induction items generalizing budget with
  | nil => simp [select]
  | cons a rest ih =>
    simp only [select]
    split
    · exact (List.prefix_cons_inj a).mpr (ih _)
    · exact List.nil_prefix

omit [IsStrictOrderedRing K] in
/-- A front part that could not be filled already holds the whole window. -/
theorem select_take_of_short (short : (select weight budget (items.take n)).length < n) :
    select weight budget (items.take n) = select weight budget items := by
  rw [select_take] at *
  rw [List.length_take] at short
  exact List.take_of_length_le (by omega)

/-- A front part whose window uses up the budget holds the whole window. -/
theorem select_take_of_covered (items : List α) (n : Nat) (budget : K)
    (covered : budget ≤ ((select weight budget (items.take n)).map weight).sum) :
    select weight budget (items.take n) = select weight budget items := by
  induction items generalizing n budget with
  | nil => simp
  | cons a rest ih =>
    by_cases inside : 0 < budget
    · cases n with
      | zero =>
        simp only [List.take_zero, select, List.map_nil, List.sum_nil] at covered
        exact absurd inside (not_lt.mpr covered)
      | succ n =>
        simp only [List.take_succ_cons, select, inside, if_true, List.map_cons, List.sum_cons] at *
        rw [ih n (budget - weight a) (by linarith)]
    · rw [select_take]
      simp [select, inside]

/-- Membership in the window, for items that can be told apart by their rank:
the weight of everything of higher rank has to be below the budget. -/
theorem mem_select_iff {rank : α → Nat} (positive : ∀ a ∈ items, 0 < weight a)
    (sorted : items.Pairwise (fun a b => rank b < rank a)) (budget : K) (a : α) :
    a ∈ select weight budget items ↔
      a ∈ items ∧ ((items.filter (fun b => rank a < rank b)).map weight).sum < budget := by
  induction items generalizing budget with
  | nil => simp [select]
  | cons first rest ih =>
    obtain ⟨below, sorted⟩ := List.pairwise_cons.mp sorted
    have later : ∀ b ∈ rest, 0 < weight b := fun b hb => positive b (by simp [hb])
    have nonneg : ∀ (p : α → Bool), 0 ≤ ((rest.filter p).map weight).sum := by
      intro p
      apply List.sum_nonneg
      intro x member
      obtain ⟨b, hb, rfl⟩ := List.mem_map.mp member
      exact (later b (List.mem_of_mem_filter hb)).le
    have gain := positive first (by simp)
    by_cases inside : 0 < budget
    · simp only [select, inside, if_true, List.mem_cons, ih later sorted]
      by_cases head : a = first
      · subst head
        have nothing : rest.filter (fun b => rank a < rank b) = [] := by
          rw [List.filter_eq_nil_iff]
          intro b hb
          simpa using (below b hb).le
        simp [nothing, inside]
      · constructor
        · rintro (same | ⟨member, short⟩)
          · exact absurd same head
          · refine ⟨Or.inr member, ?_⟩
            rw [List.filter_cons_of_pos (by simpa using below a member), List.map_cons,
              List.sum_cons]
            linarith
        · rintro ⟨same | member, short⟩
          · exact absurd same head
          · right
            refine ⟨member, ?_⟩
            rw [List.filter_cons_of_pos (by simpa using below a member), List.map_cons,
              List.sum_cons] at short
            linarith
    · simp only [select, inside, if_false, List.not_mem_nil, false_iff, not_and, not_lt]
      intro _
      have lower : 0 ≤ (((first :: rest).filter (fun b => rank a < rank b)).map weight).sum := by
        apply List.sum_nonneg
        intro x member
        obtain ⟨b, hb, rfl⟩ := List.mem_map.mp member
        exact (positive b (List.mem_of_mem_filter hb)).le
      exact le_trans (not_lt.mp inside) lower

end RunningWindow
