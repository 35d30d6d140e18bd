import Mathlib.Data.Nat.Digits.Lemmas

/-! Numbers written with the most significant digit first. A number without a leading zero
is written in one way. -/
namespace Positional

/-- The number the digits stand for. -/
def value (base : Nat) (digits : List Nat) : Nat := Nat.ofDigits base digits.reverse

/-- The digits do not begin with a zero. -/
def Canonical (digits : List Nat) : Prop := digits.head? ≠ some 0

@[simp] theorem value_nil (base : Nat) : value base [] = 0 := rfl

theorem value_concat (base : Nat) (digits : List Nat) (digit : Nat) :
    value base (digits ++ [digit]) = value base digits * base + digit := by
  rw [value, value, List.reverse_append, List.reverse_singleton, List.singleton_append,
    Nat.ofDigits_cons]
  ring

theorem value_cons (base digit : Nat) (digits : List Nat) :
    value base (digit :: digits) = digit * base ^ digits.length + value base digits := by
  rw [value, value, List.reverse_cons, Nat.ofDigits_append, Nat.ofDigits_singleton,
    List.length_reverse]
  ring

/-- Leading zeros do not count. -/
@[simp] theorem value_zeros (base n : Nat) (digits : List Nat) :
    value base (List.replicate n 0 ++ digits) = value base digits := by
  rw [value, value, List.reverse_append, List.reverse_replicate, Nat.ofDigits_append_replicate_zero]

theorem value_lt (proper : 1 < base) (small : ∀ d ∈ digits, d < base) :
    value base digits < base ^ digits.length := by
  have bound := Nat.ofDigits_lt_base_pow_length proper (l := digits.reverse) fun d member =>
    small d (List.mem_reverse.mp member)
  rwa [List.length_reverse] at bound

theorem value_injective (proper : 1 < base) (smallLeft : ∀ d ∈ left, d < base)
    (smallRight : ∀ d ∈ right, d < base)
    (size : left.length = right.length) (same : value base left = value base right) :
    left = right := by
  apply List.reverse_injective
  refine Nat.ofDigits_inj_of_len_eq proper (by simpa using size) ?_ ?_ same
  · exact fun d member => smallLeft d (List.mem_reverse.mp member)
  · exact fun d member => smallRight d (List.mem_reverse.mp member)

/-- A number has one representation without a leading zero. -/
theorem canonical_injective (proper : 1 < base) (smallLeft : ∀ d ∈ left, d < base)
    (smallRight : ∀ d ∈ right, d < base)
    (canonicalLeft : Canonical left) (canonicalRight : Canonical right)
    (same : value base left = value base right) :
    left = right := by
  have last : ∀ {digits : List Nat}, Canonical digits → ∀ some :
      digits.reverse ≠ [], digits.reverse.getLast some ≠ 0 := by
    intro digits canonical some zero
    cases digits with
    | nil => exact some rfl
    | cons d rest =>
      rw [List.getLast_reverse] at zero
      exact canonical (congrArg Option.some zero)
  have digitsOf : ∀ {digits : List Nat}, (∀ d ∈ digits, d < base) → Canonical digits →
      Nat.digits base (value base digits) = digits.reverse := by
    intro digits small canonical
    exact Nat.digits_ofDigits base proper _ (fun d member => small d (List.mem_reverse.mp member))
      (last canonical)
  apply List.reverse_injective
  rw [← digitsOf smallLeft canonicalLeft, ← digitsOf smallRight canonicalRight, same]

/-- A number without a leading zero is as large as its size says. -/
theorem value_ge (canonical : Canonical (digit :: digits)) :
    base ^ digits.length ≤ value base (digit :: digits) := by
  have positive : 0 < digit := Nat.pos_of_ne_zero fun zero => canonical (congrArg some zero)
  rw [value_cons]
  exact Nat.le_add_right_of_le (Nat.le_mul_of_pos_left _ positive)

theorem length_le_of_value_lt (proper : 1 < base) (canonical : Canonical digits)
    (below : value base digits < base ^ n) :
    digits.length ≤ n := by
  cases digits with
  | nil => exact Nat.zero_le n
  | cons digit digits =>
    exact (Nat.pow_lt_pow_iff_right proper).mp ((value_ge canonical).trans_lt below)

end Positional
