import Mathlib.Data.List.Basic
import Mathlib.Logic.Function.Iterate
import SimplePool.Lib.Positional

/-! Checksums that are remainders of a division of polynomials over the field of 32
elements. The elements are the polynomials over two elements modulo `a^5 + a^3 + 1`, as
numbers of five bits. -/
namespace Bch
open Positional

/-- The product with `a`. -/
def double (x : Nat) : Nat := if x < 16 then 2 * x else 2 * x ^^^ 41

def mul (x y : Nat) : Nat :=
  (List.range 5).foldl (fun sum j => if y.testBit j then sum ^^^ double^[j] x else sum) 0

/-- One coefficient more: the register moves up, and the multiple of the divisor that its
leading coefficient asks for is taken away. The divisor is monic, without its leading one. -/
def divide (divisor : List Nat) : List Nat → Nat → List Nat
  | [], _ => []
  | lead :: register, coefficient =>
    List.zipWith (· ^^^ ·) (register ++ [coefficient]) (divisor.map (mul lead))

def remainder (divisor start coefficients : List Nat) : List Nat :=
  coefficients.foldl (divide divisor) start

theorem length_divide (size : register.length = divisor.length) :
    (divide divisor register coefficient).length = divisor.length := by
  cases register with
  | nil => exact size
  | cons lead rest =>
    rw [divide, List.length_zipWith, List.length_append, List.length_map, List.length_singleton]
    rw [List.length_cons] at size
    omega

theorem length_remainder (size : start.length = divisor.length) :
    (remainder divisor start coefficients).length = divisor.length := by
  induction coefficients generalizing start with
  | nil => exact size
  | cons c rest ih => exact ih (length_divide size)

theorem xor_lt (left : x < 32) (right : y < 32) : x ^^^ y < 32 :=
  Nat.xor_lt_two_pow (n := 5) left right

theorem mul_lt (small : x < 32) (y : Nat) : mul x y < 32 := by
  have doubled : ∀ {z}, z < 32 → double z < 32 := by decide
  have iterated : ∀ j, double^[j] x < 32 := by
    intro j
    induction j with
    | zero => exact small
    | succ j ih =>
      rw [Function.iterate_succ_apply']
      exact doubled ih
  have step : ∀ (js : List Nat) (sum : Nat), sum < 32 →
      js.foldl (fun sum j => if y.testBit j then sum ^^^ double^[j] x else sum) sum < 32 := by
    intro js
    induction js with
    | nil => exact fun _ bound => bound
    | cons j js ih =>
      intro sum bound
      refine ih _ ?_
      dsimp only
      split
      next => exact xor_lt bound (iterated j)
      next => exact bound
  exact step _ 0 (by decide)

theorem zipWith_xor_lt (left : ∀ x ∈ xs, x < 32) (right : ∀ y ∈ ys, y < 32) :
    ∀ z ∈ List.zipWith (· ^^^ ·) xs ys, z < 32 := by
  intro z member
  obtain ⟨i, inside, rfl⟩ := List.mem_iff_getElem.mp member
  rw [List.getElem_zipWith]
  exact xor_lt (left _ (List.getElem_mem _)) (right _ (List.getElem_mem _))

theorem divide_lt (small : ∀ x ∈ register, x < 32) (coefficient : c < 32) :
    ∀ x ∈ divide divisor register c, x < 32 := by
  cases register with
  | nil => exact nofun
  | cons lead rest =>
    obtain ⟨first, others⟩ := List.forall_mem_cons.mp small
    refine zipWith_xor_lt ?_ ?_
    · intro x member
      rcases List.mem_append.mp member with old | new
      · exact others x old
      · rwa [List.mem_singleton.mp new]
    · intro x member
      obtain ⟨y, _, rfl⟩ := List.mem_map.mp member
      exact mul_lt first y

theorem xor_blocks (x y : Nat) (left : a < 2 ^ k) (right : b < 2 ^ k) :
    (x * 2 ^ k + a) ^^^ (y * 2 ^ k + b) = (x ^^^ y) * 2 ^ k + (a ^^^ b) := by
  have positive : 0 < 2 ^ k := Nat.two_pow_pos k
  have high : ∀ {z c}, c < 2 ^ k → (z * 2 ^ k + c) / 2 ^ k = z := by
    intro z c small
    rw [Nat.add_comm, Nat.add_mul_div_right _ _ positive, Nat.div_eq_of_lt small, Nat.zero_add]
  have low : ∀ {z c}, c < 2 ^ k → (z * 2 ^ k + c) % 2 ^ k = c := by
    intro z c small
    rw [Nat.add_comm, Nat.add_mul_mod_self_right, Nat.mod_eq_of_lt small]
  rw [← Nat.div_add_mod' ((x * 2 ^ k + a) ^^^ (y * 2 ^ k + b)) (2 ^ k), Nat.xor_div_two_pow,
    Nat.xor_mod_two_pow, high left, high right, low left, low right]

/-- Packed into one number, the sum of two registers is the exclusive or. -/
theorem value_xor (size : left.length = right.length) (smallLeft : ∀ x ∈ left, x < 32)
    (smallRight : ∀ x ∈ right, x < 32) :
    value 32 (List.zipWith (· ^^^ ·) left right) = value 32 left ^^^ value 32 right := by
  induction left generalizing right with
  | nil =>
    obtain rfl := List.length_eq_zero_iff.mp size.symm
    rfl
  | cons x left ih =>
    cases right with
    | nil => cases size
    | cons y right =>
      have same : left.length = right.length := Nat.succ.inj size
      obtain ⟨_, othersLeft⟩ := List.forall_mem_cons.mp smallLeft
      obtain ⟨_, othersRight⟩ := List.forall_mem_cons.mp smallRight
      have boundLeft := value_lt (by decide) othersLeft
      have boundRight := value_lt (by decide) othersRight
      have power : 32 ^ right.length = 2 ^ (5 * right.length) := by
        rw [pow_mul]
        norm_num
      rw [same, power] at boundLeft
      rw [power] at boundRight
      rw [List.zipWith_cons_cons, value_cons, value_cons, value_cons,
        ih same othersLeft othersRight, List.length_zipWith, same,
        Nat.min_self, power, xor_blocks x y boundLeft boundRight]

end Bch
