import Mathlib.Algebra.BigOperators.Intervals
import Mathlib.Data.Nat.Bitwise

/-! Many small numbers in one: a natural number read as fields of a fixed width. One
operation on the whole acts on every field, as long as no field runs into the next. -/
namespace Lanes

/-- Field `i` of width `w`. -/
def lane (w i x : Nat) : Nat := x >>> (w * i) % 2 ^ w

/-- Every field is below `2 ^ b`. -/
def Narrow (w b x : Nat) : Prop := ∀ i, lane w i x < 2 ^ b

variable {w b x y : Nat}

theorem testBit_lane (w i x j : Nat) :
    (lane w i x).testBit j = (decide (j < w) && x.testBit (w * i + j)) := by
  rw [lane, Nat.testBit_mod_two_pow, Nat.testBit_shiftRight]

theorem Narrow.mono (narrow : Narrow w b x) (wider : b ≤ c) : Narrow w c x :=
  fun i => (narrow i).trans_le (Nat.pow_le_pow_right (by decide) wider)

/-- Bits past the narrow part of a field are clear. -/
theorem Narrow.testBit (narrow : Narrow w b x) (inside : j < w) (past : b ≤ j) (i : Nat) :
    x.testBit (w * i + j) = false := by
  have clear := Nat.testBit_lt_two_pow ((narrow i).trans_le (Nat.pow_le_pow_right (by decide) past))
  rwa [testBit_lane, decide_eq_true inside, Bool.true_and] at clear

theorem lane_and (w i x y : Nat) : lane w i (x &&& y) = lane w i x &&& lane w i y := by
  apply Nat.eq_of_testBit_eq
  intro j
  simp only [testBit_lane, Nat.testBit_and]
  cases decide (j < w) <;> simp

theorem lane_or (w i x y : Nat) : lane w i (x ||| y) = lane w i x ||| lane w i y := by
  apply Nat.eq_of_testBit_eq
  intro j
  simp only [testBit_lane, Nat.testBit_or]
  cases decide (j < w) <;> simp

theorem lane_xor (w i x y : Nat) : lane w i (x ^^^ y) = lane w i x ^^^ lane w i y := by
  apply Nat.eq_of_testBit_eq
  intro j
  simp only [testBit_lane, Nat.testBit_xor]
  cases decide (j < w) <;> simp

theorem Narrow.and_right (narrow : Narrow w b y) (x : Nat) : Narrow w b (x &&& y) := by
  intro i
  rw [lane_and]
  exact Nat.and_lt_two_pow _ (narrow i)

theorem Narrow.and_left (narrow : Narrow w b x) (y : Nat) : Narrow w b (x &&& y) := by
  rw [Nat.and_comm]
  exact narrow.and_right y

theorem Narrow.or (left : Narrow w b x) (right : Narrow w b y) : Narrow w b (x ||| y) := by
  intro i
  rw [lane_or]
  exact Nat.or_lt_two_pow (left i) (right i)

theorem Narrow.xor (left : Narrow w b x) (right : Narrow w b y) : Narrow w b (x ^^^ y) := by
  intro i
  rw [lane_xor]
  exact Nat.xor_lt_two_pow (left i) (right i)

/-- What lies below field `i + 1` is what lies below field `i`, and the field. -/
theorem mod_succ (w i x : Nat) :
    x % 2 ^ (w * (i + 1)) = x % 2 ^ (w * i) + 2 ^ (w * i) * lane w i x := by
  rw [Nat.mul_succ, Nat.pow_add, Nat.mod_mul, lane, Nat.shiftRight_eq_div_pow]

/-- Nothing is carried out of the fields below `i`. -/
theorem mod_add_mod_lt (small : ∀ i, lane w i x + lane w i y < 2 ^ w) (i : Nat) :
    x % 2 ^ (w * i) + y % 2 ^ (w * i) < 2 ^ (w * i) := by
  induction i with
  | zero => simp [Nat.mod_one]
  | succ i ih =>
    rw [mod_succ, mod_succ, Nat.mul_succ, Nat.pow_add]
    have field : 2 ^ (w * i) * (lane w i x + lane w i y + 1) ≤ 2 ^ (w * i) * 2 ^ w :=
      Nat.mul_le_mul_left _ (small i)
    rw [Nat.mul_add, Nat.mul_add, Nat.mul_one] at field
    omega

theorem lane_add (small : ∀ i, lane w i x + lane w i y < 2 ^ w) (i : Nat) :
    lane w i (x + y) = lane w i x + lane w i y := by
  have apart : (x + y) / 2 ^ (w * i) = x / 2 ^ (w * i) + y / 2 ^ (w * i) := by
    rw [Nat.add_div (Nat.two_pow_pos _), if_neg (Nat.not_le.mpr (mod_add_mod_lt small i)),
      Nat.add_zero]
  have field := small i
  simp only [lane, Nat.shiftRight_eq_div_pow] at field ⊢
  rw [apart, Nat.add_mod, Nat.mod_eq_of_lt field]

theorem Narrow.add_lt (left : Narrow w b x) (right : Narrow w b y) (fits : b < w) (i : Nat) :
    lane w i x + lane w i y < 2 ^ w := by
  have double : 2 ^ b + 2 ^ b ≤ 2 ^ w := by
    rw [← Nat.two_mul, ← Nat.pow_succ']
    exact Nat.pow_le_pow_right (by decide) fits
  have hx := left i
  have hy := right i
  omega

/-- A factor that leaves every field its room. -/
theorem lane_mul (narrow : Narrow w b x) (fits : 2 ^ b * c ≤ 2 ^ w) (i : Nat) :
    lane w i (x * c) = lane w i x * c := by
  induction c generalizing i with
  | zero => simp [lane]
  | succ c ih =>
    have room : 2 ^ b * c ≤ 2 ^ w := (Nat.mul_le_mul_left _ (Nat.le_succ c)).trans fits
    have small : ∀ i, lane w i (x * c) + lane w i x < 2 ^ w := by
      intro i
      rw [ih room, ← Nat.mul_succ]
      exact ((Nat.mul_lt_mul_right (Nat.succ_pos c)).mpr (narrow i)).trans_le fits
    rw [Nat.mul_succ, lane_add small, ih room, Nat.mul_succ]

theorem lane_shiftLeft (narrow : Narrow w b x) (fits : b + k ≤ w) (i : Nat) :
    lane w i (x <<< k) = lane w i x <<< k := by
  rw [Nat.shiftLeft_eq, Nat.shiftLeft_eq]
  apply lane_mul narrow
  rw [← Nat.pow_add]
  exact Nat.pow_le_pow_right (by decide) fits

/-- What a shift to the right brings in from the next field, the mask takes away. -/
theorem lane_shiftRight_and (narrow : Narrow w b m) (fits : k + b ≤ w) (i : Nat) :
    lane w i (x >>> k &&& m) = lane w i x >>> k &&& lane w i m := by
  apply Nat.eq_of_testBit_eq
  intro j
  simp only [testBit_lane, Nat.testBit_and, Nat.testBit_shiftRight]
  by_cases inside : j < w
  · by_cases masked : j < b
    · have room : k + j < w := by omega
      have same : k + (w * i + j) = w * i + (k + j) := by omega
      simp [inside, room, same]
    · simp [narrow.testBit inside (Nat.le_of_not_lt masked)]
  · simp [inside]

/-- `2 ^ d` fields, the first of them `f s`. -/
def pack (w : Nat) (f : Nat → Nat) : Nat → Nat → Nat
  | 0, s => f s
  | d + 1, s => pack w f d s ||| pack w f d (s + 2 ^ d) <<< (w * 2 ^ d)

/-- `2 ^ d` fields that all hold `c`. -/
def fill (w c : Nat) : Nat → Nat
  | 0 => c
  | d + 1 => fill w c d ||| fill w c d <<< (w * 2 ^ d)

theorem join_lt (left : x < 2 ^ (w * n)) (right : y < 2 ^ (w * n)) :
    x ||| y <<< (w * n) < 2 ^ (w * (2 * n)) := by
  rw [Nat.two_mul, Nat.mul_add]
  apply Nat.or_lt_two_pow
  · exact left.trans_le (Nat.pow_le_pow_right (by decide) (Nat.le_add_right _ _))
  · rw [Nat.shiftLeft_eq, Nat.pow_add]
    exact Nat.mul_lt_mul_of_pos_right right (Nat.two_pow_pos _)

theorem lane_join (left : x < 2 ^ (w * n)) (y i : Nat) :
    lane w i (x ||| y <<< (w * n)) = if i < n then lane w i x else lane w (i - n) y := by
  apply Nat.eq_of_testBit_eq
  intro j
  simp only [testBit_lane, Nat.testBit_or, Nat.testBit_shiftLeft]
  by_cases inside : j < w
  · split_ifs with first
    · have below : w * i + j < w * n := by
        have next := Nat.mul_le_mul_left w (Nat.succ_le_of_lt first)
        rw [Nat.mul_succ] at next
        omega
      simp [testBit_lane, Nat.not_le.mpr below]
    · have beyond : w * n ≤ w * i := Nat.mul_le_mul_left w (Nat.le_of_not_lt first)
      have clear : x.testBit (w * i + j) = false :=
        Nat.testBit_lt_two_pow (left.trans_le (Nat.pow_le_pow_right (by decide) (by omega)))
      have place : w * i + j - w * n = w * (i - n) + j := by
        rw [Nat.mul_sub]
        omega
      simp [testBit_lane, clear, place, beyond.trans (Nat.le_add_right _ _)]
  · split_ifs <;> simp [testBit_lane, inside]

theorem pack_lt {f : Nat → Nat} (small : ∀ s, f s < 2 ^ w) (d s : Nat) :
    pack w f d s < 2 ^ (w * 2 ^ d) := by
  induction d generalizing s with
  | zero => simpa [pack] using small s
  | succ d ih =>
    rw [pack, Nat.pow_succ']
    exact join_lt (ih s) (ih (s + 2 ^ d))

theorem lane_pack {f : Nat → Nat} (small : ∀ s, f s < 2 ^ w) (inside : i < 2 ^ d) (s : Nat) :
    lane w i (pack w f d s) = f (s + i) := by
  induction d generalizing i s with
  | zero =>
    obtain rfl : i = 0 := by simpa using inside
    simp [pack, lane, Nat.mod_eq_of_lt (small s)]
  | succ d ih =>
    rw [pack, lane_join (pack_lt small d s)]
    split_ifs with first
    · exact ih first s
    · have rest : i - 2 ^ d < 2 ^ d := by
        rw [Nat.pow_succ] at inside
        omega
      have place : s + 2 ^ d + (i - 2 ^ d) = s + i := by omega
      rw [ih rest, place]

theorem fill_eq_pack (w c d s : Nat) : fill w c d = pack w (fun _ => c) d s := by
  induction d generalizing s with
  | zero => rfl
  | succ d ih => rw [fill, pack, ← ih, ← ih]

theorem lane_fill (small : c < 2 ^ w) (inside : i < 2 ^ d) : lane w i (fill w c d) = c := by
  rw [fill_eq_pack w c d 0]
  exact lane_pack (fun _ => small) inside 0

theorem lane_of_lt (small : x < 2 ^ (w * n)) (beyond : n ≤ i) : lane w i x = 0 := by
  have less : x < 2 ^ (w * i) :=
    small.trans_le (Nat.pow_le_pow_right (by decide) (Nat.mul_le_mul_left w beyond))
  rw [lane, Nat.shiftRight_eq_div_pow, Nat.div_eq_of_lt less, Nat.zero_mod]

theorem narrow_pack {f : Nat → Nat} (small : ∀ s, f s < 2 ^ b) (fits : b ≤ w) (d s : Nat) :
    Narrow w b (pack w f d s) := by
  have wide : ∀ s, f s < 2 ^ w :=
    fun s => (small s).trans_le (Nat.pow_le_pow_right (by decide) fits)
  intro i
  by_cases inside : i < 2 ^ d
  · rw [lane_pack wide inside]
    exact small _
  · rw [lane_of_lt (pack_lt wide d s) (Nat.le_of_not_lt inside)]
    exact Nat.two_pow_pos b

theorem narrow_fill (small : c < 2 ^ b) (fits : b ≤ w) (d : Nat) : Narrow w b (fill w c d) := by
  rw [fill_eq_pack w c d 0]
  exact narrow_pack (fun _ => small) fits d 0

theorem lane_mod (inside : i < n) (w x : Nat) : lane w i (x % 2 ^ (w * n)) = lane w i x := by
  apply Nat.eq_of_testBit_eq
  intro j
  simp only [testBit_lane, Nat.testBit_mod_two_pow]
  by_cases short : j < w
  · have below : w * i + j < w * n := by
      have next := Nat.mul_le_mul_left w (Nat.succ_le_of_lt inside)
      rw [Nat.mul_succ] at next
      omega
    simp [below]
  · simp [short]

theorem lane_shiftRight_lanes (w i n x : Nat) : lane w i (x >>> (w * n)) = lane w (n + i) x := by
  rw [lane, lane, ← Nat.shiftRight_add, Nat.mul_add]

/-- Bit `v` is set for every value `v` of the first `2 ^ d` fields. -/
def marks (w : Nat) : Nat → Nat → Nat
  | 0, x => 1 <<< lane w 0 x
  | d + 1, x => marks w d (x % 2 ^ (w * 2 ^ d)) ||| marks w d (x >>> (w * 2 ^ d))

theorem testBit_marks (w d x v : Nat) :
    (marks w d x).testBit v = true ↔ ∃ i < 2 ^ d, lane w i x = v := by
  induction d generalizing x with
  | zero => simp [marks, Nat.one_shiftLeft, Nat.testBit_two_pow]
  | succ d ih =>
    rw [marks, Nat.testBit_or, Bool.or_eq_true, ih, ih]
    constructor
    · rintro (⟨i, inside, rfl⟩ | ⟨i, inside, rfl⟩)
      · exact ⟨i, by rw [Nat.pow_succ]; omega, (lane_mod inside w x).symm⟩
      · exact ⟨2 ^ d + i, by rw [Nat.pow_succ]; omega, (lane_shiftRight_lanes w i _ x).symm⟩
    · rintro ⟨i, inside, rfl⟩
      by_cases first : i < 2 ^ d
      · exact .inl ⟨i, first, lane_mod first w x⟩
      · have place : 2 ^ d + (i - 2 ^ d) = i := by omega
        rw [Nat.pow_succ] at inside
        exact .inr ⟨i - 2 ^ d, by omega, by rw [lane_shiftRight_lanes, place]⟩

/-- The sum of the first `2 ^ d` fields. -/
def tally : Nat → Nat → Nat → Nat
  | w, 0, x => lane w 0 x
  | w, d + 1, x =>
    let low := fill (2 * w) (2 ^ w - 1) d
    tally (2 * w) d ((x &&& low) + (x >>> w &&& low))

theorem lane_even (w i x : Nat) : lane (2 * w) i x % 2 ^ w = lane w (2 * i) x := by
  have place : w * (2 * i) = 2 * w * i := by rw [Nat.mul_left_comm, Nat.mul_assoc]
  rw [lane, lane, Nat.mod_mod_of_dvd _ (pow_dvd_pow 2 (by omega)), place]

theorem lane_odd (w i x : Nat) : lane (2 * w) i x >>> w % 2 ^ w = lane w (2 * i + 1) x := by
  apply Nat.eq_of_testBit_eq
  intro j
  have place : 2 * w * i + (w + j) = w * (2 * i + 1) + j := by
    rw [Nat.mul_succ, Nat.mul_left_comm, ← Nat.mul_assoc, Nat.add_assoc]
  simp only [testBit_lane, Nat.testBit_mod_two_pow, Nat.testBit_shiftRight, place]
  by_cases inside : j < w
  · have room : w + j < 2 * w := by omega
    simp [inside, room]
  · simp [inside]

theorem lane_halve (positive : 0 < w) (inside : i < 2 ^ d) (x : Nat) :
    lane (2 * w) i ((x &&& fill (2 * w) (2 ^ w - 1) d) + (x >>> w &&& fill (2 * w) (2 ^ w - 1) d)) =
      lane w (2 * i) x + lane w (2 * i + 1) x := by
  have top : 2 ^ w - 1 < 2 ^ w := Nat.sub_lt (Nat.two_pow_pos w) Nat.one_pos
  have low : Narrow (2 * w) w (fill (2 * w) (2 ^ w - 1) d) := narrow_fill top (by omega) d
  have mask : lane (2 * w) i (fill (2 * w) (2 ^ w - 1) d) = 2 ^ w - 1 :=
    lane_fill (top.trans_le (Nat.pow_le_pow_right (by decide) (by omega))) inside
  rw [lane_add ((low.and_right x).add_lt (low.and_right _) (by omega)), lane_and,
    lane_shiftRight_and low (by omega), mask,
    Nat.and_two_pow_sub_one_eq_mod, Nat.and_two_pow_sub_one_eq_mod, lane_even, lane_odd]

theorem sum_pairs (f : Nat → Nat) (n : Nat) :
    ∑ i ∈ Finset.range (2 * n), f i = ∑ i ∈ Finset.range n, (f (2 * i) + f (2 * i + 1)) := by
  induction n with
  | zero => rfl
  | succ n ih => rw [Nat.mul_succ, Finset.sum_range_succ, Finset.sum_range_succ, ih,
    Finset.sum_range_succ, Nat.add_assoc]

theorem tally_eq_sum (positive : 0 < w) (d x : Nat) :
    tally w d x = ∑ i ∈ Finset.range (2 ^ d), lane w i x := by
  induction d generalizing w x with
  | zero => simp [tally]
  | succ d ih =>
    rw [tally, ih (by omega), Nat.pow_succ', sum_pairs]
    refine Finset.sum_congr rfl ?_
    intro i member
    exact lane_halve positive (Finset.mem_range.mp member) x

theorem tally_one (d x : Nat) :
    tally 1 d x = ((Finset.range (2 ^ d)).filter fun v => x.testBit v = true).card := by
  rw [tally_eq_sum Nat.one_pos, Finset.card_filter]
  refine Finset.sum_congr rfl ?_
  intro i _
  simp only [lane, one_mul, Nat.shiftRight_eq_div_pow, pow_one, Nat.testBit_eq_decide_div_mod_eq,
    decide_eq_true_eq]
  split <;> omega

end Lanes
