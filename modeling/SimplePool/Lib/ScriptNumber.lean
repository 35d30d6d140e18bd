import Mathlib.Data.Nat.Digits.Lemmas
import SimplePool.Lib.Wire

/-! The numbers of Bitcoin script: little-endian, as short as they can be, with the sign in
the top bit of the last byte. And the operation that pushes one that is not negative. -/
namespace ScriptNumber
open Wire

/-- The digits of a magnitude, least significant byte first. -/
def magnitude (n : Nat) : Bytes := (Nat.digits 256 n).map UInt8.ofNat

/-- A zero byte keeps the top bit of the last digit from being read as a sign. -/
def serialize (n : Nat) : Bytes :=
  if 0x80 ≤ (magnitude n).getLastD 0 then magnitude n ++ [0] else magnitude n

/-- The last byte carries more than a sign, unless the byte before it needs its top bit. -/
def Minimal (bytes : Bytes) : Prop :=
  match bytes.reverse with
  | [] => True
  | last :: before => last % 0x80 ≠ 0 ∨ ∃ b ∈ before.head?, 0x80 ≤ b

instance (bytes : Bytes) : Decidable (Minimal bytes) :=
  match same : bytes.reverse with
  | [] => .isTrue (by simp [Minimal, same])
  | last :: before =>
    decidable_of_iff (last % 0x80 ≠ 0 ∨ ∃ b ∈ before.head?, 0x80 ≤ b) (by simp [Minimal, same])

def value (bytes : Bytes) : Int :=
  if 0x80 ≤ bytes.getLastD 0 then 0x80 * 256 ^ (bytes.length - 1) - decode bytes else decode bytes

/-- A number that is encoded in more bytes than it needs is none. -/
def read (bytes : Bytes) : Option Int := if Minimal bytes then some (value bytes) else none

/-- `OP_0`, `OP_1` to `OP_16`, or the bytes behind their count. -/
def push (n : Nat) : Bytes :=
  if n = 0 then [0x00]
  else if n ≤ 16 then [UInt8.ofNat (0x50 + n)]
  else UInt8.ofNat (serialize n).length :: serialize n

/-- The number that the first operation pushes, and what is left of the script. Counts stand
for themselves up to 75. -/
def takePush : Bytes → Option (Int × Bytes)
  | [] => none
  | op :: rest =>
    if op ≤ 75 then
      (takeBytes op.toNat rest).bind fun (bytes, rest) => (read bytes).map fun n => (n, rest)
    else if 0x51 ≤ op ∧ op ≤ 0x60 then some (op.toNat - 0x50, rest)
    else none

theorem decode_digits {digits : List Nat} (small : ∀ d ∈ digits, d < 256) :
    decode (digits.map UInt8.ofNat) = Nat.ofDigits 256 digits := by
  induction digits with
  | nil => rfl
  | cons d digits ih =>
    have low : (UInt8.ofNat d).toNat = d := by
      apply Nat.mod_eq_of_lt
      exact small d List.mem_cons_self
    have high := ih fun e member => small e (List.mem_cons_of_mem d member)
    simp only [List.map_cons, decode, low, high, Nat.ofDigits_cons]

theorem decode_magnitude (n : Nat) : decode (magnitude n) = n := by
  rw [magnitude, decode_digits fun d => Nat.digits_lt_base (by decide), Nat.ofDigits_digits]

theorem length_magnitude (n : Nat) (k : Nat) (small : n < 256 ^ k) : (magnitude n).length ≤ k := by
  rw [magnitude, List.length_map]
  exact (Nat.digits_length_le_iff (by decide) n).mpr small

/-- A positive magnitude ends in a digit that is not zero. -/
theorem magnitude_last (positive : 0 < n) :
    ∃ front last, magnitude n = front ++ [last] ∧ last ≠ 0 := by
  have some_digit : Nat.digits 256 n ≠ [] := Nat.digits_ne_nil_iff_ne_zero.mpr positive.ne'
  have nonzero := Nat.getLast_digit_ne_zero 256 positive.ne'
  have small := Nat.digits_lt_base (b := 256) (by decide) (List.getLast_mem some_digit)
  refine ⟨(Nat.digits 256 n).dropLast.map UInt8.ofNat,
    UInt8.ofNat ((Nat.digits 256 n).getLast some_digit), ?_, ?_⟩
  · rw [magnitude, ← List.map_singleton, ← List.map_append, List.dropLast_append_getLast]
  · intro zero
    apply nonzero
    have byte := congrArg UInt8.toNat zero
    rwa [UInt8.toNat_ofNat', Nat.mod_eq_of_lt small] at byte

theorem length_serialize (n k : Nat) (small : n < 256 ^ k) : (serialize n).length ≤ k + 1 := by
  have digits := length_magnitude n k small
  rw [serialize]
  split
  · simpa using digits
  · omega

theorem read_serialize (n : Nat) : read (serialize n) = some (n : Int) := by
  rcases Nat.eq_zero_or_pos n with rfl | positive
  · rfl
  obtain ⟨front, last, digits, nonzero⟩ := magnitude_last positive
  have whole := decode_magnitude n
  rw [serialize, read]
  rw [digits] at whole ⊢
  rw [List.getLastD_concat]
  split
  next top =>
    have minimal : Minimal (front ++ [last] ++ [0]) := by simp [Minimal, top]
    rw [if_pos minimal, value, List.getLastD_concat, if_neg (by decide), decode_append, whole]
    simp [decode]
  next low =>
    have minimal : Minimal (front ++ [last]) := by
      have small : last % 0x80 = last := by
        apply UInt8.toNat_inj.mp
        rw [UInt8.toNat_mod]
        exact Nat.mod_eq_of_lt (UInt8.lt_iff_toNat_lt.mp (UInt8.not_le.mp low))
      simp [Minimal, small, nonzero]
    rw [if_pos minimal, value, List.getLastD_concat, if_neg low, whole]

/-- A push says where it ends. -/
theorem takePush_push (n : Nat) (short : (serialize n).length ≤ 75) (rest : Bytes) :
    takePush (push n ++ rest) = some ((n : Int), rest) := by
  rw [push]
  split
  next zero =>
    subst zero
    simp [takePush, takeBytes]
    rfl
  next =>
    split
    next few =>
      have byte : (UInt8.ofNat (0x50 + n)).toNat = 0x50 + n := by
        rw [UInt8.toNat_ofNat']
        omega
      have opcode : 0x51 ≤ UInt8.ofNat (0x50 + n) ∧ UInt8.ofNat (0x50 + n) ≤ 0x60 := by
        simp only [UInt8.le_iff_toNat_le, byte]
        constructor
        · change 0x51 ≤ 0x50 + n
          omega
        · change 0x50 + n ≤ 0x60
          omega
      have above : ¬UInt8.ofNat (0x50 + n) ≤ 75 := by
        rw [UInt8.le_iff_toNat_le, byte]
        change ¬0x50 + n ≤ 75
        omega
      rw [List.singleton_append, takePush, if_neg above, if_pos opcode, byte]
      simp
    next =>
      have count : (UInt8.ofNat (serialize n).length).toNat = (serialize n).length := by
        rw [UInt8.toNat_ofNat']
        omega
      have below : UInt8.ofNat (serialize n).length ≤ 75 := by
        rw [UInt8.le_iff_toNat_le, count]
        exact short
      rw [List.cons_append, takePush, if_pos below, count, takeBytes_append, Option.bind_some]
      dsimp only
      rw [read_serialize, Option.map_some]

/-- Of two things that a reader of the front tells apart, neither is written as a prefix of the
other. -/
theorem eq_of_prefix {α β γ : Type} {write : α → List β} {take : List β → Option (γ × List β)}
    (value : α → γ) {a b : α} (takes : ∀ a rest, take (write a ++ rest) = some (value a, rest))
    (front : write a <+: write b) : value a = value b := by
  obtain ⟨rest, whole⟩ := front
  have first := takes a rest
  have second := takes b []
  rw [List.append_nil, ← whole, first] at second
  exact congrArg Prod.fst (Option.some.inj second)

end ScriptNumber
