import Mathlib.Data.List.Basic
import Mathlib.Tactic.Ring

/-! Byte-level wire formats: little-endian integers, compact sizes and counted
sequences, each with its writer and a reader that consumes the front of the input. A
reader that walks a buffer by offset is tied to the consuming one by `At`. -/
namespace Wire

abbrev Bytes := List UInt8

def encode : Nat → Nat → Bytes
  | 0, _ => []
  | width + 1, value => UInt8.ofNat value :: encode width (value / 256)

def decode : Bytes → Nat
  | [] => 0
  | b :: rest => b.toNat + 256 * decode rest

@[simp] theorem length_encode (width value : Nat) : (encode width value).length = width := by
  induction width generalizing value with
  | zero => rfl
  | succ width ih => rw [encode, List.length_cons, ih]

theorem decode_encode (width value : Nat) : decode (encode width value) = value % 256 ^ width := by
  induction width generalizing value with
  | zero => rw [encode, decode, pow_zero, Nat.mod_one]
  | succ width ih =>
    have low : (UInt8.ofNat value).toNat = value % 256 := by simp
    rw [encode, decode, ih, low, Nat.pow_succ, Nat.mul_comm (256 ^ width) 256, Nat.mod_mul]

theorem decode_encode_of_lt (small : value < 256 ^ width) :
    decode (encode width value) = value := by
  rw [decode_encode, Nat.mod_eq_of_lt small]

theorem decode_lt (bytes : Bytes) : decode bytes < 256 ^ bytes.length := by
  induction bytes with
  | nil => exact Nat.one_pos
  | cons b rest ih =>
    have byte := b.toNat_lt
    rw [decode, List.length_cons, Nat.pow_succ]
    omega

theorem decode_append (low high : Bytes) :
    decode (low ++ high) = decode low + 256 ^ low.length * decode high := by
  induction low with
  | nil => simp [decode]
  | cons b low ih =>
    rw [List.cons_append, decode, decode, ih, List.length_cons, Nat.pow_succ]
    grind

theorem encode_decode (bytes : Bytes) : encode bytes.length (decode bytes) = bytes := by
  induction bytes with
  | nil => rfl
  | cons b rest ih =>
    have byte : b.toNat < 256 := b.toNat_lt
    have high : (b.toNat + 256 * decode rest) / 256 = decode rest := by omega
    have low : UInt8.ofNat (b.toNat + 256 * decode rest) = b := by
      apply UInt8.toNat_inj.mp
      rw [UInt8.toNat_ofNat']
      omega
    rw [List.length_cons, encode, decode, low, high, ih]

def takeBytes (n : Nat) (input : Bytes) : Option (Bytes × Bytes) :=
  if n ≤ input.length then some (input.take n, input.drop n) else none

def takeNat (width : Nat) (input : Bytes) : Option (Nat × Bytes) :=
  (takeBytes width input).map fun (bytes, rest) => (decode bytes, rest)

/-- The number of bytes after the first one of a compact size. -/
def compactWidth (first : UInt8) : Nat := if first = 0xfd then 2 else if first = 0xfe then 4 else 8

def takeCompact : Bytes → Option (Nat × Bytes)
  | [] => none
  | b :: rest => if b < 0xfd then some (b.toNat, rest) else takeNat (compactWidth b) rest

def compact (n : Nat) : Bytes :=
  if n < 0xfd then [UInt8.ofNat n]
  else if n ≤ 0xffff then 0xfd :: encode 2 n
  else if n ≤ 0xffffffff then 0xfe :: encode 4 n
  else 0xff :: encode 8 n

def takeCounted (input : Bytes) : Option (Bytes × Bytes) :=
  (takeCompact input).bind fun (n, rest) => takeBytes n rest

def counted (bytes : Bytes) : Bytes := compact bytes.length ++ bytes

def takeMany {α : Type} (item : Bytes → Option (α × Bytes)) : Nat → Bytes → Option (List α × Bytes)
  | 0, input => some ([], input)
  | n + 1, input =>
    (item input).bind fun (a, rest) => (takeMany item n rest).map fun (more, rest) =>
      (a :: more, rest)

theorem takeBytes_append (bytes rest : Bytes) :
    takeBytes bytes.length (bytes ++ rest) = some (bytes, rest) := by
  rw [takeBytes, if_pos (by simp), List.take_left, List.drop_left]

theorem takeBytes_spec (taken : takeBytes n input = some (bytes, rest)) :
    input = bytes ++ rest ∧ bytes.length = n := by
  rw [takeBytes] at taken
  split at taken
  next enough =>
    obtain ⟨rfl, rfl⟩ := Prod.mk.inj (Option.some.inj taken)
    exact ⟨(List.take_append_drop n input).symm, List.length_take_of_le enough⟩
  next => contradiction

theorem takeNat_append (width : Nat) (small : value < 256 ^ width) (rest : Bytes) :
    takeNat width (encode width value ++ rest) = some (value, rest) := by
  have taken := takeBytes_append (encode width value) rest
  rw [length_encode] at taken
  simp only [takeNat, taken, Option.map_some, decode_encode_of_lt small]

theorem takeNat_spec (taken : takeNat width input = some (value, rest)) :
    input = encode width value ++ rest ∧ value < 256 ^ width := by
  obtain ⟨⟨bytes, after⟩, front, same⟩ := Option.map_eq_some_iff.mp taken
  obtain ⟨rfl, rfl⟩ := Prod.mk.inj same
  obtain ⟨rfl, rfl⟩ := takeBytes_spec front
  rw [encode_decode]
  exact ⟨rfl, decode_lt bytes⟩

theorem takeCompact_compact (small : n < 2 ^ 64) (rest : Bytes) :
    takeCompact (compact n ++ rest) = some (n, rest) := by
  rw [compact]
  split
  next tiny =>
    have value : (UInt8.ofNat n).toNat = n := by
      rw [UInt8.toNat_ofNat']
      omega
    have below : UInt8.ofNat n < 0xfd := by
      rw [UInt8.lt_iff_toNat_lt, value]
      exact tiny
    rw [List.singleton_append, takeCompact, if_pos below, value]
  next =>
    split
    next two => exact takeNat_append 2 (by omega) rest
    next =>
      split
      next four => exact takeNat_append 4 (by omega) rest
      next => exact takeNat_append 8 (by omega) rest

theorem takeCompact_lt (taken : takeCompact input = some (n, rest)) : n < 2 ^ 64 := by
  cases input with
  | nil => contradiction
  | cons b input =>
    simp only [takeCompact] at taken
    split at taken
    next =>
      obtain ⟨rfl, rfl⟩ := Prod.mk.inj (Option.some.inj taken)
      have byte := b.toNat_lt
      omega
    next =>
      obtain ⟨_, small⟩ := takeNat_spec taken
      simp only [compactWidth] at small
      split at small
      next => omega
      next =>
        split at small
        next => omega
        next => omega

theorem takeCounted_counted (small : bytes.length < 2 ^ 64) (rest : Bytes) :
    takeCounted (counted bytes ++ rest) = some (bytes, rest) := by
  rw [takeCounted, counted, List.append_assoc, takeCompact_compact small]
  exact takeBytes_append bytes rest

/-- A sequence of items is read back by the reader of one item. -/
theorem takeMany_flatMap {α : Type} {item : Bytes → Option (α × Bytes)} {write : α → Bytes}
    (items : List α)
    (round : ∀ a ∈ items, ∀ rest, item (write a ++ rest) = some (a, rest)) (rest : Bytes) :
    takeMany item items.length (items.flatMap write ++ rest) = some (items, rest) := by
  induction items with
  | nil => rfl
  | cons a items ih =>
    have later := ih fun b member => round b (List.mem_cons_of_mem a member)
    rw [List.length_cons, takeMany, List.flatMap_cons, List.append_assoc,
      round a List.mem_cons_self]
    simp only [Option.bind_some, later, Option.map_some]

/-- The bytes of the buffer from the offset on are the input. -/
structure At (buffer : Bytes) (off : Nat) (input : Bytes) : Prop where
  inside : off ≤ buffer.length
  ahead : buffer.drop off = input

def slice (buffer : Bytes) (off n : Nat) : Option Bytes :=
  if off + n ≤ buffer.length then some ((buffer.drop off).take n) else none

theorem slice_length (cut : slice buf off n = some bytes) : bytes.length = n ∧ n ≤ buf.length := by
  rw [slice] at cut
  split at cut
  next inside =>
    rw [← Option.some.inj cut, List.length_take, List.length_drop]
    omega
  next => contradiction

theorem slice_inside (cut : slice buf off n = some bytes) : off + n ≤ buf.length := by
  rw [slice] at cut
  split at cut
  next inside => exact inside
  next => contradiction

theorem At.start (buffer : Bytes) : At buffer 0 buffer := ⟨Nat.zero_le _, rfl⟩

theorem At.length (here : At buffer off input) : off + input.length = buffer.length := by
  have inside := here.inside
  rw [← here.ahead, List.length_drop]
  omega

theorem At.advance (here : At buffer off (front ++ input)) :
    At buffer (off + front.length) input := by
  have length := here.length
  rw [List.length_append] at length
  exact ⟨by omega, by rw [← List.drop_drop, here.ahead, List.drop_left]⟩

theorem At.slice (here : At buffer off (front ++ input)) :
    slice buffer off front.length = some front := by
  have length := here.length
  rw [List.length_append] at length
  rw [Wire.slice, if_pos (by omega), here.ahead, List.take_left]

theorem At.getElem? (here : At buffer off input) (i : Nat) : buffer[off + i]? = input[i]? := by
  rw [← here.ahead, List.getElem?_drop]

theorem At.takeBytes (here : At buffer off input) (taken : takeBytes n input = some (bytes, rest)) :
    Wire.slice buffer off n = some bytes ∧ At buffer (off + n) rest := by
  obtain ⟨rfl, rfl⟩ := takeBytes_spec taken
  exact ⟨here.slice, here.advance⟩

end Wire
