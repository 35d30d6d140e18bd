import SimplePool.Lib.Wire

/-! The byte-buffer helpers, the hex decoder and the transaction readers of
coinbase.c. C strings are the bytes before their terminator. -/
namespace SimplePool.Coinbase
open Wire

/-- A failing call reports a text. A step the C standard does not define (a read
outside a buffer, a signed overflow) has no outcome the caller can rely on. -/
inductive Failure where
  | error (message : String)
  | undefined
deriving DecidableEq, Repr

abbrev Result (α : Type) := Except Failure α

instance {α : Type} [DecidableEq α] : DecidableEq (Result α)
  | .ok a, .ok b => decidable_of_iff (a = b) (by simp)
  | .error a, .error b => decidable_of_iff (a = b) (by simp)
  | .ok _, .error _ => .isFalse (by simp)
  | .error _, .ok _ => .isFalse (by simp)

def fail {α : Type} (message : String) : Result α := .error (.error message)

def need {α : Type} (message : String) : Option α → Result α
  | some a => .ok a
  | none => fail message

def orUndefined {α : Type} : Option α → Result α
  | some a => .ok a
  | none => .error .undefined

theorem bind_ok {α β : Type} {x : Result α} {next : α → Result β} {b : β}
    (done : (x >>= next) = .ok b) :
    ∃ a, x = .ok a ∧ next a = .ok b := by
  cases x with
  | error failure => contradiction
  | ok a => exact ⟨a, rfl, done⟩

/-- `size_t` and `uint64_t` arithmetic. -/
def sizeT (n : Nat) : Nat := n % 2 ^ 64

/-- `int64_t` arithmetic. -/
def int64 (n : Int) : Result Int := if -2 ^ 63 ≤ n ∧ n < 2 ^ 63 then .ok n else .error .undefined

/-- The `int64_t` with the bits of a `uint64_t`. -/
def toInt64 (n : Nat) : Int := if n < 2 ^ 63 then n else n - 2 ^ 64

/-- The `uint64_t` with the bits of an `int64_t`. -/
def toUInt64 (n : Int) : Nat := (n % 2 ^ 64).toNat

theorem int64_ok (fits : int64 n = .ok m) : m = n ∧ -2 ^ 63 ≤ n ∧ n < 2 ^ 63 := by
  rw [int64] at fits
  split at fits
  next range => exact ⟨(Except.ok.inj fits).symm, range⟩
  next => contradiction

theorem toUInt64_toInt64 (small : n < 2 ^ 64) : toUInt64 (toInt64 n) = n := by
  rw [toUInt64, toInt64]
  split <;> omega

theorem toUInt64_lt (n : Int) : toUInt64 n < 2 ^ 64 := by
  rw [toUInt64]
  omega

theorem toUInt64_of_nonneg (nonneg : 0 ≤ n) (small : n < 2 ^ 64) : (toUInt64 n : Int) = n := by
  rw [toUInt64]
  omega

def pushU32Le (v : Nat) : Bytes :=
  [UInt8.ofNat v, UInt8.ofNat (v >>> 8), UInt8.ofNat (v >>> 16), UInt8.ofNat (v >>> 24)]

def pushU64Le (v : Nat) : Bytes := (List.range 8).map fun i => UInt8.ofNat (v >>> (8 * i))

def pushVarint (n : Nat) : Bytes :=
  if n < 0xfd then [UInt8.ofNat n]
  else if n ≤ 0xffff then 0xfd :: [UInt8.ofNat n, UInt8.ofNat (n >>> 8)]
  else if n ≤ 0xffffffff then 0xfe :: pushU32Le n
  else 0xff :: pushU64Le n

theorem pushU32Le_eq (v : Nat) : pushU32Le v = encode 4 v := by
  simp only [pushU32Le, encode, Nat.shiftRight_eq_div_pow, Nat.div_div_eq_div_mul]

theorem pushU64Le_eq (v : Nat) : pushU64Le v = encode 8 v := by
  simp only [pushU64Le, encode, Nat.shiftRight_eq_div_pow, Nat.div_div_eq_div_mul]
  simp [List.range_succ]

theorem pushVarint_eq (n : Nat) : pushVarint n = compact n := by
  simp only [pushVarint, compact, pushU32Le_eq, pushU64Le_eq, encode, Nat.shiftRight_eq_div_pow]

def hexNibble (c : UInt8) : Option Nat :=
  if 48 ≤ c ∧ c ≤ 57 then some (c.toNat - 48)
  else if 97 ≤ c ∧ c ≤ 102 then some (10 + (c.toNat - 97))
  else if 65 ≤ c ∧ c ≤ 70 then some (10 + (c.toNat - 65))
  else none

def hexPairs : Bytes → Option Bytes
  | hi :: lo :: rest =>
    match hexNibble hi, hexNibble lo, hexPairs rest with
    | some hi, some lo, some more => some (UInt8.ofNat (hi * 16 + lo) :: more)
    | _, _, _ => none
  | [] => some []
  | [_] => none

def hexDecode (hex : Bytes) (cap : Nat) : Option Bytes :=
  if hex.length % 2 ≠ 0 then none
  else if cap < hex.length / 2 then none
  else hexPairs hex

theorem hexPairs_length :
    ∀ {hex bytes : Bytes}, hexPairs hex = some bytes → bytes.length = hex.length / 2
  | [], bytes, decoded => by
    obtain rfl := Option.some.inj decoded
    rfl
  | [_], _, decoded => by contradiction
  | hi :: lo :: rest, bytes, decoded => by
    simp only [hexPairs] at decoded
    split at decoded
    next high low more _ _ tail =>
      obtain rfl := Option.some.inj decoded
      have length := hexPairs_length tail
      simp only [List.length_cons]
      omega
    next => contradiction

theorem hexPairs_even : ∀ {hex bytes : Bytes}, hexPairs hex = some bytes → hex.length % 2 = 0
  | [], _, _ => rfl
  | [_], _, decoded => by contradiction
  | hi :: lo :: rest, _, decoded => by
    simp only [hexPairs] at decoded
    split at decoded
    next high low more _ _ tail =>
      have even := hexPairs_even tail
      simp only [List.length_cons]
      omega
    next => contradiction

def hexDigit (n : Nat) : UInt8 := UInt8.ofNat (if n < 10 then 48 + n else 87 + n)

def hexEncode (bytes : Bytes) : Bytes :=
  bytes.flatMap fun b => [hexDigit (b.toNat / 16), hexDigit (b.toNat % 16)]

theorem hexPairs_hexEncode (bytes : Bytes) : hexPairs (hexEncode bytes) = some bytes := by
  have digit : ∀ n < 16, hexNibble (hexDigit n) = some n := by decide
  induction bytes with
  | nil => rfl
  | cons b rest ih =>
    have hi := digit (b.toNat / 16) (Nat.div_lt_of_lt_mul b.toNat_lt)
    have lo := digit (b.toNat % 16) (Nat.mod_lt _ (by decide))
    have whole : b.toNat / 16 * 16 + b.toNat % 16 = b.toNat := Nat.div_add_mod' _ _
    rw [hexEncode, List.flatMap_cons, ← hexEncode, List.cons_append, List.cons_append,
      List.nil_append, hexPairs, hi, lo, ih]
    simp [whole]

theorem hexEncode_injective : Function.Injective hexEncode := by
  intro a b same
  have decoded := congrArg hexPairs same
  rw [hexPairs_hexEncode, hexPairs_hexEncode] at decoded
  exact Option.some.inj decoded

/-- A reader returns the value and the advanced offset. -/
def rdVarint (buf : Bytes) (off : Nat) : Option (Nat × Nat) :=
  match buf[off]? with
  | none => none
  | some b =>
    let off := off + 1
    if b < 0xfd then some (b.toNat, off)
    else
      let n := if b = 0xfd then 2 else if b = 0xfe then 4 else 8
      if buf.length < sizeT (off + n) then none
      else some (decode ((buf.drop off).take n), off + n)

/-- `rd_u32` and `rd_u64`. -/
def rdFixed (width : Nat) (buf : Bytes) (off : Nat) : Option (Nat × Nat) :=
  if buf.length < sizeT (off + width) then none
  else some (decode ((buf.drop off).take width), off + width)

def rdU32 : Bytes → Nat → Option (Nat × Nat) := rdFixed 4

def rdU64 : Bytes → Nat → Option (Nat × Nat) := rdFixed 8

/-- A buffer is an object in memory, and the offsets a reader adds to stay small. -/
def Fits (buf : Bytes) : Prop := buf.length < 2 ^ 63

theorem Fits.sizeT (fits : Fits buf) (inside : off ≤ buf.length) : sizeT off = off := by
  have bound := fits
  exact Nat.mod_eq_of_lt (by simp only [Fits] at bound; omega)

/-- On a buffer that the consuming reader accepts, the offset reader agrees with it. -/
theorem rdFixed_at (fits : Fits buf) (here : At buf off input)
    (taken : takeNat width input = some (v, rest)) :
    rdFixed width buf off = some (v, off + width) ∧ At buf (off + width) rest := by
  obtain ⟨⟨bytes, after⟩, front, same⟩ := Option.map_eq_some_iff.mp taken
  obtain ⟨rfl, rfl⟩ := Prod.mk.inj same
  obtain ⟨cut, next⟩ := here.takeBytes front
  refine ⟨?_, next⟩
  have inside := next.inside
  rw [Wire.slice, if_pos inside] at cut
  rw [rdFixed, fits.sizeT inside, if_neg (by omega), Option.some.inj cut]

theorem rdVarint_at (fits : Fits buf) (here : At buf off input)
    (taken : takeCompact input = some (v, rest)) :
    ∃ off', rdVarint buf off = some (v, off') ∧ At buf off' rest := by
  cases input with
  | nil => contradiction
  | cons b input =>
    have first : buf[off]? = some b := by simpa using here.getElem? 0
    have split : At buf off ([b] ++ input) := here
    have next : At buf (off + 1) input := split.advance
    simp only [takeCompact] at taken
    split at taken
    next small =>
      obtain ⟨rfl, rfl⟩ := Prod.mk.inj (Option.some.inj taken)
      exact ⟨off + 1, by simp only [rdVarint, first, small, if_true], next⟩
    next large =>
      obtain ⟨read, after⟩ := rdFixed_at fits next taken
      refine ⟨off + 1 + compactWidth b, ?_, after⟩
      simp only [rdVarint, first, large, if_false]
      exact read

end SimplePool.Coinbase
