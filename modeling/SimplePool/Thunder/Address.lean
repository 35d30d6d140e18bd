import SimplePool.Coinbase.Base58

/-! Thunder addresses: the base58 of twenty bytes, with no version byte and no checksum. The
decoder is a copy of the coinbase's, so that it can be tested without it. -/
namespace SimplePool.Thunder
open Wire Coinbase

def b58Alpha : Bytes := ascii "123456789ABCDEFGHJKLMNPQRSTUVWXYZabcdefghijkmnopqrstuvwxyz"

/-- The inner loop, over the bytes below `j` from the last one down. -/
def b58Carry : Nat → UInt32 → Bytes → UInt32 × Bytes
  | 0, carry, b => (carry, b)
  | j + 1, carry, b =>
    let carry := carry + 58 * (b.getD j 0).toUInt32
    b58Carry j (carry >>> 8) (b.set j (carry &&& 0xff).toUInt8)

def b58Digits (bsize : Nat) : Bytes → Bytes → Option Bytes
  | [], b => some b
  | c :: rest, b =>
    match b58Alpha.idxOf? c with
    | none => none
    | some digit =>
      let (carry, b) := b58Carry bsize (UInt32.ofNat digit) b
      if carry ≠ 0 then none else b58Digits bsize rest b

/-- `b58_decode` of the first `slen` bytes. -/
def b58Decode (s : Bytes) (slen cap : Nat) : Option Bytes :=
  let s := s.take slen
  let zeros := (s.takeWhile (· = 49)).length
  let bsize := slen * 733 / 1000 + 1
  match b58Digits bsize s (List.replicate bsize 0) with
  | none => none
  | some b =>
    let skip := b.findIdx (· ≠ 0)
    let total := zeros + (bsize - skip)
    if cap < total then none else some (List.replicate zeros 0 ++ b.drop skip)

/-- `thunder_address_decode`; no string is the null pointer. -/
def thunderAddressDecode (addr : Option Bytes) : Except String Bytes :=
  match addr with
  | none => .error "empty thunder address"
  | some addr =>
    let alen := addr.length
    if addr = [] then .error "empty thunder address"
    else if 95 ∈ addr then
      .error ("thunder address contains '_' — looks like the 's<n>_<base58>_<hex6>' " ++
        "deposit-format wrapper; use the bare base58 (thunder-cli get-new-address) instead")
    else if alen < 20 ∨ 40 < alen then
      .error ("thunder address base58 length " ++ toString alen ++ " out of range")
    else
      match b58Decode addr alen 64 with
      | none => .error "thunder address base58 decode failed"
      | some buf =>
        if buf.length ≠ 20 then
          .error ("thunder address decoded length " ++ toString buf.length ++ " (expected 20)")
        else .ok buf

theorem b58Shift_from (b out : Bytes) (carry : Nat) :
    b.foldr (fun byte (out, carry) =>
      let carry := carry + 58 * byte.toNat
      (UInt8.ofNat carry :: out, carry / 256)) (out, carry) =
        ((b58Shift b carry).1 ++ out, (b58Shift b carry).2) := by
  induction b with
  | nil => rfl
  | cons byte rest ih =>
    rw [List.foldr_cons, ih]
    rfl

theorem b58Shift_concat (b : Bytes) (byte : UInt8) (carry : Nat) :
    b58Shift (b ++ [byte]) carry =
      ((b58Shift b ((carry + 58 * byte.toNat) / 256)).1 ++ [UInt8.ofNat (carry + 58 * byte.toNat)],
        (b58Shift b ((carry + 58 * byte.toNat) / 256)).2) := by
  rw [b58Shift, List.foldr_append]
  exact b58Shift_from b _ _

/-- The word does not wrap on a carry below a digit. -/
theorem b58Word (byte : UInt8) (small : carry < 58) :
    (UInt32.ofNat carry + 58 * byte.toUInt32) >>> 8 =
      UInt32.ofNat ((carry + 58 * byte.toNat) / 256) ∧
      ((UInt32.ofNat carry + 58 * byte.toUInt32) &&& 0xff).toUInt8 =
        UInt8.ofNat (carry + 58 * byte.toNat) ∧
      (carry + 58 * byte.toNat) / 256 < 58 := by
  have bound := byte.toNat_lt
  have word : (UInt32.ofNat carry + 58 * byte.toUInt32).toNat = carry + 58 * byte.toNat := by
    rw [UInt32.toNat_add, UInt32.toNat_mul, UInt32.toNat_ofNat', UInt8.toNat_toUInt32]
    change (carry % 2 ^ 32 + 58 * byte.toNat % 2 ^ 32) % 2 ^ 32 = _
    omega
  refine ⟨?_, ?_, by omega⟩
  · apply UInt32.toNat_inj.mp
    rw [UInt32.toNat_shiftRight, word, UInt32.toNat_ofNat']
    have shifted := Nat.shiftRight_eq_div_pow (carry + 58 * byte.toNat) 8
    change (carry + 58 * byte.toNat) >>> 8 = _
    omega
  · apply UInt8.toNat_inj.mp
    rw [UInt32.toNat_toUInt8, UInt32.toNat_and, word, UInt8.toNat_ofNat']
    exact congrArg (· % 2 ^ 8) (Nat.and_two_pow_sub_one_eq_mod (carry + 58 * byte.toNat) 8) |>.trans
      (Nat.mod_mod _ _)

theorem b58Carry_shift (b behind : Bytes) (small : carry < 58) :
    b58Carry b.length (UInt32.ofNat carry) (b ++ behind) =
      (UInt32.ofNat (b58Shift b carry).2, (b58Shift b carry).1 ++ behind) ∧
      (b58Shift b carry).2 < 58 := by
  induction b using List.reverseRecOn generalizing carry behind with
  | nil => exact ⟨rfl, small⟩
  | append_singleton b byte ih =>
    obtain ⟨high, low, below⟩ := b58Word byte small
    have read : (b ++ [byte] ++ behind).getD b.length 0 = byte := by simp
    have write : ∀ new, (b ++ [byte] ++ behind).set b.length new = b ++ new :: behind := by simp
    rw [List.length_append, List.length_singleton, b58Carry, read, write, high, low,
      b58Shift_concat]
    obtain ⟨carried, bound⟩ := ih (UInt8.ofNat (carry + 58 * byte.toNat) :: behind) below
    rw [carried, List.append_assoc, List.singleton_append]
    exact ⟨rfl, bound⟩

theorem b58Digits_same (s b : Bytes) : b58Digits b.length s b = Coinbase.b58Digits s b := by
  induction s generalizing b with
  | nil => rfl
  | cons c rest ih =>
    rw [b58Digits, Coinbase.b58Digits, show b58Alpha = Coinbase.b58Alpha from rfl]
    cases found : Coinbase.b58Alpha.idxOf? c with
    | none => rfl
    | some digit =>
      obtain ⟨carried, below⟩ := b58Carry_shift b [] (b58Alpha_char found).1
      obtain ⟨size, _⟩ := b58Shift_value b digit
      rw [List.append_nil, List.append_nil] at carried
      dsimp only
      rw [carried]
      dsimp only
      have zero : UInt32.ofNat (b58Shift b digit).2 = 0 ↔ (b58Shift b digit).2 = 0 := by
        rw [← UInt32.toNat_inj, UInt32.toNat_ofNat', Nat.mod_eq_of_lt (by omega)]
        rfl
      by_cases fits : (b58Shift b digit).2 = 0
      · rw [if_neg (not_not.mpr (zero.mpr fits)), if_neg (not_not.mpr fits), ← size]
        exact ih _
      · rw [if_pos (mt zero.mp fits), if_pos fits]

theorem drop_findIdx (b : Bytes) : b.drop (b.findIdx (· ≠ 0)) = b.dropWhile (· = 0) := by
  induction b with
  | nil => rfl
  | cons byte rest ih =>
    by_cases zero : byte = 0
    · subst zero
      rw [List.findIdx_cons, List.dropWhile_cons_of_pos (by decide)]
      exact ih
    · rw [List.findIdx_cons, List.dropWhile_cons_of_neg (by simpa using zero)]
      simp [zero]

theorem b58Decode_same (s : Bytes) (cap : Nat) :
    b58Decode s s.length cap = Coinbase.b58Decode s cap := by
  rw [b58Decode, Coinbase.b58Decode, List.take_length]
  have same := b58Digits_same s (List.replicate (s.length * 733 / 1000 + 1) 0)
  rw [List.length_replicate] at same
  dsimp only
  rw [same]
  cases read : Coinbase.b58Digits s (List.replicate (s.length * 733 / 1000 + 1) 0) with
  | none => rfl
  | some b =>
    obtain ⟨_, _, _, size, _⟩ := b58Digits_read read
    have rest := congrArg List.length (drop_findIdx b)
    rw [List.length_drop, size, List.length_replicate] at rest
    dsimp only
    rw [rest, drop_findIdx]

/-- Every address of twenty bytes is long enough, short enough and without an underscore. -/
theorem thunderAddressDecode_iff (addr : Option Bytes) (out : Bytes) :
    thunderAddressDecode addr = .ok out ↔ out.length = 20 ∧ addr = some (b58Encode out) := by
  constructor
  · intro accepted
    rw [thunderAddressDecode.eq_def] at accepted
    split at accepted
    next => cases accepted
    next addr =>
      dsimp only at accepted
      rw [b58Decode_same] at accepted
      split_ifs at accepted
      split at accepted
      next => cases accepted
      next buf decoded =>
        split_ifs at accepted with size
        obtain rfl := Except.ok.inj accepted
        exact ⟨not_not.mp size, congrArg some ((b58Decode_iff addr 64 buf).mp decoded).1.encoded⟩
  · rintro ⟨size, rfl⟩
    have base := base58_encode out
    have decoded := (b58Decode_iff (b58Encode out) 64 out).mpr ⟨base, by omega⟩
    have length := base.length
    have someone : b58Encode out ≠ [] := fun empty => by
      rw [empty, size] at length
      exact absurd length.1 (by decide)
    have bare : 95 ∉ b58Encode out :=
      fun underscore => absurd (base.alphabet 95 underscore) (by decide)
    rw [thunderAddressDecode]
    rw [b58Decode_same, if_neg someone, if_neg bare, if_neg (by omega), decoded]
    dsimp only
    rw [if_neg (not_not.mpr size)]

/-- The two copies agree on every string, and read back every encoding that fits; neither
carries out of its buffer on a string over the alphabet. -/
theorem base58_exact :
    (∀ s cap, b58Decode s s.length cap = Coinbase.b58Decode s cap) ∧
    (∀ bytes cap, bytes.length ≤ cap → Coinbase.b58Decode (b58Encode bytes) cap = some bytes) ∧
    (∀ s : Bytes, (∀ c ∈ s, c ∈ Coinbase.b58Alpha) → ∃ b,
      Coinbase.b58Digits s (List.replicate (s.length * 733 / 1000 + 1) 0) = some b ∧
      b58Digits (s.length * 733 / 1000 + 1) s (List.replicate (s.length * 733 / 1000 + 1) 0) =
        some b) ∧
    ∀ addr out, thunderAddressDecode addr = .ok out ↔ out.length = 20 ∧
    addr = some (b58Encode out) := by
  refine ⟨b58Decode_same, ?_, ?_, thunderAddressDecode_iff⟩
  · exact fun bytes cap fits => (b58Decode_iff _ _ _).mpr ⟨base58_encode bytes, fits⟩
  · intro s letters
    obtain ⟨b, read⟩ := b58Digits_room letters
    have same := b58Digits_same s (List.replicate (s.length * 733 / 1000 + 1) 0)
    rw [List.length_replicate, read] at same
    exact ⟨b, read, same⟩

/-- Two bytes, the first of them zero, in each copy. -/
theorem base58_exact_two : b58Decode [49, 50] 2 2 = Coinbase.b58Decode [49, 50] 2 ∧
    Coinbase.b58Decode (b58Encode [0, 1]) 2 = some [0, 1] :=
  ⟨base58_exact.1 [49, 50] 2, base58_exact.2.1 [0, 1] 2 (by decide)⟩

end SimplePool.Thunder
