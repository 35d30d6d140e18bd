import SimplePool.Coinbase.Bech32

/-! Which strings are addresses, and the script each one denotes. -/
namespace SimplePool.Coinbase
open Wire Crypto Positional

/-- The groups are the bits of the program, with at most four bits of zero padding. -/
def Regroups (groups : List Nat) (program : Bytes) : Prop :=
  ∃ pad < 5, 5 * groups.length = 8 * program.length + pad ∧
  value 32 groups = bytesValue program * 2 ^ pad

def networkHrps : List Bytes := ["bc", "tb", "bcrt"].map ascii

/-- Version 0 carries the older checksum, every other version the newer one. -/
def SegwitAddress (hrp : Bytes) (version : Nat) (program s : Bytes) : Prop :=
  ∃ groups, Bech32 hrp (version :: groups) (if version = 0 then .bech32 else .bech32m) s ∧
  Regroups groups program

/-- The programs only their owner can spend. -/
def Spendable (version : Nat) (program : Bytes) : Prop :=
  (version = 0 ∧ (program.length = 20 ∨ program.length = 32)) ∨ (version = 1 ∧ program.length = 32)

def witnessScript (version : Nat) (program : Bytes) : Bytes :=
  UInt8.ofNat (if version = 0 then 0 else 0x50 + version) :: UInt8.ofNat program.length :: program

/-- A hash of twenty bytes behind a version byte, with its checksum. -/
def Base58Check (version : UInt8) (payload s : Bytes) : Prop :=
  payload.length = 20 ∧ Base58 s (version :: payload ++ (dsha256 (version :: payload)).take 4)

def keyHashScript (payload : Bytes) : Bytes := [0x76, 0xa9, 0x14] ++ payload ++ [0x88, 0xac]

def scriptHashScript (payload : Bytes) : Bytes := [0xa9, 0x14] ++ payload ++ [0x87]

/-- The script of an address. -/
inductive Denotes (s : Bytes) : Bytes → Prop where
  | segwit (network : hrp ∈ networkHrps) (address : SegwitAddress hrp version program s)
    (spendable : Spendable version program) :
      Denotes s (witnessScript version program)
  | keyHash (version : ver = 0x00 ∨ ver = 0x6f) (address : Base58Check ver payload s) :
    Denotes s (keyHashScript payload)
  | scriptHash (version : ver = 0x05 ∨ ver = 0xc4) (address : Base58Check ver payload s) :
    Denotes s (scriptHashScript payload)

/-- What the buffer knows of the groups it has taken. -/
structure Buffered (groups : List Nat) (buffer : BitBuffer) : Prop where
  acc : buffer.acc.toNat = value 32 groups % 2 ^ 32
  out : bytesValue buffer.out = value 32 groups / 2 ^ buffer.bits
  size : 8 * buffer.out.length + buffer.bits = 5 * groups.length
  bits : buffer.bits < 8

theorem bytesValue_concat (bytes : Bytes) (b : UInt8) :
    bytesValue (bytes ++ [b]) = bytesValue bytes * 256 + b.toNat := by
  rw [bytesValue, List.map_append, List.map_singleton, value_concat]
  rfl

theorem acc_push (acc : UInt32) (small : v < 32) :
    ((acc <<< UInt32.ofNat 5) ||| (UInt8.ofNat v).toUInt32).toNat =
      (acc.toNat * 32 + v) % 2 ^ 32 := by
  have byte : (UInt8.ofNat v).toUInt32.toNat = v := by
    simp
    omega
  have low : acc.toNat <<< 5 % 2 ^ 32 = 2 ^ 5 * (acc.toNat % 2 ^ 27) := by
    rw [Nat.shiftLeft_eq]
    omega
  rw [UInt32.toNat_or, byte, UInt32.toNat_shiftLeft]
  change acc.toNat <<< 5 % 2 ^ 32 ||| v = _
  rw [low, ← Nat.two_pow_add_eq_or_of_lt (show v < 2 ^ 5 from small)]
  omega

theorem byte_mask : ((1 : UInt32) <<< UInt32.ofNat 8) - 1 = 255 := by decide

theorem emitted_byte (acc : UInt32) (whole : acc.toNat = total % 2 ^ 32) (low : shift ≤ 4) :
    ((acc >>> UInt32.ofNat shift) &&& (((1 : UInt32) <<< UInt32.ofNat 8) - 1)).toUInt8.toNat =
      total / 2 ^ shift % 256 := by
  have amount : (UInt32.ofNat shift).toNat % 32 = shift := by
    rw [UInt32.toNat_ofNat']
    omega
  rw [byte_mask, UInt32.toNat_toUInt8, UInt32.toNat_and, UInt32.toNat_shiftRight, whole, amount,
    Nat.shiftRight_eq_div_pow]
  change (total % 2 ^ 32 / 2 ^ shift &&& (2 ^ 8 - 1)) % 2 ^ 8 = _
  rw [Nat.and_two_pow_sub_one_eq_mod]
  interval_cases shift <;> omega

theorem Buffered.push (buffered : Buffered groups buffer) (small : v < 32) :
    Buffered (groups ++ [v]) (buffer.push 5 8 (UInt8.ofNat v)) := by
  obtain ⟨acc, out, size, bits⟩ := buffered
  obtain ⟨bufferAcc, bufferBits, bufferOut⟩ := buffer
  dsimp only at acc out size bits
  have pushed := acc_push bufferAcc small
  rw [acc] at pushed
  have total : value 32 (groups ++ [v]) = value 32 groups * 32 + v := value_concat 32 groups v
  have length : 5 * (groups ++ [v]).length = 5 * groups.length + 5 := by
    rw [List.length_append, List.length_singleton]
    omega
  rw [BitBuffer.push]
  dsimp only
  generalize (bufferAcc <<< UInt32.ofNat 5) ||| (UInt8.ofNat v).toUInt32 = acc' at pushed ⊢
  have whole : acc'.toNat = value 32 (groups ++ [v]) % 2 ^ 32 := by
    rw [pushed, total]
    omega
  by_cases room : bufferBits < 3
  · -- no byte is full yet
    have none : (bufferBits + 5) / 8 = 0 := by omega
    have same : (bufferBits + 5) % 8 = bufferBits + 5 := by omega
    rw [none, same, List.range_zero, List.map_nil, List.append_nil]
    refine ⟨whole, ?_, ?_, ?_⟩ <;> dsimp only
    · rw [out, total]
      interval_cases bufferBits <;> omega
    · omega
    · omega
  · have one : (bufferBits + 5) / 8 = 1 := by omega
    have same : (bufferBits + 5) % 8 = bufferBits + 5 - 8 := by omega
    rw [one, same, List.range_one, List.map_singleton]
    refine ⟨whole, ?_, ?_, ?_⟩ <;> dsimp only
    · rw [bytesValue_concat, emitted_byte acc' whole (by omega), out, total]
      interval_cases bufferBits <;> omega
    · rw [List.length_append, List.length_singleton]
      omega
    · omega

theorem buffered_fold (small : ∀ g ∈ more, g < 32) (buffered : Buffered groups buffer) :
    Buffered (groups ++ more) ((more.map UInt8.ofNat).foldl (BitBuffer.push 5 8) buffer) := by
  induction more generalizing groups buffer with
  | nil => simpa using buffered
  | cons v rest ih =>
    obtain ⟨first, others⟩ := List.forall_mem_cons.mp small
    have next := ih others (buffered.push first)
    rwa [List.append_assoc, List.singleton_append] at next

/-- What is left in the buffer is the padding. -/
theorem padding_zero (acc : UInt32) (whole : acc.toNat = total % 2 ^ 32) (bound : bits < 8) :
    ((acc <<< UInt32.ofNat (8 - bits)) &&& (((1 : UInt32) <<< UInt32.ofNat 8) - 1)) ≠ 0 ↔
    total % 2 ^ bits ≠ 0 := by
  have amount : (UInt32.ofNat (8 - bits)).toNat % 32 = 8 - bits := by
    rw [UInt32.toNat_ofNat']
    omega
  rw [ne_eq, ne_eq, ← UInt32.toNat_inj, byte_mask, UInt32.toNat_and, UInt32.toNat_shiftLeft, whole,
    amount, Nat.shiftLeft_eq]
  change ¬(total % 2 ^ 32 * 2 ^ (8 - bits) % 2 ^ 32 &&& (2 ^ 8 - 1)) = 0 ↔ _
  rw [Nat.and_two_pow_sub_one_eq_mod]
  interval_cases bits <;> omega

theorem convertbits_iff (small : ∀ g ∈ groups, g < 32) :
    convertbits (groups.map UInt8.ofNat) 5 8 false 64 = some program ↔ Regroups groups program ∧
    program.length ≤ 64 := by
  have proper : (groups.map UInt8.ofNat).any (fun v => v >>> UInt8.ofNat 5 ≠ 0) = false := by
    have table : ∀ g < 32, UInt8.ofNat g >>> UInt8.ofNat 5 = 0 := by decide
    refine List.any_eq_false.mpr fun b member => ?_
    obtain ⟨g, here, rfl⟩ := List.mem_map.mp member
    simpa using table g (small g here)
  have start : Buffered [] ⟨0, 0, []⟩ := ⟨rfl, rfl, rfl, by decide⟩
  have done := buffered_fold small start
  rw [List.nil_append] at done
  rw [convertbits, proper]
  generalize (groups.map UInt8.ofNat).foldl (BitBuffer.push 5 8) ⟨0, 0, []⟩ = buffer at done
  have tail := padding_zero buffer.acc done.acc done.bits
  have whole := Nat.div_add_mod' (value 32 groups) (2 ^ buffer.bits)
  rw [← done.out] at whole
  have size := done.size
  dsimp only
  rw [if_neg Bool.false_ne_true, if_neg Bool.false_ne_true]
  constructor
  · intro converted
    split at converted
    next => cases converted
    next passed =>
      cases converted
      obtain ⟨fits, passed⟩ := not_or.mp passed
      obtain ⟨few, zero⟩ := not_or.mp passed
      rw [tail, not_not] at zero
      rw [zero, Nat.add_zero] at whole
      exact ⟨⟨buffer.bits, by omega, by omega, whole.symm⟩, by omega⟩
  · rintro ⟨⟨pad, few, length, same⟩, fits⟩
    have bits := done.bits
    obtain rfl : buffer.bits = pad := by omega
    have positive : 0 < 2 ^ buffer.bits := Nat.two_pow_pos _
    have zero : value 32 groups % 2 ^ buffer.bits = 0 := by rw [same, Nat.mul_mod_left]
    have equal : buffer.out = program := by
      refine bytesValue_injective (by omega) ?_
      rw [done.out, same, Nat.mul_div_cancel _ positive]
    rw [if_neg, equal]
    rw [not_or, not_or, tail, not_not, equal]
    exact ⟨by omega, by omega, zero⟩

end SimplePool.Coinbase
