import SimplePool.Coinbase.Payee
import SimplePool.Lib.ScriptNumber

/-! The height push of the scriptSig against the one that a validating node compares it with. -/
namespace SimplePool.Coinbase
open Wire ScriptNumber

/-- The shifting loop yields the digits, as long as it may take as many steps. -/
theorem scriptNumBytes_eq (fuel v : Nat) (small : v < 256 ^ fuel) :
    scriptNumBytes fuel v = magnitude v := by
  induction fuel generalizing v with
  | zero =>
    obtain rfl : v = 0 := by simpa using small
    rfl
  | succ fuel ih =>
    cases v with
    | zero => rfl
    | succ v =>
      have fewer : (v + 1) / 256 < 256 ^ fuel := by
        apply Nat.div_lt_of_lt_mul
        rwa [← Nat.pow_succ']
      have byte : UInt8.ofNat ((v + 1) % 256) = UInt8.ofNat (v + 1) := by
        apply UInt8.toNat_inj.mp
        simp
      rw [scriptNumBytes, ih _ fewer, magnitude, magnitude,
        Nat.digits_def' (by decide) (Nat.succ_pos v), List.map_cons, byte]
      exact Nat.succ_ne_zero v

theorem signBit_iff (b : UInt8) : b &&& 0x80 = 0x80 ↔ 0x80 ≤ b := by
  have bytes : ∀ d < 256, UInt8.ofNat d &&& 0x80 = 0x80 ↔ 0x80 ≤ UInt8.ofNat d := by decide +kernel
  simpa using bytes b.toNat b.toNat_lt

theorem bip34HeightPush_eq (height : UInt32) : bip34HeightPush height = push height.toNat := by
  have digits := scriptNumBytes_eq 4 height.toNat height.toNat_lt
  have zero : height = 0 ↔ height.toNat = 0 := by rw [← UInt32.toNat_inj]; rfl
  have few : height ≤ 16 ↔ height.toNat ≤ 16 := by rw [UInt32.le_iff_toNat_le]; rfl
  simp only [bip34HeightPush, push, digits, signBit_iff, zero, few, serialize]

/-- The push is the one of `CScript() << height`, it reads back as the height and says where it
ends, and it takes six bytes at most. -/
theorem height_push_is_core (height : UInt32) :
    bip34HeightPush height = push height.toNat ∧
      (∀ rest, takePush (bip34HeightPush height ++ rest) = some ((height.toNat : Int), rest)) ∧
      (∀ other, bip34HeightPush height <+: bip34HeightPush other → height = other) ∧
      (bip34HeightPush height).length ≤ 6 := by
  have reads :
      ∀ (h : UInt32) rest, takePush (bip34HeightPush h ++ rest) = some ((h.toNat : Int), rest) := by
    intro h rest
    have short := length_serialize h.toNat 4 h.toNat_lt
    rw [bip34HeightPush_eq]
    apply takePush_push
    omega
  refine ⟨bip34HeightPush_eq height, reads height, fun other front => ?_,
    bip34HeightPush_length height⟩
  have same : (height.toNat : Int) = other.toNat :=
    eq_of_prefix (fun h => (h.toNat : Int)) reads front
  apply UInt32.toNat_inj.mp
  exact Int.ofNat_inj.mp same

/-- Every form of the push, and the heights on both sides of a sign byte. -/
example : [0, 16, 17, 127, 128, 32768, 0xffffffff].map bip34HeightPush =
    [[0x00], [0x60], [1, 0x11], [1, 0x7f], [2, 0x80, 0], [3, 0, 0x80, 0],
      [5, 0xff, 0xff, 0xff, 0xff, 0]] := by decide +kernel

end SimplePool.Coinbase
