import Mathlib.Algebra.Order.Floor.Ring
import Mathlib.Data.Rat.Floor
import SimplePool.Coinbase.Window
import SimplePool.Crypto.Sha256

/-! Share validation as in share.c: headers, their hashes, and the two ways between
a difficulty and a target. -/
namespace SimplePool.Stratum
open Wire Crypto Coinbase

/-- The machine's double precision: how a result is rounded, and the number the C
library reads at the start of a text. Nothing else about doubles enters the model. -/
structure Fpu where
  round : ℚ → ℚ
  nonneg : ∀ q, 0 ≤ q → 0 ≤ round q
  strtod : Bytes → Option (WithTop ℚ)

/-- Exact arithmetic, and a library that reads decimal integers. -/
def Fpu.exact : Fpu where
  round q := q
  nonneg _ nonneg := nonneg
  strtod bytes :=
    match bytes.takeWhile (fun b => 48 ≤ b && b ≤ 57) with
    | [] => none
    | digits => some ((digits.foldl (fun n b => 10 * n + (b.toNat - 48)) 0 : Nat) : ℚ)

/-- The multiply and divide that spreads a reward over the paid claims. -/
def Fpu.scale (fp : Fpu) : Scale where
  apply payable sats paid :=
    ⌊fp.round (fp.round payable * fp.round (fp.round sats / fp.round paid))⌋
  nonneg payable sats paid hpayable hsats hpaid := by
    have share : 0 ≤ fp.round (fp.round sats / fp.round paid) :=
      fp.nonneg _ (div_nonneg (fp.nonneg _ (by exact_mod_cast hsats))
        (fp.nonneg _ (by exact_mod_cast hpaid.le)))
    exact Int.floor_nonneg.mpr
      (fp.nonneg _ (mul_nonneg (fp.nonneg _ (by exact_mod_cast hpayable)) share))

/-- Hashes, targets and branches. -/
abbrev Bytes32 := {bytes : Bytes // bytes.length = 32}

def zeros32 : Bytes32 := ⟨List.replicate 32 0, by decide⟩

/-- A hash or target as the number it stands for. -/
def beValue (bytes : Bytes) : Nat := decode bytes.reverse

/-- The top half of the difficulty 1 target. -/
def diff1Hi : Nat := 0x00000000FFFF00000000000000000000

def be16ToU128 (target : Bytes) : Nat := beValue (target.take 16)

/-- `HUGE_VAL` is `⊤`. -/
def targetToDiff (fp : Fpu) (target : Bytes) : WithTop ℚ :=
  let hi := be16ToU128 target
  if hi = 0 then ⊤ else (fp.round (fp.round diff1Hi / fp.round hi) : ℚ)

def easiestTarget : Bytes := List.replicate 32 0xff

def workerDiffToTarget (fp : Fpu) (diff : ℚ) : Bytes :=
  if diff ≤ 0 then easiestTarget
  else
    let scaled := max 0 (fp.round (fp.round diff1Hi / diff))
    -- at or beyond 2^128 the conversion would be undefined, so the target saturates
    if scaled < 2 ^ 128 then (encode 16 ⌊scaled⌋.toNat).reverse ++ List.replicate 16 0
    else easiestTarget

def merkleRootFromBranches (leaf : Bytes) (branches : List Bytes32) : Bytes :=
  branches.foldl (fun cur branch => dsha256 (cur ++ branch)) leaf

def buildHeader (version : UInt32) (prevHash merkleRoot : Bytes) (ntime nbits nonce : UInt32) :
    Bytes :=
  pushU32Le version.toNat ++ prevHash ++ merkleRoot ++ pushU32Le ntime.toNat ++
    pushU32Le nbits.toNat ++ pushU32Le nonce.toNat

def be32Cmp : Bytes → Bytes → Ordering
  | a :: as, b :: bs => if a < b then .lt else if b < a then .gt else be32Cmp as bs
  | _, _ => .eq

/-- Big-endian, so that it compares as a number. -/
def hashHeader (header : Bytes) : Bytes := (dsha256 header).reverse

theorem hashHeader_length (header : Bytes) : (hashHeader header).length = 32 := by
  rw [hashHeader, List.length_reverse, dsha256, sha256_length]

theorem beValue_cons (b : UInt8) (rest : Bytes) :
    beValue (b :: rest) = beValue rest + 256 ^ rest.length * b.toNat := by
  simp [beValue, decode_append, decode]

theorem beValue_lt (bytes : Bytes) : beValue bytes < 256 ^ bytes.length := by
  simpa [beValue] using decode_lt bytes.reverse

/-- Of two numbers of one length, the larger has the larger first byte. -/
theorem beValue_cons_lt {a b : UInt8} {as bs : Bytes} (size : as.length = bs.length)
    (smaller : a < b) :
    beValue (a :: as) < beValue (b :: bs) := by
  have low := beValue_lt as
  have digit : a.toNat + 1 ≤ b.toNat := UInt8.lt_iff_toNat_lt.mp smaller
  have scaled := Nat.mul_le_mul_left (256 ^ as.length) digit
  rw [beValue_cons, beValue_cons, ← size]
  rw [Nat.mul_add, Nat.mul_one] at scaled
  omega

/-- The order `be32_cmp` decides is the order of the numbers. -/
theorem be32Cmp_eq_compare :
    ∀ {a b : Bytes}, a.length = b.length → be32Cmp a b = compare (beValue a) (beValue b)
  | [], [], _ => rfl
  | x :: xs, y :: ys, same => by
    have size : xs.length = ys.length := by simpa using same
    rw [be32Cmp]
    split
    next smaller => exact (Nat.compare_eq_lt.mpr (beValue_cons_lt size smaller)).symm
    next notSmaller =>
      split
      next larger => exact (Nat.compare_eq_gt.mpr (beValue_cons_lt size.symm larger)).symm
      next notLarger =>
        obtain rfl : x = y :=
          UInt8.le_antisymm (UInt8.not_lt.mp notLarger) (UInt8.not_lt.mp notSmaller)
        rw [be32Cmp_eq_compare size, beValue_cons, beValue_cons, size]
        simp only [Nat.compare_eq_ite_lt, Nat.add_lt_add_iff_right]

end SimplePool.Stratum
