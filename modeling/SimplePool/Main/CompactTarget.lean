import Mathlib.Data.Nat.Bitwise
import Mathlib.Data.UInt
import SimplePool.Coinbase.Base58
import SimplePool.Main.WindowJob

/-! The target a template's bits stand for, against the bytes that are stored for it. -/
namespace SimplePool.Main
open Wire Coinbase

/-- `(uint8_t)((v >> k) & 0xff)`. -/
def byteOf (v k : UInt32) : UInt8 := ((v >>> k) &&& 0xff).toUInt8

/-- The stores of `nbits_to_target` behind its `memset`, each at its index into the buffer. -/
def targetStores (nbits : UInt32) : List (UInt64 × UInt8) :=
  let exp := (nbits >>> 24).toUInt8
  let mant := nbits &&& 0x007fffff
  let negative := nbits &&& 0x00800000 ≠ 0
  if mant = 0 ∨ negative then []
  else if exp ≤ 3 then
    let shift := 8 * (3 - exp.toUInt32)
    let v := mant >>> shift
    [(29, byteOf v 16), (30, byteOf v 8), (31, byteOf v 0)]
  else
    let off := 32 - exp.toUInt64
    if off + 3 ≤ 32 then [(off, byteOf mant 16), (off + 1, byteOf mant 8), (off + 2, byteOf mant 0)]
      else []

def StoresInside (nbits : UInt32) : Prop := ∀ store ∈ targetStores nbits, store.1 < 32

instance (nbits : UInt32) : Decidable (StoresInside nbits) :=
  inferInstanceAs (Decidable (∀ store ∈ _, _))

/-- What is in the buffer afterwards. -/
def storedTarget (nbits : UInt32) : Result Bytes :=
  if StoresInside nbits then
    .ok ((targetStores nbits).foldl (fun target (at_, byte) => target.set at_.toNat byte)
      (List.replicate 32 0))
  else .error .undefined

def exponent (nbits : UInt32) : Nat := nbits.toNat / 2 ^ 24

def mantissa (nbits : UInt32) : Nat := nbits.toNat % 2 ^ 23

def Negative (nbits : UInt32) : Prop := nbits.toNat / 2 ^ 23 % 2 = 1

instance (nbits : UInt32) : Decidable (Negative nbits) := inferInstanceAs (Decidable (_ = _))

/-- The compact decoding, an unmeetable target where the value is negative or does not fit. -/
def compactTarget (nbits : UInt32) : Nat :=
  let value := mantissa nbits * 256 ^ exponent nbits / 256 ^ 3
  if Negative nbits ∨ 2 ^ 256 ≤ value then 0 else value

theorem exponent_toNat (nbits : UInt32) : (nbits >>> 24).toUInt8.toNat = exponent nbits := by
  have bound := nbits.toNat_lt
  rw [UInt32.toNat_toUInt8, UInt32.toNat_shiftRight, exponent]
  change nbits.toNat >>> 24 % 2 ^ 8 = _
  rw [Nat.shiftRight_eq_div_pow]
  omega

theorem mantissa_toNat (nbits : UInt32) : (nbits &&& 0x007fffff).toNat = mantissa nbits := by
  rw [UInt32.toNat_and, mantissa]
  exact Nat.and_two_pow_sub_one_eq_mod nbits.toNat 23

theorem negative_iff (nbits : UInt32) : nbits &&& 0x00800000 ≠ 0 ↔ Negative nbits := by
  have bit : (nbits &&& 0x00800000).toNat = (nbits.toNat.testBit 23).toNat * 2 ^ 23 := by
    rw [UInt32.toNat_and]
    exact Nat.and_two_pow nbits.toNat 23
  rw [ne_eq, ← UInt32.toNat_inj, bit, Negative, Nat.testBit_eq_decide_div_mod_eq]
  by_cases set : nbits.toNat / 2 ^ 23 % 2 = 1 <;> simp

theorem byteOf_eq (v : UInt32) (k : Nat) (small : k < 32) :
    byteOf v (UInt32.ofNat k) = UInt8.ofNat (v.toNat / 2 ^ k) := by
  apply UInt8.toNat_inj.mp
  rw [byteOf, UInt32.toNat_toUInt8, UInt32.toNat_and, UInt32.toNat_shiftRight, UInt32.toNat_ofNat',
    UInt8.toNat_ofNat']
  have shift : k % 2 ^ 32 % 32 = k := by omega
  rw [shift, Nat.shiftRight_eq_div_pow]
  exact congrArg (· % 2 ^ 8) (Nat.and_two_pow_sub_one_eq_mod (v.toNat / 2 ^ k) 8) |>.trans
    (Nat.mod_mod _ _)

/-- Three digits from an index on. -/
def triple (off : UInt64) (v : Nat) : List (UInt64 × UInt8) :=
  [(off, UInt8.ofNat (v / 65536)), (off + 1, UInt8.ofNat (v / 256)), (off + 2, UInt8.ofNat v)]

theorem triple_bytes (off : UInt64) (v : UInt32) :
    [(off, byteOf v 16), (off + 1, byteOf v 8), (off + 2, byteOf v 0)] = triple off v.toNat := by
  have high := byteOf_eq v 16 (by decide)
  have middle := byteOf_eq v 8 (by decide)
  have low := byteOf_eq v 0 (by decide)
  rw [Nat.pow_zero, Nat.div_one] at low
  rw [triple]
  exact congrArg₂ _ (congrArg _ high)
    (congrArg₂ _ (congrArg _ middle) (congrArg₂ _ (congrArg _ low) rfl))

/-- The offset of an exponent over 32 wraps around. -/
theorem offset_toNat (exp : UInt8) :
    ((32 : UInt64) - exp.toUInt64).toNat = if exp.toNat ≤ 32 then 32 - exp.toNat
      else 2 ^ 64 + 32 - exp.toNat := by
  have bound := exp.toNat_lt
  rw [UInt64.toNat_sub, UInt8.toNat_toUInt64]
  change (2 ^ 64 - exp.toNat + 32) % 2 ^ 64 = _
  split_ifs <;> omega

/-- Up to 35 its end comes back into the range that is checked. -/
theorem offset_checked (exp : UInt8) (large : 3 < exp.toNat) :
    (32 : UInt64) - exp.toUInt64 + 3 ≤ (32 : UInt64) ↔ exp.toNat ≤ 35 := by
  have bound := exp.toNat_lt
  rw [UInt64.le_iff_toNat_le, UInt64.toNat_add, offset_toNat]
  change (_ + 3) % 2 ^ 64 ≤ 32 ↔ _
  split_ifs <;> omega

theorem targetStores_eq (nbits : UInt32) : targetStores nbits =
    if mantissa nbits = 0 ∨ Negative nbits then []
    else if exponent nbits ≤ 3 then triple 29 (mantissa nbits / 256 ^ (3 - exponent nbits))
    else if exponent nbits ≤ 35 then
      triple ((32 : UInt64) - (nbits >>> 24).toUInt8.toUInt64) (mantissa nbits)
    else [] := by
  have zero : nbits &&& 0x007fffff = 0 ↔ mantissa nbits = 0 := by
    rw [← UInt32.toNat_inj, mantissa_toNat]
    rfl
  have exp := exponent_toNat nbits
  have mant := mantissa_toNat nbits
  rw [targetStores]
  dsimp only
  rw [← exp]
  generalize (nbits >>> 24).toUInt8 = e
  by_cases nothing : mantissa nbits = 0 ∨ Negative nbits
  · rw [if_pos nothing, if_pos (nothing.imp zero.mpr (negative_iff nbits).mpr)]
  · rw [if_neg nothing, if_neg (mt (Or.imp zero.mp (negative_iff nbits).mp) nothing)]
    by_cases small : e.toNat ≤ 3
    · have shift : (8 * (3 - e.toUInt32)).toNat = 8 * (3 - e.toNat) := by
        rw [UInt32.toNat_mul, UInt32.toNat_sub, UInt8.toNat_toUInt32]
        change 8 * ((2 ^ 32 - e.toNat + 3) % 2 ^ 32) % 2 ^ 32 = _
        omega
      have shifted : ((nbits &&& 0x007fffff) >>> (8 * (3 - e.toUInt32))).toNat =
            mantissa nbits / 256 ^ (3 - e.toNat) := by
        rw [UInt32.toNat_shiftRight, shift, mant, Nat.mod_eq_of_lt (by omega),
          Nat.shiftRight_eq_div_pow, Nat.pow_mul]
      rw [if_pos small, if_pos (UInt8.le_iff_toNat_le.mpr small), ← shifted, ← triple_bytes]
      rfl
    · have checked := offset_checked e (by omega)
      rw [if_neg small, if_neg (mt UInt8.le_iff_toNat_le.mp small), triple_bytes, mant]
      by_cases near : e.toNat ≤ 35
      · rw [if_pos near, if_pos (checked.mpr near)]
      · rw [if_neg near, if_neg (mt checked.mp near)]

theorem triple_indices {off : UInt64} (within : off.toNat ≤ 29) :
    (off + 1).toNat = off.toNat + 1 ∧ (off + 2).toNat = off.toNat + 2 := by
  constructor
  · rw [UInt64.toNat_add]
    change (_ + 1) % 2 ^ 64 = _
    omega
  · rw [UInt64.toNat_add]
    change (_ + 2) % 2 ^ 64 = _
    omega

theorem triple_inside {off : UInt64} {v : Nat} (within : off.toNat ≤ 29) :
    ∀ store ∈ triple off v, store.1 < 32 := by
  obtain ⟨second, third⟩ := triple_indices within
  intro store member
  simp only [triple, List.mem_cons, List.not_mem_nil, or_false] at member
  rcases member with rfl | rfl | rfl <;> rw [UInt64.lt_iff_toNat_lt]
  all_goals change _ < 32
  all_goals dsimp only
  all_goals omega

/-- Every store is inside the buffer, but for the exponents just above the buffer's size. -/
theorem storesInside_iff (nbits : UInt32) :
    StoresInside nbits ↔
    ¬(mantissa nbits ≠ 0 ∧ ¬Negative nbits ∧ 33 ≤ exponent nbits ∧ exponent nbits ≤ 35) := by
  have bound := (nbits >>> 24).toUInt8.toNat_lt
  have offset := offset_toNat (nbits >>> 24).toUInt8
  rw [exponent_toNat] at offset bound
  rw [StoresInside, targetStores_eq]
  split_ifs with nothing small checked
  · refine ⟨fun _ => ?_, fun _ => nofun⟩
    rintro ⟨some, positive, _⟩
    exact nothing.elim some positive
  · refine ⟨fun _ => by omega, fun _ => triple_inside (by decide)⟩
  · by_cases within : exponent nbits ≤ 32
    · rw [if_pos within] at offset
      exact ⟨fun _ => by omega, fun _ => triple_inside (by omega)⟩
    · rw [if_neg within] at offset
      refine ⟨fun inside => ?_, fun other => ?_⟩
      · have first := inside _ List.mem_cons_self
        rw [UInt64.lt_iff_toNat_lt] at first
        dsimp only at first
        rw [offset] at first
        change _ < 32 at first
        omega
      · obtain ⟨some, positive⟩ := not_or.mp nothing
        exact absurd ⟨some, positive, by omega, checked⟩ other
  · exact ⟨fun _ => by omega, fun _ => nofun⟩

/-- The model's target, by its fields. -/
theorem nbitsToTarget_val (nbits : UInt32) : (nbitsToTarget nbits).map Subtype.val =
    if mantissa nbits = 0 ∨ Negative nbits then .ok (List.replicate 32 0)
    else if exponent nbits ≤ 3 then .ok (mantissaAt (mantissa nbits / 256 ^ (3 - exponent nbits)) 0)
    else if exponent nbits ≤ 32 then .ok (mantissaAt (mantissa nbits) (exponent nbits - 3))
    else if exponent nbits ≤ 35 then .error .undefined else .ok (List.replicate 32 0) := by
  rw [nbitsToTarget]
  change Except.map Subtype.val (if mantissa nbits = 0 ∨
    Negative nbits then _ else if exponent nbits ≤ 3 then _ else
    if within : exponent nbits ≤ 32 then _ else if exponent nbits ≤ 35 then _ else _) = _
  split_ifs <;> rfl

theorem set_triple {off : UInt64} (within : off.toNat ≤ 29) (v : Nat) :
    (triple off v).foldl (fun target (store : UInt64 × UInt8) => target.set store.1.toNat store.2)
      (List.replicate 32 0) = mantissaAt v (29 - off.toNat) := by
  obtain ⟨second, third⟩ := triple_indices within
  have room : List.replicate 32 (0 : UInt8) = List.replicate off.toNat 0 ++
        0 :: 0 :: 0 :: List.replicate (29 - off.toNat) 0 := by
    rw [← List.replicate_succ, ← List.replicate_succ, ← List.replicate_succ,
      List.replicate_append_replicate]
    exact congrArg (List.replicate · 0) (by omega)
  rw [triple, mantissaAt, room]
  simp only [List.foldl_cons, List.foldl_nil, second, third]
  rw [show 29 - (29 - off.toNat) = off.toNat by omega]
  simp

/-- It is what the stores leave in the buffer. -/
theorem nbitsToTarget_stored (nbits : UInt32) :
    (nbitsToTarget nbits).map Subtype.val = storedTarget nbits := by
  have inside := storesInside_iff nbits
  have offset := offset_toNat (nbits >>> 24).toUInt8
  rw [exponent_toNat] at offset
  rw [nbitsToTarget_val, storedTarget, targetStores_eq]
  by_cases nothing : mantissa nbits = 0 ∨ Negative nbits
  · rw [if_pos nothing, if_pos nothing,
      if_pos (inside.mpr fun ⟨digits, positive, _⟩ => nothing.elim digits positive)]
    rfl
  · obtain ⟨digits, positive⟩ := not_or.mp nothing
    rw [if_neg nothing, if_neg nothing]
    by_cases small : exponent nbits ≤ 3
    · rw [if_pos small, if_pos small, if_pos (inside.mpr (by omega))]
      exact congrArg Except.ok (set_triple (by decide : (29 : UInt64).toNat ≤ 29) _).symm
    · rw [if_neg small, if_neg small]
      by_cases within : exponent nbits ≤ 32
      · rw [if_pos within] at offset
        rw [if_pos within, if_pos (by omega : exponent nbits ≤ 35), if_pos (inside.mpr (by omega))]
        have aligned : ((32 : UInt64) - (nbits >>> 24).toUInt8.toUInt64).toNat ≤ 29 := by omega
        have stored := set_triple aligned (mantissa nbits)
        rw [offset, show 29 - (32 - exponent nbits) = exponent nbits - 3 by omega] at stored
        exact congrArg Except.ok stored.symm
      · rw [if_neg within]
        by_cases near : exponent nbits ≤ 35
        · rw [if_pos near, if_pos near,
            if_neg (mt inside.mp (not_not.mpr ⟨digits, positive, by omega, near⟩))]
        · rw [if_neg near, if_neg near, if_pos (inside.mpr (by omega))]
          rfl

theorem zeros_value (n : Nat) : bytesValue (List.replicate n 0) = 0 := by
  rw [← List.append_nil (List.replicate n 0), bytesValue_zeros]
  rfl

theorem mantissaAt_value (small : mant < 2 ^ 24) (low : Nat) :
    bytesValue (mantissaAt mant low) = mant * 256 ^ low := by
  rw [mantissaAt, List.append_assoc, bytesValue_zeros]
  simp only [List.cons_append, List.nil_append, bytesValue_cons, zeros_value, List.length_cons,
    List.length_replicate, UInt8.toNat_ofNat']
  have digits : mant = mant / 65536 % 2 ^ 8 * 65536 + mant / 256 % 2 ^ 8 * 256 + mant % 2 ^ 8 := by
    omega
  conv_rhs => rw [digits]
  ring

/-- No store outside the buffer, and in it the compact decoding. -/
def DecodesExactly (nbits : UInt32) : Prop :=
  StoresInside nbits ∧ ∃ target, storedTarget nbits = .ok target ∧
  bytesValue target = compactTarget nbits

theorem nbits_to_target_exact_iff (nbits : UInt32) :
    DecodesExactly nbits ↔
    ¬(mantissa nbits ≠ 0 ∧ ¬Negative nbits ∧ 33 ≤ exponent nbits ∧ exponent nbits ≤ 35) := by
  rw [← storesInside_iff]
  refine ⟨And.left, fun inside => ⟨inside, ?_⟩⟩
  rw [storesInside_iff] at inside
  have mant : mantissa nbits < 2 ^ 23 := Nat.mod_lt _ (by decide)
  rw [← nbitsToTarget_stored, nbitsToTarget_val, compactTarget]
  by_cases nothing : mantissa nbits = 0 ∨ Negative nbits
  · refine ⟨List.replicate 32 0, if_pos nothing, ?_⟩
    rw [zeros_value]
    rcases nothing with zero | negative
    · rw [zero, Nat.zero_mul, Nat.zero_div, ite_self]
    · exact (if_pos (.inl negative)).symm
  · obtain ⟨digits, positive⟩ := not_or.mp nothing
    rw [if_neg nothing]
    by_cases small : exponent nbits ≤ 3
    · rw [if_pos small]
      have whole : 256 ^ 3 = 256 ^ (3 - exponent nbits) * 256 ^ exponent nbits := by
        rw [← pow_add, Nat.sub_add_cancel small]
      have value : mantissa nbits * 256 ^ exponent nbits / 256 ^ 3 =
            mantissa nbits / 256 ^ (3 - exponent nbits) := by
        rw [whole, Nat.mul_div_mul_right _ _ (Nat.pow_pos (by decide))]
      have bound : mantissa nbits / 256 ^ (3 - exponent nbits) ≤ mantissa nbits :=
        Nat.div_le_self _ _
      refine ⟨_, rfl, ?_⟩
      rw [value, mantissaAt_value (by omega), Nat.pow_zero, Nat.mul_one, if_neg]
      rintro (negative | large)
      · exact positive negative
      · omega
    · rw [if_neg small]
      have value : mantissa nbits * 256 ^ exponent nbits / 256 ^ 3 =
            mantissa nbits * 256 ^ (exponent nbits - 3) := by
        rw [← Nat.sub_add_cancel (by omega : 3 ≤ exponent nbits), pow_add, ← Nat.mul_assoc,
          Nat.mul_div_cancel _ (by decide), Nat.add_sub_cancel]
      rw [value]
      by_cases within : exponent nbits ≤ 32
      · refine ⟨_, if_pos within, ?_⟩
        have fits : mantissa nbits * 256 ^ (exponent nbits - 3) < 2 ^ 256 := by
          calc mantissa nbits * 256 ^ (exponent nbits - 3) ≤ mantissa nbits * 256 ^ 29 :=
                Nat.mul_le_mul_left _ (Nat.pow_le_pow_right (by decide) (by omega))
            _ < 2 ^ 23 * 256 ^ 29 := Nat.mul_lt_mul_of_pos_right mant (by decide)
            _ ≤ 2 ^ 256 := by decide
        rw [mantissaAt_value (by omega), if_neg]
        rintro (negative | large)
        · exact positive negative
        · omega
      · have far : ¬exponent nbits ≤ 35 := fun near => inside ⟨digits, positive, by omega, near⟩
        refine ⟨List.replicate 32 0, by rw [if_neg within, if_neg far], ?_⟩
        have large : 2 ^ 256 ≤ mantissa nbits * 256 ^ (exponent nbits - 3) := by
          calc 2 ^ 256 = 256 ^ 32 := by decide
            _ ≤ 256 ^ (exponent nbits - 3) := Nat.pow_le_pow_right (by decide) (by omega)
            _ ≤ mantissa nbits * 256 ^ (exponent nbits - 3) :=
              Nat.le_mul_of_pos_left _ (Nat.pos_of_ne_zero digits)
        rw [zeros_value, if_pos (.inr large)]

/-- The mantissa with its top byte empty fits at the exponent 33, and its empty byte is stored
in front of the buffer. -/
theorem nbits_to_target_outside :
    ¬DecodesExactly 0x2100ffff ∧ compactTarget 0x2100ffff = 0xffff * 256 ^ 30 ∧
    (2 ^ 64 - 1, 0) ∈ targetStores 0x2100ffff := by
  have evaluated :
      compactTarget 0x2100ffff = 0xffff * 256 ^ 30 ∧ (2 ^ 64 - 1, 0) ∈ targetStores 0x2100ffff := by
    decide +kernel
  exact ⟨fun exact_ => absurd (exact_.1 _ evaluated.2) (by decide +kernel), evaluated⟩

end SimplePool.Main
