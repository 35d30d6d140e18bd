import SimplePool.Coinbase.Base58
import SimplePool.Lib.Bch

/-! What the bech32 decoder accepts: a prefix, a separator, and groups of five bits whose
checksum leaves the residue of the encoding. -/
namespace SimplePool.Coinbase
open Wire Positional

/-- The divisor of the checksum, `x^6 + 29x^5 + 22x^4 + 20x^3 + 21x^2 + 29x + 18`. -/
def bech32Divisor : List Nat := [29, 22, 20, 21, 29, 18]

def Encoding.residue : Encoding → List Nat
  | .bech32 => [0, 0, 0, 0, 0, 1]
  | .bech32m => [21, 28, 16, 12, 5, 3]

/-- The prefix as coefficients: the high bits of its characters, and the low ones. -/
def expandHrp (hrp : Bytes) : List Nat :=
  hrp.map (fun c => c.toNat / 32) ++ [0] ++ hrp.map (fun c => c.toNat % 32)

def bech32Text (groups : List Nat) : Bytes := groups.map fun g => bech32Alpha.getD g 0

def toUpper (c : UInt8) : UInt8 := if isLower c then c - 32 else c

/-- A string in lower case with a checksum. -/
structure Bech32Of (hrp : Bytes) (groups check : List Nat) (enc : Encoding) : Prop where
  prefixed : hrp ≠ []
  printable : ∀ c ∈ hrp, 33 ≤ c ∧ c ≤ 126 ∧ isUpper c = false
  smallGroups : ∀ g ∈ groups, g < 32
  smallCheck : ∀ g ∈ check, g < 32
  six : check.length = 6
  size : hrp.length + 1 + groups.length + 6 ≤ 90
  checksum : Bch.remainder bech32Divisor [0, 0, 0, 0, 0, 1] (expandHrp hrp ++ (groups ++ check)) =
    enc.residue

/-- The string, all in lower case or all in upper case. -/
def Bech32 (hrp : Bytes) (groups : List Nat) (enc : Encoding) (s : Bytes) : Prop :=
  ∃ check, Bech32Of hrp groups check enc ∧
    (s = hrp ++ 49 :: bech32Text (groups ++ check) ∨
      s = (hrp ++ 49 :: bech32Text (groups ++ check)).map toUpper)

theorem byte_forall {P : UInt8 → Prop} (all : ∀ n < 256, P (UInt8.ofNat n)) (c : UInt8) : P c := by
  have here := all c.toNat c.toNat_lt
  rwa [UInt8.ofNat_toNat] at here

theorem polymod_fold (p : Nat → Prop) [DecidablePred p] (terms : List (UInt32 × Nat))
    (chk : UInt32) :
    terms.foldl (fun chk (g, j) => if p j then chk ^^^ g else chk) chk =
      chk ^^^ terms.foldl (fun chk (g, j) => if p j then chk ^^^ g else chk) 0 := by
  induction terms generalizing chk with
  | nil => exact (UInt32.xor_zero).symm
  | cons term terms ih =>
    obtain ⟨g, j⟩ := term
    rw [List.foldl_cons, List.foldl_cons]
    dsimp only
    by_cases taken : p j
    · rw [if_pos taken, if_pos taken, ih, ih (0 ^^^ g), UInt32.zero_xor, UInt32.xor_assoc]
    · rw [if_neg taken, if_neg taken, ih]

/-- What the leading coefficient takes away. -/
def polymodFeedback (lead : UInt8) : UInt32 :=
  bech32Generators.zipIdx.foldl (fun chk (g, j) => if ((lead >>> UInt8.ofNat j) &&& 1) = 1
    then chk ^^^ g else chk) 0

theorem polymod_feedback (small : lead < 32) :
    (polymodFeedback (UInt8.ofNat lead)).toNat = value 32 (bech32Divisor.map (Bch.mul lead)) := by
  have table : ∀ lead < 32, (polymodFeedback (UInt8.ofNat lead)).toNat =
      value 32 (bech32Divisor.map (Bch.mul lead)) := by decide +kernel
  exact table lead small

/-- The register without its leading coefficient, and the next coefficient. -/
theorem polymod_shift (chk : UInt32) (lead : Nat) (rest : List Nat) (size : rest.length = 5)
    (small : ∀ x ∈ rest, x < 32) (coefficient : v < 32)
    (packed : chk.toNat = value 32 (lead :: rest)) :
    (((chk &&& 0x1ffffff) <<< 5) ^^^ (UInt8.ofNat v).toUInt32).toNat = value 32 (rest ++ [v]) := by
  have bound := value_lt (by decide) small
  rw [size] at bound
  rw [value_cons, size] at packed
  have masked : (chk &&& 0x1ffffff).toNat = value 32 rest := by
    rw [UInt32.toNat_and, packed]
    change (lead * 32 ^ 5 + value 32 rest) &&& (2 ^ 25 - 1) = _
    rw [Nat.and_two_pow_sub_one_eq_mod]
    omega
  have byte : (UInt8.ofNat v).toUInt32.toNat = v := by
    simp
    omega
  rw [UInt32.toNat_xor, UInt32.toNat_shiftLeft, masked, byte, value_concat]
  change value 32 rest <<< 5 % 2 ^ 32 ^^^ v = _
  rw [Nat.shiftLeft_eq, Nat.mod_eq_of_lt (by omega)]
  have blocks :=
    Bch.xor_blocks (k := 5) (value 32 rest) 0 (Nat.two_pow_pos 5) (show v < 2 ^ 5 from coefficient)
  simpa using blocks

theorem polymod_step (chk : UInt32) (size : register.length = 6) (small : ∀ x ∈ register, x < 32)
    (coefficient : v < 32) (packed : chk.toNat = value 32 register) :
    (bech32PolymodStep chk (UInt8.ofNat v)).toNat =
      value 32 (Bch.divide bech32Divisor register v) := by
  match register with
  | lead :: rest =>
    have five : rest.length = 5 := Nat.succ.inj size
    obtain ⟨first, others⟩ := List.forall_mem_cons.mp small
    have bound := value_lt (by decide) others
    rw [five] at bound
    have top : (chk >>> 25).toUInt8 = UInt8.ofNat lead := by
      apply UInt8.toNat_inj.mp
      rw [value_cons, five] at packed
      have shifted : (chk >>> 25).toNat = lead := by
        rw [UInt32.toNat_shiftRight, packed]
        change (lead * 32 ^ 5 + value 32 rest) >>> 25 = lead
        rw [Nat.shiftRight_eq_div_pow]
        omega
      rw [UInt32.toNat_toUInt8, shifted, UInt8.toNat_ofNat']
    rw [bech32PolymodStep, top]
    dsimp only
    rw [polymod_fold (fun j => ((UInt8.ofNat lead >>> UInt8.ofNat j) &&& 1) = 1), ← polymodFeedback,
      UInt32.toNat_xor,
      polymod_shift chk lead rest five others coefficient packed, polymod_feedback first,
      Bch.divide, ← Bch.value_xor]
    · simp [five, bech32Divisor]
    · intro x member
      rcases List.mem_append.mp member with old | new
      · exact others x old
      · rwa [List.mem_singleton.mp new]
    · intro x member
      obtain ⟨y, _, rfl⟩ := List.mem_map.mp member
      exact Bch.mul_lt first y

/-- The code's register is the remainder, packed. -/
theorem polymod_remainder {chk : UInt32} (size : register.length = 6)
    (small : ∀ x ∈ register, x < 32) (coefficients : ∀ v ∈ values, v < 32)
    (packed : chk.toNat = value 32 register) :
    ((values.map UInt8.ofNat).foldl bech32PolymodStep chk).toNat =
      value 32 (Bch.remainder bech32Divisor register values) := by
  induction values generalizing register chk with
  | nil => exact packed
  | cons v rest ih =>
    obtain ⟨first, others⟩ := List.forall_mem_cons.mp coefficients
    refine ih ?_ ?_ others (polymod_step chk size small first packed)
    · exact Bch.length_divide size
    · exact Bch.divide_lt small first

theorem remainder_lt (small : ∀ x ∈ register, x < 32) (coefficients : ∀ v ∈ values, v < 32) :
    ∀ x ∈ Bch.remainder divisor register values, x < 32 := by
  induction values generalizing register with
  | nil => exact small
  | cons v rest ih =>
    obtain ⟨first, others⟩ := List.forall_mem_cons.mp coefficients
    exact ih (Bch.divide_lt small first) others

/-- The constant the code compares with. -/
def Encoding.constant : Encoding → UInt32
  | .bech32 => 1
  | .bech32m => 0x2bc830a3

theorem bech32Polymod_iff (coefficients : ∀ v ∈ values, v < 32) (enc : Encoding) :
    bech32Polymod (values.map UInt8.ofNat) = enc.constant ↔
      Bch.remainder bech32Divisor [0, 0, 0, 0, 0, 1] values = enc.residue := by
  have start : ∀ x ∈ [0, 0, 0, 0, 0, 1], x < 32 := by decide
  have packed := polymod_remainder rfl start coefficients (show (1 : UInt32).toNat =
    value 32 [0, 0, 0, 0, 0, 1] from rfl)
  have constant : enc.constant.toNat = value 32 enc.residue := by cases enc <;> rfl
  rw [← UInt32.toNat_inj, constant, bech32Polymod, packed]
  constructor
  · intro same
    refine value_injective (by decide) (remainder_lt start coefficients) ?_ ?_ same
    · cases enc <;> decide
    · rw [show (Bch.remainder bech32Divisor [0, 0, 0, 0, 0, 1] values).length =
        6 from Bch.length_remainder rfl]
      cases enc <;> rfl
  · exact congrArg (value 32)

/-- What the change of case does to a character. -/
def ByteCase (c : UInt8) : Prop :=
  (isLower c = false → toUpper (toLower c) = c) ∧ (isUpper c = false → toLower (toUpper c) = c) ∧
    (isUpper c = false → toLower c = c) ∧ isUpper (toLower c) = false ∧
    isLower (toUpper c) = false ∧
    (toUpper c = 49 ↔ c = 49) ∧ (toLower c = 49 ↔ c = 49) ∧
    ((33 ≤ toUpper c ∧ toUpper c ≤ 126) ↔ (33 ≤ c ∧ c ≤ 126)) ∧
    ((33 ≤ toLower c ∧ toLower c ≤ 126) ↔ (33 ≤ c ∧ c ≤ 126)) ∧
    (isLower c = true → isUpper (toUpper c) = true) ∧
    c >>> 5 = UInt8.ofNat (c.toNat / 32) ∧ c &&& 31 = UInt8.ofNat (c.toNat % 32)

instance (c : UInt8) : Decidable (ByteCase c) := inferInstanceAs (Decidable (_ ∧ _))

theorem byte_case (c : UInt8) : ByteCase c := byte_forall (P := ByteCase) (by decide +kernel) c

theorem toUpper_toLower (notLower : isLower c = false) : toUpper (toLower c) = c :=
  (byte_case c).1 notLower

theorem toLower_toUpper (notUpper : isUpper c = false) : toLower (toUpper c) = c :=
  (byte_case c).2.1 notUpper

theorem toLower_fixed (notUpper : isUpper c = false) : toLower c = c := (byte_case c).2.2.1 notUpper

theorem isUpper_toLower (c : UInt8) : isUpper (toLower c) = false := (byte_case c).2.2.2.1

theorem isLower_toUpper (c : UInt8) : isLower (toUpper c) = false := (byte_case c).2.2.2.2.1

theorem printable_toLower : (33 ≤ toLower c ∧ toLower c ≤ 126) ↔ (33 ≤ c ∧ c ≤ 126) :=
  (byte_case c).2.2.2.2.2.2.2.2.1

theorem isUpper_toUpper (lower : isLower c = true) : isUpper (toUpper c) = true :=
  (byte_case c).2.2.2.2.2.2.2.2.2.1 lower

theorem byte_bits (c : UInt8) :
    c >>> 5 = UInt8.ofNat (c.toNat / 32) ∧ c &&& 31 = UInt8.ofNat (c.toNat % 32) :=
  (byte_case c).2.2.2.2.2.2.2.2.2.2

theorem bech32Alpha_table :
    bech32Alpha.length = 32 ∧ ∀ g < 32, bech32Alpha.idxOf? (bech32Alpha.getD g 0) = some g ∧
    isUpper (bech32Alpha.getD g 0) = false ∧ bech32Alpha.getD g 0 ≠ 49 := by decide +kernel

theorem bech32Alpha_group (small : g < 32) : bech32Alpha.idxOf? (bech32Alpha.getD g 0) = some g ∧
    isUpper (bech32Alpha.getD g 0) = false ∧ bech32Alpha.getD g 0 ≠ 49 :=
  bech32Alpha_table.2 g small

theorem bech32Alpha_char (found : bech32Alpha.idxOf? c = some g) :
    g < 32 ∧ c = bech32Alpha.getD g 0 := by
  obtain ⟨inside, same, _⟩ := List.idxOf?_eq_some_iff.mp found
  have size := bech32Alpha_table.1
  refine ⟨by omega, ?_⟩
  rw [List.getD_eq_getElem?_getD, List.getElem?_eq_getElem inside, same]
  rfl

/-- The data characters are read one by one, whatever their case. -/
theorem positions_iff (data : Bytes) (positions : List Nat) :
    data.mapM (fun c => bech32Alpha.idxOf? (toLower c)) = some positions ↔
      data.map toLower = bech32Text positions ∧ ∀ g ∈ positions, g < 32 := by
  induction data generalizing positions with
  | nil =>
    cases positions with
    | nil => exact ⟨fun _ => ⟨rfl, nofun⟩, fun _ => rfl⟩
    | cons g rest => exact ⟨nofun, nofun⟩
  | cons c data ih =>
    rw [List.mapM_cons]
    cases found : bech32Alpha.idxOf? (toLower c) with
    | none =>
      refine ⟨nofun, fun ⟨text, small⟩ => ?_⟩
      cases positions with
      | nil => cases text
      | cons g rest =>
        obtain ⟨same, _⟩ := List.cons.inj text
        rw [same, (bech32Alpha_group (small g List.mem_cons_self)).1] at found
        cases found
    | some g =>
      obtain ⟨small, char⟩ := bech32Alpha_char found
      cases read : data.mapM (fun c => bech32Alpha.idxOf? (toLower c)) with
      | none =>
        refine ⟨nofun, fun ⟨text, smalls⟩ => ?_⟩
        cases positions with
        | nil => cases text
        | cons g' rest =>
          obtain ⟨_, others⟩ := List.cons.inj text
          rw [(ih rest).mpr ⟨others, fun x member => smalls x (List.mem_cons_of_mem g' member)⟩]
            at read
          cases read
      | some rest =>
        obtain ⟨text, smalls⟩ := (ih rest).mp read
        refine ⟨fun same => ?_, fun ⟨text', smalls'⟩ => ?_⟩
        · cases same
          exact ⟨by rw [List.map_cons, text, char]; rfl, List.forall_mem_cons.mpr ⟨small, smalls⟩⟩
        · cases positions with
          | nil => cases text'
          | cons g' rest' =>
            obtain ⟨same, others⟩ := List.cons.inj text'
            rw [(ih rest').mpr ⟨others, fun x member => smalls' x (List.mem_cons_of_mem g' member)⟩]
              at read
            rw [same, (bech32Alpha_group (smalls' g' List.mem_cons_self)).1] at found
            cases read
            cases found
            rfl

/-- The last separator parts the string. -/
theorem last_separator (s : Bytes) (fromEnd : Nat) : s.reverse.idxOf? 49 = some fromEnd ↔
    ∃ front back, s = front ++ 49 :: back ∧ 49 ∉ back ∧ back.length = fromEnd := by
  rw [List.idxOf?_eq_some_iff]
  constructor
  · rintro ⟨inside, here, before⟩
    rw [List.length_reverse] at inside
    refine ⟨s.take (s.length - 1 - fromEnd), s.drop (s.length - 1 - fromEnd + 1), ?_, ?_, ?_⟩
    · rw [List.getElem_reverse] at here
      rw [← here, List.getElem_cons_drop, List.take_append_drop]
    · intro member
      obtain ⟨i, bound, same⟩ := List.mem_iff_getElem.mp member
      rw [List.length_drop] at bound
      rw [List.getElem_drop] at same
      have later := before (s.length - 1 - (s.length - 1 - fromEnd + 1 + i)) (by omega)
      rw [List.getElem_reverse] at later
      refine later ?_
      rw [← same]
      congr 1
      omega
    · rw [List.length_drop]
      omega
  · rintro ⟨front, back, rfl, absent, rfl⟩
    refine ⟨by simp, ?_, ?_⟩
    · simp
    · intro j before here
      refine absent ?_
      have inside : j < back.reverse.length := by simpa using before
      have same : (front ++ 49 :: back).reverse = back.reverse ++ (49 :: front.reverse) := by simp
      rw [List.getElem_of_eq same, List.getElem_append_left inside] at here
      exact List.mem_reverse.mp (here ▸ List.getElem_mem inside)

theorem hrpExpand_eq (hrp : Bytes) : bech32HrpExpand hrp = (expandHrp hrp).map UInt8.ofNat := by
  rw [bech32HrpExpand, expandHrp, List.map_append, List.map_append, List.map_map, List.map_map]
  congr 1
  · congr 1
    exact List.map_congr_left fun c _ => (byte_bits c).1
  · exact List.map_congr_left fun c _ => (byte_bits c).2

theorem expandHrp_lt (hrp : Bytes) : ∀ x ∈ expandHrp hrp, x < 32 := by
  intro x member
  rcases List.mem_append.mp member with high | low
  · rcases List.mem_append.mp high with first | zero
    · obtain ⟨c, _, rfl⟩ := List.mem_map.mp first
      have byte := c.toNat_lt
      omega
    · rw [List.mem_singleton.mp zero]
      decide
  · obtain ⟨c, _, rfl⟩ := List.mem_map.mp low
    exact Nat.mod_lt _ (by decide)

/-- One case throughout is the string in lower case, or that in upper case. -/
theorem one_case (s : Bytes) : ¬(s.any isLower && s.any isUpper) = true ↔
    s = s.map toLower ∨ s = (s.map toLower).map toUpper := by
  rw [Bool.and_eq_true, not_and_or]
  constructor
  · rintro (noLower | noUpper)
    · refine .inr ?_
      rw [List.map_map]
      refine (List.map_id s).symm.trans (List.map_congr_left fun c member => ?_)
      have upper : isLower c = false := by
        by_contra lower
        exact noLower (List.any_eq_true.mpr ⟨c, member, by simpa using lower⟩)
      exact (toUpper_toLower upper).symm
    · refine .inl ((List.map_id s).symm.trans (List.map_congr_left fun c member => ?_))
      have lower : isUpper c = false := by
        by_contra upper
        exact noUpper (List.any_eq_true.mpr ⟨c, member, by simpa using upper⟩)
      exact (toLower_fixed lower).symm
  · rintro (lower | upper)
    · refine .inr fun any => ?_
      rw [lower, List.any_map] at any
      obtain ⟨c, _, is⟩ := List.any_eq_true.mp any
      rw [Function.comp_apply, isUpper_toLower] at is
      cases is
    · refine .inl fun any => ?_
      rw [upper, List.any_map] at any
      obtain ⟨c, _, is⟩ := List.any_eq_true.mp any
      rw [Function.comp_apply, isLower_toUpper] at is
      cases is

theorem bech32Text_lower (small : ∀ g ∈ groups, g < 32) :
    ∀ c ∈ bech32Text groups, isUpper c = false ∧ c ≠ 49 := by
  intro c member
  obtain ⟨g, here, rfl⟩ := List.mem_map.mp member
  exact (bech32Alpha_group (small g here)).2

/-- What the checks of the decoder say of the two sides of the separator. -/
structure Decodes (front back : Bytes) (positions : List Nat) (enc : Encoding) : Prop where
  prefixed : 1 ≤ front.length
  short : front.length ≤ 15
  printable : front.any (fun c => c < 33 || 126 < c) = false
  least : 6 ≤ back.length
  most : front.length + 1 + back.length ≤ 90
  read : back.mapM (fun c => bech32Alpha.idxOf? (toLower c)) = some positions
  oneCase : ¬((front ++ back).any isLower && (front ++ back).any isUpper) = true
  checksum : bech32Polymod (bech32HrpExpand (front.map toLower) ++ positions.map UInt8.ofNat) =
    enc.constant

theorem bech32Decode_at (absent : 49 ∉ back) :
    bech32Decode (front ++ 49 :: back) 16 90 = some (bytes, enc) ↔
    ∃ positions, Decodes front back positions enc ∧
    bytes = (positions.map UInt8.ofNat).take (back.length - 6) := by
  have found :=
    (last_separator (front ++ 49 :: back) back.length).mpr ⟨front, back, rfl, absent, rfl⟩
  have size : (front ++ 49 :: back).length = front.length + 1 + back.length := by
    rw [List.length_append, List.length_cons]
    omega
  have sep : front.length + 1 + back.length - 1 - back.length = front.length := by omega
  have before : (front ++ 49 :: back).take front.length = front := List.take_left
  have after : (front ++ 49 :: back).drop (front.length + 1) = back := by
    rw [← List.drop_drop, List.drop_left]
    rfl
  rw [bech32Decode]
  dsimp only
  rw [found, size]
  dsimp only
  rw [sep, before, after]
  constructor
  · intro decoded
    split at decoded
    next => cases decoded
    next alen =>
      split at decoded
      next => cases decoded
      next ends =>
        split at decoded
        next => cases decoded
        next prefixed =>
          split at decoded
          next => cases decoded
          next positions read =>
            split at decoded
            next => cases decoded
            next oneCase =>
              split at decoded
              next => cases decoded
              next =>
                split at decoded
                next => cases decoded
                next =>
                  obtain ⟨short, printable⟩ := not_or.mp prefixed
                  have parts (enc' : Encoding)
                      (checksum : bech32Polymod (bech32HrpExpand (front.map toLower) ++
                        positions.map UInt8.ofNat) = enc'.constant) :
                      Decodes front back positions enc' :=
                    ⟨by
                      omega, by
                      omega, by simpa using printable, by omega, by omega, read, oneCase, checksum⟩
                  split at decoded
                  next one =>
                    cases decoded
                    exact ⟨positions, parts .bech32 one, rfl⟩
                  next =>
                    split at decoded
                    next other =>
                      cases decoded
                      exact ⟨positions, parts .bech32m other, rfl⟩
                    next => cases decoded
  · rintro ⟨positions, parts, rfl⟩
    have prefixed := parts.prefixed
    have short := parts.short
    have least := parts.least
    have most := parts.most
    have expanded : (bech32HrpExpand (front.map toLower)).length = 2 * front.length + 1 := by
      simp only [bech32HrpExpand, List.length_append, List.length_map, List.length_singleton]
      omega
    rw [if_neg (by omega), if_neg (by omega),
      if_neg (not_or.mpr ⟨by omega, by simp [parts.printable]⟩), parts.read]
    dsimp only
    rw [if_neg parts.oneCase, if_neg (by omega), if_neg (by omega), parts.checksum]
    cases enc with
    | bech32 => rfl
    | bech32m => rfl

theorem bech32Decode_separated (decoded : bech32Decode s 16 90 = some result) :
    ∃ front back, s = front ++ 49 :: back ∧ 49 ∉ back := by
  rw [bech32Decode] at decoded
  dsimp only at decoded
  split at decoded
  next => cases decoded
  next =>
    split at decoded
    next => cases decoded
    next fromEnd found =>
      obtain ⟨front, back, same, absent, _⟩ := (last_separator s fromEnd).mp found
      exact ⟨front, back, same, absent⟩

theorem any_separated (test : UInt8 → Bool) (separator : test 49 = false) (front back : Bytes) :
    (front ++ 49 :: back).any test = (front ++ back).any test := by
  rw [List.any_append, List.any_append, List.any_cons, separator, Bool.false_or]

theorem one_case_separated (front back : Bytes) :
    ¬((front ++ back).any isLower && (front ++ back).any isUpper) = true ↔
    front ++ 49 :: back = (front ++ 49 :: back).map toLower ∨
      front ++ 49 :: back = ((front ++ 49 :: back).map toLower).map toUpper := by
  rw [← one_case, any_separated isLower rfl, any_separated isUpper rfl]

theorem checksum_iff (hrp : Bytes) (small : ∀ g ∈ positions, g < 32) (enc : Encoding) :
    bech32Polymod (bech32HrpExpand hrp ++ positions.map UInt8.ofNat) = enc.constant ↔
      Bch.remainder bech32Divisor [0, 0, 0, 0, 0, 1] (expandHrp hrp ++ positions) =
        enc.residue := by
  rw [hrpExpand_eq, ← List.map_append]
  refine bech32Polymod_iff (fun v member => ?_) enc
  exact (List.mem_append.mp member).elim (expandHrp_lt hrp v) (small v)

/-- The decoder accepts exactly the strings of the format, for prefixes of 15 characters. -/
theorem bech32Decode_iff : bech32Decode s 16 90 = some (bytes, enc) ↔
    ∃ hrp groups, Bech32 hrp groups enc s ∧ hrp.length ≤ 15 ∧ bytes = groups.map UInt8.ofNat := by
  constructor
  · intro decoded
    obtain ⟨front, back, rfl, absent⟩ := bech32Decode_separated decoded
    obtain ⟨positions, parts, rfl⟩ := (bech32Decode_at absent).mp decoded
    obtain ⟨text, small⟩ := (positions_iff back positions).mp parts.read
    have length : positions.length = back.length := by
      simpa [bech32Text] using (congrArg List.length text).symm
    have prefixed := parts.prefixed
    have least := parts.least
    have most := parts.most
    have lower :
        (front ++ 49 :: back).map toLower = front.map toLower ++ 49 :: bech32Text positions := by
      rw [List.map_append, List.map_cons, text]
      rfl
    refine ⟨front.map toLower, positions.take (back.length - 6),
      ⟨positions.drop (back.length - 6), ?_, ?_⟩, ?_, ?_⟩
    · refine ⟨?_, ?_, ?_, ?_, ?_, ?_, ?_⟩
      · intro empty
        rw [List.map_eq_nil_iff.mp empty] at prefixed
        cases prefixed
      · intro c member
        obtain ⟨d, here, rfl⟩ := List.mem_map.mp member
        have range := List.any_eq_false.mp parts.printable d here
        rw [Bool.or_eq_true, not_or, decide_eq_true_eq, decide_eq_true_eq, UInt8.not_lt,
          UInt8.not_lt] at range
        obtain ⟨low, high⟩ := printable_toLower.mpr range
        exact ⟨low, high, isUpper_toLower d⟩
      · exact fun g member => small g (List.mem_of_mem_take member)
      · exact fun g member => small g (List.mem_of_mem_drop member)
      · rw [List.length_drop]
        omega
      · rw [List.length_map, List.length_take]
        omega
      · rw [List.take_append_drop]
        exact (checksum_iff _ small enc).mp parts.checksum
    · rw [List.take_append_drop, ← lower]
      exact (one_case_separated front back).mp parts.oneCase
    · rw [List.length_map]
      exact parts.short
    · rw [List.map_take]
  · rintro ⟨hrp, groups, ⟨check, word, cased⟩, short, rfl⟩
    have small : ∀ g ∈ groups ++ check, g < 32 := fun g member =>
      (List.mem_append.mp member).elim (word.smallGroups g) (word.smallCheck g)
    have plain := bech32Text_lower small
    have size := word.size
    have six := word.six
    have length : (bech32Text (groups ++ check)).length = groups.length + 6 := by
      rw [bech32Text, List.length_map, List.length_append, six]
    have prefixed : 1 ≤ hrp.length := List.length_pos_iff.mpr word.prefixed
    have accept (front back : Bytes) (whole : s = front ++ 49 :: back)
      (lowerFront : front.map toLower = hrp)
        (lowerBack : back.map toLower = bech32Text (groups ++ check))
        (oneCase : front ++ 49 :: back = (front ++ 49 :: back).map toLower ∨
          front ++ 49 :: back = ((front ++ 49 :: back).map toLower).map toUpper) :
        bech32Decode s 16 90 = some (groups.map UInt8.ofNat, enc) := by
      have sizeFront : front.length = hrp.length := by rw [← lowerFront, List.length_map]
      have sizeBack : back.length = groups.length + 6 := by
        rw [← length, ← lowerBack, List.length_map]
      have absent : 49 ∉ back := by
        intro member
        have there := List.mem_map_of_mem (f := toLower) member
        rw [lowerBack] at there
        exact (plain _ there).2 rfl
      rw [whole]
      refine (bech32Decode_at absent).mpr ⟨groups ++ check, ⟨?_, ?_, ?_, ?_, ?_, ?_, ?_, ?_⟩, ?_⟩
      · omega
      · omega
      · refine List.any_eq_false.mpr fun c member => ?_
        have there := List.mem_map_of_mem (f := toLower) member
        rw [lowerFront] at there
        obtain ⟨low, high, _⟩ := word.printable _ there
        obtain ⟨low, high⟩ := printable_toLower.mp ⟨low, high⟩
        rw [Bool.or_eq_true, not_or, decide_eq_true_eq, decide_eq_true_eq, UInt8.not_lt,
          UInt8.not_lt]
        exact ⟨low, high⟩
      · omega
      · omega
      · exact (positions_iff back _).mpr ⟨lowerBack, small⟩
      · exact (one_case_separated front back).mpr oneCase
      · rw [lowerFront]
        exact (checksum_iff hrp small enc).mpr word.checksum
      · rw [sizeBack, Nat.add_sub_cancel, ← List.map_take, List.take_left]
    have fixed (text : Bytes) (lower : ∀ c ∈ text, isUpper c = false) :
        text.map toLower = text := by
      refine (List.map_congr_left fun c member => ?_).trans (List.map_id text)
      exact toLower_fixed (lower c member)
    have restored (text : Bytes) (lower : ∀ c ∈ text, isUpper c = false) :
        (text.map toUpper).map toLower = text := by
      rw [List.map_map]
      refine (List.map_congr_left fun c member => ?_).trans (List.map_id text)
      exact toLower_toUpper (lower c member)
    have lowerHrp : ∀ c ∈ hrp, isUpper c = false := fun c member => (word.printable c member).2.2
    have lowerText : ∀ c ∈ bech32Text (groups ++ check), isUpper c = false :=
      fun c member => (plain c member).1
    rcases cased with lower | upper
    · refine accept hrp (bech32Text (groups ++ check)) lower (fixed _ lowerHrp) (fixed _ lowerText)
        (.inl ?_)
      rw [List.map_append, List.map_cons, fixed _ lowerHrp, fixed _ lowerText]
      rfl
    · refine accept (hrp.map toUpper) ((bech32Text (groups ++ check)).map toUpper) ?_
        (restored _ lowerHrp) (restored _ lowerText)
        (.inr ?_)
      · rw [upper, List.map_append, List.map_cons]
        rfl
      · rw [List.map_append, List.map_cons, restored _ lowerHrp, restored _ lowerText,
          List.map_append, List.map_cons]
        rfl

end SimplePool.Coinbase
