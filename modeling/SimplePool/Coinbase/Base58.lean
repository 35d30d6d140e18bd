import Mathlib.Data.List.TakeWhile
import SimplePool.Coinbase.Address
import SimplePool.Lib.Positional

/-! What the base58 decoder accepts: a number in base 58, with a leading 1 for each leading
zero byte. -/
namespace SimplePool.Coinbase
open Wire Positional

/-- The number of big-endian bytes. -/
def bytesValue (bytes : Bytes) : Nat := value 256 (bytes.map UInt8.toNat)

def b58Text (digits : List Nat) : Bytes := digits.map fun d => b58Alpha.getD d 0

/-- The string and the bytes are the same number without leading zeros, behind as many
leading ones as zero bytes. -/
structure Base58Of (zeros : Nat) (digits : List Nat) (payload s bytes : Bytes) : Prop where
  written : s = List.replicate zeros 49 ++ b58Text digits
  read : bytes = List.replicate zeros 0 ++ payload
  small : ∀ d ∈ digits, d < 58
  noZero : Canonical digits
  noZeroByte : Canonical (payload.map UInt8.toNat)
  same : value 58 digits = bytesValue payload

def Base58 (s bytes : Bytes) : Prop := ∃ zeros digits payload, Base58Of zeros digits payload s bytes

theorem byte_small (bytes : Bytes) : ∀ d ∈ bytes.map UInt8.toNat, d < 256 := by
  intro d member
  obtain ⟨b, _, rfl⟩ := List.mem_map.mp member
  exact b.toNat_lt

theorem bytesValue_lt (bytes : Bytes) : bytesValue bytes < 256 ^ bytes.length := by
  have bound := value_lt (by decide) (byte_small bytes)
  rwa [List.length_map] at bound

theorem bytesValue_cons (b : UInt8) (rest : Bytes) :
    bytesValue (b :: rest) = b.toNat * 256 ^ rest.length + bytesValue rest := by
  rw [bytesValue, List.map_cons, value_cons, List.length_map]
  rfl

theorem bytesValue_injective (size : left.length = right.length)
    (same : bytesValue left = bytesValue right) :
    left = right := by
  have digits :=
    value_injective (by decide) (byte_small left) (byte_small right) (by simpa using size) same
  exact List.map_injective_iff.mpr (fun _ _ => UInt8.toNat_inj.mp) digits

theorem b58Alpha_table : b58Alpha.length = 58 ∧
    ∀ d < 58, b58Alpha.idxOf? (b58Alpha.getD d 0) = some d ∧ (b58Alpha.getD d 0 = 49 ↔ d = 0) := by
  decide +kernel

theorem b58Alpha_digit (small : d < 58) : b58Alpha.idxOf? (b58Alpha.getD d 0) = some d :=
  (b58Alpha_table.2 d small).1

theorem b58Alpha_one (small : d < 58) : b58Alpha.getD d 0 = 49 ↔ d = 0 :=
  (b58Alpha_table.2 d small).2

theorem b58Alpha_char (found : b58Alpha.idxOf? c = some d) : d < 58 ∧ c = b58Alpha.getD d 0 := by
  obtain ⟨inside, same, _⟩ := List.idxOf?_eq_some_iff.mp found
  have size := b58Alpha_table.1
  refine ⟨by omega, ?_⟩
  rw [List.getD_eq_getElem?_getD, List.getElem?_eq_getElem inside, same]
  rfl

/-- One digit more, with what does not fit. -/
theorem b58Shift_value (b : Bytes) (digit : Nat) : (b58Shift b digit).1.length = b.length ∧
    (b58Shift b digit).2 * 256 ^ b.length + bytesValue (b58Shift b digit).1 =
      bytesValue b * 58 + digit := by
  induction b with
  | nil => exact ⟨rfl, by simp [b58Shift, bytesValue]⟩
  | cons byte rest ih =>
    obtain ⟨size, sum⟩ := ih
    have step : b58Shift (byte :: rest) digit =
        (UInt8.ofNat ((b58Shift rest digit).2 + 58 * byte.toNat) :: (b58Shift rest digit).1,
          ((b58Shift rest digit).2 + 58 * byte.toNat) / 256) := rfl
    generalize b58Shift rest digit = shifted at size sum step
    obtain ⟨out, carry⟩ := shifted
    dsimp only at size sum step
    rw [step]
    refine ⟨by simp [size], ?_⟩
    have low : (UInt8.ofNat (carry + 58 * byte.toNat)).toNat = (carry + 58 * byte.toNat) % 256 := by
      simp
    have whole := Nat.div_add_mod (carry + 58 * byte.toNat) 256
    dsimp only
    rw [bytesValue_cons, bytesValue_cons, low, size, List.length_cons, pow_succ]
    generalize (carry + 58 * byte.toNat) / 256 = high at whole ⊢
    generalize (carry + 58 * byte.toNat) % 256 = rem at whole ⊢
    calc high * (256 ^ rest.length * 256) + (rem * 256 ^ rest.length + bytesValue out)
        = (256 * high + rem) * 256 ^ rest.length + bytesValue out := by ring
      _ = (carry + 58 * byte.toNat) * 256 ^ rest.length + bytesValue out := by rw [whole]
      _ = (byte.toNat * 256 ^ rest.length) * 58 + (carry * 256 ^ rest.length + bytesValue out) := by
        ring
      _ = (byte.toNat * 256 ^ rest.length + bytesValue rest) * 58 + digit := by rw [sum]; ring

theorem b58Digits_read (done : b58Digits s b = some b') :
    ∃ digits, s = b58Text digits ∧ (∀ d ∈ digits, d < 58) ∧
    b'.length = b.length ∧ bytesValue b' = bytesValue b * 58 ^ digits.length + value 58 digits := by
  induction s generalizing b with
  | nil =>
    cases done
    exact ⟨[], rfl, nofun, rfl, by simp⟩
  | cons c rest ih =>
    rw [b58Digits] at done
    split at done
    next => cases done
    next digit found =>
      obtain ⟨size, sum⟩ := b58Shift_value b digit
      generalize b58Shift b digit = shifted at size sum done
      obtain ⟨out, carry⟩ := shifted
      dsimp only at size sum done
      split at done
      next => cases done
      next fits =>
        obtain ⟨digits, rfl, small, length, total⟩ := ih done
        obtain ⟨first, rfl⟩ := b58Alpha_char found
        obtain rfl : carry = 0 := not_not.mp fits
        refine ⟨digit :: digits, rfl, List.forall_mem_cons.mpr ⟨first, small⟩, by omega, ?_⟩
        rw [Nat.zero_mul, Nat.zero_add] at sum
        rw [total, sum, value_cons, List.length_cons, pow_succ]
        ring

/-- Nothing is carried out of a number that has room. -/
theorem b58Digits_write (small : ∀ d ∈ digits, d < 58)
    (room : bytesValue b * 58 ^ digits.length + value 58 digits < 256 ^ b.length) :
    ∃ b', b58Digits (b58Text digits) b = some b' := by
  induction digits generalizing b with
  | nil => exact ⟨b, rfl⟩
  | cons d digits ih =>
    obtain ⟨first, rest⟩ := List.forall_mem_cons.mp small
    obtain ⟨size, sum⟩ := b58Shift_value b d
    rw [b58Text, List.map_cons, b58Digits, b58Alpha_digit first]
    dsimp only
    generalize b58Shift b d = shifted at size sum ⊢
    obtain ⟨out, carry⟩ := shifted
    dsimp only at size sum ⊢
    rw [value_cons, List.length_cons, pow_succ] at room
    have grown : (carry * 256 ^ b.length + bytesValue out) * 58 ^ digits.length + value 58 digits <
          256 ^ b.length := by
      rw [sum]
      calc (bytesValue b * 58 + d) * 58 ^ digits.length + value 58 digits
          = bytesValue b * (58 ^ digits.length * 58) +
            (d * 58 ^ digits.length + value 58 digits) := by ring
        _ < 256 ^ b.length := room
    have one : 0 < 58 ^ digits.length := Nat.pow_pos (by decide)
    obtain rfl : carry = 0 := by
      by_contra some
      have least : 256 ^ b.length ≤ carry * 256 ^ b.length :=
        Nat.le_mul_of_pos_left _ (Nat.pos_of_ne_zero some)
      have scaled := Nat.le_mul_of_pos_right (carry * 256 ^ b.length + bytesValue out) one
      omega
    rw [if_neg (not_not.mpr rfl)]
    rw [Nat.zero_mul, Nat.zero_add, ← size] at grown
    exact ih rest grown

theorem split_zeros (zero : α) [DecidableEq α] (items : List α) :
    items = List.replicate (items.takeWhile (· = zero)).length zero ++
      items.dropWhile (· = zero) := by
  have ones :
      items.takeWhile (· = zero) = List.replicate (items.takeWhile (· = zero)).length zero := by
    refine List.eq_replicate_iff.mpr ⟨rfl, fun a member => ?_⟩
    simpa using List.mem_takeWhile_imp member
  rw [← ones, List.takeWhile_append_dropWhile]

theorem dropWhile_head (zero : α) [DecidableEq α] (items : List α) :
    (items.dropWhile (· = zero)).head? ≠ some zero := by
  induction items with
  | nil => exact nofun
  | cons a rest ih =>
    rw [List.dropWhile_cons]
    split
    next => exact ih
    next other => simpa using other

theorem zeros_takeWhile (zero : α) [DecidableEq α] (n : Nat) (first : rest.head? ≠ some zero) :
    ((List.replicate n zero ++ rest).takeWhile (· = zero)).length = n ∧
      (List.replicate n zero ++ rest).dropWhile (· = zero) = rest := by
  induction n with
  | zero =>
    cases rest with
    | nil => exact ⟨rfl, rfl⟩
    | cons a rest =>
      have other : ¬a = zero := fun same => first (congrArg some same)
      simp [other]
  | succ n ih =>
    rw [List.replicate_succ, List.cons_append, List.takeWhile_cons_of_pos (by simp),
      List.dropWhile_cons_of_pos (by simp), List.length_cons, ih.1, ih.2]
    exact ⟨rfl, rfl⟩

theorem bytesValue_zeros (n : Nat) (bytes : Bytes) :
    bytesValue (List.replicate n 0 ++ bytes) = bytesValue bytes := by
  rw [bytesValue, List.map_append, List.map_replicate]
  exact value_zeros 256 n _

theorem canonical_bytes {bytes : Bytes} :
    Canonical (bytes.map UInt8.toNat) ↔ bytes.head? ≠ some 0 := by
  cases bytes with
  | nil => exact ⟨fun _ => nofun, fun _ => nofun⟩
  | cons b rest =>
    have zero : b.toNat = 0 ↔ b = 0 := UInt8.toNat_inj (b := 0)
    simp [Canonical, zero]

/-- 733 thousandths of a byte are enough for a digit. -/
theorem b58_room (n : Nat) : 58 ^ n < 256 ^ (n * 733 / 1000 + 1) := by
  have base : 58 ^ 71 < 256 ^ 52 := by norm_num
  cases n with
  | zero => norm_num
  | succ m =>
    refine lt_of_pow_lt_pow_left₀ 71 (Nat.zero_le _) ?_
    calc (58 ^ (m + 1)) ^ 71 = (58 ^ 71) ^ (m + 1) := by rw [← pow_mul, ← pow_mul, Nat.mul_comm]
      _ < (256 ^ 52) ^ (m + 1) := Nat.pow_lt_pow_left base (Nat.succ_ne_zero m)
      _ = 256 ^ (52 * (m + 1)) := by rw [← pow_mul]
      _ ≤ 256 ^ (((m + 1) * 733 / 1000 + 1) * 71) := Nat.pow_le_pow_right (by decide) (by omega)
      _ = (256 ^ ((m + 1) * 733 / 1000 + 1)) ^ 71 := pow_mul _ _ _

theorem b58Text_append (left right : List Nat) :
    b58Text (left ++ right) = b58Text left ++ b58Text right := List.map_append

theorem b58Text_zeros (n : Nat) : b58Text (List.replicate n 0) = List.replicate n 49 := by
  rw [b58Text, List.map_replicate]
  rfl

theorem b58Text_head (small : ∀ d ∈ digits, d < 58) :
    (b58Text digits).head? = some 49 ↔ digits.head? = some 0 := by
  cases digits with
  | nil => exact ⟨nofun, nofun⟩
  | cons d rest =>
    have one := b58Alpha_one (small d List.mem_cons_self)
    rw [b58Text, List.map_cons, List.head?_cons, List.head?_cons, Option.some_inj, Option.some_inj]
    exact one

/-- What the digits of the whole string come to. -/
theorem b58Digits_total (small : ∀ d ∈ digits, d < 58) :
    ∃ b, b58Digits (b58Text digits) (List.replicate ((b58Text digits).length * 733 / 1000 + 1) 0) =
      some b ∧ bytesValue b = value 58 digits := by
  have nothing : bytesValue (List.replicate ((b58Text digits).length * 733 / 1000 + 1) 0) = 0 := by
    rw [← List.append_nil (List.replicate _ _), bytesValue_zeros]
    rfl
  have length : (b58Text digits).length = digits.length := List.length_map _
  have room := b58_room digits.length
  obtain ⟨b, read⟩ :=
    b58Digits_write (b := List.replicate ((b58Text digits).length * 733 / 1000 + 1) 0) small (by
    rw [nothing, Nat.zero_mul, Nat.zero_add, List.length_replicate, length]
    exact lt_trans (value_lt (by decide) small) room)
  refine ⟨b, read, ?_⟩
  obtain ⟨digits', text, small', _, total⟩ := b58Digits_read read
  rw [nothing, Nat.zero_mul, Nat.zero_add] at total
  have same : digits' = digits := by
    have found := congrArg (List.map b58Alpha.idxOf?) text
    rw [b58Text, b58Text, List.map_map, List.map_map] at found
    have back : ∀ {list : List Nat}, (∀ d ∈ list, d < 58) →
        list.map (b58Alpha.idxOf? ∘ fun d => b58Alpha.getD d 0) = list.map some := fun small =>
      List.map_congr_left fun d member => b58Alpha_digit (small d member)
    rw [back small, back small'] at found
    exact (List.map_injective_iff.mpr (fun _ _ => Option.some.inj) found).symm
  rw [total, same]

theorem b58Decode_iff (s : Bytes) (cap : Nat) (bytes : Bytes) :
    b58Decode s cap = some bytes ↔ Base58 s bytes ∧ bytes.length ≤ cap := by
  have decode : ∀ digits, (∀ d ∈ digits, d < 58) → s = b58Text digits → ∃ b,
      b58Digits s (List.replicate (s.length * 733 / 1000 + 1) 0) = some b ∧
      bytesValue b = value 58 digits := by
    rintro digits small rfl
    exact b58Digits_total small
  rw [b58Decode]
  constructor
  · intro decoded
    split at decoded
    next => cases decoded
    next b read =>
      dsimp only at decoded
      split at decoded
      next => cases decoded
      next fits =>
        cases decoded
        obtain ⟨digits, text, small, _, _⟩ := b58Digits_read read
        obtain ⟨b', read', total⟩ := decode digits small text
        obtain rfl := Option.some.inj (read.symm.trans read')
        have split := split_zeros 0 digits
        have head := dropWhile_head 0 digits
        generalize (digits.takeWhile (· = 0)).length = zeros at split
        generalize digits.dropWhile (· = 0) = rest at split head
        subst split
        have smallRest : ∀ d ∈ rest, d < 58 :=
          fun d member => small d (List.mem_append_right _ member)
        rw [b58Text_append, b58Text_zeros] at text
        have first : (b58Text rest).head? ≠ some 49 :=
          fun one => head ((b58Text_head smallRest).mp one)
        have count : (s.takeWhile (· = 49)).length = zeros := by
          rw [text]
          exact (zeros_takeWhile 49 zeros first).1
        rw [value_zeros] at total
        rw [count] at fits ⊢
        refine ⟨⟨zeros, rest, b.dropWhile (· = 0), ?_⟩, ?_⟩
        · refine ⟨text, rfl, smallRest, head, canonical_bytes.mpr (dropWhile_head 0 b), ?_⟩
          rw [← total]
          conv => lhs; rw [split_zeros 0 b, bytesValue_zeros]
        · rw [List.length_append, List.length_replicate]
          omega
  · rintro ⟨⟨zeros, digits, payload, base⟩, fits⟩
    have small : ∀ d ∈ List.replicate zeros 0 ++ digits, d < 58 := by
      intro d member
      rcases List.mem_append.mp member with zero | later
      · rw [List.eq_of_mem_replicate zero]
        decide
      · exact base.small d later
    have text : s = b58Text (List.replicate zeros 0 ++ digits) := by
      rw [b58Text_append, b58Text_zeros, base.written]
    obtain ⟨b, read, total⟩ := decode _ small text
    rw [value_zeros, base.same] at total
    have first : (b58Text digits).head? ≠ some 49 :=
      fun one => base.noZero ((b58Text_head base.small).mp one)
    have count : (s.takeWhile (· = 49)).length = zeros := by
      rw [base.written]
      exact (zeros_takeWhile 49 zeros first).1
    have significant : b.dropWhile (· = 0) = payload := by
      have stripped : bytesValue (b.dropWhile (· = 0)) = bytesValue b := by
        conv => rhs; rw [split_zeros 0 b, bytesValue_zeros]
      have digits :=
        canonical_injective (by decide) (byte_small (b.dropWhile (· = 0))) (byte_small payload)
        (canonical_bytes.mpr (dropWhile_head 0 b)) base.noZeroByte (stripped.trans total)
      exact List.map_injective_iff.mpr (fun _ _ => UInt8.toNat_inj.mp) digits
    rw [base.read, List.length_append, List.length_replicate] at fits
    rw [read]
    dsimp only
    rw [count, significant, if_neg (by omega), base.read]

def b58Encode (bytes : Bytes) : Bytes :=
  List.replicate (bytes.takeWhile (· = 0)).length 49 ++
    b58Text (Nat.digits 58 (bytesValue (bytes.dropWhile (· = 0)))).reverse

theorem digits_canonical (n : Nat) : Canonical (Nat.digits 58 n).reverse := by
  by_cases zero : n = 0
  · rw [zero, Nat.digits_zero]
    exact nofun
  · intro first
    rw [List.head?_reverse, List.getLast?_eq_some_getLast (Nat.digits_ne_nil_iff_ne_zero.mpr zero)]
      at first
    exact Nat.getLast_digit_ne_zero 58 zero (Option.some.inj first)

theorem digits_value (n : Nat) : value 58 (Nat.digits 58 n).reverse = n := by
  rw [value, List.reverse_reverse, Nat.ofDigits_digits]

theorem digits_small (n : Nat) : ∀ d ∈ (Nat.digits 58 n).reverse, d < 58 := fun _ member =>
  Nat.digits_lt_base (by decide) (List.mem_reverse.mp member)

/-- What the encoder writes stands for the bytes. -/
theorem base58_encode (bytes : Bytes) : Base58 (b58Encode bytes) bytes :=
  ⟨(bytes.takeWhile (· = 0)).length, _, bytes.dropWhile (· = 0), rfl, split_zeros 0 bytes,
    digits_small _, digits_canonical _,
    canonical_bytes.mpr (dropWhile_head 0 bytes), digits_value _⟩

/-- Nothing else does. -/
theorem Base58.encoded (base : Base58 s bytes) : s = b58Encode bytes := by
  obtain ⟨zeros, digits, payload, base⟩ := base
  obtain ⟨count, rest⟩ := zeros_takeWhile 0 zeros (canonical_bytes.mp base.noZeroByte)
  have written : digits = (Nat.digits 58 (bytesValue payload)).reverse :=
    canonical_injective (by decide) base.small (digits_small _) base.noZero (digits_canonical _)
      (base.same.trans (digits_value _).symm)
  rw [b58Encode, base.read, count, rest, ← written, base.written]

theorem Base58.alphabet (base : Base58 s bytes) : ∀ c ∈ s, c ∈ b58Alpha := by
  have letter : ∀ {d}, d < 58 → b58Alpha.getD d 0 ∈ b58Alpha := by
    intro d small
    obtain ⟨inside, same, _⟩ := List.idxOf?_eq_some_iff.mp (b58Alpha_digit small)
    rw [← same]
    exact List.getElem_mem inside
  obtain ⟨zeros, digits, payload, base⟩ := base
  intro c member
  rw [base.written] at member
  rcases List.mem_append.mp member with one | later
  · rw [List.eq_of_mem_replicate one]
    exact letter (by decide : 0 < 58)
  · obtain ⟨d, digit, rfl⟩ := List.mem_map.mp later
    exact letter (base.small d digit)

/-- A byte takes at least one character and at most two. -/
theorem Base58.length (base : Base58 s bytes) :
    bytes.length ≤ s.length ∧ s.length ≤ 2 * bytes.length := by
  obtain ⟨zeros, digits, payload, base⟩ := base
  have above := bytesValue_lt payload
  have below := value_lt (by decide) base.small
  have least : payload.length ≤ digits.length := by
    have short :=
      length_le_of_value_lt (n := digits.length) (by decide : 1 < 256) base.noZeroByte (by
      calc bytesValue payload = value 58 digits := base.same.symm
        _ < 58 ^ digits.length := below
        _ ≤ 256 ^ digits.length := Nat.pow_le_pow_left (by decide) _)
    rwa [List.length_map] at short
  have most : digits.length ≤ 2 * payload.length := by
    refine length_le_of_value_lt (by decide : 1 < 58) base.noZero ?_
    calc value 58 digits = bytesValue payload := base.same
      _ < 256 ^ payload.length := above
      _ ≤ (58 ^ 2) ^ payload.length := Nat.pow_le_pow_left (by decide) _
      _ = 58 ^ (2 * payload.length) := (pow_mul _ _ _).symm
  rw [base.written, base.read, List.length_append, List.length_append, List.length_replicate,
    List.length_replicate, b58Text, List.length_map]
  omega

/-- A string over the alphabet is never carried out of the buffer. -/
theorem b58Digits_room (letters : ∀ c ∈ s, c ∈ b58Alpha) :
    ∃ b, b58Digits s (List.replicate (s.length * 733 / 1000 + 1) 0) = some b := by
  have read : ∃ digits, (∀ d ∈ digits, d < 58) ∧ s = b58Text digits := by
    induction s with
    | nil => exact ⟨[], nofun, rfl⟩
    | cons c rest ih =>
      obtain ⟨letter, others⟩ := List.forall_mem_cons.mp letters
      obtain ⟨digits, small, rfl⟩ := ih others
      obtain ⟨d, found⟩ := Option.isSome_iff_exists.mp (List.isSome_idxOf?.mpr letter)
      obtain ⟨inside, rfl⟩ := b58Alpha_char found
      exact ⟨d :: digits, List.forall_mem_cons.mpr ⟨inside, small⟩, rfl⟩
  obtain ⟨digits, small, rfl⟩ := read
  obtain ⟨b, done, _⟩ := b58Digits_total small
  exact ⟨b, done⟩

end SimplePool.Coinbase
