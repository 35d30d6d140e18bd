import SimplePool.Main.ParserSafety
import SimplePool.Stratum.AssembledBlock

/-! The integers of the block format: two writers, one reader, and the prediction of how many
bytes an output takes. The reader undoes the writers at every width. The prediction knows of no
prefix longer than five bytes, and a template can claim a script that needs nine. -/
namespace SimplePool.Main
open Wire Coinbase GrowBuffer Stratum

/-- The loop of `rd_varint`: the bytes are put in their places one by one. -/
def orLoop (bytes : Bytes) : Nat := bytes.zipIdx.foldl (fun v (b, i) => v ||| b.toNat <<< (8 * i)) 0

/-- `rd_varint` with its loop. -/
def rdVarintLoop (buf : Bytes) (off : Nat) : Option (Nat × Nat) :=
  match buf[off]? with
  | none => none
  | some b =>
    let off := off + 1
    if b < 0xfd then some (b.toNat, off)
    else
      let n := if b = 0xfd then 2 else if b = 0xfe then 4 else 8
      if buf.length < sizeT (off + n) then none
      else some (orLoop ((buf.drop off).take n), off + n)

theorem orLoop_from (bytes : Bytes) (i v : Nat) (below : v < 256 ^ i) :
    (bytes.zipIdx i).foldl (fun v (b, i) => v ||| b.toNat <<< (8 * i)) v =
      v + 256 ^ i * decode bytes := by
  induction bytes generalizing i v with
  | nil => simp [decode]
  | cons b rest ih =>
    have places : 256 ^ i = 2 ^ (8 * i) := Nat.pow_mul 2 8 i ▸ rfl
    have set : v ||| b.toNat <<< (8 * i) = v + 256 ^ i * b.toNat := by
      rw [places] at below ⊢
      rw [Nat.shiftLeft_eq, Nat.mul_comm, Nat.or_comm, ← Nat.two_pow_add_eq_or_of_lt below,
        Nat.add_comm]
    have next : v + 256 ^ i * b.toNat < 256 ^ (i + 1) := by
      have byte : b.toNat + 1 ≤ 256 := b.toNat_lt
      calc v + 256 ^ i * b.toNat < 256 ^ i * (b.toNat + 1) := by rw [Nat.mul_succ]; omega
        _ ≤ 256 ^ i * 256 := Nat.mul_le_mul_left _ byte
        _ = 256 ^ (i + 1) := (Nat.pow_succ ..).symm
    rw [List.zipIdx_cons, List.foldl_cons]
    dsimp only
    rw [set, ih _ _ next, decode, Nat.pow_succ]
    ring

theorem orLoop_eq (bytes : Bytes) : orLoop bytes = decode bytes := by
  have whole := orLoop_from bytes 0 0 (by decide)
  simpa [orLoop] using whole

theorem rdVarintLoop_eq (buf : Bytes) (off : Nat) : rdVarintLoop buf off = rdVarint buf off := by
  rw [rdVarintLoop, rdVarint]
  cases buf[off]? with
  | none => rfl
  | some b => simp only [orLoop_eq]

theorem rdVarint_long (first : buf[off]? = some marker) (large : ¬marker < 0xfd) :
    rdVarint buf off = if buf.length < sizeT (off + 1 + compactWidth marker) then none
      else some (decode ((buf.drop (off + 1)).take (compactWidth marker)),
        off + 1 + compactWidth marker) := by
  simp only [rdVarint, first, large, if_false]
  rfl

/-- A marker, and as many bytes as it announces. -/
theorem rdVarint_marked (marker : UInt8) (w : Nat) (large : ¬marker < 0xfd)
    (width : compactWidth marker = w) (small : n < 256 ^ w) (before rest : Bytes) :
    rdVarint (before ++ (marker :: encode w n) ++ rest) before.length =
      some (n, (before ++ (marker :: encode w n)).length) := by
  have first : (before ++ (marker :: encode w n) ++ rest)[before.length]? = some marker := by simp
  have cut :
      before ++ (marker :: encode w n) ++ rest = (before ++ [marker]) ++ (encode w n ++ rest) := by
    simp
  have past : before.length + 1 = (before ++ [marker]).length := by simp
  have payload : ((before ++ (marker :: encode w n) ++ rest).drop (before.length + 1)).take w =
        encode w n := by
    rw [cut, past, List.drop_left]
    exact List.take_left' (length_encode ..)
  have stop : (before ++ (marker :: encode w n)).length = before.length + 1 + w := by
    simp only [List.length_append, List.length_cons, length_encode]
    omega
  have inside :
      sizeT (before.length + 1 + w) ≤ (before ++ (marker :: encode w n) ++ rest).length := by
    apply (Nat.mod_le ..).trans
    rw [List.length_append, stop]
    omega
  rw [rdVarint_long first large, width, if_neg (Nat.not_lt.mpr inside), payload,
    decode_encode_of_lt small, stop]

theorem rdVarint_pushVarint (small : n < 2 ^ 64) (before rest : Bytes) :
    rdVarint (before ++ pushVarint n ++ rest) before.length =
      some (n, (before ++ pushVarint n).length) := by
  have form := pushVarint_eq n
  rw [compact] at form
  split at form
  next tiny =>
    have byte : (UInt8.ofNat n).toNat = n := by
      rw [UInt8.toNat_ofNat']
      omega
    have first : (before ++ pushVarint n ++ rest)[before.length]? = some (UInt8.ofNat n) := by
      simp [form]
    have low : UInt8.ofNat n < 0xfd := by
      rw [UInt8.lt_iff_toNat_lt, byte]
      exact tiny
    rw [form] at first ⊢
    simp only [rdVarint, first, low, if_true, byte]
    simp
  next =>
    split at form
    next =>
      rw [form]
      exact rdVarint_marked 0xfd 2 (by decide) rfl (by omega) before rest
    next =>
      split at form
      next =>
        rw [form]
        exact rdVarint_marked 0xfe 4 (by decide) rfl (by omega) before rest
      next =>
        rw [form]
        exact rdVarint_marked 0xff 8 (by decide) rfl (by omega) before rest

/-- An output whose script has this length takes as many bytes as `out_ser_size` says. -/
def Predicts (len : Nat) : Prop :=
  ∀ (value : Nat) (script : Bytes), script.length = len →
    sizeT (outSerSize len) = (pushOutput value script).length

/-- The lengths of the scripts that the builders make: of an address, and of the witness
commitment. -/
inductive BuilderLength : Nat → Prop
  | address (resolved : addressToScript addr spkCap = .ok spk) : BuilderLength spk.length
  | commitment (decoded : hexDecode hex 256 = some bytes) : BuilderLength bytes.length

/-- The lengths that the parser finds in a template. -/
inductive ParserLength : Nat → Prop
  | output (decoded : decodeTemplateHex hex = .ok tx) (parsed : parseTemplate tx = .ok t)
    (member : out ∈ t.scan.outs) :
      ParserLength out.spkLen

theorem BuilderLength.small (built : BuilderLength len) : len < 2 ^ 32 := by
  cases built with
  | address resolved =>
    have size := addressToScript_size resolved
    omega
  | commitment decoded =>
    rw [hexDecode] at decoded
    split_ifs at decoded with odd long
    have size := hexPairs_length decoded
    omega

theorem predicts_iff (len : Nat) : Predicts len ↔ len < 2 ^ 32 := by
  constructor
  · intro predicts
    by_contra large
    have size := predicts 0 (List.replicate len 0) (List.length_replicate ..)
    have bounded : sizeT (outSerSize len) ≤ outSerSize len := Nat.mod_le ..
    rw [length_pushOutput, length_pushVarint, List.length_replicate] at size
    rw [outSerSize] at size bounded
    split_ifs at size bounded <;> omega
  · intro small value script same
    have exact_size := outSerSize_eq small
    have written := length_pushVarint len
    have fits : outSerSize len < 2 ^ 64 := by
      rw [exact_size, written]
      split_ifs <;> omega
    rw [sizeT_eq fits, exact_size, length_pushOutput, same]

/-- What `bbuf_push_varint` writes reads back, and the reader stops where it ends. -/
def ReadsBack (n : UInt64) : Prop :=
  ∀ before rest : Bytes, rdVarintLoop (before ++ pushVarint n.toNat ++ rest) before.length =
    some (n.toNat, (before ++ pushVarint n.toNat).length)

/-- `varint_append` writes what `bbuf_push_varint` writes. -/
def WritesSame (n : UInt64) : Prop :=
  ∀ (b : Buffer UInt8) (bytes : Bytes), b.Holds bytes →
    ∃ b', varintAppend b n.toNat = some b' ∧ b'.Holds (bytes ++ pushVarint n.toNat)

structure CodecsAgree : Prop where
  reads : ∀ n, ReadsBack n
  writes : ∀ n, WritesSame n
  predicts : ∀ len, BuilderLength len ∨ ParserLength len → Predicts len

/-- The writers and the reader agree on every integer, and the prediction agrees with the writers
on every script below 2^32 bytes and on no other. The builders make no other. -/
theorem integer_codecs_agree_iff (n : UInt64) (len : Nat) :
    ReadsBack n ∧ WritesSame n ∧ (BuilderLength len → Predicts len) ∧
    (Predicts len ↔ len < 2 ^ 32) := by
  refine ⟨?_, ?_, ?_, predicts_iff len⟩
  · intro before rest
    rw [rdVarintLoop_eq]
    exact rdVarint_pushVarint n.toNat_lt before rest
  · intro b bytes holds
    exact varintAppend_spec holds n.toNat
  · intro built
    exact (predicts_iff len).mpr built.small

/-- The parser lets a script of 2^64 - 1 bytes pass, and the prediction for it is 12 bytes. -/
theorem claimed_length_unpredicted : ¬CodecsAgree ∧ sizeT (outSerSize (2 ^ 64 - 1)) = 12 := by
  have found : (parseTemplate wrappedTx).toOption.map (fun t => t.scan.outs.map CbOut.spkLen) =
      some [2 ^ 64 - 1, 1] ∧ sizeT (outSerSize (2 ^ 64 - 1)) = 12 := by
    decide +kernel
  refine ⟨fun agree => ?_, found.2⟩
  obtain ⟨t, parsed, lengths⟩ := Option.map_eq_some_iff.mp found.1
  have member : 2 ^ 64 - 1 ∈ t.scan.outs.map CbOut.spkLen := lengths ▸ List.mem_cons_self
  obtain ⟨out, listed, len⟩ := List.mem_map.mp member
  have accepted : parseTemplate wrappedTx = .ok t := by
    cases result : parseTemplate wrappedTx with
    | error failure =>
      rw [result] at parsed
      contradiction
    | ok t' =>
      rw [result] at parsed
      exact congrArg Except.ok (Option.some.inj parsed)
  have decoded : decodeTemplateHex (hexEncode wrappedTx) = .ok wrappedTx :=
    decodeTemplateHex_ok.mpr (hexPairs_hexEncode wrappedTx)
  have small := (predicts_iff _).mp (agree.predicts _ (.inr (.output decoded accepted listed)))
  rw [len] at small
  omega

end SimplePool.Main
