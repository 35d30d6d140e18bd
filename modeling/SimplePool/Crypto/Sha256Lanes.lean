import Mathlib.Data.List.Forall2
import SimplePool.Crypto.Sha256
import SimplePool.Lib.Lanes

/-! Many SHA-256 at once. A word of the algorithm becomes a number with one field for
each message, 64 bits wide so that a sum and a rotation keep to their field, and every
field comes to what `sha256` computes for its message alone. Whole blocks that all the
messages begin with are transformed once for all. -/
namespace SimplePool.Crypto
open Wire Lanes

namespace Packed

/-- The low `b` bits of each of `2 ^ d` fields. -/
def mask (d b : Nat) : Nat := fill 64 (2 ^ b - 1) d

def shr (d b r x : Nat) : Nat := x >>> r &&& mask d b

/-- The word stands twice in its field, so that a shift brings in the bits of a rotation. -/
def twice (x : Nat) : Nat := x ||| x <<< 32

def ch (x y z : Nat) : Nat := z ^^^ (x &&& (y ^^^ z))

/-- Of the two differences, the second is the first of the round before. -/
def maj (x y z : Nat) : Nat := y ^^^ ((x ^^^ y) &&& (y ^^^ z))

def ep0 (d x : Nat) : Nat := (twice x >>> 2 ^^^ twice x >>> 13 ^^^ twice x >>> 22) &&& mask d 32

def ep1 (d x : Nat) : Nat := (twice x >>> 6 ^^^ twice x >>> 11 ^^^ twice x >>> 25) &&& mask d 32

def sig0 (d x : Nat) : Nat := (twice x >>> 7 ^^^ twice x >>> 18 ^^^ x >>> 3) &&& mask d 32

def sig1 (d x : Nat) : Nat := (twice x >>> 17 ^^^ twice x >>> 19 ^^^ x >>> 10) &&& mask d 32

structure State where
  a : Nat
  b : Nat
  c : Nat
  d : Nat
  e : Nat
  f : Nat
  g : Nat
  h : Nat

/-- The same state in every field. -/
def State.fill (d : Nat) (s : Sha256State) : State :=
  ⟨Lanes.fill 64 s.a.toNat d, Lanes.fill 64 s.b.toNat d, Lanes.fill 64 s.c.toNat d,
    Lanes.fill 64 s.d.toNat d,
    Lanes.fill 64 s.e.toNat d, Lanes.fill 64 s.f.toNat d, Lanes.fill 64 s.g.toNat d,
    Lanes.fill 64 s.h.toNat d⟩

def blockWords : List Nat → List Nat → List Nat
  | p :: q :: r :: s :: rest, words =>
    blockWords rest ((p <<< 24 ||| q <<< 16 ||| r <<< 8 ||| s) :: words)
  | _, words => words

def schedule (d : Nat) : Nat → List Nat → List Nat
  | 0, words => words
  | n + 1, words =>
    schedule d n ((sig1 d (words.getD 1 0) + words.getD 6 0 + sig0 d (words.getD 14 0) +
      words.getD 15 0 &&& mask d 32) :: words)

/-- The sums are reduced where a word of the state is written. -/
def compressRound (d : Nat) (s : State) (km : Nat × Nat) : State :=
  let t1 := s.h + ep1 d s.e + ch s.e s.f s.g + km.1 + km.2
  let t2 := ep0 d s.a + maj s.a s.b s.c
  ⟨t1 + t2 &&& mask d 32, s.a, s.b, s.c, s.d + t1 &&& mask d 32, s.e, s.f, s.g⟩

def transform (d : Nat) (state : State) (data : List Nat) : State :=
  let m := (schedule d 48 (blockWords data [])).reverse
  let s := ((roundConstants.map fun k => fill 64 k.toNat d).zip m).foldl (compressRound d) state
  ⟨state.a + s.a &&& mask d 32, state.b + s.b &&& mask d 32, state.c + s.c &&& mask d 32,
    state.d + s.d &&& mask d 32,
    state.e + s.e &&& mask d 32, state.f + s.f &&& mask d 32, state.g + s.g &&& mask d 32,
    state.h + s.h &&& mask d 32⟩

def blocks (d : Nat) : Nat → State → List Nat → State
  | 0, state, _ => state
  | n + 1, state, data => blocks d n (transform d state (data.take 64)) (data.drop 64)

/-- The same bytes in every field. -/
def bytes (d : Nat) (data : Bytes) : List Nat := data.map fun b => fill 64 b.toNat d

/-- What `sha256Pad` makes of bytes that follow `before` others. -/
def pad (d before : Nat) (data : List Nat) : List Nat :=
  let zeros := (119 - (before + data.length) % 64) % 64
  data ++
    bytes d ([0x80] ++ List.replicate zeros 0 ++ (encode 8 (8 * (before + data.length))).reverse)

def beBytes (d word : Nat) : List Nat :=
  [shr d 8 24 word, shr d 8 16 word, shr d 8 8 word, shr d 8 0 word]

/-- The hash of each field's bytes after the same `head`, a whole number of blocks that are
transformed once. -/
def sha256After (d : Nat) (head : Bytes) (data : List Nat) : List Nat :=
  let padded := pad d head.length data
  let s :=
    blocks d (padded.length / 64) (.fill d (sha256Blocks (head.length / 64) .init head)) padded
  [s.a, s.b, s.c, s.d, s.e, s.f, s.g, s.h].flatMap (beBytes d)

def dsha256After (d : Nat) (head : Bytes) (data : List Nat) : List Nat :=
  sha256After d [] (sha256After d head data)

end Packed

/-- Field `i` of the packed number holds `v`, and no field needs more than `b` bits. -/
structure Reads (i b x v : Nat) : Prop where
  narrow : Narrow 64 b x
  here : lane 64 i x = v

def ReadsWord (i x : Nat) (v : UInt32) : Prop := Reads i 32 x v.toNat

def ReadsByte (i x : Nat) (v : UInt8) : Prop := Reads i 8 x v.toNat

section Words

variable {i d : Nat}

theorem Reads.fill (small : v < 2 ^ b) (fits : b ≤ 64) (inside : i < 2 ^ d) :
    Reads i b (Lanes.fill 64 v d) v where
  narrow := narrow_fill small fits d
  here := lane_fill (small.trans_le (Nat.pow_le_pow_right (by decide) fits)) inside

theorem Reads.xor (left : Reads i b x v) (right : Reads i b y u) :
    Reads i b (x ^^^ y) (v ^^^ u) where
  narrow := left.narrow.xor right.narrow
  here := by rw [lane_xor, left.here, right.here]

theorem Reads.or (left : Reads i b x v) (right : Reads i b y u) :
    Reads i b (x ||| y) (v ||| u) where
  narrow := left.narrow.or right.narrow
  here := by rw [lane_or, left.here, right.here]

theorem Reads.and (left : Reads i b x v) (right : Reads i b y u) :
    Reads i b (x &&& y) (v &&& u) where
  narrow := left.narrow.and_left y
  here := by rw [lane_and, left.here, right.here]

theorem Reads.mask (inside : i < 2 ^ d) (fits : b ≤ 64) : Reads i b (Packed.mask d b) (2 ^ b - 1) :=
  .fill (Nat.sub_lt (Nat.two_pow_pos b) Nat.one_pos) fits inside

/-- The mask reduces a field to its low bits. -/
theorem Reads.reduce (inside : i < 2 ^ d) (fits : b ≤ 64) (here : lane 64 i x = v) :
    Reads i b (x &&& Packed.mask d b) (v % 2 ^ b) where
  narrow := (Reads.mask inside fits).narrow.and_right x
  here := by rw [lane_and, here, (Reads.mask inside fits).here, Nat.and_two_pow_sub_one_eq_mod]

theorem Reads.shr (inside : i < 2 ^ d) (fits : r + b ≤ 64) (here : lane 64 i x = v) :
    Reads i b (Packed.shr d b r x) (v >>> r % 2 ^ b) where
  narrow := (Reads.mask inside (by omega)).narrow.and_right _
  here := by
    have masked := Reads.mask inside (b := b) (by omega)
    rw [Packed.shr, lane_shiftRight_and masked.narrow fits, here, masked.here,
      Nat.and_two_pow_sub_one_eq_mod]

theorem Reads.shl (read : Reads i b x v) (fits : b + k ≤ c) (room : c ≤ 64) :
    Reads i c (x <<< k) (v <<< k) where
  narrow := by
    intro j
    rw [lane_shiftLeft read.narrow (by omega), Nat.shiftLeft_eq]
    calc lane 64 j x * 2 ^ k < 2 ^ b * 2 ^ k :=
      Nat.mul_lt_mul_of_pos_right (read.narrow j) (Nat.two_pow_pos k)
      _ = 2 ^ (b + k) := (Nat.pow_add ..).symm
      _ ≤ 2 ^ c := Nat.pow_le_pow_right (by decide) fits
  here := by rw [lane_shiftLeft read.narrow (by omega), read.here]

theorem Reads.add (left : Reads i b x v) (right : Reads i b y u) (fits : b < 64) :
    Reads i (b + 1) (x + y) (v + u) where
  narrow := by
    intro j
    have hx := left.narrow j
    have hy := right.narrow j
    rw [lane_add (left.narrow.add_lt right.narrow fits), Nat.pow_succ]
    omega
  here := by rw [lane_add (left.narrow.add_lt right.narrow fits), left.here, right.here]

theorem Reads.mul (read : Reads i b x v) (fits : 2 ^ b * k ≤ 2 ^ c) (room : c ≤ 64)
    (positive : 0 < k) :
    Reads i c (x * k) (v * k) where
  narrow := by
    intro j
    rw [lane_mul read.narrow (fits.trans (Nat.pow_le_pow_right (by decide) room))]
    exact ((Nat.mul_lt_mul_right positive).mpr (read.narrow j)).trans_le fits
  here := by
    rw [lane_mul read.narrow (fits.trans (Nat.pow_le_pow_right (by decide) room)), read.here]

end Words

theorem rotr_toNat (a r : UInt32) (positive : 0 < r.toNat) (short : r.toNat < 32) :
    (rotr a r).toNat = (a.toNat ||| a.toNat <<< 32) >>> r.toNat % 2 ^ 32 := by
  have left : (32 - r).toNat = 32 - r.toNat :=
    UInt32.toNat_sub_of_le _ _ (UInt32.le_iff_toNat_le.mpr short.le)
  have back : (32 - r.toNat) % 32 = 32 - r.toNat := Nat.mod_eq_of_lt (by omega)
  apply Nat.eq_of_testBit_eq
  intro j
  rw [rotr, UInt32.toNat_or, UInt32.toNat_shiftRight, UInt32.toNat_shiftLeft, left, back,
    Nat.mod_eq_of_lt short]
  simp only [Nat.testBit_or, Nat.testBit_shiftRight, Nat.testBit_mod_two_pow, Nat.testBit_shiftLeft]
  by_cases inside : j < 32
  · by_cases wrapped : 32 - r.toNat ≤ j
    · have past : 32 ≤ r.toNat + j := by omega
      have same : j - (32 - r.toNat) = r.toNat + j - 32 := by omega
      simp [inside, wrapped, past, same]
    · have before : ¬32 ≤ r.toNat + j := by omega
      simp [inside, wrapped, before]
  · have clear : a.toNat.testBit (r.toNat + j) = false :=
      Nat.testBit_lt_two_pow (a.toNat_lt.trans_le (Nat.pow_le_pow_right (by decide) (by omega)))
    simp [inside, clear]

theorem ch_eq (x y z : UInt32) : ch x y z = z ^^^ (x &&& (y ^^^ z)) := by
  apply UInt32.toBitVec_inj.mp
  apply BitVec.eq_of_getElem_eq
  intro j inside
  simp only [ch, UInt32.toBitVec_xor, UInt32.toBitVec_and, UInt32.toBitVec_not, BitVec.getElem_xor,
    BitVec.getElem_and, BitVec.getElem_not]
  cases x.toBitVec[j] <;> cases y.toBitVec[j] <;> cases z.toBitVec[j] <;> rfl

theorem maj_eq (x y z : UInt32) : maj x y z = y ^^^ ((x ^^^ y) &&& (y ^^^ z)) := by
  apply UInt32.toBitVec_inj.mp
  apply BitVec.eq_of_getElem_eq
  intro j inside
  simp only [maj, UInt32.toBitVec_xor, UInt32.toBitVec_and, BitVec.getElem_xor, BitVec.getElem_and]
  cases x.toBitVec[j] <;> cases y.toBitVec[j] <;> cases z.toBitVec[j] <;> rfl

section Steps

variable {i d : Nat} {x y z : Nat} {u v t : UInt32}

theorem ReadsWord.zero (i : Nat) : ReadsWord i 0 0 where
  narrow j := by simp [lane]
  here := by simp [lane]

theorem ReadsWord.fill (inside : i < 2 ^ d) (v : UInt32) :
    ReadsWord i (Lanes.fill 64 v.toNat d) v :=
  Reads.fill v.toNat_lt (by decide) inside

theorem ReadsByte.fill (inside : i < 2 ^ d) (v : UInt8) : ReadsByte i (Lanes.fill 64 v.toNat d) v :=
  Reads.fill v.toNat_lt (by decide) inside

theorem ReadsWord.xor (left : ReadsWord i x u) (right : ReadsWord i y v) :
    ReadsWord i (x ^^^ y) (u ^^^ v) := by
  rw [ReadsWord, UInt32.toNat_xor]
  exact Reads.xor left right

theorem ReadsWord.and (left : ReadsWord i x u) (right : ReadsWord i y v) :
    ReadsWord i (x &&& y) (u &&& v) := by
  rw [ReadsWord, UInt32.toNat_and]
  exact Reads.and left right

theorem ReadsWord.shr (inside : i < 2 ^ d) (read : ReadsWord i x u) (r : UInt32)
    (short : r.toNat < 32) :
    ReadsWord i (Packed.shr d 32 r.toNat x) (u >>> r) := by
  have shifted := Reads.shr (r := r.toNat) (b := 32) inside (by omega) read.here
  have less : u.toNat >>> r.toNat < 2 ^ 32 := (Nat.shiftRight_le _ _).trans_lt u.toNat_lt
  rw [Nat.mod_eq_of_lt less] at shifted
  rwa [ReadsWord, UInt32.toNat_shiftRight, Nat.mod_eq_of_lt short]

theorem ReadsWord.rotr (inside : i < 2 ^ d) (read : ReadsWord i x u) (r : UInt32)
    (positive : 0 < r.toNat) (short : r.toNat < 32) :
    ReadsWord i (Packed.shr d 32 r.toNat (Packed.twice x)) (Crypto.rotr u r) := by
  have doubled : lane 64 i (Packed.twice x) = u.toNat ||| u.toNat <<< 32 := by
    rw [Packed.twice, lane_or, lane_shiftLeft read.narrow (by decide), read.here]
  rw [ReadsWord, rotr_toNat u r positive short]
  exact .shr inside (by omega) doubled

theorem ReadsWord.ch (first : ReadsWord i x u) (second : ReadsWord i y v)
    (third : ReadsWord i z t) :
    ReadsWord i (Packed.ch x y z) (Crypto.ch u v t) := by
  rw [ch_eq]
  exact third.xor (first.and (second.xor third))

theorem ReadsWord.maj (first : ReadsWord i x u) (second : ReadsWord i y v)
    (third : ReadsWord i z t) :
    ReadsWord i (Packed.maj x y z) (Crypto.maj u v t) := by
  rw [maj_eq]
  exact second.xor ((first.xor second).and (second.xor third))

/-- Three shifted words under one mask. -/
theorem ReadsWord.xor_three (first : ReadsWord i (Packed.shr d 32 r x) u)
    (second : ReadsWord i (Packed.shr d 32 r' y) v)
    (third : ReadsWord i (Packed.shr d 32 r'' z) t) :
    ReadsWord i ((x >>> r ^^^ y >>> r' ^^^ z >>> r'') &&& Packed.mask d 32) (u ^^^ v ^^^ t) := by
  rw [Nat.and_xor_distrib_right, Nat.and_xor_distrib_right]
  exact (first.xor second).xor third

theorem ReadsWord.ep0 (inside : i < 2 ^ d) (read : ReadsWord i x u) :
    ReadsWord i (Packed.ep0 d x) (Crypto.ep0 u) :=
  .xor_three (read.rotr inside 2 (by decide) (by decide))
    (read.rotr inside 13 (by decide) (by decide))
    (read.rotr inside 22 (by decide) (by decide))

theorem ReadsWord.ep1 (inside : i < 2 ^ d) (read : ReadsWord i x u) :
    ReadsWord i (Packed.ep1 d x) (Crypto.ep1 u) :=
  .xor_three (read.rotr inside 6 (by decide) (by decide))
    (read.rotr inside 11 (by decide) (by decide))
    (read.rotr inside 25 (by decide) (by decide))

theorem ReadsWord.sig0 (inside : i < 2 ^ d) (read : ReadsWord i x u) :
    ReadsWord i (Packed.sig0 d x) (Crypto.sig0 u) :=
  .xor_three (read.rotr inside 7 (by decide) (by decide))
    (read.rotr inside 18 (by decide) (by decide))
    (read.shr inside 3 (by decide))

theorem ReadsWord.sig1 (inside : i < 2 ^ d) (read : ReadsWord i x u) :
    ReadsWord i (Packed.sig1 d x) (Crypto.sig1 u) :=
  .xor_three (read.rotr inside 17 (by decide) (by decide))
    (read.rotr inside 19 (by decide) (by decide))
    (read.shr inside 10 (by decide))

/-- A sum that is still to be reduced. -/
structure ReadsSum (i b x : Nat) (v : UInt32) : Prop where
  narrow : Narrow 64 b x
  low : lane 64 i x % 2 ^ 32 = v.toNat

theorem ReadsWord.sum (read : ReadsWord i x u) : ReadsSum i 32 x u where
  narrow := read.narrow
  low := by rw [read.here, Nat.mod_eq_of_lt u.toNat_lt]

theorem ReadsSum.mono (read : ReadsSum i b x u) (longer : b ≤ c) : ReadsSum i c x u :=
  ⟨read.narrow.mono longer, read.low⟩

theorem ReadsSum.add (left : ReadsSum i b x u) (right : ReadsSum i c y v) (longer : c ≤ b)
    (fits : b < 64) :
    ReadsSum i (b + 1) (x + y) (u + v) where
  narrow := by
    intro j
    have hx := left.narrow j
    have hy := right.narrow.mono longer j
    rw [lane_add (left.narrow.add_lt (right.narrow.mono longer) fits), Nat.pow_succ]
    omega
  low := by
    rw [lane_add (left.narrow.add_lt (right.narrow.mono longer) fits), Nat.add_mod, left.low,
      right.low, UInt32.toNat_add]

theorem ReadsSum.reduce (inside : i < 2 ^ d) (read : ReadsSum i b x u) :
    ReadsWord i (x &&& Packed.mask d 32) u := by
  rw [ReadsWord, ← read.low]
  exact .reduce inside (by decide) rfl

theorem ReadsWord.add (inside : i < 2 ^ d) (left : ReadsWord i x u) (right : ReadsWord i y v) :
    ReadsWord i (x + y &&& Packed.mask d 32) (u + v) :=
  (left.sum.add right.sum (by decide) (by decide)).reduce inside

end Steps

section Algorithm

variable {i d : Nat} {data xs : List Nat} {bytes : Bytes} {us : List UInt32}

theorem ReadsWord.getD (words : List.Forall₂ (ReadsWord i) xs us) (n : Nat) :
    ReadsWord i (xs.getD n 0) (us.getD n 0) := by
  induction words generalizing n with
  | nil => exact .zero i
  | cons first _ ih =>
    cases n with
    | zero => exact first
    | succ n => exact ih n

theorem ReadsByte.shl (read : ReadsByte i x b) (k : UInt32) (short : k.toNat ≤ 24) :
    ReadsWord i (x <<< k.toNat) (b.toUInt32 <<< k) := by
  have shifted := Reads.shl (k := k.toNat) (c := 32) read (by omega) (by decide)
  have amount : k.toNat % 32 = k.toNat := Nat.mod_eq_of_lt (by omega)
  have less : b.toNat <<< k.toNat < 2 ^ 32 := by
    rw [Nat.shiftLeft_eq]
    calc b.toNat * 2 ^ k.toNat < 2 ^ 8 * 2 ^ k.toNat :=
      Nat.mul_lt_mul_of_pos_right b.toNat_lt (Nat.two_pow_pos _)
      _ ≤ 2 ^ 8 * 2 ^ 24 := Nat.mul_le_mul_left _ (Nat.pow_le_pow_right (by decide) short)
  rwa [ReadsWord, UInt32.toNat_shiftLeft, UInt8.toNat_toUInt32, amount, Nat.mod_eq_of_lt less]

theorem ReadsByte.word (first : ReadsByte i p b1) (second : ReadsByte i q b2)
    (third : ReadsByte i r b3)
    (fourth : ReadsByte i s b4) : ReadsWord i (p <<< 24 ||| q <<< 16 ||| r <<< 8 ||| s)
      ((b1.toUInt32 <<< 24) ||| (b2.toUInt32 <<< 16) ||| (b3.toUInt32 <<< 8) ||| b4.toUInt32) := by
  have low : ReadsWord i s b4.toUInt32 := ⟨Narrow.mono fourth.narrow (by decide), fourth.here⟩
  rw [ReadsWord, UInt32.toNat_or, UInt32.toNat_or, UInt32.toNat_or]
  exact (((first.shl 24 (by decide)).or (second.shl 16 (by decide))).or
    (third.shl 8 (by decide))).or low

theorem blockWords_reads : ∀ {data bytes xs us}, List.Forall₂ (ReadsByte i) data bytes →
    List.Forall₂ (ReadsWord i) xs us →
    List.Forall₂ (ReadsWord i) (Packed.blockWords data xs) (blockWords bytes us)
  | _, _, _, _, .nil, words => words
  | _, _, _, _, .cons _ .nil, words => words
  | _, _, _, _, .cons _ (.cons _ .nil), words => words
  | _, _, _, _, .cons _ (.cons _ (.cons _ .nil)), words => words
  | _, _, _, _, .cons p (.cons q (.cons r (.cons s rest))), words => by
    rw [Packed.blockWords, blockWords]
    exact blockWords_reads rest (.cons (p.word q r s) words)

theorem schedule_reads (inside : i < 2 ^ d) (n : Nat) (words : List.Forall₂ (ReadsWord i) xs us) :
    List.Forall₂ (ReadsWord i) (Packed.schedule d n xs) (schedule n us) := by
  induction n generalizing xs us with
  | zero => exact words
  | succ n ih =>
    refine ih (.cons ?_ words)
    have first := ((ReadsWord.getD words 1).sig1 inside).sum.add (ReadsWord.getD words 6).sum
      (by decide) (by decide)
    have second := first.add ((ReadsWord.getD words 14).sig0 inside).sum (by decide) (by decide)
    exact (second.add (ReadsWord.getD words 15).sum (by decide) (by decide)).reduce inside

structure ReadsState (i : Nat) (x : Packed.State) (s : Sha256State) : Prop where
  a : ReadsWord i x.a s.a
  b : ReadsWord i x.b s.b
  c : ReadsWord i x.c s.c
  d : ReadsWord i x.d s.d
  e : ReadsWord i x.e s.e
  f : ReadsWord i x.f s.f
  g : ReadsWord i x.g s.g
  h : ReadsWord i x.h s.h

theorem ReadsState.fill (inside : i < 2 ^ d) (s : Sha256State) : ReadsState i (.fill d s) s := by
  constructor <;> exact .fill inside _

theorem compressRound_reads (inside : i < 2 ^ d) (state : ReadsState i x s)
    (constant : ReadsWord i k u) (word : ReadsWord i m v) :
    ReadsState i (Packed.compressRound d x (k, m)) (compressRound s (u, v)) := by
  have t1 := (((state.h.sum.add (state.e.ep1 inside).sum (by decide) (by decide)).add
      (state.e.ch state.f state.g).sum
    (by decide) (by decide)).add constant.sum (by decide) (by decide)).add word.sum (by decide)
      (by decide)
  have t2 := (state.a.ep0 inside).sum.add (state.a.maj state.b state.c).sum (by decide) (by decide)
  have a := t1.add t2 (by decide) (by decide)
  have e := (state.d.sum.mono (by decide)).add t1 le_rfl (by decide)
  exact ⟨a.reduce inside, state.a, state.b, state.c, e.reduce inside, state.e, state.f, state.g⟩

/-- The rounds, for any constants. -/
theorem rounds_reads (inside : i < 2 ^ d) (constants : List UInt32)
    (words : List.Forall₂ (ReadsWord i) xs us) (state : ReadsState i x s) :
    ReadsState i
      (((constants.map fun k => fill 64 k.toNat d).zip xs).foldl (Packed.compressRound d) x)
      ((constants.zip us).foldl compressRound s) := by
  induction constants generalizing xs us x s with
  | nil => exact state
  | cons k constants ih =>
    cases words with
    | nil => exact state
    | cons word words => exact ih words (compressRound_reads inside state (.fill inside k) word)

theorem transform_reads (inside : i < 2 ^ d) (state : ReadsState i x s)
    (block : List.Forall₂ (ReadsByte i) data bytes) :
    ReadsState i (Packed.transform d x data) (sha256Transform s bytes) := by
  have words := List.rel_reverse (schedule_reads inside 48 (blockWords_reads block .nil))
  have rounds := rounds_reads inside roundConstants words state
  exact ⟨state.a.add inside rounds.a, state.b.add inside rounds.b, state.c.add inside rounds.c,
    state.d.add inside rounds.d,
    state.e.add inside rounds.e, state.f.add inside rounds.f, state.g.add inside rounds.g,
    state.h.add inside rounds.h⟩

theorem blocks_reads (inside : i < 2 ^ d) (n : Nat) (state : ReadsState i x s)
    (message : List.Forall₂ (ReadsByte i) data bytes) :
    ReadsState i (Packed.blocks d n x data) (sha256Blocks n s bytes) := by
  induction n generalizing x s data bytes with
  | zero => exact state
  | succ n ih =>
    exact ih (transform_reads inside state (List.forall₂_take 64 message))
      (List.forall₂_drop 64 message)

theorem bytes_reads (inside : i < 2 ^ d) (bytes : Bytes) :
    List.Forall₂ (ReadsByte i) (Packed.bytes d bytes) bytes := by
  induction bytes with
  | nil => exact .nil
  | cons b rest ih => exact .cons (.fill inside b) ih

theorem pad_reads (inside : i < 2 ^ d) (head : Bytes)
    (message : List.Forall₂ (ReadsByte i) data bytes) :
    ∃ rest, sha256Pad (head ++ bytes) = head ++ rest ∧
    List.Forall₂ (ReadsByte i) (Packed.pad d head.length data) rest := by
  have padding : sha256Pad (head ++ bytes) = head ++ (bytes ++ ([0x80] ++
      List.replicate ((119 - (head.length + bytes.length) % 64) % 64) 0 ++
      (encode 8 (8 * (head.length + bytes.length))).reverse)) := by
    simp only [sha256Pad, List.length_append, List.append_assoc]
  refine ⟨_, padding, ?_⟩
  rw [Packed.pad, message.length_eq]
  exact List.rel_append message (bytes_reads inside _)

theorem ReadsWord.byte (inside : i < 2 ^ d) (read : ReadsWord i x u) (r : Nat) (short : r ≤ 24) :
    ReadsByte i (Packed.shr d 8 r x) (UInt8.ofNat (u.toNat >>> r)) := by
  have shifted := Reads.shr (r := r) (b := 8) inside (by omega) read.here
  rwa [ReadsByte, UInt8.toNat_ofNat']

theorem beBytes_reads (inside : i < 2 ^ d) (read : ReadsWord i x u) :
    List.Forall₂ (ReadsByte i) (Packed.beBytes d x) (beBytes u) := by
  rw [beBytes_eq]
  exact .cons (read.byte inside 24 (by decide)) (.cons (read.byte inside 16 (by decide))
    (.cons (read.byte inside 8 (by decide)) (.cons (read.byte inside 0 (by decide)) .nil)))

theorem sha256Blocks_append (n : Nat) {head : Bytes} (whole : head.length = 64 * m)
    (s : Sha256State) (rest : Bytes) :
    sha256Blocks (m + n) s (head ++ rest) = sha256Blocks n (sha256Blocks m s head) rest := by
  induction m generalizing head s with
  | zero =>
    obtain rfl := List.length_eq_zero_iff.mp whole
    rw [Nat.zero_add]
    rfl
  | succ m ih =>
    have first : 64 ≤ head.length := by omega
    have later : (head.drop 64).length = 64 * m := by
      rw [List.length_drop]
      omega
    rw [Nat.succ_add, sha256Blocks, List.take_append_of_le_length first,
      List.drop_append_of_le_length first, ih later]
    rfl

/-- Every field comes to the hash of its own message. -/
theorem sha256After_reads (inside : i < 2 ^ d) (head : Bytes) (whole : head.length = 64 * m)
    (message : List.Forall₂ (ReadsByte i) data bytes) :
    List.Forall₂ (ReadsByte i) (Packed.sha256After d head data) (sha256 (head ++ bytes)) := by
  obtain ⟨rest, padding, padded⟩ := pad_reads inside head message
  have count : (sha256Pad (head ++ bytes)).length / 64 = m + rest.length / 64 := by
    rw [padding, List.length_append, whole, Nat.mul_add_div (by decide)]
  have shared : head.length / 64 = m := by
    rw [whole]
    exact Nat.mul_div_cancel_left m (by decide)
  have state :=
    blocks_reads inside (rest.length / 64) (.fill inside (sha256Blocks m .init head)) padded
  rw [Packed.sha256After, sha256, count, padding, sha256Blocks_append _ whole, shared,
    padded.length_eq]
  exact List.rel_flatMap
    (.cons state.a (.cons state.b (.cons state.c (.cons state.d (.cons state.e (.cons state.f
    (.cons state.g (.cons state.h .nil)))))))) fun _ _ word => beBytes_reads inside word

theorem dsha256After_reads (inside : i < 2 ^ d) (head : Bytes) (whole : head.length = 64 * m)
    (message : List.Forall₂ (ReadsByte i) data bytes) :
    List.Forall₂ (ReadsByte i) (Packed.dsha256After d head data) (dsha256 (head ++ bytes)) :=
  sha256After_reads inside [] (Nat.mul_zero 64).symm (sha256After_reads inside head whole message)

end Algorithm

end SimplePool.Crypto
