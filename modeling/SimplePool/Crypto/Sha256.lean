import SimplePool.Lib.Wire

/-! SHA-256 as in sha256.c. The streaming context is folded away: the message is
padded once and transformed block by block. -/
namespace SimplePool.Crypto
open Wire

def rotr (a b : UInt32) : UInt32 := (a >>> b) ||| (a <<< (32 - b))

def ch (x y z : UInt32) : UInt32 := (x &&& y) ^^^ (~~~x &&& z)

def maj (x y z : UInt32) : UInt32 := (x &&& y) ^^^ (x &&& z) ^^^ (y &&& z)

def ep0 (x : UInt32) : UInt32 := rotr x 2 ^^^ rotr x 13 ^^^ rotr x 22

def ep1 (x : UInt32) : UInt32 := rotr x 6 ^^^ rotr x 11 ^^^ rotr x 25

def sig0 (x : UInt32) : UInt32 := rotr x 7 ^^^ rotr x 18 ^^^ (x >>> 3)

def sig1 (x : UInt32) : UInt32 := rotr x 17 ^^^ rotr x 19 ^^^ (x >>> 10)

def roundConstants : List UInt32 := [
  0x428a2f98, 0x71374491, 0xb5c0fbcf, 0xe9b5dba5, 0x3956c25b, 0x59f111f1, 0x923f82a4, 0xab1c5ed5,
  0xd807aa98, 0x12835b01, 0x243185be, 0x550c7dc3, 0x72be5d74, 0x80deb1fe, 0x9bdc06a7, 0xc19bf174,
  0xe49b69c1, 0xefbe4786, 0x0fc19dc6, 0x240ca1cc, 0x2de92c6f, 0x4a7484aa, 0x5cb0a9dc, 0x76f988da,
  0x983e5152, 0xa831c66d, 0xb00327c8, 0xbf597fc7, 0xc6e00bf3, 0xd5a79147, 0x06ca6351, 0x14292967,
  0x27b70a85, 0x2e1b2138, 0x4d2c6dfc, 0x53380d13, 0x650a7354, 0x766a0abb, 0x81c2c92e, 0x92722c85,
  0xa2bfe8a1, 0xa81a664b, 0xc24b8b70, 0xc76c51a3, 0xd192e819, 0xd6990624, 0xf40e3585, 0x106aa070,
  0x19a4c116, 0x1e376c08, 0x2748774c, 0x34b0bcb5, 0x391c0cb3, 0x4ed8aa4a, 0x5b9cca4f, 0x682e6ff3,
  0x748f82ee, 0x78a5636f, 0x84c87814, 0x8cc70208, 0x90befffa, 0xa4506ceb, 0xbef9a3f7, 0xc67178f2]

structure Sha256State where
  a : UInt32
  b : UInt32
  c : UInt32
  d : UInt32
  e : UInt32
  f : UInt32
  g : UInt32
  h : UInt32
deriving DecidableEq, Repr

def Sha256State.init : Sha256State :=
  ⟨0x6a09e667, 0xbb67ae85, 0x3c6ef372, 0xa54ff53a, 0x510e527f, 0x9b05688c, 0x1f83d9ab, 0x5be0cd19⟩

/-- The words of one block, and then the rest of the schedule, newest first. -/
def blockWords : Bytes → List UInt32 → List UInt32
  | p :: q :: r :: s :: rest, words =>
    blockWords rest
      (((p.toUInt32 <<< 24) ||| (q.toUInt32 <<< 16) ||| (r.toUInt32 <<< 8) ||| s.toUInt32) :: words)
  | _, words => words

def schedule : Nat → List UInt32 → List UInt32
  | 0, words => words
  | n + 1, words =>
    schedule n
      ((sig1 (words.getD 1 0) + words.getD 6 0 + sig0 (words.getD 14 0) + words.getD 15 0) :: words)

def compressRound (s : Sha256State) (km : UInt32 × UInt32) : Sha256State :=
  let t1 := s.h + ep1 s.e + ch s.e s.f s.g + km.1 + km.2
  let t2 := ep0 s.a + maj s.a s.b s.c
  ⟨t1 + t2, s.a, s.b, s.c, s.d + t1, s.e, s.f, s.g⟩

def sha256Transform (state : Sha256State) (data : Bytes) : Sha256State :=
  let m := (schedule 48 (blockWords data [])).reverse
  let s := (roundConstants.zip m).foldl compressRound state
  ⟨state.a + s.a, state.b + s.b, state.c + s.c, state.d + s.d,
    state.e + s.e, state.f + s.f, state.g + s.g, state.h + s.h⟩

def sha256Blocks : Nat → Sha256State → Bytes → Sha256State
  | 0, state, _ => state
  | n + 1, state, data => sha256Blocks n (sha256Transform state (data.take 64)) (data.drop 64)

/-- 0x80, zeros up to 56 modulo 64, and the length in bits, big-endian. -/
def sha256Pad (data : Bytes) : Bytes :=
  let zeros := (119 - data.length % 64) % 64
  data ++ [0x80] ++ List.replicate zeros 0 ++ (encode 8 (8 * data.length)).reverse

def beBytes (word : UInt32) : Bytes := (encode 4 word.toNat).reverse

theorem beBytes_eq (word : UInt32) :
    beBytes word = [UInt8.ofNat (word.toNat >>> 24), UInt8.ofNat (word.toNat >>> 16),
    UInt8.ofNat (word.toNat >>> 8), UInt8.ofNat (word.toNat >>> 0)] := by
  simp [beBytes, encode, Nat.shiftRight_eq_div_pow, Nat.div_div_eq_div_mul]

def sha256 (data : Bytes) : Bytes :=
  let padded := sha256Pad data
  let s := sha256Blocks (padded.length / 64) .init padded
  [s.a, s.b, s.c, s.d, s.e, s.f, s.g, s.h].flatMap beBytes

def dsha256 (data : Bytes) : Bytes := sha256 (sha256 data)

theorem sha256_length (data : Bytes) : (sha256 data).length = 32 := by
  simp [sha256, beBytes]

end SimplePool.Crypto
