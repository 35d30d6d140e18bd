import SimplePool.Coinbase.Codec
import SimplePool.Crypto.Sha256

/-! Payout addresses and the scripts they stand for. -/
namespace SimplePool.Coinbase
open Wire Crypto

def ascii (s : String) : Bytes := s.toList.map fun c => UInt8.ofNat c.toNat

def text (bytes : Bytes) : String := String.ofList (bytes.map fun b => Char.ofNat b.toNat)

def b58Alpha : Bytes := ascii "123456789ABCDEFGHJKLMNPQRSTUVWXYZabcdefghijkmnopqrstuvwxyz"

/-- One digit shifted into the big-endian number, with the carry out of its top byte. -/
def b58Shift (b : Bytes) (digit : Nat) : Bytes × Nat :=
  b.foldr (fun byte (out, carry) =>
    let carry := carry + 58 * byte.toNat
    (UInt8.ofNat carry :: out, carry / 256)) ([], digit)

def b58Digits : Bytes → Bytes → Option Bytes
  | [], b => some b
  | c :: rest, b =>
    match b58Alpha.idxOf? c with
    | none => none
    | some digit =>
      let (b, carry) := b58Shift b digit
      if carry ≠ 0 then none else b58Digits rest b

def b58Decode (s : Bytes) (cap : Nat) : Option Bytes :=
  let zeros := (s.takeWhile (· = 49)).length
  let bsize := s.length * 733 / 1000 + 1
  match b58Digits s (List.replicate bsize 0) with
  | none => none
  | some b =>
    let significant := b.dropWhile (· = 0)
    if cap < zeros + significant.length then none
    else some (List.replicate zeros 0 ++ significant)

def bech32Alpha : Bytes := ascii "qpzry9x8gf2tvdw0s3jn54khce6mua7l"

def bech32Generators : List UInt32 := [0x3b6a57b2, 0x26508e6d, 0x1ea119fa, 0x3d4233dd, 0x2a1462b3]

def bech32PolymodStep (chk : UInt32) (value : UInt8) : UInt32 :=
  let b := (chk >>> 25).toUInt8
  let chk := ((chk &&& 0x1ffffff) <<< 5) ^^^ value.toUInt32
  bech32Generators.zipIdx.foldl (fun chk (g, j) => if ((b >>> UInt8.ofNat j) &&& 1) = 1
    then chk ^^^ g else chk) chk

def bech32Polymod (values : Bytes) : UInt32 := values.foldl bech32PolymodStep 1

def bech32HrpExpand (hrp : Bytes) : Bytes :=
  hrp.map (fun (c : UInt8) => c >>> 5) ++ [0] ++ hrp.map (fun (c : UInt8) => c &&& 31)

def isLower (c : UInt8) : Bool := 97 ≤ c && c ≤ 122

def isUpper (c : UInt8) : Bool := 65 ≤ c && c ≤ 90

def toLower (c : UInt8) : UInt8 := if isUpper c then c + 32 else c

inductive Encoding where
  | bech32 | bech32m
deriving DecidableEq, Repr

/-- The 5-bit groups between the separator and the checksum. -/
def bech32Decode (addr : Bytes) (hrpCap dataCap : Nat) : Option (Bytes × Encoding) :=
  let alen := addr.length
  if alen < 8 ∨ 90 < alen then none
  else
    -- the last separator
    match addr.reverse.idxOf? 49 with
    | none => none
    | some fromEnd =>
      let sep := alen - 1 - fromEnd
      if sep < 1 ∨ alen < sep + 7 then none
      else
        let hrp := addr.take sep
        let data := addr.drop (sep + 1)
        if hrpCap < sep + 1 ∨ hrp.any (fun c => c < 33 || 126 < c) then none
        else
          match data.mapM (fun c => bech32Alpha.idxOf? (toLower c)) with
          | none => none
          | some positions =>
            let values := positions.map UInt8.ofNat
            if (hrp ++ data).any isLower && (hrp ++ data).any isUpper then none
            else
              let buf := bech32HrpExpand (hrp.map toLower)
              if 200 < buf.length + data.length then none
              else
                let groups := values.take (data.length - 6)
                let chk := bech32Polymod (buf ++ values)
                if dataCap < data.length - 6 then none
                else if chk = 1 then some (groups, .bech32)
                else if chk = 0x2bc830a3 then some (groups, .bech32m)
                else none

structure BitBuffer where
  acc : UInt32
  bits : Nat
  out : Bytes

/-- One input group. The loop that empties the buffer runs `bits / target` times. -/
def BitBuffer.push (source target : Nat) (buffer : BitBuffer) (v : UInt8) : BitBuffer :=
  let acc := (buffer.acc <<< UInt32.ofNat source) ||| v.toUInt32
  let bits := buffer.bits + source
  let maxv := ((1 : UInt32) <<< UInt32.ofNat target) - 1
  let emitted := (List.range (bits / target)).map fun k =>
    ((acc >>> UInt32.ofNat (bits - (k + 1) * target)) &&& maxv).toUInt8
  ⟨acc, bits % target, buffer.out ++ emitted⟩

def convertbits (input : Bytes) (source target : Nat) (pad : Bool) (cap : Nat) : Option Bytes :=
  if input.any (fun v => v >>> UInt8.ofNat source ≠ 0) then none
  else
    let buffer := input.foldl (BitBuffer.push source target) ⟨0, 0, []⟩
    let maxv := ((1 : UInt32) <<< UInt32.ofNat target) - 1
    let tail := (buffer.acc <<< UInt32.ofNat (target - buffer.bits)) &&& maxv
    if pad then
      let out := if 0 < buffer.bits then buffer.out ++ [tail.toUInt8] else buffer.out
      if cap < out.length then none else some out
    else if cap < buffer.out.length ∨ source ≤ buffer.bits ∨ tail ≠ 0 then none
    else some buffer.out

def segwitPrefixes : List Bytes := ["bc1", "tb1", "bcrt1", "BC1", "TB1", "BCRT1"].map ascii

def segwitToScript (addr : Bytes) (cap : Nat) : Result Bytes :=
  match bech32Decode addr 16 90 with
  | none => fail ("bech32 decode failed for '" ++ text addr ++ "'")
  | some ([], _) => fail "bech32 data too short"
  | some (witver :: groups, enc) =>
    if 16 < witver then fail ("bad witness version " ++ toString witver)
    else if (witver = 0 ∧ enc ≠ .bech32) ∨ (witver ≠ 0 ∧ enc ≠ .bech32m) then
      fail "bech32 encoding/version mismatch"
    else
      match convertbits groups 5 8 false 64 with
      | none => fail "bech32 5->8 convert failed"
      | some prog =>
        if witver = 0 then
          if prog.length ≠ 20 ∧ prog.length ≠ 32 then
            fail ("v0 program must be 20 or 32 bytes, got " ++ toString prog.length)
          else if cap < prog.length + 2 then fail ""
          else .ok (0x00 :: UInt8.ofNat prog.length :: prog)
        else if witver ≠ 1 then
          fail ("witness v" ++ toString witver ++
            " is not spendable-only-by-its-owner under current " ++
            "consensus; a coinbase must not pay it")
        else if prog.length ≠ 32 then
          fail ("v1 (taproot) program must be 32 bytes, got " ++ toString prog.length)
        else if cap < 34 then fail ""
        else .ok (0x51 :: 0x20 :: prog)

def base58ToScript (addr : Bytes) (cap : Nat) : Result Bytes :=
  match b58Decode addr 64 with
  | none => fail ("base58 decode failed for '" ++ text addr ++ "'")
  | some dec =>
    if dec.length < 5 then fail ("base58 decode failed for '" ++ text addr ++ "'")
    else if (dsha256 (dec.take (dec.length - 4))).take 4 ≠ dec.drop (dec.length - 4) then
      fail ("base58 checksum mismatch for '" ++ text addr ++ "'")
    else if dec.length ≠ 25 then fail ("unexpected base58 length " ++ toString dec.length)
    else
      let ver := dec.headD 0
      let payload := (dec.drop 1).take 20
      if ver = 0x00 ∨ ver = 0x6f then
        if cap < 25 then fail "" else .ok ([0x76, 0xa9, 0x14] ++ payload ++ [0x88, 0xac])
      else if ver = 0x05 ∨ ver = 0xc4 then
        if cap < 23 then fail "" else .ok ([0xa9, 0x14] ++ payload ++ [0x87])
      else fail ("unsupported base58 version byte 0x" ++ text (hexEncode [ver]))

theorem segwitToScript_le (resolved : segwitToScript addr cap = .ok spk) : spk.length ≤ cap := by
  simp only [segwitToScript, fail] at resolved
  repeat' (split at resolved)
  all_goals first
    | contradiction
    | (obtain rfl := Except.ok.inj resolved
       simp only [List.length_cons]
       omega)

theorem base58ToScript_le (resolved : base58ToScript addr cap = .ok spk) : spk.length ≤ cap := by
  simp only [base58ToScript, fail] at resolved
  repeat' (split at resolved)
  all_goals first
    | contradiction
    | (obtain rfl := Except.ok.inj resolved
       simp only [List.length_append, List.length_cons, List.length_nil, List.length_take,
         List.length_drop]
       omega)

def addressToScript (addr : Bytes) (cap : Nat) : Result Bytes :=
  if segwitPrefixes.any (· <+: addr) then segwitToScript addr cap
  else base58ToScript addr cap

/-- A script is only returned where the caller's buffer holds it. -/
theorem addressToScript_le (resolved : addressToScript addr cap = .ok spk) : spk.length ≤ cap := by
  rw [addressToScript] at resolved
  split at resolved
  next => exact segwitToScript_le resolved
  next => exact base58ToScript_le resolved

end SimplePool.Coinbase
