import Mathlib.Algebra.BigOperators.Group.List.Basic
import SimplePool.Lib.Wire

/-! The transactions a coinbase is: one input, in the legacy or the segwit
serialization. This is the format itself, independent of the builders. -/
namespace SimplePool.Coinbase
open Wire

structure TxOut where
  value : UInt64
  script : Bytes
deriving DecidableEq, Repr

/-- The hash and the index of the output that is spent. -/
structure Prevout where
  bytes : Bytes
  size : bytes.length = 36
deriving DecidableEq, Repr

structure Tx where
  version : UInt32
  prevout : Prevout
  scriptSig : Bytes
  sequence : UInt32
  outputs : List TxOut
  /-- The items of the input's witness, in the segwit serialization. -/
  witness : Option (List Bytes)
  lockTime : UInt32
deriving DecidableEq, Repr

/-- An output that is not a commitment. -/
def TxOut.spendable (out : TxOut) : Bool := out.script.head? ≠ some 0x6a

def TxOut.write (out : TxOut) : Bytes := encode 8 out.value.toNat ++ counted out.script

def TxOut.read (input : Bytes) : Option (TxOut × Bytes) :=
  (takeNat 8 input).bind fun (value, rest) =>
    (takeCounted rest).map fun (script, rest) => (⟨UInt64.ofNat value, script⟩, rest)

def Prevout.read (input : Bytes) : Option (Prevout × Bytes) :=
  if enough : 36 ≤ input.length then
    some (⟨input.take 36, List.length_take_of_le enough⟩, input.drop 36)
  else none

def writeWitness : Option (List Bytes) → Bytes
  | none => []
  | some items => compact items.length ++ items.flatMap counted

def Tx.write (tx : Tx) : Bytes :=
  encode 4 tx.version.toNat ++
    ((if tx.witness.isSome then [0x00, 0x01] else []) ++
      (compact 1 ++ (tx.prevout.bytes ++ (counted tx.scriptSig ++ (encode 4 tx.sequence.toNat ++
        (compact tx.outputs.length ++ (tx.outputs.flatMap TxOut.write ++
          (writeWitness tx.witness ++ encode 4 tx.lockTime.toNat))))))))

/-- The marker and a flag other than zero, where a legacy input count would stand. -/
def readMarker : Bytes → Bool × Bytes
  | marker :: flag :: rest =>
    if marker = 0x00 && flag ≠ 0x00 then (true, rest) else (false, marker :: flag :: rest)
  | rest => (false, rest)

def readWitness (segwit : Bool) (input : Bytes) : Option (Option (List Bytes) × Bytes) :=
  match segwit with
  | false => some (none, input)
  | true => (takeCompact input).bind fun (n, rest) =>
      (takeMany takeCounted n rest).map fun (items, rest) => (some items, rest)

def Tx.read (input : Bytes) : Option Tx := do
  let (version, rest) ← takeNat 4 input
  let (segwit, rest) := readMarker rest
  let (vin, rest) ← takeCompact rest
  if vin ≠ 1 then none
  else
    let (prevout, rest) ← Prevout.read rest
    let (scriptSig, rest) ← takeCounted rest
    let (sequence, rest) ← takeNat 4 rest
    let (vout, rest) ← takeCompact rest
    let (outputs, rest) ← takeMany TxOut.read vout rest
    let (witness, rest) ← readWitness segwit rest
    let (lockTime, rest) ← takeNat 4 rest
    if rest ≠ [] then none
    else some ⟨UInt32.ofNat version, prevout, scriptSig, UInt32.ofNat sequence, outputs, witness,
      UInt32.ofNat lockTime⟩

/-- Every length of the transaction fits the 64 bits of a compact size. -/
structure Tx.Fits (tx : Tx) : Prop where
  scriptSig : tx.scriptSig.length < 2 ^ 64
  outputs : tx.outputs.length < 2 ^ 64
  scripts : ∀ out ∈ tx.outputs, out.script.length < 2 ^ 64
  witness : ∀ items ∈ tx.witness, items.length < 2 ^ 64 ∧ ∀ item ∈ items, item.length < 2 ^ 64

theorem TxOut.read_write (small : out.script.length < 2 ^ 64) (rest : Bytes) :
    TxOut.read (out.write ++ rest) = some (out, rest) := by
  simp only [TxOut.read, TxOut.write, List.append_assoc, takeNat_append 8 out.value.toNat_lt,
    Option.bind_some, takeCounted_counted small, Option.map_some, UInt64.ofNat_toNat]

theorem Prevout.read_write (prevout : Prevout) (rest : Bytes) :
    Prevout.read (prevout.bytes ++ rest) = some (prevout, rest) := by
  have enough : 36 ≤ (prevout.bytes ++ rest).length := by
    rw [List.length_append, prevout.size]
    omega
  rw [Prevout.read, dif_pos enough]
  simp only [List.take_left' prevout.size, List.drop_left' prevout.size]

theorem readWitness_write (items : Option (List Bytes))
    (fits : ∀ list ∈ items, list.length < 2 ^ 64 ∧ ∀ item ∈ list, item.length < 2 ^ 64)
    (rest : Bytes) :
    readWitness items.isSome (writeWitness items ++ rest) = some (items, rest) := by
  cases items with
  | none => rfl
  | some items =>
    obtain ⟨count, lengths⟩ := fits items rfl
    simp only [Option.isSome_some, readWitness, writeWitness, List.append_assoc,
      takeCompact_compact count, Option.bind_some]
    rw [takeMany_flatMap items fun item member rest =>
      takeCounted_counted (lengths item member) rest]
    rfl

theorem readMarker_write (segwit : Bool) (rest : Bytes) :
    readMarker ((if segwit then [0x00, 0x01] else []) ++ (compact 1 ++ rest)) =
      (segwit, compact 1 ++ rest) := by
  cases segwit with
  | true => rfl
  | false =>
    cases rest with
    | nil => rfl
    | cons b rest => rfl

/-- What is written is read back. -/
theorem Tx.read_write (tx : Tx) (fits : tx.Fits) : Tx.read tx.write = some tx := by
  have outputs := takeMany_flatMap tx.outputs fun out member rest =>
    TxOut.read_write (fits.scripts out member) rest
  have one := takeCompact_compact (n := 1) (by decide)
  have last : takeNat 4 (encode 4 tx.lockTime.toNat) = some (tx.lockTime.toNat, []) := by
    simpa only [List.append_nil] using takeNat_append 4 tx.lockTime.toNat_lt []
  simp only [Tx.read, Tx.write, takeNat_append 4 (UInt32.toNat_lt _), readMarker_write, one,
    Prevout.read_write,
    takeCounted_counted fits.scriptSig, takeCompact_compact fits.outputs, outputs,
    readWitness_write tx.witness fits.witness, last, Option.bind_eq_bind, Option.bind_some,
    UInt32.ofNat_toNat, ne_eq, not_true_eq_false, if_false]

end SimplePool.Coinbase
