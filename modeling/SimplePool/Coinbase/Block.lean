import SimplePool.Coinbase.Transaction

/-! The block as a node reads it: a header, a count and that many transactions. This
is the format itself, independent of what assembles one. -/
namespace SimplePool.Coinbase
open Wire

structure Header where
  bytes : Bytes
  size : bytes.length = 80
deriving DecidableEq, Repr

structure TxIn where
  prevout : Prevout
  scriptSig : Bytes
  sequence : UInt32
  witness : List Bytes
deriving DecidableEq, Repr

/-- A transaction with any number of inputs, each with its witness. -/
structure BlockTx where
  version : UInt32
  inputs : List TxIn
  outputs : List TxOut
  lockTime : UInt32
deriving DecidableEq, Repr

/-- A transaction without a witness is written in the legacy serialization. -/
def BlockTx.segwit (tx : BlockTx) : Bool := tx.inputs.any fun input => !input.witness.isEmpty

def TxIn.write (input : TxIn) : Bytes :=
  input.prevout.bytes ++ (counted input.scriptSig ++ encode 4 input.sequence.toNat)

def TxIn.writeStack (input : TxIn) : Bytes :=
  compact input.witness.length ++ input.witness.flatMap counted

/-- The inputs and the outputs. -/
def BlockTx.body (tx : BlockTx) : Bytes :=
  compact tx.inputs.length ++
    (tx.inputs.flatMap TxIn.write ++ (compact tx.outputs.length ++ tx.outputs.flatMap TxOut.write))

/-- The serialization without the witness: the id is its hash. -/
def BlockTx.stripped (tx : BlockTx) : Bytes :=
  encode 4 tx.version.toNat ++ (tx.body ++ encode 4 tx.lockTime.toNat)

def BlockTx.write (tx : BlockTx) : Bytes :=
  if tx.segwit then
    encode 4 tx.version.toNat ++ ([0x00,
      0x01] ++ (tx.body ++ (tx.inputs.flatMap TxIn.writeStack ++ encode 4 tx.lockTime.toNat)))
  else tx.stripped

def TxIn.read (input : Bytes) : Option (TxIn × Bytes) :=
  (Prevout.read input).bind fun (prevout, rest) =>
    (takeCounted rest).bind fun (scriptSig, rest) =>
      (takeNat 4 rest).map fun (sequence, rest) => (⟨prevout, scriptSig, UInt32.ofNat sequence, []⟩,
        rest)

def readStack (input : Bytes) : Option (List Bytes × Bytes) :=
  (takeCompact input).bind fun (n, rest) => takeMany takeCounted n rest

def readBody (input : Bytes) : Option ((List TxIn × List TxOut) × Bytes) := do
  let (vin, rest) ← takeCompact input
  let (inputs, rest) ← takeMany TxIn.read vin rest
  let (vout, rest) ← takeCompact rest
  let (outputs, rest) ← takeMany TxOut.read vout rest
  if inputs = [] then none else some ((inputs, outputs), rest)

def TxIn.withStack (input : TxIn) (witness : List Bytes) : TxIn := { input with witness := witness }

/-- The input as it is read, before its witness. -/
def TxIn.bare (input : TxIn) : TxIn := input.withStack []

/-- Whether a witness is announced, where a legacy input count would stand. There is one
flag. -/
def readFlag : Bytes → Option (Bool × Bytes)
  | marker :: flag :: rest =>
    if marker ≠ 0x00 then some (false, marker :: flag :: rest) else if flag = 0x01 then
      some (true, rest)
    else none
  | rest => some (false, rest)

def readWitnesses (announced : Bool) (inputs : List TxIn) (input : Bytes) :
    Option (List (List Bytes) × Bytes) :=
  if announced then takeMany readStack inputs.length input else some (inputs.map fun _ => [], input)

/-- A witness that is announced and empty is refused. -/
def BlockTx.read (input : Bytes) : Option (BlockTx × Bytes) := do
  let (version, rest) ← takeNat 4 input
  let (announced, rest) ← readFlag rest
  let ((inputs, outputs), rest) ← readBody rest
  let (witnesses, rest) ← readWitnesses announced inputs rest
  let (lockTime, rest) ← takeNat 4 rest
  let tx : BlockTx :=
    ⟨UInt32.ofNat version, inputs.zipWith TxIn.withStack witnesses, outputs, UInt32.ofNat lockTime⟩
  if tx.segwit = announced then some (tx, rest) else none

/-- A block up to its coinbase. -/
structure Front where
  header : Header
  txCount : Nat
  coinbase : BlockTx
deriving DecidableEq, Repr

structure Block where
  header : Header
  coinbase : BlockTx
  others : List BlockTx
deriving DecidableEq, Repr

def Header.read (input : Bytes) : Option (Header × Bytes) :=
  if enough : 80 ≤ input.length then
    some (⟨input.take 80, List.length_take_of_le enough⟩, input.drop 80)
  else none

def Front.read (input : Bytes) : Option (Front × Bytes) := do
  let (header, rest) ← Header.read input
  let (txCount, rest) ← takeCompact rest
  if txCount = 0 then none
  else
    let (coinbase, rest) ← BlockTx.read rest
    some (⟨header, txCount, coinbase⟩, rest)

def Block.read (input : Bytes) : Option Block := do
  let (front, rest) ← Front.read input
  let (others, rest) ← takeMany BlockTx.read (front.txCount - 1) rest
  if rest ≠ [] then none else some ⟨front.header, front.coinbase, others⟩

/-- There is an input, and every length fits the 64 bits of a compact size. -/
structure BlockTx.Fits (tx : BlockTx) : Prop where
  some : tx.inputs ≠ []
  inputs : tx.inputs.length < 2 ^ 64
  outputs : tx.outputs.length < 2 ^ 64
  scriptSigs : ∀ input ∈ tx.inputs, input.scriptSig.length < 2 ^ 64
  scripts : ∀ out ∈ tx.outputs, out.script.length < 2 ^ 64
  witnesses : ∀ input ∈ tx.inputs, input.witness.length < 2 ^ 64 ∧ ∀ item ∈ input.witness,
  item.length < 2 ^ 64

theorem Header.read_append (header : Header) (rest : Bytes) :
    Header.read (header.bytes ++ rest) = some (header, rest) := by
  have enough : 80 ≤ (header.bytes ++ rest).length := by
    rw [List.length_append, header.size]
    omega
  rw [Header.read, dif_pos enough]
  simp only [List.take_left' header.size, List.drop_left' header.size]

/-- An input is read without its witness, which stands elsewhere. -/
theorem TxIn.read_write {input : TxIn} (small : input.scriptSig.length < 2 ^ 64) (rest : Bytes) :
    TxIn.read (input.write ++ rest) = some (input.bare, rest) := by
  simp only [TxIn.read, TxIn.write, List.append_assoc, Prevout.read_write,
    takeCounted_counted small, Option.bind_some,
    takeNat_append 4 (UInt32.toNat_lt _), Option.map_some, UInt32.ofNat_toNat, TxIn.bare,
    TxIn.withStack]

theorem readStack_write {input : TxIn} (small : input.witness.length < 2 ^ 64)
    (items : ∀ item ∈ input.witness, item.length < 2 ^ 64) (rest : Bytes) :
    readStack (input.writeStack ++ rest) = some (input.witness, rest) := by
  rw [readStack, TxIn.writeStack, List.append_assoc, takeCompact_compact small, Option.bind_some]
  exact takeMany_flatMap input.witness (fun item member rest =>
    takeCounted_counted (items item member) rest) rest

theorem readInputs_write {inputs : List TxIn}
    (small : ∀ input ∈ inputs, input.scriptSig.length < 2 ^ 64) (rest : Bytes) :
    takeMany TxIn.read inputs.length (inputs.flatMap TxIn.write ++ rest) =
      some (inputs.map TxIn.bare, rest) := by
  have each : ∀ input ∈ inputs.map TxIn.bare, ∀ rest,
      TxIn.read (input.write ++ rest) = some (input, rest) := by
    intro input member rest
    obtain ⟨original, inside, rfl⟩ := List.mem_map.mp member
    exact TxIn.read_write (small original inside) rest
  have all := takeMany_flatMap (inputs.map TxIn.bare) each rest
  rwa [List.length_map, List.flatMap_map] at all

theorem readStacks_write {inputs : List TxIn}
    (small : ∀ input ∈ inputs, input.witness.length < 2 ^ 64 ∧
      ∀ item ∈ input.witness, item.length < 2 ^ 64) (rest : Bytes) :
    takeMany readStack inputs.length (inputs.flatMap TxIn.writeStack ++ rest) =
      some (inputs.map TxIn.witness, rest) := by
  induction inputs with
  | nil => rfl
  | cons input inputs ih =>
    obtain ⟨count, items⟩ := small input List.mem_cons_self
    have later := ih fun other member => small other (List.mem_cons_of_mem _ member)
    rw [List.length_cons, takeMany, List.flatMap_cons, List.append_assoc,
      readStack_write count items, Option.bind_some]
    dsimp only
    rw [later]
    rfl

theorem restored_inputs (inputs : List TxIn) :
    (inputs.map TxIn.bare).zipWith TxIn.withStack (inputs.map TxIn.witness) = inputs := by
  induction inputs with
  | nil => rfl
  | cons input inputs ih => rw [List.map_cons, List.map_cons, List.zipWith_cons_cons, ih, TxIn.bare,
    TxIn.withStack, TxIn.withStack]

theorem readBody_write {tx : BlockTx} (fits : tx.Fits) (rest : Bytes) :
    readBody (tx.body ++ rest) = some ((tx.inputs.map TxIn.bare, tx.outputs), rest) := by
  have outputs := takeMany_flatMap tx.outputs fun out member rest =>
    TxOut.read_write (fits.scripts out member) rest
  have some : (tx.inputs.map TxIn.bare) ≠ [] := mt List.map_eq_nil_iff.mp fits.some
  simp only [readBody, BlockTx.body, List.append_assoc, takeCompact_compact fits.inputs,
    takeCompact_compact fits.outputs,
    readInputs_write fits.scriptSigs, outputs, Option.bind_eq_bind, Option.bind_some, if_neg some]

/-- A body does not start with the byte that announces a witness. -/
theorem body_starts {tx : BlockTx} (fits : tx.Fits) : ∃ b more, tx.body = b :: more ∧ b ≠ 0x00 := by
  have count : 0 < tx.inputs.length := List.length_pos_iff.mpr fits.some
  rw [BlockTx.body, compact]
  split_ifs with one two four
  · refine ⟨_, _, rfl, fun zero => ?_⟩
    have value := congrArg UInt8.toNat zero
    rw [UInt8.toNat_ofNat'] at value
    simp only [UInt8.toNat_zero] at value
    omega
  · exact ⟨_, _, rfl, by decide⟩
  · exact ⟨_, _, rfl, by decide⟩
  · exact ⟨_, _, rfl, by decide⟩

theorem readFlag_write {tx : BlockTx} (fits : tx.Fits) (announced : Bool) (rest : Bytes) :
    readFlag ((if announced then [0x00, 0x01] else []) ++ (tx.body ++ rest)) =
      some (announced, tx.body ++ rest) := by
  cases announced with
  | true => rfl
  | false =>
    obtain ⟨first, more, body, nonzero⟩ := body_starts fits
    rw [body, if_neg Bool.false_ne_true, List.nil_append, List.cons_append]
    cases more ++ rest with
    | nil => rfl
    | cons second later => exact if_pos nonzero

theorem readWitnesses_write {tx : BlockTx} (fits : tx.Fits) (rest : Bytes) :
    readWitnesses tx.segwit (tx.inputs.map TxIn.bare)
      ((if tx.segwit then tx.inputs.flatMap TxIn.writeStack else []) ++ rest) =
        some (tx.inputs.map TxIn.witness, rest) := by
  cases announced : tx.segwit with
  | true =>
    rw [readWitnesses, if_pos rfl, if_pos rfl, List.length_map, readStacks_write fits.witnesses]
  | false =>
    have bare : ∀ input ∈ tx.inputs, input.witness = [] := by
      simpa [BlockTx.segwit] using announced
    rw [readWitnesses, if_neg Bool.false_ne_true, if_neg Bool.false_ne_true, List.map_map,
      List.nil_append]
    congr 2
    exact List.map_congr_left fun input member => (bare input member).symm

theorem BlockTx.write_eq (tx : BlockTx) : tx.write = encode 4 tx.version.toNat ++
    ((if tx.segwit then [0x00, 0x01] else []) ++
      (tx.body ++ ((if tx.segwit then tx.inputs.flatMap TxIn.writeStack else []) ++
      encode 4 tx.lockTime.toNat))) := by
  rw [BlockTx.write]
  split_ifs <;> rfl

/-- What is written is read back. -/
theorem BlockTx.read_write {tx : BlockTx} (fits : tx.Fits) (rest : Bytes) :
    BlockTx.read (tx.write ++ rest) = some (tx, rest) := by
  simp only [BlockTx.write_eq, BlockTx.read, List.append_assoc,
    takeNat_append 4 (UInt32.toNat_lt _), Option.bind_eq_bind,
    Option.bind_some, readFlag_write fits, readBody_write fits, readWitnesses_write fits,
    restored_inputs, UInt32.ofNat_toNat, if_true]

/-- A front is read, and what follows it is left. -/
theorem Front.read_write (header : Header) {coinbase : BlockTx} (fits : coinbase.Fits)
    (small : others + 1 < 2 ^ 64) (rest : Bytes) :
    Front.read (header.bytes ++ (compact (others + 1) ++ (coinbase.write ++ rest))) =
      some (⟨header, others + 1, coinbase⟩, rest) := by
  simp only [Front.read, Header.read_append, takeCompact_compact small, BlockTx.read_write fits,
    Option.bind_eq_bind, Option.bind_some, Nat.succ_ne_zero, if_false]

/-- After a front, as many transactions as its count announces are read. -/
theorem Block.read_of_front {header : Header} {coinbase : BlockTx} {others : List BlockTx}
    (front : Front.read input = some (⟨header, others.length + 1, coinbase⟩,
      others.flatMap BlockTx.write))
    (fits : ∀ tx ∈ others, tx.Fits) : Block.read input = some ⟨header, coinbase, others⟩ := by
  have each :=
    takeMany_flatMap others (fun tx member rest => BlockTx.read_write (fits tx member) rest) []
  rw [List.append_nil] at each
  simp only [Block.read, front, Option.bind_eq_bind, Option.bind_some, Nat.add_sub_cancel, each,
    ne_eq, not_true_eq_false, if_false]

end SimplePool.Coinbase
