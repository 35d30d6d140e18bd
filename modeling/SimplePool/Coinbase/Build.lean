import SimplePool.Coinbase.Window

/-! The builders that make a coinbase from scratch, in two halves around the
extranonces. -/
namespace SimplePool.Coinbase
open Wire

/-- `coinbase_parts_t`. -/
structure Parts where
  cb1 : Bytes
  cb2 : Bytes
deriving DecidableEq, Repr

/-- The digits of a positive number, least significant byte first. -/
def scriptNumBytes : Nat → Nat → Bytes
  | 0, _ => []
  | _, 0 => []
  | fuel + 1, v => UInt8.ofNat v :: scriptNumBytes fuel (v / 256)

def bip34HeightPush (height : UInt32) : Bytes :=
  if height = 0 then [0x00]
  else if height ≤ 16 then [UInt8.ofNat (0x50 + height.toNat)]
  else
    let bytes := scriptNumBytes 4 height.toNat
    let bytes := if (bytes.getLastD 0) &&& 0x80 = 0x80 then bytes ++ [0x00] else bytes
    UInt8.ofNat bytes.length :: bytes

/-- The operator's tag as one data push of at most 75 bytes. -/
def tagPush (coinbaseTag : Option Bytes) : Bytes :=
  match nonEmpty coinbaseTag with
  | none => []
  | some tag => UInt8.ofNat (min tag.length 75) :: tag.take 75

/-- A second push that carries the salt, unless it is zero. -/
def saltPush (jobSalt : UInt32) : Bytes := if jobSalt = 0 then [] else 4 :: encode 4 jobSalt.toNat

def cbTagPush (coinbaseTag : Option Bytes) (jobSalt : UInt32) : Bytes :=
  tagPush coinbaseTag ++ saltPush jobSalt

/-- The size of the pushes, for the probes that only need a length. -/
def cbTagPushLen (coinbaseTag : Option Bytes) (jobSalt : UInt32) : Nat :=
  let tagLen : Nat := match nonEmpty coinbaseTag with
    | none => 0
    | some tag => (if 75 < tag.length then 75 else tag.length) + 1
  tagLen + if jobSalt = 0 then 0 else 5

theorem cbTagPushLen_eq (coinbaseTag : Option Bytes) (jobSalt : UInt32) :
    cbTagPushLen coinbaseTag jobSalt = (cbTagPush coinbaseTag jobSalt).length := by
  have salt : (if jobSalt = 0 then 0 else 5) = (saltPush jobSalt).length := by
    rw [saltPush]
    split
    next => rfl
    next => simp
  rw [cbTagPushLen, cbTagPush, List.length_append, salt, tagPush]
  cases nonEmpty coinbaseTag with
  | none => rfl
  | some tag =>
    dsimp only
    rw [List.length_cons, List.length_take, Nat.min_def]
    split <;> split <;> omega

/-- One output on the wire. -/
def pushOutput (value : Nat) (spk : Bytes) : Bytes :=
  pushU64Le value ++ pushVarint spk.length ++ spk

def pushReplOut (out : ReplOut) : Bytes := pushOutput (toUInt64 out.sats) out.spk

/-- The witness commitment, if there is one. -/
def decodeCommitment (hex : Option Bytes) : Result (Option Bytes) :=
  match nonEmpty hex with
  | none => .ok none
  | some hex => do
    let bytes ← need "bad witness commitment hex" (hexDecode hex 256)
    .ok (some bytes)

def checkScriptSig (length height tag extranonces : Nat) : Result Unit :=
  if length < 2 ∨ 100 < length then
    fail ("coinbase scriptSig length " ++ toString length ++ " out of range (height " ++
      toString height ++
      " + tag " ++ toString tag ++ " + extranonce " ++ toString extranonces ++ ")")
  else .ok ()

/-- Both halves around the extranonces. -/
def assembleParts (version : Nat) (heightPush push : Bytes) (scriptSigLen : Nat)
    (outputs : List Bytes) : Parts where
  cb1 := pushU32Le version ++ pushVarint 1 ++ List.replicate 32 0 ++ pushU32Le 0xffffffff ++
    pushVarint scriptSigLen ++ heightPush ++ push
  cb2 := pushU32Le 0xffffffff ++ pushVarint outputs.length ++ outputs.flatten ++ pushU32Le 0

structure SplitResult where
  parts : Parts
  minerSats : Int
  feeSats : Int
deriving DecidableEq, Repr

def buildSplit (height : UInt32) (valueSats : Int) (minerAddress : Bytes)
    (operatorAddress : Option Bytes)
    (feeBps : FeeBps) (witnessCommitment coinbaseTag : Option Bytes) (jobSalt : UInt32)
    (extranonce1Size extranonce2Size : Nat) : Result SplitResult := do
  let minerSpk ← addressToScript minerAddress spkCap
  let operator ← positiveFee valueSats operatorAddress feeBps
  let minerSats := valueSats - feeOf operator
  let commitment ← decodeCommitment witnessCommitment
  let heightPush := bip34HeightPush height
  let push := cbTagPush coinbaseTag jobSalt
  let enTotal := sizeT (extranonce1Size + extranonce2Size)
  let scriptSigLen := sizeT (heightPush.length + push.length + enTotal)
  checkScriptSig scriptSigLen heightPush.length push.length enTotal
  let outputs := pushReplOut ⟨minerSpk, minerSats⟩ :: operator.toList.map pushReplOut ++
    commitment.toList.map (pushOutput 0)
  .ok ⟨assembleParts 1 heightPush push scriptSigLen outputs, minerSats, feeOf operator⟩

/-- What a coinbase costs before a single miner is paid. -/
def envelopeBytes (scriptSigLen : Nat) : Nat :=
  4 + 1 + 36 + (if scriptSigLen < 253 then 1 else 3) + scriptSigLen + 4 + 3 + 4

def buildWindow (scale : Scale) (height : UInt32) (valueSats : Int) (payees : List Payee)
    (operatorAddress : Option Bytes) (feeBps : FeeBps)
    (witnessCommitment coinbaseTag : Option Bytes)
    (jobSalt : UInt32) (extranonce1Size extranonce2Size maxCoinbaseBytes : Nat)
    (payoutFloorSats : Int) :
    Result (Parts × WindowResult) := do
  let heightPush := bip34HeightPush height
  let enTotal := sizeT (extranonce1Size + extranonce2Size)
  let ssProbe :=
    sizeT (heightPush.length + cbTagPushLen coinbaseTag jobSalt + extranonce1Size + extranonce2Size)
  let commitmentBytes := match nonEmpty witnessCommitment with
    | none => 0
    | some hex => if hex.length / 2 = 0 then 0 else outSerSize (hex.length / 2)
  -- the operator output is reserved whether or not it turns out to be needed
  let operatorBytes := if (nonEmpty operatorAddress).isSome then outSerSize 34 else 0
  let fixed := sizeT (envelopeBytes ssProbe + commitmentBytes + operatorBytes)
  let (repl, result) ← resolveWindowOutputs scale valueSats payees operatorAddress feeBps
    maxCoinbaseBytes fixed
    payoutFloorSats maxReplOuts
  let emitted ← int64 (repl.map ReplOut.sats).sum
  let commitment ← decodeCommitment witnessCommitment
  if emitted ≠ valueSats then
    fail ("internal: outputs sum to " ++ toString emitted ++ ", block pays " ++ toString valueSats)
  else do
    let push := cbTagPush coinbaseTag jobSalt
    let scriptSigLen := sizeT (heightPush.length + push.length + enTotal)
    checkScriptSig scriptSigLen heightPush.length push.length enTotal
    let outputs := repl.map pushReplOut ++ commitment.toList.map (pushOutput 0)
    .ok (assembleParts 2 heightPush push scriptSigLen outputs, result)

end SimplePool.Coinbase
