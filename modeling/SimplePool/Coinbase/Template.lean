import SimplePool.Coinbase.Build

/-! The builder that rewrites the coinbase transaction a template server dictates. -/
namespace SimplePool.Coinbase
open Wire

def ensure (condition : Prop) [Decidable condition] (message : String) : Result Unit :=
  if condition then .ok () else fail message

theorem ensure_ok {condition : Prop} [Decidable condition] {message : String} {u : Unit}
    (holds : ensure condition message = .ok u) : condition := by
  rw [ensure] at holds
  split at holds
  next here => exact here
  next => cases holds

theorem need_ok {α : Type} {message : String} {value : Option α} {a : α}
    (got : need message value = .ok a) :
    value = some a := by
  cases value with
  | none => cases got
  | some b => exact congrArg some (Except.ok.inj got)

theorem orUndefined_ok {α : Type} {value : Option α} {a : α} (got : orUndefined value = .ok a) :
    value = some a := by
  cases value with
  | none => cases got
  | some b => exact congrArg some (Except.ok.inj got)

structure CbOut where
  value : Nat
  spkOff : Nat
  spkLen : Nat
  opReturn : Bool
deriving DecidableEq, Repr

/-- Step over bytes that are copied later or not at all. -/
def skip (message : String) (tx : Bytes) (off n : Nat) : Result Nat :=
  if tx.length < sizeT (off + n) then fail message else .ok (sizeT (off + n))

def startsWithReturn (tx : Bytes) (off len : Nat) : Result Bool :=
  if len = 0 then .ok false
  else do
    let first ← orUndefined tx[off]?
    .ok (first = 0x6a)

def readOutput (tx : Bytes) (off : Nat) : Result (CbOut × Nat) := do
  let (value, off) ← need "truncated output value" (rdU64 tx off)
  let (spkLen, off) ← need "truncated scriptPubKey" (rdVarint tx off)
  let next ← skip "truncated scriptPubKey" tx off spkLen
  let opReturn ← startsWithReturn tx off spkLen
  .ok (⟨value, off, spkLen, opReturn⟩, next)

/-- The state of the output loop. -/
structure Scan where
  off : Nat
  outs : List CbOut
  rewardIdx : Option Nat
  rewardCount : Nat
deriving DecidableEq, Repr

/-- One more output. The count is a C `int`. -/
def Scan.add (scan : Scan) (out : CbOut) (off : Nat) : Result Scan :=
  if out.opReturn then .ok { scan with off, outs := scan.outs ++ [out] }
  else if 2 ^ 31 ≤ scan.rewardCount + 1 then .error .undefined
  else .ok ⟨off, scan.outs ++ [out], some scan.outs.length, scan.rewardCount + 1⟩

def readOutputs (tx : Bytes) : Nat → Scan → Result Scan
  | 0, scan => .ok scan
  | n + 1, scan => do
    let (out, off) ← readOutput tx scan.off
    let scan ← scan.add out off
    readOutputs tx n scan

def skipItems (tx : Bytes) : Nat → Nat → Result Nat
  | 0, off => .ok off
  | n + 1, off => do
    let (itemLen, off) ← need "truncated witness item" (rdVarint tx off)
    let off ← skip "truncated witness item" tx off itemLen
    skipItems tx n off

def skipWitness (tx : Bytes) (hasWitness : Bool) (off : Nat) : Result Nat :=
  match hasWitness with
  | false => .ok off
  | true => do
    let (stack, off) ← need "truncated witness" (rdVarint tx off)
    skipItems tx stack off

/-- The segwit marker and flag. -/
def witnessMarker (tx : Bytes) (off : Nat) : Bool :=
  match tx[off]?, tx[off + 1]? with
  | some marker, some flag => marker = 0x00 && flag ≠ 0x00
  | _, _ => false

structure Template where
  version : Nat
  hasWitness : Bool
  prevoutOff : Nat
  ssOff : Nat
  ssLen : Nat
  sequence : Nat
  scan : Scan
  locktime : Nat
deriving DecidableEq, Repr

def parseTemplate (tx : Bytes) : Result Template := do
  let (version, off) ← need "truncated coinbasetxn" (rdU32 tx 0)
  let hasWitness := witnessMarker tx off
  let off := if hasWitness then off + 2 else off
  let (vin, prevoutOff) ← need "truncated coinbasetxn" (rdVarint tx off)
  ensure (vin = 1) ("coinbasetxn input count " ++ toString vin ++ " != 1")
  let off ← skip "truncated coinbasetxn input" tx prevoutOff 36
  let (ssLen, ssOff) ← need "truncated scriptSig" (rdVarint tx off)
  let off ← skip "truncated scriptSig" tx ssOff ssLen
  let (sequence, off) ← need "truncated sequence" (rdU32 tx off)
  let (vout, off) ← need "truncated output count" (rdVarint tx off)
  ensure (vout ≠ 0) "coinbasetxn has no outputs"
  ensure (vout * 32 < 2 ^ 64) "oom"
  let scan ← readOutputs tx vout ⟨off, [], none, 0⟩
  let off ← skipWitness tx hasWitness scan.off
  let (locktime, off) ← need "truncated locktime" (rdU32 tx off)
  ensure (off = tx.length) "coinbasetxn trailing bytes"
  ensure (scan.rewardCount = 1) ("coinbasetxn has " ++ toString scan.rewardCount ++
    " spendable outputs (expected 1)")
  .ok ⟨version, hasWitness, prevoutOff, ssOff, ssLen, sequence, scan, locktime⟩

/-- The length of the new scriptSig, as `size_t` arithmetic has it. -/
def newScriptSigLen (ssLen pushLen extranonce1Size extranonce2Size : Nat) : Nat :=
  sizeT (ssLen + pushLen + sizeT (extranonce1Size + extranonce2Size))

/-- What the coinbase costs without the reward output. -/
def templateFixedBytes (t : Template) (rewardIdx ssProbe : Nat) : Nat :=
  sizeT (envelopeBytes ssProbe + ((t.scan.outs.eraseIdx rewardIdx).map fun out =>
    outSerSize out.spkLen).sum)

def copyOutput (tx : Bytes) (out : CbOut) : Result Bytes := do
  let spk ← orUndefined (slice tx out.spkOff out.spkLen)
  .ok (pushOutput out.value spk)

/-- The reward output is replaced, and everything else preserved in order. -/
def emitOutputs (tx : Bytes) (rewardIdx : Nat) (repl : List ReplOut) :
    List CbOut → Nat → Result Bytes
  | [], _ => .ok []
  | out :: rest, i => do
    let here ← match decide (i = rewardIdx) with
      | true => .ok (repl.flatMap pushReplOut)
      | false => copyOutput tx out
    let more ← emitOutputs tx rewardIdx repl rest (i + 1)
    .ok (here ++ more)

def decodeTemplateHex (hex : Bytes) : Result Bytes := do
  ensure (hex.length % 2 = 0) "odd coinbasetxn hex"
  need "bad coinbasetxn hex" (hexDecode hex (hex.length / 2))

theorem decodeTemplateHex_ok : decodeTemplateHex hex = .ok tx ↔ hexPairs hex = some tx := by
  rw [decodeTemplateHex, hexDecode]
  by_cases even : hex.length % 2 = 0
  · rw [ensure, if_pos even, if_neg (not_not.mpr even), if_neg (Nat.lt_irrefl _)]
    cases hexPairs hex with
    | none => exact ⟨fun none => (by cases none), fun none => (by cases none)⟩
    | some bytes => exact ⟨fun same => congrArg some (Except.ok.inj same),
      fun same => congrArg Except.ok (Option.some.inj same)⟩
  · rw [ensure, if_neg even]
    refine ⟨fun none => (by cases none), fun decoded => ?_⟩
    exact absurd (hexPairs_even decoded) even

def buildFromTemplate (scale : Scale) (resolver : Resolver) (coinbaseTxHex : Bytes)
    (coinbaseTag : Option Bytes)
    (jobSalt : UInt32) (extranonce1Size extranonce2Size : Nat) : Result (Parts × Bool) := do
  let tx ← decodeTemplateHex coinbaseTxHex
  let t ← parseTemplate tx
  let rewardIdx ← orUndefined t.scan.rewardIdx
  let rewardOut ← orUndefined t.scan.outs[rewardIdx]?
  let reward := toInt64 rewardOut.value
  let ssProbe :=
    newScriptSigLen t.ssLen (cbTagPushLen coinbaseTag jobSalt) extranonce1Size extranonce2Size
  let repl ← resolver.resolve scale reward (templateFixedBytes t rewardIdx ssProbe)
  ensure (repl ≠ []) "resolver produced no outputs"
  let replTotal ← int64 (repl.map ReplOut.sats).sum
  ensure (replTotal = reward) ("replacement outputs sum to " ++ toString replTotal ++
    ", template reward is " ++ toString reward)
  let push := cbTagPush coinbaseTag jobSalt
  let newSsLen := newScriptSigLen t.ssLen push.length extranonce1Size extranonce2Size
  ensure (2 ≤ newSsLen ∧
    newSsLen ≤ 100) ("coinbase scriptSig length " ++ toString newSsLen ++ " out of range")
  let prevout ← orUndefined (slice tx t.prevoutOff 36)
  let scriptSig ← orUndefined (slice tx t.ssOff t.ssLen)
  let outputs ← emitOutputs tx rewardIdx repl t.scan.outs 0
  let newVout := sizeT (t.scan.outs.length - 1 + repl.length)
  let cb1 :=
    pushU32Le t.version ++ pushVarint 1 ++ prevout ++ pushVarint newSsLen ++ scriptSig ++ push
  let cb2 := pushU32Le t.sequence ++ pushVarint newVout ++ outputs ++ pushU32Le t.locktime
  .ok (⟨cb1, cb2⟩, t.hasWitness)

end SimplePool.Coinbase
