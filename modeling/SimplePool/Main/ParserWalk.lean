import SimplePool.Coinbase.TemplateRewrite
import SimplePool.Lib.Cursor
import SimplePool.Main.WindowJob

/-! The coinbase parsers with what they do to the bytes of the transaction: the offsets
they take, the bytes they read, the turns of the loops whose bounds the transaction
declares. Without the marks they are the parsers of the model. -/
namespace SimplePool.Coinbase
open Wire Cursor

abbrev Walk (α : Type) := Trail Act Failure α

/-- `rd_u32` and `rd_u64`, and the second half of `rd_varint`. -/
def walkFixed (message : String) (width : Nat) (tx : Bytes) (off : Nat) : Walk (Nat × Nat) :=
  if tx.length < sizeT (off + width) then lift (fail message)
  else do
    leave (.read off width)
    leave (.seek (off + width))
    pure (decode ((tx.drop off).take width), off + width)

/-- `rd_varint`. -/
def walkVarint (message : String) (tx : Bytes) (off : Nat) : Walk (Nat × Nat) :=
  match tx[off]? with
  | none => lift (fail message)
  | some b => do
    leave (.read off 1)
    leave (.seek (off + 1))
    if b < 0xfd then pure (b.toNat, off + 1)
    else walkFixed message (compactWidth b) tx (off + 1)

/-- The check `off + n > txlen`. -/
def walkCheck (message : String) (tx : Bytes) (off n : Nat) : Walk Unit :=
  lift (if tx.length < sizeT (off + n) then fail message else .ok ())

def walkSkip (message : String) (tx : Bytes) (off n : Nat) : Walk Nat := do
  walkCheck message tx off n
  leave (.seek (sizeT (off + n)))
  pure (sizeT (off + n))

def walkReturn (tx : Bytes) (off len : Nat) : Walk Bool :=
  if len = 0 then pure false
  else do
    leave (.read off 1)
    let first ← lift (orUndefined tx[off]?)
    pure (first = 0x6a)

/-- A script: the check, the look at its first byte, and the step over it. -/
def walkScript (message : String) (tx : Bytes) (off len : Nat) : Walk (Bool × Nat) := do
  walkCheck message tx off len
  let opReturn ← walkReturn tx off len
  leave (.seek (sizeT (off + len)))
  pure (opReturn, sizeT (off + len))

def walkOutput (valueError scriptError : String) (tx : Bytes) (off : Nat) : Walk (CbOut × Nat) := do
  let (value, off) ← walkFixed valueError 8 tx off
  let (spkLen, off) ← walkVarint scriptError tx off
  let (opReturn, next) ← walkScript scriptError tx off spkLen
  pure (⟨value, off, spkLen, opReturn⟩, next)

def walkOutputs (tx : Bytes) : Nat → Scan → Walk Scan
  | 0, scan => pure scan
  | n + 1, scan => do
    leave .turn
    let (out, off) ← walkOutput "truncated output value" "truncated scriptPubKey" tx scan.off
    let scan ← lift (scan.add out off)
    walkOutputs tx n scan

def walkItems (tx : Bytes) : Nat → Nat → Walk Nat
  | 0, off => pure off
  | n + 1, off => do
    leave .turn
    let (itemLen, off) ← walkVarint "truncated witness item" tx off
    let off ← walkSkip "truncated witness item" tx off itemLen
    walkItems tx n off

def walkWitness (tx : Bytes) (hasWitness : Bool) (off : Nat) : Walk Nat :=
  match hasWitness with
  | false => pure off
  | true => do
    let (stack, off) ← walkVarint "truncated witness" tx off
    walkItems tx stack off

/-- The offset behind the marker and flag, if they are there. -/
def walkMarker (tx : Bytes) (off : Nat) : Walk (Bool × Nat) :=
  match tx[off]?, tx[off + 1]? with
  | some marker, some flag => do
    leave (.read off 1)
    if marker = 0x00 then do
      leave (.read (off + 1) 1)
      if flag ≠ 0x00 then do
        leave (.seek (off + 2))
        pure (true, off + 2)
      else pure (false, off)
    else pure (false, off)
  | _, _ => pure (false, off)

def walkTemplate (tx : Bytes) : Walk Template := do
  let (version, off) ← walkFixed "truncated coinbasetxn" 4 tx 0
  let (hasWitness, off) ← walkMarker tx off
  let (vin, prevoutOff) ← walkVarint "truncated coinbasetxn" tx off
  lift (ensure (vin = 1) ("coinbasetxn input count " ++ toString vin ++ " != 1"))
  let off ← walkSkip "truncated coinbasetxn input" tx prevoutOff 36
  let (ssLen, ssOff) ← walkVarint "truncated scriptSig" tx off
  let off ← walkSkip "truncated scriptSig" tx ssOff ssLen
  let (sequence, off) ← walkFixed "truncated sequence" 4 tx off
  let (vout, off) ← walkVarint "truncated output count" tx off
  lift (ensure (vout ≠ 0) "coinbasetxn has no outputs")
  lift (ensure (vout * 32 < 2 ^ 64) "oom")
  let scan ← walkOutputs tx vout ⟨off, [], none, 0⟩
  let off ← walkWitness tx hasWitness scan.off
  let (locktime, off) ← walkFixed "truncated locktime" 4 tx off
  lift (ensure (off = tx.length) "coinbasetxn trailing bytes")
  lift (ensure (scan.rewardCount = 1)
    ("coinbasetxn has " ++ toString scan.rewardCount ++ " spendable outputs (expected 1)"))
  pure ⟨version, hasWitness, prevoutOff, ssOff, ssLen, sequence, scan, locktime⟩

/-- The loop that adds up what the kept outputs cost. -/
def walkCosts : List CbOut → Walk Unit
  | [] => pure ()
  | _ :: rest => do
    leave .turn
    walkCosts rest

def walkCopy (tx : Bytes) (rewardIdx : Nat) (repl : List ReplOut) (out : CbOut) (i : Nat) :
    Walk Bytes :=
  match decide (i = rewardIdx) with
  | true => pure (repl.flatMap pushReplOut)
  | false => do
    leave (.read out.spkOff out.spkLen)
    lift (copyOutput tx out)

def walkEmit (tx : Bytes) (rewardIdx : Nat) (repl : List ReplOut) : List CbOut → Nat → Walk Bytes
  | [], _ => pure []
  | out :: rest, i => do
    leave .turn
    let here ← walkCopy tx rewardIdx repl out i
    let more ← walkEmit tx rewardIdx repl rest (i + 1)
    pure (here ++ more)

/-- The new coinbase, with a resolver's outputs. -/
def walkRewrite (tx : Bytes) (t : Template) (rewardIdx : Nat) (repl : List ReplOut) (push : Bytes)
    (newSsLen : Nat) :
    Walk (Parts × Bool) := do
  leave (.read t.prevoutOff 36)
  let prevout ← lift (orUndefined (slice tx t.prevoutOff 36))
  leave (.read t.ssOff t.ssLen)
  let scriptSig ← lift (orUndefined (slice tx t.ssOff t.ssLen))
  let outputs ← walkEmit tx rewardIdx repl t.scan.outs 0
  let newVout := sizeT (t.scan.outs.length - 1 + repl.length)
  let cb1 :=
    pushU32Le t.version ++ pushVarint 1 ++ prevout ++ pushVarint newSsLen ++ scriptSig ++ push
  let cb2 := pushU32Le t.sequence ++ pushVarint newVout ++ outputs ++ pushU32Le t.locktime
  pure (⟨cb1, cb2⟩, t.hasWitness)

/-- What follows the parse. -/
def walkResolve (scale : Scale) (resolver : Resolver) (tx : Bytes) (t : Template)
    (coinbaseTag : Option Bytes)
    (jobSalt : UInt32) (extranonce1Size extranonce2Size : Nat) : Walk (Parts × Bool) := do
  let rewardIdx ← lift (orUndefined t.scan.rewardIdx)
  let rewardOut ← lift (orUndefined t.scan.outs[rewardIdx]?)
  let reward := toInt64 rewardOut.value
  let ssProbe :=
    newScriptSigLen t.ssLen (cbTagPushLen coinbaseTag jobSalt) extranonce1Size extranonce2Size
  walkCosts t.scan.outs
  let repl ← lift (resolver.resolve scale reward (templateFixedBytes t rewardIdx ssProbe))
  lift (ensure (repl ≠ []) "resolver produced no outputs")
  let replTotal ← lift (int64 (repl.map ReplOut.sats).sum)
  lift (ensure (replTotal = reward) ("replacement outputs sum to " ++ toString replTotal ++
    ", template reward is " ++ toString reward))
  let push := cbTagPush coinbaseTag jobSalt
  let newSsLen := newScriptSigLen t.ssLen push.length extranonce1Size extranonce2Size
  lift (ensure (2 ≤ newSsLen ∧
    newSsLen ≤ 100) ("coinbase scriptSig length " ++ toString newSsLen ++ " out of range"))
  walkRewrite tx t rewardIdx repl push newSsLen

def walkBuild (scale : Scale) (resolver : Resolver) (coinbaseTxHex : Bytes)
    (coinbaseTag : Option Bytes)
    (jobSalt : UInt32) (extranonce1Size extranonce2Size : Nat) : Walk (Parts × Bool) := do
  let tx ← lift (decodeTemplateHex coinbaseTxHex)
  let t ← walkTemplate tx
  walkResolve scale resolver tx t coinbaseTag jobSalt extranonce1Size extranonce2Size

def walkInputs (tx : Bytes) : Nat → Nat → Walk Nat
  | 0, off => pure off
  | n + 1, off => do
    leave .turn
    let off ← walkSkip "" tx off 36
    let (ss, off) ← walkVarint "" tx off
    let off ← walkSkip "" tx off (ss + 4)
    walkInputs tx n off

def walkTally (tx : Bytes) : Nat → Nat → Int32 × Int32 → Walk (Nat × (Int32 × Int32))
  | 0, off, counts => pure (off, counts)
  | n + 1, off, (spendable, opReturns) => do
    leave .turn
    let (out, next) ← walkOutput "" "" tx off
    walkTally tx n next (if out.opReturn then (spendable, opReturns + 1)
      else (spendable + 1, opReturns))

/-- The offset behind the outputs, and the counts. -/
def walkCounts (tx : Bytes) : Walk (Nat × (Int32 × Int32)) := do
  let (_, off) ← walkFixed "" 4 tx 0
  let (_, off) ← walkMarker tx off
  let (vin, off) ← walkVarint "" tx off
  let off ← walkInputs tx vin off
  let (vout, off) ← walkVarint "" tx off
  walkTally tx vout off (0, 0)

def walkCount (hex : Bytes) : Walk (Int32 × Int32) := do
  let tx ← lift (decodeTemplateHex hex)
  let (_, counts) ← walkCounts tx
  pure counts

@[simp] theorem walkFixed_outcome :
    (walkFixed message width tx off).outcome = need message (rdFixed width tx off) := by
  rw [walkFixed, rdFixed]
  split
  next => rfl
  next => rfl

@[simp] theorem walkVarint_outcome :
    (walkVarint message tx off).outcome = need message (rdVarint tx off) := by
  rw [walkVarint, rdVarint]
  cases tx[off]? with
  | none => rfl
  | some b =>
    change (if b < 0xfd then (pure (b.toNat, off + 1) : Walk (Nat × Nat)) else _).outcome = _
    dsimp only
    split
    next => rfl
    next => exact walkFixed_outcome

@[simp] theorem walkSkip_outcome : (walkSkip message tx off n).outcome = skip message tx off n := by
  rw [walkSkip, skip, walkCheck]
  split
  next => rfl
  next => rfl

@[simp] theorem walkReturn_outcome :
    (walkReturn tx off len).outcome = startsWithReturn tx off len := by
  rw [walkReturn, startsWithReturn]
  split
  next => rfl
  next =>
    cases tx[off]? with
    | none => rfl
    | some first => rfl

/-- A script is stepped over before its first byte is looked at, or after: it is the same. -/
theorem walkScript_outcome {β : Type} (next : Bool × Nat → Result β) :
    ((walkScript message tx off len).outcome >>= next) =
      (skip message tx off len >>= fun off' => startsWithReturn tx off len >>= fun opReturn =>
        next (opReturn, off')) := by
  rw [walkScript, skip, walkCheck]
  simp only [outcome_bind, walkReturn_outcome, outcome_lift]
  split
  next => rfl
  next =>
    cases startsWithReturn tx off len with
    | error failure => rfl
    | ok opReturn => rfl

theorem walkOutput_outcome : (walkOutput valueError scriptError tx off).outcome =
    (need valueError (rdU64 tx off) >>= fun (value, off) => need scriptError (rdVarint tx off) >>=
      fun (spkLen, off) =>
      skip scriptError tx off spkLen >>= fun next => startsWithReturn tx off spkLen >>=
        fun opReturn =>
        .ok (⟨value, off, spkLen, opReturn⟩, next)) := by
  rw [walkOutput]
  simp only [outcome_bind, walkFixed_outcome, walkVarint_outcome, walkScript_outcome, rdU64]
  rfl

@[simp] theorem walkOutputs_outcome (n : Nat) (scan : Scan) :
    (walkOutputs tx n scan).outcome = readOutputs tx n scan := by
  induction n generalizing scan with
  | zero => rfl
  | succ n ih =>
    rw [walkOutputs, readOutputs, readOutput]
    simp only [outcome_bind, walkOutput_outcome, outcome_lift, ih]
    rfl

@[simp] theorem walkItems_outcome (n off : Nat) :
    (walkItems tx n off).outcome = skipItems tx n off := by
  induction n generalizing off with
  | zero => rfl
  | succ n ih =>
    rw [walkItems, skipItems]
    simp only [outcome_bind, walkVarint_outcome, walkSkip_outcome, ih]
    rfl

@[simp] theorem walkWitness_outcome :
    (walkWitness tx hasWitness off).outcome = skipWitness tx hasWitness off := by
  cases hasWitness with
  | false => rfl
  | true =>
    rw [walkWitness, skipWitness]
    simp only [outcome_bind, walkVarint_outcome, walkItems_outcome]

@[simp] theorem walkMarker_outcome :
    (walkMarker tx off).outcome = .ok (witnessMarker tx off, if witnessMarker tx off then off + 2
      else off) := by
  rw [walkMarker, witnessMarker]
  cases tx[off]? with
  | none => rfl
  | some marker =>
    cases tx[off + 1]? with
    | none => rfl
    | some flag =>
      change (if marker = 0x00 then _ else (pure (false, off) : Walk (Bool × Nat))).outcome = _
      by_cases zero : marker = 0x00
      · rw [if_pos zero]
        change (if flag ≠ 0x00 then _ else (pure (false, off) : Walk (Bool × Nat))).outcome = _
        by_cases set : flag ≠ 0x00
        · rw [if_pos set]
          have both : (decide (marker = 0x00) && decide (flag ≠ 0x00)) = true := by simp [zero, set]
          simp only [both]
          rfl
        · rw [if_neg set]
          simp [set]
      · rw [if_neg zero]
        simp [zero]

@[simp] theorem walkTemplate_outcome : (walkTemplate tx).outcome = parseTemplate tx := by
  rw [walkTemplate, parseTemplate]
  simp only [outcome_bind, walkFixed_outcome, walkVarint_outcome, walkSkip_outcome,
    walkMarker_outcome, outcome_lift, walkOutputs_outcome, walkWitness_outcome, rdU32]
  rfl

@[simp] theorem walkCosts_outcome (outs : List CbOut) : (walkCosts outs).outcome = .ok () := by
  induction outs with
  | nil => rfl
  | cons out rest ih => exact ih

@[simp] theorem walkEmit_outcome (outs : List CbOut) (i : Nat) :
    (walkEmit tx rewardIdx repl outs i).outcome = emitOutputs tx rewardIdx repl outs i := by
  induction outs generalizing i with
  | nil => rfl
  | cons out rest ih =>
    rw [walkEmit, emitOutputs, walkCopy]
    simp only [outcome_bind, ih]
    cases decide (i = rewardIdx) with
    | true => rfl
    | false => rfl

theorem walkBuild_outcome : (walkBuild scale resolver hex coinbaseTag jobSalt size1 size2).outcome =
    buildFromTemplate scale resolver hex coinbaseTag jobSalt size1 size2 := by
  rw [walkBuild, buildFromTemplate]
  simp only [walkResolve, walkRewrite, outcome_bind, outcome_lift, outcome_leave,
    walkTemplate_outcome, walkCosts_outcome, walkEmit_outcome]
  rfl

@[simp] theorem walkInputs_outcome (n off : Nat) :
    (walkInputs tx n off).outcome = Main.skipInputs tx n off := by
  induction n generalizing off with
  | zero => rfl
  | succ n ih =>
    rw [walkInputs, Main.skipInputs]
    simp only [outcome_bind, walkVarint_outcome, walkSkip_outcome, ih]
    rfl

theorem walkTally_outcome (n off : Nat) (counts : Int32 × Int32) :
    ((walkTally tx n off counts).outcome >>= fun (_, counts) => .ok counts) =
      Main.countLoop tx n off counts := by
  induction n generalizing off counts with
  | zero => rfl
  | succ n ih =>
    rw [walkTally, Main.countLoop]
    simp only [outcome_bind, walkOutput_outcome, ← ih]
    cases need "" (rdU64 tx off) with
    | error failure => rfl
    | ok read =>
      obtain ⟨value, off⟩ := read
      dsimp only [bind, Except.bind]
      cases need "" (rdVarint tx off) with
      | error failure => rfl
      | ok read =>
        obtain ⟨spkLen, off⟩ := read
        dsimp only
        cases skip "" tx off spkLen with
        | error failure => rfl
        | ok next =>
          dsimp only
          cases startsWithReturn tx off spkLen with
          | error failure => rfl
          | ok opReturn => rfl

theorem walkCount_outcome : (walkCount hex).outcome = Main.coinbaseCountOutputs hex := by
  rw [walkCount, Main.coinbaseCountOutputs]
  simp only [walkCounts, outcome_bind, outcome_lift, walkFixed_outcome, walkVarint_outcome,
    walkMarker_outcome, walkInputs_outcome, rdU32, ← walkTally_outcome, bind_assoc]
  rfl

end SimplePool.Coinbase
