import SimplePool.Coinbase.Template
import SimplePool.Main.MerkleBranches
import SimplePool.Pplns.Order
import SimplePool.Pplns.Split
import SimplePool.Store.PplnsWindow
import SimplePool.Stratum.Job

/-! The job that main.c makes of a template, and the payout window it puts on it when the
coinbase pays the window. -/
namespace SimplePool.Main
open Wire Coinbase Stratum

structure TemplateTx where
  dataHex : Bytes
  txidHex : Bytes
  fee : Int
deriving DecidableEq

/-- `bitcoind_template_t`. -/
structure BlockTemplate where
  height : Int
  prevHashHex : Bytes
  coinbaseValueSats : Int
  targetHex : Bytes
  bits : UInt32
  curtime : UInt32
  version : UInt32
  defaultWitnessCommitment : Option Bytes
  coinbasetxnHex : Option Bytes
  longpollid : Option Bytes
  txs : List TemplateTx
deriving DecidableEq

def hexToBytesDisplay (hex : Bytes) : Option Bytes32 :=
  if hex.length = 64 then (hexPairs hex).bind fun bytes => if size : bytes.length = 32 then
    some ⟨bytes, size⟩
  else none
  else none

/-- Three digits of a mantissa with `low` bytes below them. -/
def mantissaAt (mant low : Nat) : Bytes :=
  List.replicate (29 - low) 0 ++ [UInt8.ofNat (mant / 65536), UInt8.ofNat (mant / 256),
    UInt8.ofNat mant] ++ List.replicate low 0

/-- The offset wraps for an exponent over 32, and up to 35 its sum with 3 wraps back into the
range that is written. -/
def nbitsToTarget (nbits : UInt32) : Result Bytes32 :=
  let exp := nbits.toNat / 2 ^ 24
  let mant := nbits.toNat % 2 ^ 23
  let negative := nbits.toNat / 2 ^ 23 % 2 = 1
  if mant = 0 ∨ negative then .ok zeros32
  else if exp ≤ 3 then .ok ⟨mantissaAt (mant / 256 ^ (3 - exp)) 0, by simp [mantissaAt]⟩
  else if within : exp ≤ 32 then .ok ⟨mantissaAt mant (exp - 3), by simp [mantissaAt]; omega⟩
  else if exp ≤ 35 then .error .undefined
  else .ok zeros32

/-- The target of a template, from its text or its bits. -/
def BlockTemplate.target (t : BlockTemplate) : Result Bytes32 :=
  match hexToBytesDisplay t.targetHex with
  | some target => .ok target
  | none => nbitsToTarget t.bits

/-- `rev32`. -/
def rev32 (bytes : Bytes32) : Bytes32 :=
  ⟨bytes.val.reverse, by rw [List.length_reverse, bytes.property]⟩

def txidsLe : List TemplateTx → Nat → Result (List Bytes32)
  | [], _ => .ok []
  | tx :: rest, i => do
    let be ← need ("bad txid hex at " ++ toString i) (hexToBytesDisplay tx.txidHex)
    let more ← txidsLe rest (i + 1)
    .ok (rev32 be :: more)

/-- `%llx`. -/
def hexText (n : Nat) : Bytes := (Nat.toDigits 16 n).map fun c => UInt8.ofNat c.toNat

/-- The segwit marker and flag after the version, as text. -/
def hasWitnessMarker (coinbasetxnHex : Option Bytes) : Bool :=
  match coinbasetxnHex with
  | none => false
  | some hex => (hex.drop 8).take 4 = ascii "0001"

def buildJobFromTemplate (t : BlockTemplate) (nowMs mono : UInt64) : Result Job := do
  let txids ← txidsLe t.txs 0
  let prev ← need "bad prev hash hex" (hexToBytesDisplay t.prevHashHex)
  let target ← t.target
  .ok (.new (hexText nowMs.toNat) t.version (rev32 prev) t.coinbaseValueSats
    t.defaultWitnessCommitment extranonce1Size
    extranonce2Size (computeMerkleBranchesForIdx0 dsha256Pair zeros32 txids) t.bits t.curtime target
    (UInt32.ofNat (t.height % 2 ^ 32).toNat) (t.txs.map TemplateTx.dataHex) t.coinbasetxnHex
    (hasWitnessMarker t.coinbasetxnHex) mono)

def skipInputs (tx : Bytes) : Nat → Nat → Result Nat
  | 0, off => .ok off
  | n + 1, off => do
    let off ← skip "" tx off 36
    let (ss, off) ← need "" (rdVarint tx off)
    let off ← skip "" tx off (ss + 4)
    skipInputs tx n off

/-- The spendable outputs and the others, counted on in C `int`s. Past `2 ^ 31` of them, more
than a response of `RESP_MAX_CAP` bytes holds, the counts wrap. -/
def countLoop (tx : Bytes) : Nat → Nat → Int32 × Int32 → Result (Int32 × Int32)
  | 0, _, counts => .ok counts
  | n + 1, off, (spendable, opReturns) => do
    let (_, off) ← need "" (rdU64 tx off)
    let (spkLen, off) ← need "" (rdVarint tx off)
    let next ← skip "" tx off spkLen
    let opReturn ← startsWithReturn tx off spkLen
    countLoop tx n next (if opReturn then (spendable, opReturns + 1)
      else (spendable + 1, opReturns))

/-- `coinbase_count_outputs`, which has no messages. -/
def coinbaseCountOutputs (hex : Bytes) : Result (Int32 × Int32) := do
  let tx ← decodeTemplateHex hex
  let (_, off) ← need "" (rdU32 tx 0)
  let off := if witnessMarker tx off then off + 2 else off
  let (vin, off) ← need "" (rdVarint tx off)
  let off ← skipInputs tx vin off
  let (vout, off) ← need "" (rdVarint tx off)
  countLoop tx vout off (0, 0)

/-- `coinbase_template_reward`: the builder with a probe in place of a resolver, which puts
the reward back under a script of one byte. -/
def coinbaseTemplateReward (hex : Bytes) : Result Int := do
  let (spendable, _) ← coinbaseCountOutputs hex
  ensure (spendable = 1) ""
  let tx ← decodeTemplateHex hex
  let t ← parseTemplate tx
  let rewardIdx ← orUndefined t.scan.rewardIdx
  let rewardOut ← orUndefined t.scan.outs[rewardIdx]?
  let newSsLen := newScriptSigLen t.ssLen (cbTagPush none 0).length 4 4
  ensure (2 ≤ newSsLen ∧ newSsLen ≤ 100) ""
  ensure (0 ≤ toInt64 rewardOut.value) ""
  .ok (toInt64 rewardOut.value)

inductive PoolMode where
  | solo | ppsClassic | pplnsThunder | pplnsBtc | pplnsCoinbase
deriving DecidableEq

def PoolMode.pplns : PoolMode → Bool
  | .pplnsThunder | .pplnsBtc | .pplnsCoinbase => true
  | .solo | .ppsClassic => false

/-- `proxy_config_t`. The loader refuses a PPLNS mode without a window. -/
structure Config where
  poolMode : PoolMode
  operatorAddress : Option Bytes
  feeBps : FeeBps
  coinbaseMaxBytes : Int
  /-- The `max_coinbase_bytes` of the listeners. -/
  listenerMaxBytes : List Int
  payoutFloorSats : Int
  pplnsWindowDiffMultiple : ℚ
  multiple_pos : poolMode.pplns = true → 0 < pplnsWindowDiffMultiple
  templateRetentionDays : Int

def tightestCoinbaseBudget (cfg : Config) : Nat :=
  cfg.listenerMaxBytes.foldl (fun b lb => if 0 < lb ∧ lb.toNat < b then lb.toNat else b)
    (if 0 < cfg.coinbaseMaxBytes then cfg.coinbaseMaxBytes.toNat else defaultMaxBytes)

/-- The addresses that fit, one after the other. An address that cannot be read counts as
the commonest kind. -/
def fittingSlots (room : Nat) : List Bytes → Nat → Nat → Nat
  | [], _, slots => slots
  | address :: rest, used, slots =>
    let cost := match addressToScript address spkCap with
      | .ok spk => outSerSize spk.length
      | .error _ => outSerSize 22
    if room < used + cost then slots else fittingSlots room rest (used + cost) (slots + 1)

def coinbaseExpectedPayoutSlots (maxCoinbaseBytes : Nat) (coinbaseTxHex : Option Bytes)
    (addresses : List Bytes) : Nat :=
  let budget := if maxCoinbaseBytes = 0 then defaultMaxBytes else maxCoinbaseBytes
  let spent := 160 + match coinbaseTxHex with
    | none => 0
    | some hex => hex.length / 2
  let spent := if coinbaseTxHex.isSome ∧ 31 < spent then spent - 31 else spent
  if budget ≤ spent then 1
  else
    let slots :=
      if addresses = [] then (budget - spent) / 31 else fittingSlots (budget - spent) addresses 0 0
    min (max slots 1) maxPayoutOutputs

/-- The value a window is split from: the transaction's when there is one. -/
def windowValue (t : BlockTemplate) : Result Int :=
  match t.coinbasetxnHex with
  | none => .ok t.coinbaseValueSats
  | some hex => coinbaseTemplateReward hex

/-- How much work the window holds. -/
def windowSize (fp : Fpu) (cfg : Config) (netDiff : ℚ) : ℚ :=
  fp.round (netDiff * cfg.pplnsWindowDiffMultiple)

/-- The window that was asked for, and what was read of it. -/
structure Reading where
  size : ℚ
  window : Store.PplnsWindow
deriving DecidableEq

/-- A walk multiplies its batch at most this often. -/
def walkFuel : Nat := 32

def claimOf (entry : Store.WindowEntry) : Pplns.Claim :=
  ⟨some (ascii entry.payoutAddress), entry.difficulty⟩

/-- The payees of a window, in the order of payment, with their workers. -/
def windowPayees (fp : Fpu) (cfg : Config) (t : BlockTemplate) (window : Store.PplnsWindow) :
    Option (List Payee × List Int) :=
  match windowValue t with
  | .error _ => none
  | .ok value =>
    match Pplns.splitWindow fp value cfg.feeBps (nonEmpty cfg.operatorAddress).isSome
      (window.entries.map claimOf)
        window.totalDiff cfg.payoutFloorSats maxPayoutOutputs with
    | .error _ => none
    | .ok (byClaim, split) =>
      if window.entries.length ≤ split.belowFloor then none
      else
        let slots := coinbaseExpectedPayoutSlots (tightestCoinbaseBudget cfg) t.coinbasetxnHex
          (window.entries.map fun entry => ascii entry.payoutAddress)
        (Pplns.orderClaims (window.entries.map Store.WindowEntry.difficulty)
          (window.entries.map Store.WindowEntry.owedFraction)
            slots (some byClaim) cfg.payoutFloorSats).map fun order =>
          (order.filterMap fun i => byClaim[i]?,
            order.map fun i => ((window.entries[i]?.map Store.WindowEntry.workerId).getD 0 : Nat))

/-- `none` is a job that may not be published. A window without shares leaves the job to its
finder. -/
def attachPplnsWindow (fp : Fpu) (oracle : Store.Oracle) (cfg : Config) (netDiff : ℚ)
    (db : Store.Db) (t : BlockTemplate) (job : Job) : Option (Job × Option Reading) :=
  if cfg.poolMode ≠ .pplnsCoinbase then some (job, none)
  else if ¬0 < netDiff then none
  else
    match Store.storePplnsWindow oracle walkFuel db (windowSize fp cfg netDiff)
      maxPayoutOutputs with
    | some (.ok window) =>
      if window.entries = [] ∨ ¬0 < window.totalDiff then
        some (job, some ⟨windowSize fp cfg netDiff, window⟩)
      else
        (windowPayees fp cfg t window).map fun (payees, workers) =>
          (job.setWindow payees fun i => workers[i]?.getD 0, some
            ⟨windowSize fp cfg netDiff, window⟩)
    | _ => none

/-- What is attached was read for the difficulty, from the tables as they stand. -/
theorem attachPplnsWindow_reading {job attached : Job}
    (done : attachPplnsWindow fp oracle cfg netDiff db t job = some (attached, some reading)) :
    cfg.poolMode = .pplnsCoinbase ∧ 0 < netDiff ∧ reading.size = windowSize fp cfg netDiff ∧
      Store.storePplnsWindow oracle walkFuel db reading.size maxPayoutOutputs =
        some (.ok reading.window) := by
  rw [attachPplnsWindow] at done
  split at done
  next => cases done
  next mode =>
    split at done
    next => cases done
    next positive =>
      split at done
      next window read =>
        split at done
        next =>
          cases done
          exact ⟨not_not.mp mode, not_not.mp positive, rfl, read⟩
        next =>
          obtain ⟨_, _, same⟩ := Option.map_eq_some_iff.mp done
          cases same
          exact ⟨not_not.mp mode, not_not.mp positive, rfl, read⟩
      next => cases done

/-- A share of difficulty one by the first worker. -/
def oneShare : Store.ShareTable := ⟨[⟨1, 1, 1, none⟩], by decide, by decide, by decide⟩

end SimplePool.Main
