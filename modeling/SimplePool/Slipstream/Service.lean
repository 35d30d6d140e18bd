import Mathlib.Algebra.Order.Floor.Ring
import Mathlib.Data.Rat.Floor
import SimplePool.Lib.Text
import SimplePool.Lib.Transition
import SimplePool.Slipstream.Store

/-! The slipstream service as a step machine: any number of `submit` calls and one `tick`, cut
at every await. A call that sends a transaction is cut once more, where the node has taken the
transaction and has not answered yet. -/
namespace SimplePool.Slipstream

/-- How an RPC ends. -/
inductive Reply (α : Type) where
  | ok (value : α)
  | rpcError (code : Int) (message : String)
  /-- The transport failed, before or after the node acted. -/
  | unavailable (message : String)

/-- `orNull`: not found is no error. -/
def Reply.orNull {α : Type} (method : String) : Reply α → Except String (Option α)
  | .ok value => .ok (some value)
  | .rpcError code message => if code = -5 then .ok none else .error s!"{method}: {code} {message}"
  | .unavailable message => .error message

/-- The answer of `testmempoolaccept`; `baseFee` is in BTC. -/
structure Check where
  txid : String
  wtxid : String
  allowed : Bool
  vsize : Nat
  baseFee : ℚ
  rejectReason : Option String

structure Entry where
  vsize : Nat
  weight : Nat
  baseFee : ℚ

/-- What is read of `getrawtransaction`. -/
structure RawTx where
  blockhash : Option String
  confirmations : Int

structure Header where
  confirmations : Int
  height : Int

structure TemplateTx where
  txid : String
  weight : Nat
  fee : Int

structure Template where
  height : Option Int
  transactions : List TemplateTx

structure Config where
  minFeeRate : ℚ
  confirmations : Int
  /-- Rounding to a double. -/
  double : ℚ → ℚ
  /-- SQLite's order of the rows, which is its own within a second. -/
  sqlite : SubmittedOrder

/-- `Math.round`. -/
def mathRound (x : ℚ) : Int := ⌊x + 1 / 2⌋

def btcToSats (cfg : Config) (btc : ℚ) : Int := mathRound (cfg.double (btc * 10 ^ 8))

def templateWeightCapacity : Nat := 4000000 - 8000

def fullMarginWeight : Nat := 4000

/-- `Math.ceil(weight / 4)`. -/
def vsizeOf (weight : Nat) : Nat := (weight + 3) / 4

/-- Rounded to three places. -/
def feeRate (cfg : Config) (feeSats : Int) (vsize : Nat) : ℚ :=
  cfg.double (mathRound (cfg.double (cfg.double (feeSats / vsize) * 1000)) / 1000)

def mineableRate (cfg : Config) (template : Option Template) : ℚ :=
  let txs := (template.map Template.transactions).getD []
  let used := (txs.map TemplateTx.weight).sum
  match txs.map fun tx => feeRate cfg tx.fee (vsizeOf tx.weight) with
  | [] => cfg.minFeeRate
  | rate :: rates =>
    if used < templateWeightCapacity - fullMarginWeight then cfg.minFeeRate else max cfg.minFeeRate
      (rates.foldl min rate)

def requiredRate (cfg : Config) (template : Option Template) : ℚ :=
  max cfg.minFeeRate (mineableRate cfg template)

def maxTxHexLen : Nat := 2 * 1000000

def alreadyKnown : List String := ["txn-already-in-mempool", "txn-already-known"]

structure Request where
  rawHex : String
  submitter : Option String
deriving DecidableEq, Repr

/-- A transaction with its fee and size, and the row it had. -/
structure Admission where
  request : Request
  check : Check
  existing : Option Row
  feeSats : Int
  vsize : Nat
  alreadyInMempool : Bool

structure Priced extends Admission where
  rate : ℚ
  required : ℚ

inductive Call where
  | idle
  /-- `testmempoolaccept`. -/
  | testing (request : Request)
  /-- `getmempoolentry` of a transaction that the node has. -/
  | lookingUp (request : Request) (check : Check) (existing : Option Row)
  | refreshing (a : Admission)
  /-- `sendrawtransaction`. -/
  | sending (p : Priced)
  | taken (p : Priced)
  /-- `getmempoolentry` of the accepted transaction, and whether the node has just taken it. -/
  | entering (p : Priced) (took : Bool)

inductive Response where
  | refused (httpStatus : Nat) (reason : String) (txid : Option String) (rates : Option (ℚ × ℚ))
  | alreadyTracked (row : Row)
  | accepted (row : Option Row)

inductive Outcome where
  | returned (response : Response)
  | thrown (message : String)

/-- A call that has ended, and the transaction that the node took because of it. -/
structure Ended where
  request : Request
  took : Option String
  outcome : Outcome

/-- The rows that the pass still has before it. -/
inductive Rest where
  | opens (rows : List Row) (inTemplate : List String)
  | mined (rows : List Row)

inductive Tick where
  | idle
  | refreshing
  | openEntry (row : Row) (rest : List Row) (inTemplate : List String)
  | openBlock (row : Row) (rest : Rest)
  /-- `getblockheader` of the block the row is found in. -/
  | marking (row : Row) (blockHash : String) (rest : Rest)
  | minedHeader (row : Row) (rest : List Row)
  | minedBlock (row : Row) (rest : List Row)
  | minedEntry (row : Row) (rest : List Row)
  | resending (row : Row) (why : String) (rest : Rest)

structure State where
  store : Store
  now : Nat
  template : Option Template
  templateAt : Option Nat
  enforcerError : Option String
  calls : Nat → Call
  tick : Tick
  /-- The latest first. -/
  ended : List Ended

def State.start : State := ⟨.empty, 0, none, none, none, fun _ => .idle, .idle, []⟩

inductive Event where
  | wait (seconds : Nat)
  | submit (slot : Nat) (rawHex : Option String) (submitter : Option String)
  | checked (slot : Nat) (reply : Reply Check)
  | lookedUp (slot : Nat) (reply : Reply Entry)
  | refreshed (slot : Nat) (reply : Reply Template)
  /-- The node takes the transaction of the call into its mempool. -/
  | took (slot : Nat)
  | sent (slot : Nat) (reply : Reply Unit)
  | entered (slot : Nat) (reply : Reply Entry)
  | tick
  | template (reply : Reply Template)
  | entry (reply : Reply Entry)
  | block (reply : Reply RawTx)
  /-- With what shares.db says of the block. -/
  | header (reply : Reply Header) (ours : Option Bool)
  | resent (reply : Reply Unit)

def State.put (s : State) (slot : Nat) (call : Call) : State :=
  { s with calls := Function.update s.calls slot call }

/-- The call is over. -/
def State.finish (s : State) (slot : Nat) (ended : Ended) : State :=
  { s.put slot .idle with ended := ended :: s.ended }

def State.record (s : State) (request : Request) (txid : Option String) (accepted : Bool)
    (rejectReason : Option String) : State :=
  { s with store := s.store.logSubmission ⟨s.now, request.submitter, txid, request.rawHex, accepted,
      rejectReason⟩ }

def refuse (s : State) (slot : Nat) (request : Request) (httpStatus : Nat) (reason : String)
    (txid : Option String) (rates : Option (ℚ × ℚ)) (took : Option String) : State :=
  (s.record request txid false (some reason)).finish slot ⟨request, took,
    .returned (.refused httpStatus reason txid rates)⟩

def isHex (c : Char) : Bool := (Text.digitValue c).isSome

def submit (s : State) (slot : Nat) (rawHex : Option String) (submitter : Option String) : State :=
  let hex := (rawHex.map Text.trim).getD []
  let request : Request := ⟨String.ofList hex, submitter⟩
  if hex.length = 0 || hex.length % 2 ≠ 0 || !hex.all isHex then
    refuse s slot request 400 "invalid-hex" none none none
  else if maxTxHexLen < hex.length then refuse s slot request 400 "tx-size" none none none
  else s.put slot (.testing request)

/-- From the fee rule to the next await. -/
def price (cfg : Config) (s : State) (slot : Nat) (a : Admission) : State :=
  let required := requiredRate cfg s.template
  let rate := feeRate cfg a.feeSats a.vsize
  if rate < required then
    refuse s slot a.request 200 "fee-rate-too-low" (some a.check.txid) (some (rate, required)) none
  else s.put slot (if a.alreadyInMempool then .entering ⟨a, rate, required⟩ false else .sending
      ⟨a, rate, required⟩)

def admitted (cfg : Config) (s : State) (slot : Nat) (a : Admission) : State :=
  if s.template.isNone then s.put slot (.refreshing a) else price cfg s slot a

def checked (cfg : Config) (s : State) (slot : Nat) (request : Request) : Reply Check → State
  | .rpcError code _ =>
    if code = -22 then refuse s slot request 400 "tx-decode-failed" none none none
    else refuse s slot request 502 "node-unavailable" none none none
  | .unavailable _ => refuse s slot request 502 "node-unavailable" none none none
  | .ok check =>
    let existing := s.store.get check.txid
    match existing.filter fun row => row.status ≠ .dropped with
    | some row => (s.record request (some check.txid) true none).finish slot
      ⟨request, none, .returned (.alreadyTracked row)⟩
    | none =>
      if check.allowed then admitted cfg s slot ⟨request, check, existing,
        btcToSats cfg check.baseFee, check.vsize, false⟩
      else
        let reason := check.rejectReason.getD "rejected"
        if reason ∈ alreadyKnown then s.put slot (.lookingUp request check existing)
        else refuse s slot request 200 reason (some check.txid) none none

/-- An exception out of `submit`. -/
def raise (s : State) (slot : Nat) (request : Request) (took : Option String) (message : String) :
    State :=
  s.finish slot ⟨request, took, .thrown message⟩

def lookedUp (cfg : Config) (s : State) (slot : Nat) (request : Request) (check : Check)
    (existing : Option Row) (reply : Reply Entry) : State :=
  match reply.orNull "getmempoolentry" with
  | .error message => raise s slot request none message
  | .ok none => refuse s slot request 200 "already-confirmed" (some check.txid) none none
  | .ok (some entry) =>
    admitted cfg s slot ⟨request, check, existing, btcToSats cfg entry.baseFee, entry.vsize, true⟩

/-- `refreshTemplate`, with the error it throws. -/
def refreshTemplate (s : State) : Reply Template → State
  | .ok template =>
    { s with template := some template, templateAt := some s.now, enforcerError := none }
  | .rpcError code message =>
    { s with enforcerError := some s!"getblocktemplate: {code} {message}" }
  | .unavailable message => { s with enforcerError := some message }

def sent (s : State) (slot : Nat) (p : Priced) (took : Bool) : Reply Unit → State
  | .ok () => s.put slot (.entering p took)
  | .rpcError _ message => refuse s slot p.request 200 message (some p.check.txid) none none
  | .unavailable _ =>
    refuse s slot p.request 502 "node-unavailable" (some p.check.txid) none
      (if took then some p.check.txid else none)

def newRow (s : State) (p : Priced) (entry : Option Entry) : Row where
  txid := p.check.txid
  wtxid := p.check.wtxid
  rawHex := p.request.rawHex
  vsize := p.vsize
  weight := (entry.map Entry.weight).getD (p.vsize * 4)
  feeSats := p.feeSats
  feeRate := p.rate
  requiredFeeRate := p.required
  submittedAt := s.now
  submittedHeight := s.template.bind Template.height
  submitter := p.request.submitter
  status := .pending
  statusReason := none
  statusAt := s.now
  firstInTemplateAt := none
  lastInTemplateAt := none
  minedBlockHash := none
  minedHeight := none
  minedAt := none
  minedByPool := none
  confirmations := none
  confirmedAt := none
  resubmissions := 0

/-- The table with the accepted transaction, unless the insertion throws. -/
def track (s : State) (p : Priced) (entry : Option Entry) : Option Store :=
  let txid := p.check.txid
  match p.existing with
  | some _ =>
    let store := s.store.touch txid [.rawHex p.request.rawHex, .feeSats p.feeSats, .feeRate p.rate,
      .requiredFeeRate p.required,
      .submittedAt s.now, .submittedHeight (s.template.bind Template.height)]
    some (store.setStatus txid .pending s.now none [] (.resubmittedBy "submitter"))
  | none => s.store.insertAccepted (newRow s p entry) s.now

def entered (s : State) (slot : Nat) (p : Priced) (took : Bool) (reply : Reply Entry) : State :=
  let took := if took then some p.check.txid else none
  match reply.orNull "getmempoolentry" with
  | .error message => raise s slot p.request took message
  | .ok entry =>
    match track s p entry with
    | none => raise s slot p.request took "UNIQUE constraint failed: slipstream_txs.txid"
    | some store =>
      (State.record { s with store } p.request (some p.check.txid) true none).finish slot
        ⟨p.request, took, .returned (.accepted (store.get p.check.txid))⟩

/-- On to the next row. -/
def nextRow (cfg : Config) (s : State) : Rest → State
  | .opens (row :: rest) inTemplate => { s with tick := .openEntry row rest inTemplate }
  | .opens [] _ =>
    match s.store.byStatus cfg.sqlite [.mined] with
    | row :: rest => { s with tick := .minedHeader row rest }
    | [] => { s with tick := .idle }
  | .mined (row :: rest) => { s with tick := .minedHeader row rest }
  | .mined [] => { s with tick := .idle }

/-- An exception ends the pass. -/
def stop (s : State) : State := { s with tick := .idle }

def State.setStatus (s : State) (txid : String) (status : Status) (reason : Option String)
    (fields : List Column) (note : Note) : State :=
  { s with store := s.store.setStatus txid status s.now reason fields note }

def State.touch (s : State) (txid : String) (fields : List Column) : State :=
  { s with store := s.store.touch txid fields }

/-- `_followOpen` with the mempool entry. -/
def followOpen (cfg : Config) (s : State) (row : Row) (rest : List Row) (inTemplate : List String)
    (reply : Reply Entry) : State :=
  match reply.orNull "getmempoolentry" with
  | .error _ => stop s
  | .ok none => { s with tick := .openBlock row (.opens rest inTemplate) }
  | .ok (some _) =>
    if row.txid ∈ inTemplate then
      let fields : List Column :=
        if row.firstInTemplateAt = none then [.firstInTemplateAt (some s.now)] else []
      nextRow cfg ((s.setStatus row.txid .inTemplate none fields .none).touch row.txid
        [.lastInTemplateAt (some s.now)])
        (.opens rest inTemplate)
    else nextRow cfg (s.setStatus row.txid .pending none [] .none) (.opens rest inTemplate)

/-- `txBlock`. -/
def blockOf (reply : Reply RawTx) : Except String (Option String) :=
  match reply.orNull "getrawtransaction" with
  | .error message => .error message
  | .ok tx =>
    .ok (tx.bind fun tx => if 0 < tx.confirmations then tx.blockhash.filter (· ≠ "") else none)

def openBlock (s : State) (row : Row) (rest : Rest) (reply : Reply RawTx) : State :=
  match blockOf reply with
  | .error _ => stop s
  | .ok (some blockHash) => { s with tick := .marking row blockHash rest }
  | .ok none => { s with tick := .resending row "left-mempool" rest }

/-- `_markMined` with the header. -/
def markMined (cfg : Config) (s : State) (row : Row) (blockHash : String) (rest : Rest)
    (reply : Reply Header) (ours : Option Bool) : State :=
  match reply.orNull "getblockheader" with
  | .error _ => stop s
  | .ok header =>
    let height := header.map Header.height
    nextRow cfg (s.setStatus row.txid .mined none
      [.minedBlockHash (some blockHash), .minedHeight height, .minedAt (some s.now),
        .minedByPool ours,
        .confirmations (header.map Header.confirmations)] (.block blockHash height)) rest

/-- `_followMined` with the header. -/
def followMined (cfg : Config) (s : State) (row : Row) (rest : List Row) (reply : Reply Header) :
    State :=
  match reply.orNull "getblockheader" with
  | .error _ => stop s
  | .ok none => { s with tick := .minedBlock row rest }
  | .ok (some header) =>
    if header.confirmations < 0 then { s with tick := .minedBlock row rest }
    else if cfg.confirmations ≤ header.confirmations then
      nextRow cfg (s.setStatus row.txid .confirmed none
        [.confirmations (some header.confirmations), .confirmedAt (some s.now)] .none) (.mined rest)
    else nextRow cfg (s.touch row.txid [.confirmations (some header.confirmations)]) (.mined rest)

def minedBlock (s : State) (row : Row) (rest : List Row) (reply : Reply RawTx) : State :=
  match blockOf reply with
  | .error _ => stop s
  | .ok block =>
    match block.filter fun blockHash => some blockHash ≠ row.minedBlockHash with
    | some blockHash => { s with tick := .marking row blockHash (.mined rest) }
    | none => { s with tick := .minedEntry row rest }

/-- `_backToPending`. -/
def backToPending (s : State) (row : Row) (why : String) : State :=
  s.setStatus row.txid .pending none
    [.minedBlockHash none, .minedHeight none, .minedAt none, .minedByPool none,
      .confirmations none] (.after why)

def minedEntry (cfg : Config) (s : State) (row : Row) (rest : List Row) (reply : Reply Entry) :
    State :=
  match reply.orNull "getmempoolentry" with
  | .error _ => stop s
  | .ok (some _) => nextRow cfg (backToPending s row "orphaned") (.mined rest)
  | .ok none => { s with tick := .resending row "orphaned" (.mined rest) }

/-- `_rebroadcast` with the answer of the node. -/
def rebroadcast (cfg : Config) (s : State) (row : Row) (why : String) (rest : Rest) :
    Reply Unit → State
  | .unavailable _ => nextRow cfg s rest
  | .rpcError code message =>
    -- already in a block: the next pass finds it
    if code = -27 then nextRow cfg s rest
    else nextRow cfg (s.setStatus row.txid .dropped (some message) [] (.after why)) rest
  | .ok () =>
    let s := s.touch row.txid [.resubmissions (row.resubmissions + 1)]
    nextRow cfg (backToPending { s with store := s.store.event row.txid s.now (.rebroadcast why) }
      row why) rest

def step (cfg : Config) (s : State) : Event → Option State
  | .wait seconds => some { s with now := s.now + seconds }
  | .submit slot rawHex submitter =>
    match s.calls slot with
    | .idle => some (submit s slot rawHex submitter)
    | _ => none
  | .checked slot reply =>
    match s.calls slot with
    | .testing request => some (checked cfg s slot request reply)
    | _ => none
  | .lookedUp slot reply =>
    match s.calls slot with
    | .lookingUp request check existing => some (lookedUp cfg s slot request check existing reply)
    | _ => none
  | .refreshed slot reply =>
    match s.calls slot with
    | .refreshing a => some (price cfg (refreshTemplate s reply) slot a)
    | _ => none
  | .took slot =>
    match s.calls slot with
    | .sending p => some (s.put slot (.taken p))
    | _ => none
  | .sent slot reply =>
    match s.calls slot, reply with
    | .sending p, reply => some (sent s slot p false reply)
    -- a node that has taken the transaction does not refuse it
    | .taken _, .rpcError _ _ => none
    | .taken p, reply => some (sent s slot p true reply)
    | _, _ => none
  | .entered slot reply =>
    match s.calls slot with
    | .entering p took => some (entered s slot p took reply)
    | _ => none
  | .tick =>
    match s.tick with
    | .idle => some { s with tick := .refreshing }
    | _ => none
  | .template reply =>
    match s.tick, reply with
    | .refreshing, .ok template =>
      let s := refreshTemplate s (.ok template)
      some (nextRow cfg s (.opens (s.store.byStatus cfg.sqlite openStatuses)
          (template.transactions.map TemplateTx.txid)))
    | .refreshing, reply => some (stop (refreshTemplate s reply))
    | _, _ => none
  | .entry reply =>
    match s.tick with
    | .openEntry row rest inTemplate => some (followOpen cfg s row rest inTemplate reply)
    | .minedEntry row rest => some (minedEntry cfg s row rest reply)
    | _ => none
  | .block reply =>
    match s.tick with
    | .openBlock row rest => some (openBlock s row rest reply)
    | .minedBlock row rest => some (minedBlock s row rest reply)
    | _ => none
  | .header reply ours =>
    match s.tick with
    | .marking row blockHash rest => some (markMined cfg s row blockHash rest reply ours)
    | .minedHeader row rest => some (followMined cfg s row rest reply)
    | _ => none
  | .resent reply =>
    match s.tick with
    | .resending row why rest => some (rebroadcast cfg s row why rest reply)
    | _ => none

end SimplePool.Slipstream
