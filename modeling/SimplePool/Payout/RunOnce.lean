import Mathlib.Data.List.Dedup
import SimplePool.Payout.Db

/-! One tick of the payout loop (`runOnce` in payout.js) as a step machine, on either
rail. A tick is cut at every await and between the durable writes, so that the
process can stop at each of these points. Calls that can put a transaction on the
network are cut once more, where the node has acted and has not answered yet. -/
namespace SimplePool.Payout

inductive Rail where
  | thunder | enforcer
deriving DecidableEq, Repr

structure Config where
  rail : Rail
  minSats : Int
  maxPerTick : Nat
  dryRun : Bool
  nudgeMine : Bool
  nudgeStallSec : Nat
  nudgeIntervalMs : Nat
  /-- The enforcer wallet has a passphrase configured. -/
  passphrase : Bool
deriving DecidableEq, Repr

def txFeeSats : Int := 100

/-- `Number.MAX_SAFE_INTEGER`. -/
def maxSafeInteger : Int := 2 ^ 53 - 1

structure Output where
  address : String
  value : Int
deriving DecidableEq, Repr

/-- The part of a worker's accrual a payment discharges: `sats` from `start` on. -/
structure Debt where
  workerId : Nat
  start : Int
  sats : Int
deriving DecidableEq, Repr

def Debt.stop (debt : Debt) : Int := debt.start + debt.sats

def BatchItem.debt (item : BatchItem) : Debt := ⟨item.workerId, item.paidSats, item.sats⟩

/-- A transaction the node took in, with the debts it was sent for. -/
structure AcceptedTx where
  txid : String
  outputs : List Output
  debts : List Debt
deriving DecidableEq, Repr

/-- What the process holds in memory between ticks. -/
structure Memory where
  nodeBroadcastsOnCreate : Option Bool
  lastNudgeMs : Option Nat
  unlocked : Bool
deriving DecidableEq, Repr

def Memory.fresh : Memory := ⟨none, none, false⟩

/-- `{ known, confirmed, error }` of `getTransaction`. -/
structure TxStatus where
  known : Bool
  confirmed : Bool
  error : Bool
deriving DecidableEq, Repr

/-- A batch with the ids of its rows. -/
structure Batch where
  items : List BatchItem
  rowIds : List Nat
deriving DecidableEq, Repr

def Batch.total (b : Batch) : Int := (b.items.map BatchItem.sats).sum

def Batch.debts (b : Batch) : List Debt := b.items.map BatchItem.debt

inductive Pc where
  | idle
  /-- `get_transaction` is under way. -/
  | settling (pending : Pending)
  | checkingWallet (pending : Pending) (status : TxStatus)
  | finalizing (pending : Pending)
  | nudging
  | listing
  | checkingMempool (due : List DueRow)
  | checkingBalance (due : List DueRow)
  | beginning (due : List DueRow)
  /-- `transferBatchDetailed` has been entered. -/
  | calling (batch : Batch)
  | unlocking (batch : Batch)
  /-- `create_transfer` is under way; a node that signs on its own may have acted. -/
  | creating (batch : Batch)
  | created (batch : Batch) (txid : String)
  | signing (batch : Batch) (outputs : List Output)
  /-- `submit_transaction`. -/
  | submitting (batch : Batch) (outputs : List Output)
  | submitted (batch : Batch) (txid : String)
  /-- `SendTransaction` of the enforcer. -/
  | sending (batch : Batch)
  | sent (batch : Batch) (txid : String)
  | attaching (rowIds : List Nat) (txid : String) (nudge : Bool)
  | aborting (rowIds : List Nat)
deriving DecidableEq, Repr

/-- The database, the node and the clock, and the one process beside them. -/
structure State where
  db : Db
  accepted : List AcceptedTx
  nowMs : Nat
  memory : Memory
  pc : Pc

inductive Event where
  /-- The proxy credits a worker, or records its address. -/
  | accrue (workerId : Nat) (sats : Int)
  | register (worker : Worker)
  | wait (ms : Nat)
  | tick
  /-- The process goes on to its next await or durable write. -/
  | proceed
  | crash
  | txStatus (status : TxStatus)
  /-- The txids of the wallet's outputs, or no answer. -/
  | utxos (reply : Option (List String))
  /-- The number of unmined transactions, or no answer. -/
  | mempool (reply : Option Nat)
  | balance (reply : Option Int)
  | unlocked
  /-- `mine` came back or failed. -/
  | mined
  /-- `create_transfer` built a transaction and left it unsigned. -/
  | unsigned (outputs : List Output)
  | signed
  /-- The node takes the transaction of the call under way. -/
  | accept (txid : String)
  /-- The answer to a call that acted arrives, with the txid in it. -/
  | replied
  /-- The answer to a call that acted does not arrive, or carries no txid. -/
  | lost
  /-- The call under way failed before the node acted, or a write failed. -/
  | failed
deriving DecidableEq, Repr

/-- The settlement decision on the two answers of the node. -/
inductive Settlement where
  | confirmed | pending | unknown
deriving DecidableEq, Repr

def settlementState (txid : String) (status : TxStatus) (utxos : Option (List String)) :
    Settlement :=
  if status.confirmed then .confirmed
  else if (utxos.getD []).contains txid then .confirmed
  else if status.known && !status.error then .pending
  else .unknown

/-- `groups[0].rows`: the rows of the address that is owed most, the first listed one
of several. -/
def largestGroup (due : List DueRow) : List DueRow :=
  let groups := (due.map DueRow.thunderAddress).reverse.dedup.reverse.map fun address =>
    due.filter (fun row => row.thunderAddress = address)
  let owed (rows : List DueRow) : Int := (rows.map DueRow.owedSats).sum
  ((groups.insertionSort (fun a b => owed b ≤ owed a)).head?).getD []

def canBatchAcrossAddresses (cfg : Config) (memory : Memory) : Bool :=
  cfg.rail = .enforcer || memory.nodeBroadcastsOnCreate = some false

def selectDue (cfg : Config) (memory : Memory) (allDue : List DueRow) : List DueRow :=
  if canBatchAcrossAddresses cfg memory then allDue else largestGroup allDue

def batchOf (due : List DueRow) : List BatchItem :=
  due.map fun row => ⟨row.workerId, row.thunderAddress, row.owedSats, row.paidSats⟩

def totalOwed (due : List DueRow) : Int := (due.map DueRow.owedSats).sum

/-- The amounts either rail refuses before it calls the node. -/
def validAmounts (cfg : Config) (batch : Batch) : Bool :=
  batch.items.all (fun item => 0 < item.sats) &&
    match cfg.rail with
    | .thunder => batch.total ≤ maxSafeInteger
    | .enforcer => batch.items.all fun item =>
        ((batch.items.filter (fun other => other.address = item.address)).map BatchItem.sats).sum ≤
          maxSafeInteger

/-- The `destinations` map of `SendTransaction`. -/
def destinations (batch : Batch) : List Output :=
  (batch.items.map BatchItem.address).dedup.map fun address =>
    ⟨address, ((batch.items.filter (fun item => item.address = address)).map BatchItem.sats).sum⟩

/-- Split the one payment output of a built transfer into one per recipient. -/
def splice (batch : Batch) (outputs : List Output) : Option (List Output) :=
  match batch.items.head? with
  | none => none
  | some first =>
    let payment (output : Output) : Bool :=
      output.address = first.address && output.value = batch.total
    if (outputs.filter payment).length = 1 then
      some (outputs.flatMap fun output =>
        if payment output then
          batch.items.map (fun item => ⟨item.address, item.sats⟩)
        else [output])
    else none

/-- `nudgeMine`, up to its call of the node. -/
def nudge (cfg : Config) (force : Bool) (s : State) : State :=
  let limited := match s.memory.lastNudgeMs with
    | some last => !force && last ≠ 0 && s.nowMs - last < cfg.nudgeIntervalMs
    | none => false
  if !cfg.nudgeMine || limited then { s with pc := .idle }
  else { s with pc := .nudging, memory := { s.memory with lastNudgeMs := some s.nowMs } }

/-- What follows the settlement decision on a batch that is not confirmed. -/
def blocked (cfg : Config) (pending : Pending) (state : Settlement) (s : State) : State :=
  if state = .pending ∧ cfg.nudgeStallSec ≤ s.nowMs / 1000 - pending.startedAt then
    nudge cfg false s
  else { s with pc := .idle }

/-- From the end of settling to the first call that needs the due rows. -/
def startBatch (cfg : Config) (s : State) : State :=
  if !cfg.dryRun && s.db.inFlight ≠ [] then { s with pc := .idle }
  else
    let allDue := listDue s.db cfg.minSats cfg.maxPerTick
    if allDue = [] || cfg.dryRun then { s with pc := .idle }
    else
      let due := selectDue cfg s.memory allDue
      -- the enforcer's `mempool` reports no count, so its gate is always open
      match cfg.rail with
      | .thunder => { s with pc := .checkingMempool due }
      | .enforcer => { s with pc := .checkingBalance due }

/-- The first call of `transferBatchDetailed`, unless it refuses the batch. -/
def firstCall (cfg : Config) (batch : Batch) (s : State) : State :=
  if !validAmounts cfg batch then { s with pc := .aborting batch.rowIds }
  else
    match cfg.rail with
    | .thunder => { s with pc := .creating batch }
    | .enforcer => { s with pc := .sending batch }

/-- The steps that wait for nobody. -/
def proceed (cfg : Config) (s : State) : Option State :=
  match s.pc with
  | .finalizing pending =>
    some { s with
      db := finalizeBatch s.db pending.rows txFeeSats pending.txid (s.nowMs / 1000)
      pc := .listing }
  | .listing => some (startBatch cfg s)
  | .beginning due =>
    let items := batchOf due
    let (rowIds, db) := beginBatch s.db items (s.nowMs / 1000)
    some { s with db, pc := .calling ⟨items, rowIds⟩ }
  | .calling batch =>
    if cfg.rail = .enforcer ∧ cfg.passphrase ∧ ¬ s.memory.unlocked then
      some { s with pc := .unlocking batch }
    else some (firstCall cfg batch s)
  | .attaching rowIds txid nudges =>
    let s := { s with db := attachBatchTxid s.db rowIds txid }
    some (if nudges then nudge cfg true s else { s with pc := .idle })
  | .aborting rowIds => some { s with db := abortBatch s.db rowIds, pc := .idle }
  | _ => none

/-- A call under way is accepted by the node. -/
def accept (s : State) (txid : String) : Option State :=
  if txid = "" ∨ txid ∈ s.accepted.map AcceptedTx.txid then none
  else
    let take (batch : Batch) (outputs : List Output) (pc : Pc) : Option State :=
      some { s with accepted := ⟨txid, outputs, batch.debts⟩ :: s.accepted, pc }
    match s.pc with
    | .creating batch =>
      take batch ((batch.items.head?.map fun first => Output.mk first.address batch.total).toList)
        (.created batch txid)
    | .submitting batch outputs => take batch outputs (.submitted batch txid)
    | .sending batch => take batch (destinations batch) (.sent batch txid)
    | _ => none

/-- The txid of the call arrives, and with it what it proves about the node. -/
def replied (s : State) : Option State :=
  let learned (broadcasts : Bool) : Memory :=
    { s.memory with nodeBroadcastsOnCreate := some broadcasts }
  match s.pc with
  | .created batch txid =>
    -- several addresses and one destination: the rows are held against the txid
    let intended := decide ((batch.items.map BatchItem.address).dedup.length = 1)
    some { s with memory := learned true, pc := .attaching batch.rowIds txid intended }
  | .submitted batch txid =>
    some { s with memory := learned false, pc := .attaching batch.rowIds txid true }
  | .sent batch txid =>
    some { s with memory := learned false, pc := .attaching batch.rowIds txid true }
  | _ => none

/-- A call threw after the node had acted. Nothing in the error says so. -/
def lost (s : State) : Option State :=
  match s.pc with
  | .created batch _ | .submitted batch _ | .sent batch _ =>
    some { s with pc := .aborting batch.rowIds }
  | _ => none

/-- A call threw before the node acted, or a write of the process did. -/
def failed (s : State) : Option State :=
  match s.pc with
  | .unlocking batch | .creating batch | .signing batch _ | .submitting batch _ | .sending batch =>
    some { s with pc := .aborting batch.rowIds }
  | .finalizing _ | .beginning _ | .attaching _ _ _ | .aborting _ => some { s with pc := .idle }
  | _ => none

def step (cfg : Config) (s : State) : Event → Option State
  | .accrue workerId sats =>
    if 0 < sats then
      some { s with db := { s.db with credits := s.db.credits.accrue workerId sats } }
    else none
  | .register worker =>
    some { s with
      db := { s.db with workers := worker :: s.db.workers.filter (fun w => w.id ≠ worker.id) } }
  | .wait ms => some { s with nowMs := s.nowMs + ms }
  | .crash => some { s with memory := .fresh, pc := .idle }
  | .tick =>
    match s.pc with
    | .idle =>
      match pendingBatch s.db with
      | some pending => some { s with pc := if cfg.dryRun then .listing else .settling pending }
      | none => some { s with pc := .listing }
    | _ => none
  | .txStatus status =>
    match s.pc with
    | .settling pending =>
      some { s with
        pc := if status.confirmed then .finalizing pending else .checkingWallet pending status }
    | _ => none
  | .utxos reply =>
    match s.pc with
    | .checkingWallet pending status =>
      match settlementState pending.txid status reply with
      | .confirmed => some { s with pc := .finalizing pending }
      | state => some (blocked cfg pending state s)
    | _ => none
  | .mined =>
    match s.pc with
    | .nudging => some { s with pc := .idle }
    | _ => none
  | .mempool reply =>
    match s.pc with
    | .checkingMempool due =>
      some { s with pc := if 0 < reply.getD 0 then .idle else .checkingBalance due }
    | _ => none
  | .balance reply =>
    match s.pc, reply with
    | .checkingBalance due, some available =>
      some { s with pc := if available < totalOwed due + txFeeSats then .idle else .beginning due }
    | .checkingBalance _, none => some { s with pc := .idle }
    | _, _ => none
  | .unlocked =>
    match s.pc with
    | .unlocking batch =>
      some (firstCall cfg batch { s with memory := { s.memory with unlocked := true } })
    | _ => none
  | .unsigned outputs =>
    match s.pc with
    | .creating batch =>
      match splice batch outputs with
      | some spliced => some { s with pc := .signing batch spliced }
      | none => some { s with pc := .aborting batch.rowIds }
    | _ => none
  | .signed =>
    match s.pc with
    | .signing batch outputs => some { s with pc := .submitting batch outputs }
    | _ => none
  | .proceed => proceed cfg s
  | .accept txid => accept s txid
  | .replied => replied s
  | .lost => lost s
  | .failed => failed s

end SimplePool.Payout
