import SimplePool.Main.WindowJob
import SimplePool.Reconcile.Rejected
import SimplePool.Store.BlockHashIndex
import SimplePool.Store.FractionLedger

/-! The thread that follows the node's templates. It makes a confirmation pass at a new tip,
builds a job with the difficulty and the payout queue as they are then, publishes it, and
only then takes the template in. Blocks are found and staged by other threads meanwhile. -/
namespace SimplePool.Main
open Wire Coinbase Stratum Transition
open Store
  (Db Connection Oracle FractionState FractionDelta PendingFraction Worker ShareTable BlockFound)
open Reconcile (BlockHashReply GbhState)

/-- The parts of `server_ctx_t` that the watcher writes, over the store with what was staged
in it and settled. -/
structure Watcher where
  fractions : FractionState
  gbh : GbhState
  netDifficulty : ℚ
  lastHeight : Int
  lastPrevHash : Bytes
  lastBuiltMs : UInt64
  jobs : Jobs
  /-- The template whose job is out, until it is taken in. -/
  published : Option BlockTemplate
  /-- The templates that this process has taken in, the newest first. -/
  taken : List BlockTemplate
  /-- The tips that any process has taken a template in for. -/
  named : List String

def Watcher.fresh : Watcher := ⟨Store.freshFractions, .notAsked, 0, 0, [], 0, .empty, none, [], []⟩

def Watcher.db (s : Watcher) : Db := s.fractions.conn.db

/-- A statement of the store that has nothing to do with the payout queue. -/
def Watcher.write (s : Watcher) (f : Db → Db) : Watcher :=
  { s with fractions := { s.fractions with conn := s.fractions.conn.write f } }

inductive WatcherEvent where
  /-- `main`, on the store as it is. -/
  | start (t : BlockTemplate) (nowMs mono : UInt64) (nowS : Int) (rate : ℚ)
  /-- The loop of the watcher up to `stratum_server_set_job`. -/
  | poll (t : BlockTemplate) (node : Int → BlockHashReply) (nowMs mono : UInt64)
  /-- The rest of it. -/
  | refresh (nowMs : UInt64) (nowS : Int) (rate : ℚ)
  /-- `on_window_fractions_cb`. -/
  | stage (hash : String) (deltas : List FractionDelta)
  /-- `on_block_found_cb`, for a block on a job that is still found. -/
  | found (jobId : Option Bytes) (block : Stratum.BlockFound)
  /-- The writer adds to the tables of workers and shares. -/
  | shares (workers : List Worker) (table : ShareTable)

section Steps

variable (fp : Fpu) (oracle : Oracle) (cfg : Config)

/-- The network difficulty of a template. -/
def BlockTemplate.difficulty (t : BlockTemplate) : Option (WithTop ℚ) :=
  t.target.toOption.map fun target => targetToDiff fp target.val

/-- The difficulty that is stored when it is finite and positive. -/
def BlockTemplate.priced (t : BlockTemplate) : Option ℚ :=
  match t.difficulty fp with
  | some (some difficulty) => if 0 < difficulty then some difficulty else none
  | _ => none

def outputCounts (t : BlockTemplate) : Int32 × Int32 :=
  match t.coinbasetxnHex.map coinbaseCountOutputs with
  | some (.ok counts) => counts
  | _ => (0, 0)

/-- The row of `templates`. An infinite difficulty is left out of the model's column. -/
def templateRow (t : BlockTemplate) (nowS : Int) (rate : ℚ) : Store.Template where
  ts := nowS
  height := t.height
  prevHash := text t.prevHashHex
  bits := text (hex8 t.bits)
  networkDifficulty := (((t.difficulty fp).getD 0).untopD 0)
  coinbaseValueSats := t.coinbaseValueSats
  txCount := t.txs.length
  txFeesSats := (t.txs.map fun tx => max 0 tx.fee).sum
  source := if t.coinbasetxnHex.isSome then .enforcer else .bitcoind
  cbSpendable := (outputCounts t).1.toInt
  cbOpReturns := (outputCounts t).2.toInt
  longpoll := t.longpollid.isSome
  rateSatsPerDiff := if cfg.poolMode = .ppsClassic then rate else 0
  lastSeen := nowS
  polls := 1

def Watcher.refreshPpsRate (s : Watcher) (t : BlockTemplate) (nowS : Int) (rate : ℚ) : Watcher :=
  { s.write (Store.storeRecordTemplate cfg.templateRetentionDays
      (templateRow fp cfg t nowS rate)) with
    netDifficulty := (t.priced fp).getD s.netDifficulty
    taken := t :: s.taken
    named := text t.prevHashHex :: s.named }

def passConfig : Reconcile.PassConfig :=
  ⟨cfg.poolMode = .pplnsThunder ∨ cfg.poolMode = .pplnsBtc, cfg.feeBps.bps⟩

/-- The pass, with the blocks it settled. -/
def Watcher.reconcileBlocks (s : Watcher) (node : Int → BlockHashReply) (tipHeight : Int) :
    Watcher :=
  let (_, gbh, conn) :=
    Reconcile.reconcileBlocksPass (passConfig cfg) oracle node tipHeight s.gbh s.fractions.conn
  let judged := (Reconcile.settleStatuses node tipHeight s.gbh s.fractions.conn).2
  { s with
    gbh
    fractions := { s.fractions with
      conn
      settled := if tipHeight ≤ 0 then s.fractions.settled
        else s.fractions.settled ++ Store.settledNow judged.db conn.db } }

/-- A job that is published, with the state it was built in. -/
structure Built where
  before : Watcher
  template : BlockTemplate
  job : Job
  reading : Option Reading

def Watcher.build (s : Watcher) (t : BlockTemplate) (nowMs mono : UInt64) : Option Built :=
  match buildJobFromTemplate t nowMs mono with
  | .error _ => none
  | .ok job =>
    (attachPplnsWindow fp oracle cfg s.netDifficulty s.db t job).map fun (job, reading) =>
      ⟨s, t, job, reading⟩

def Watcher.newTip (s : Watcher) (t : BlockTemplate) : Bool :=
  t.height ≠ s.lastHeight || t.prevHashHex ≠ s.lastPrevHash

/-- The state that a template is built in. -/
def Watcher.caughtUp (s : Watcher) (t : BlockTemplate) (node : Int → BlockHashReply) : Watcher :=
  if s.newTip t then s.reconcileBlocks oracle cfg node (t.height - 1) else s

/-- `main` before the server starts. -/
def Watcher.boot (s : Watcher) (t : BlockTemplate) (nowMs : UInt64) (nowS : Int) (rate : ℚ) :
    Watcher :=
  let s := { s with
    gbh := .notAsked, netDifficulty := 0, lastHeight := t.height, lastPrevHash :=
      t.prevHashHex, lastBuiltMs := nowMs
    jobs := .empty, published := none, taken := [] }
  let s := s.write fun db =>
    Store.storeFinalizeBlockHashIndex (Store.storeReconcileBlocksFromTemplates (t.height - 1) db).2
  s.refreshPpsRate fp cfg t nowS rate

/-- The job that an event publishes. -/
def Watcher.publishes (s : Watcher) : WatcherEvent → Option Built
  | .start t nowMs mono nowS rate =>
    (s.boot fp cfg t nowMs nowS rate).build fp oracle cfg t nowMs mono
  | .poll t node nowMs mono =>
    if s.newTip t ∨ 30000 < nowMs - s.lastBuiltMs then
      (s.caughtUp oracle cfg t node).build fp oracle cfg t nowMs mono
    else none
  | _ => none

/-- The window that `on_block_found_cb` snapshots. -/
def foundWindow (netDifficulty : ℚ) : ℚ :=
  if (cfg.poolMode = .pplnsThunder ∨ cfg.poolMode = .pplnsBtc) ∧ 0 < netDifficulty then
    windowSize fp cfg netDifficulty
  else 0

/-- A template whose target would be written outside its buffer has no successor, and neither
has a start without a job. -/
def Watcher.step (s : Watcher) : WatcherEvent → Option Watcher
  | .start t nowMs mono nowS rate =>
    match buildJobFromTemplate t nowMs mono with
    | .error _ => none
    | .ok _ =>
      match s.publishes fp oracle cfg (.start t nowMs mono nowS rate) with
      | some built => some { built.before with jobs := built.before.jobs.publish mono built.job }
      | none => some { s.boot fp cfg t nowMs nowS rate with lastBuiltMs := 0 }
  | .poll t node nowMs mono =>
    if s.published.isSome ∨ t.target = .error .undefined then none
    else
      match s.publishes fp oracle cfg (.poll t node nowMs mono) with
      | some built => some { built.before with
        jobs := built.before.jobs.publish mono built.job, published := some t }
      | none => some (s.caughtUp oracle cfg t node)
  | .refresh nowMs nowS rate =>
    s.published.map fun t =>
      { s.refreshPpsRate fp cfg t nowS rate with
        published := none, lastHeight := t.height, lastPrevHash := t.prevHashHex, lastBuiltMs :=
          nowMs }
  | .stage hash deltas =>
    (Store.fractionStep oracle s.fractions (.stage hash deltas)).map fun fractions =>
      { s with fractions }
  | .found jobId block =>
    match findJob s.jobs jobId with
    | none => none
    | some job =>
      if block.height = job.height then
        some (s.write (Reconcile.onBlockFoundCb (foundWindow fp cfg s.netDifficulty) block))
      else none
  | .shares workers table => some (s.write fun db => { db with workers, shares := table })

end Steps

end SimplePool.Main
