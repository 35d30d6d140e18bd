import SimplePool.Lib.Transition
import SimplePool.Payout.RunOnce

/-! A debt is paid at most once, as long as no rows are dropped under a transaction
the node already holds. -/
namespace SimplePool.Payout

/-- Two payments that discharge a common part of one worker's accrual. -/
def Debt.Overlaps (a b : Debt) : Prop :=
  a.workerId = b.workerId ∧ a.start < b.stop ∧ b.start < a.stop

instance (a b : Debt) : Decidable (a.Overlaps b) := inferInstanceAs (Decidable (_ ∧ _))

def Disjoint (a b : AcceptedTx) : Prop := ∀ d ∈ a.debts, ∀ e ∈ b.debts, ¬ d.Overlaps e

instance (a b : AcceptedTx) : Decidable (Disjoint a b) :=
  inferInstanceAs (Decidable (∀ d ∈ a.debts, _))

/-- The debt an in-flight row stands for. -/
def InFlight.debt (db : Db) (row : InFlight) : Debt :=
  ⟨row.workerId, db.paid row.workerId, row.sats⟩

/-- The batch of the call that can put a transaction on the network. -/
def Pc.submits : Pc → Option Batch
  | .creating batch | .submitting batch _ | .sending batch => some batch
  | _ => none

/-- A transaction for some of these debts has its txid on an in-flight row. -/
def Recorded (s : State) (debts : List Debt) : Prop :=
  ∀ tx ∈ s.accepted, (∃ d ∈ tx.debts, ∃ e ∈ debts, d.Overlaps e) → ∃ row ∈ s.db.inFlight,
    row.txid = tx.txid

/-- No accrual is discharged by two accepted transactions, and a batch is only
submitted when no earlier transaction for its debts is unrecorded. -/
structure AtMostOnce (s : State) : Prop where
  once : s.accepted.Pairwise Disjoint
  recorded : ∀ batch, s.pc.submits = some batch → Recorded s batch.debts

/-- The rows `abortBatch` deletes in this step. -/
def droppedRows : Event → Pc → List Nat
  | .proceed, .aborting rowIds => rowIds
  | _, _ => []

/-- `abortBatch` deletes a row of a batch whose transaction the node took. -/
def DropsAccepted (s : State) (event : Event) : Prop :=
  ∃ row ∈ s.db.inFlight, row.id ∈ droppedRows event s.pc ∧
    ∃ tx ∈ s.accepted, ∃ d ∈ tx.debts, d.Overlaps (row.debt s.db)

instance (s : State) (event : Event) : Decidable (DropsAccepted s event) :=
  inferInstanceAs (Decidable (∃ row ∈ s.db.inFlight, _))

/-- Everything the transaction was sent for has been credited. -/
def Settled (db : Db) (tx : AcceptedTx) : Prop := ∀ d ∈ tx.debts, d.stop ≤ db.paid d.workerId

def owed (db : Db) : List Debt := db.inFlight.map (InFlight.debt db)

def Known (db : Db) (workerId : Nat) : Prop := workerId ∈ db.credits.rows.map PpsCredit.workerId

/-- The rows in flight are those of this batch, and nothing sent before is open. -/
structure Holding (db : Db) (accepted : List AcceptedTx) (batch : Batch) : Prop where
  rows : db.inFlight.map InFlight.id = batch.rowIds
  debts : owed db = batch.debts
  settled : ∀ tx ∈ accepted, Settled db tx

def Positive (db : Db) : Prop := ∀ row ∈ db.inFlight, 0 < row.sats

/-- The due rows quote the ledger, and nothing is in flight. -/
structure Listed (db : Db) (due : List DueRow) : Prop where
  clear : db.inFlight = []
  distinct : (due.map DueRow.workerId).Nodup
  quoted : ∀ row ∈ due, row.paidSats = db.paid row.workerId ∧ Known db row.workerId

/-- What the tick relies on between its awaits. -/
def Pc.Holds (db : Db) (accepted : List AcceptedTx) : Pc → Prop
  | .idle | .nudging | .listing => True
  | .settling pending | .checkingWallet pending _ | .finalizing pending =>
    pending.rows = db.inFlight ∧ Positive db
  | .checkingMempool due | .checkingBalance due | .beginning due => Listed db due
  | .calling batch | .unlocking batch => Holding db accepted batch
  | .creating batch | .signing batch _ | .submitting batch _ | .sending batch =>
    Holding db accepted batch ∧ Positive db
  | .created batch _ | .submitted batch _ | .sent batch _ =>
    db.inFlight.map InFlight.id = batch.rowIds ∧ Positive db
  | .attaching rowIds _ _ => db.inFlight.map InFlight.id = rowIds ∧ Positive db
  | .aborting rowIds => db.inFlight.map InFlight.id = rowIds

/-- What the ledger and the node have in common, wherever the process is. -/
structure Ledger (db : Db) (accepted : List AcceptedTx) : Prop where
  workers : (db.inFlight.map InFlight.workerId).Nodup
  known : ∀ row ∈ db.inFlight, Known db row.workerId
  /-- There is one batch: its rows carry the same txid, or none yet. -/
  single : ∀ row ∈ db.inFlight, ∀ other ∈ db.inFlight, row.txid = other.txid
  stamped : ∀ row ∈ db.inFlight, row.txid ≠ "" → 0 < row.sats
  carried : ∀ tx ∈ accepted, Settled db tx ∨ tx.debts = owed db
  positive : ∀ tx ∈ accepted, ∀ d ∈ tx.debts, 0 < d.sats
  once : accepted.Pairwise Disjoint

structure Inv (s : State) : Prop where
  ledger : Ledger s.db s.accepted
  pc : s.pc.Holds s.db s.accepted

/-- With nothing in flight, everything the node took has been credited. -/
theorem Ledger.settled_of_clear (ledger : Ledger db accepted) (clear : db.inFlight = []) :
    ∀ tx ∈ accepted, Settled db tx := by
  intro tx member
  rcases ledger.carried tx member with settled | same
  · exact settled
  · intro d inside
    simp [same, owed, clear] at inside

theorem Ledger.of_clear (clear : db.inFlight = []) (settled : ∀ tx ∈ accepted, Settled db tx)
    (positive : ∀ tx ∈ accepted, ∀ d ∈ tx.debts, 0 < d.sats) (once : accepted.Pairwise Disjoint) :
    Ledger db accepted where
  workers := by simp [clear]
  known := by simp [clear]
  single := by simp [clear]
  stamped := by simp [clear]
  carried tx member := .inl (settled tx member)
  positive := positive
  once := once

theorem owed_frame (rows : db'.inFlight = db.inFlight)
    (paid : ∀ workerId, db'.paid workerId = db.paid workerId) :
    owed db' = owed db := by
  rw [owed, owed, rows]
  exact List.map_congr_left fun row _ => by rw [InFlight.debt, InFlight.debt, paid]

/-- A write that moves neither payments nor rows. -/
theorem Ledger.frame (ledger : Ledger db accepted) (rows : db'.inFlight = db.inFlight)
    (paid : ∀ workerId, db'.paid workerId = db.paid workerId)
    (known : ∀ workerId, Known db workerId → Known db' workerId) : Ledger db' accepted where
  workers := by rw [rows]; exact ledger.workers
  known row member := known _ (ledger.known row (rows ▸ member))
  single := by rw [rows]; exact ledger.single
  stamped := by rw [rows]; exact ledger.stamped
  carried tx member := by
    simpa only [Settled, owed_frame rows paid, paid] using ledger.carried tx member
  positive := ledger.positive
  once := ledger.once

theorem Pc.Holds.frame {pc : Pc} (holds : pc.Holds db accepted) (rows : db'.inFlight = db.inFlight)
    (paid : ∀ workerId, db'.paid workerId = db.paid workerId)
    (known : ∀ workerId, Known db workerId → Known db' workerId) : pc.Holds db' accepted := by
  have listed : ∀ due, Listed db due → Listed db' due := fun due listed =>
    { clear := rows.trans listed.clear
      distinct := listed.distinct
      quoted := fun row member => by
        rw [paid]
        exact ⟨(listed.quoted row member).1, known _ (listed.quoted row member).2⟩ }
  have holding : ∀ batch, Holding db accepted batch → Holding db' accepted batch :=
    fun batch holding =>
    { rows := by rw [rows]; exact holding.rows
      debts := (owed_frame rows paid).trans holding.debts
      settled := by simpa only [Settled, paid] using holding.settled }
  have positive : Positive db → Positive db' := by
    simp only [Positive, rows]
    exact id
  cases pc with
  | idle | nudging | listing => trivial
  | settling pending | checkingWallet pending status | finalizing pending =>
    exact ⟨holds.1.trans rows.symm, positive holds.2⟩
  | checkingMempool due | checkingBalance due | beginning due => exact listed due holds
  | calling batch | unlocking batch => exact holding batch holds
  | creating batch | signing batch outputs | submitting batch outputs | sending batch =>
    exact ⟨holding batch holds.1, positive holds.2⟩
  | created batch txid | submitted batch txid | sent batch txid =>
    exact ⟨(congrArg _ rows).trans holds.1, positive holds.2⟩
  | attaching rowIds txid nudges => exact ⟨(congrArg _ rows).trans holds.1, positive holds.2⟩
  | aborting rowIds => exact (congrArg _ rows).trans holds

theorem batchRows_map {β : Type} (f : InFlight → β) (g : BatchItem → β)
    (same : ∀ item ∈ items, ∀ i, f ⟨firstId + i, item.workerId, item.sats, "", nowSec⟩ = g item) :
    (batchRows firstId items nowSec).map f = items.map g := by
  have pairs : items.zipIdx.map Prod.fst = items := List.zipIdx_map_fst 0 items
  rw [batchRows, List.map_map]
  conv_rhs => rw [← pairs, List.map_map]
  refine List.map_congr_left fun pair member => ?_
  have inside := List.mem_map_of_mem (f := Prod.fst) member
  rw [pairs] at inside
  exact same pair.1 inside pair.2

/-- Rows of fresh debts are added only when nothing is in flight. -/
theorem beginBatch_holding (ledger : Ledger db accepted) (listed : Listed db due) :
    Ledger (beginBatch db (batchOf due) nowSec).2 accepted ∧
      Holding (beginBatch db (batchOf due) nowSec).2 accepted ⟨batchOf due,
        (beginBatch db (batchOf due) nowSec).1⟩ := by
  have rows : (beginBatch db (batchOf due) nowSec).2.inFlight =
        batchRows db.nextRowId (batchOf due) nowSec := by
    simp [beginBatch, listed.clear]
  have settled := ledger.settled_of_clear listed.clear
  have unstamped : ∀ row ∈ batchRows db.nextRowId (batchOf due) nowSec, row.txid = "" := by
    intro row member
    obtain ⟨item, _, rfl⟩ := List.mem_map.mp member
    rfl
  have workers : (batchRows db.nextRowId (batchOf due) nowSec).map InFlight.workerId =
        due.map DueRow.workerId := by
    rw [batchRows_map InFlight.workerId BatchItem.workerId (fun _ _ _ => rfl), batchOf,
      List.map_map]
    rfl
  have quoted : ∀ item ∈ batchOf due, item.paidSats = db.paid item.workerId := by
    intro item member
    obtain ⟨row, inside, rfl⟩ := List.mem_map.mp member
    exact (listed.quoted row inside).1
  constructor
  · exact
    { workers := by rw [rows, workers]; exact listed.distinct
      known := by
        intro row member
        rw [rows] at member
        have inside := List.mem_map_of_mem (f := InFlight.workerId) member
        rw [workers] at inside
        obtain ⟨dueRow, listedRow, same⟩ := List.mem_map.mp inside
        rw [← same]
        exact (listed.quoted dueRow listedRow).2
      single := by
        rw [rows]
        intro row member other otherMember
        rw [unstamped row member, unstamped other otherMember]
      stamped := by
        rw [rows]
        intro row member stamped
        exact absurd (unstamped row member) stamped
      carried := fun tx member => .inl (settled tx member)
      positive := ledger.positive
      once := ledger.once }
  · refine ⟨by rw [rows]; rfl, ?_, settled⟩
    rw [owed, rows]
    refine batchRows_map _ _ fun item member i => ?_
    rw [BatchItem.debt, quoted item member]
    rfl

theorem attachBatchTxid_ledger (txid : String) (ledger : Ledger db accepted)
    (rows : db.inFlight.map InFlight.id = rowIds)
    (positive : Positive db) : Ledger (attachBatchTxid db rowIds txid) accepted := by
  have stamped := attachBatchTxid_inFlight rows txid
  have same : owed (attachBatchTxid db rowIds txid) = owed db := by
    rw [owed, stamped, List.map_map]
    rfl
  exact
  { workers := by
      rw [stamped, List.map_map]
      exact ledger.workers
    known := by
      intro row member
      rw [stamped] at member
      obtain ⟨old, inside, rfl⟩ := List.mem_map.mp member
      exact ledger.known old inside
    single := by
      rw [stamped]
      intro row member other otherMember
      obtain ⟨_, _, rfl⟩ := List.mem_map.mp member
      obtain ⟨_, _, rfl⟩ := List.mem_map.mp otherMember
      rfl
    stamped := by
      rw [stamped]
      intro row member _
      obtain ⟨old, inside, rfl⟩ := List.mem_map.mp member
      exact positive old inside
    carried := by
      rw [same]
      exact ledger.carried
    positive := ledger.positive
    once := ledger.once }

/-- Dropping the rows of a batch is safe when the node took nothing for them. -/
theorem abortBatch_ledger (ledger : Ledger db accepted)
    (rows : db.inFlight.map InFlight.id = rowIds)
    (unsent : ∀ row ∈ db.inFlight, ∀ tx ∈ accepted, ∀ d ∈ tx.debts, ¬ d.Overlaps (row.debt db)) :
    Ledger (abortBatch db rowIds) accepted := by
  refine Ledger.of_clear (abortBatch_clear rows) ?_ ledger.positive ledger.once
  intro tx member
  rcases ledger.carried tx member with settled | same
  · exact settled
  · -- a transaction that still stands for the rows would overlap each of its own debts
    intro d inside
    obtain ⟨row, inFlight, rfl⟩ := List.mem_map.mp (same ▸ inside)
    have positive := ledger.positive tx member _ inside
    refine absurd ⟨rfl, ?_, ?_⟩ (unsent row inFlight tx member _ inside) <;>
      simp only [Debt.stop] <;> omega

theorem finalizeBatch_ledger (ledger : Ledger db accepted) (positive : Positive db) :
    Ledger (finalizeBatch db db.inFlight fee txid nowSec) accepted := by
  refine Ledger.of_clear (finalizeBatch_inFlight db fee txid nowSec) ?_ ledger.positive ledger.once
  intro tx member d inside
  rcases ledger.carried tx member with settled | same
  · exact (settled d inside).trans (finalizeBatch_paid_le positive d.workerId)
  · obtain ⟨row, inFlight, rfl⟩ := List.mem_map.mp (same ▸ inside)
    exact finalizeBatch_paid_row positive inFlight (ledger.known row inFlight)

variable {s t : State}

theorem Inv.idle (ledger : Ledger s.db s.accepted) : Inv { s with pc := .idle } := ⟨ledger, trivial⟩

theorem nudge_inv (ledger : Ledger s.db s.accepted) : Inv (nudge cfg force s) := by
  dsimp only [nudge]
  apply iteInduction
  · exact fun _ => Inv.idle ledger
  · exact fun _ => ⟨ledger, trivial⟩

theorem blocked_inv (ledger : Ledger s.db s.accepted) : Inv (blocked cfg pending state s) := by
  rw [blocked]
  split
  next => exact nudge_inv ledger
  next => exact Inv.idle ledger

theorem selectDue_subset (cfg : Config) (memory : Memory) (due : List DueRow) :
    (selectDue cfg memory due).Sublist due := by
  rw [selectDue]
  split
  next => exact List.Sublist.refl _
  next =>
    simp only [largestGroup]
    cases first : List.head? _ with
    | none => exact List.nil_sublist _
    | some group =>
      have member := List.mem_of_mem_head? first
      rw [List.mem_insertionSort] at member
      obtain ⟨address, _, rfl⟩ := List.mem_map.mp member
      exact List.filter_sublist

theorem startBatch_inv (ledger : Ledger s.db s.accepted) : Inv (startBatch cfg s) := by
  rw [startBatch]
  split
  next => exact Inv.idle ledger
  next outstanding =>
    simp only
    split
    next => exact Inv.idle ledger
    next started =>
      have live : cfg.dryRun = false := by
        cases dry : cfg.dryRun with
        | false => rfl
        | true => simp [dry] at started
      have clear : s.db.inFlight = [] := by simpa [live] using outstanding
      have chosen := selectDue_subset cfg s.memory (listDue s.db cfg.minSats cfg.maxPerTick)
      have listed :
          Listed s.db (selectDue cfg s.memory (listDue s.db cfg.minSats cfg.maxPerTick)) :=
        { clear
          distinct := (listDue_nodup _ _ _).sublist (chosen.map _)
          quoted := by
            intro row member
            obtain ⟨known, paid, _⟩ := listDue_quotes (chosen.subset member)
            exact ⟨paid, known⟩ }
      split
      next => exact ⟨ledger, listed⟩
      next => exact ⟨ledger, listed⟩

theorem firstCall_inv (ledger : Ledger s.db s.accepted) (holding : Holding s.db s.accepted batch) :
    Inv (firstCall cfg batch s) := by
  rw [firstCall]
  split
  next => exact ⟨ledger, holding.rows⟩
  next valid =>
    have amounts : ∀ item ∈ batch.items, 0 < item.sats := by
      simp only [validAmounts, Bool.not_eq_true', Bool.not_eq_false, Bool.and_eq_true,
        List.all_eq_true, decide_eq_true_eq] at valid
      exact valid.1
    have positive : Positive s.db := by
      intro row member
      have inside : row.debt s.db ∈ batch.debts := holding.debts ▸ List.mem_map_of_mem member
      obtain ⟨item, listed, same⟩ := List.mem_map.mp inside
      have sats : item.sats = row.sats := congrArg Debt.sats same
      exact sats ▸ amounts item listed
    split
    next => exact ⟨ledger, holding, positive⟩
    next => exact ⟨ledger, holding, positive⟩

theorem pendingBatch_rows (ledger : Ledger db accepted) (found : pendingBatch db = some pending) :
    pending.rows = db.inFlight ∧ Positive db := by
  obtain ⟨whole, _, stamped, same⟩ := pendingBatch_whole ledger.single found
  refine ⟨whole, fun row inside => ?_⟩
  exact ledger.stamped row inside (same row inside ▸ stamped)

theorem tick_inv (inv : Inv s) (stepped : step cfg s .tick = some t) : Inv t := by
  simp only [step] at stepped
  split at stepped
  next =>
    split at stepped
    next pending found =>
      obtain rfl := Option.some.inj stepped
      refine ⟨inv.ledger, ?_⟩
      show (if cfg.dryRun then Pc.listing else Pc.settling pending).Holds s.db s.accepted
      split
      next => trivial
      next => exact pendingBatch_rows inv.ledger found
    next =>
      obtain rfl := Option.some.inj stepped
      exact ⟨inv.ledger, trivial⟩
  next => contradiction

theorem accept_inv (inv : Inv s) (stepped : accept s txid = some t) : Inv t := by
  have take : ∀ batch outputs pc, Holding s.db s.accepted batch ∧ Positive s.db →
      (s.db.inFlight.map InFlight.id = batch.rowIds ∧ Positive s.db →
        Pc.Holds s.db (⟨txid, outputs, batch.debts⟩ :: s.accepted) pc) →
      Inv { s with accepted := ⟨txid, outputs, batch.debts⟩ :: s.accepted, pc } := by
    intro batch outputs pc holds next
    obtain ⟨holding, positive⟩ := holds
    refine ⟨?_, next ⟨holding.rows, positive⟩⟩
    have rowOf : ∀ d ∈ batch.debts, ∃ row ∈ s.db.inFlight, row.debt s.db = d := by
      rw [← holding.debts]
      exact fun d inside => List.mem_map.mp inside
    exact
    { workers := inv.ledger.workers
      known := inv.ledger.known
      single := inv.ledger.single
      stamped := inv.ledger.stamped
      carried := by
        intro tx member
        rcases List.mem_cons.mp member with rfl | old
        · exact .inr holding.debts.symm
        · exact inv.ledger.carried tx old
      positive := by
        intro tx member d inside
        rcases List.mem_cons.mp member with rfl | old
        · obtain ⟨row, inFlight, rfl⟩ := rowOf d inside
          exact positive row inFlight
        · exact inv.ledger.positive tx old d inside
      once := by
        refine List.pairwise_cons.mpr ⟨?_, inv.ledger.once⟩
        -- the older transactions end where the ledger stands, and the new one starts there
        intro tx old d inside e other overlap
        obtain ⟨row, inFlight, rfl⟩ := rowOf d inside
        obtain ⟨worker, before, _⟩ := overlap
        have settled := holding.settled tx old e other
        rw [← worker] at settled
        exact absurd settled (not_le.mpr before) }
  simp only [accept] at stepped
  split at stepped
  next => contradiction
  next =>
    have pc := inv.pc
    split at stepped
    next batch here =>
      obtain rfl := Option.some.inj stepped
      rw [here] at pc
      exact take batch _ _ pc id
    next batch outputs here =>
      obtain rfl := Option.some.inj stepped
      rw [here] at pc
      exact take batch _ _ pc id
    next batch here =>
      obtain rfl := Option.some.inj stepped
      rw [here] at pc
      exact take batch _ _ pc id
    next => contradiction

theorem proceed_inv (inv : Inv s) (safe : ¬ DropsAccepted s .proceed)
    (stepped : proceed cfg s = some t) : Inv t := by
  have pc := inv.pc
  simp only [proceed] at stepped
  split at stepped
  next pending here =>
    obtain rfl := Option.some.inj stepped
    rw [here] at pc
    refine ⟨?_, trivial⟩
    rw [pc.1]
    exact finalizeBatch_ledger inv.ledger pc.2
  next =>
    obtain rfl := Option.some.inj stepped
    exact startBatch_inv inv.ledger
  next due here =>
    obtain rfl := Option.some.inj stepped
    rw [here] at pc
    obtain ⟨ledger, holding⟩ := beginBatch_holding inv.ledger pc
    exact ⟨ledger, holding⟩
  next batch here =>
    rw [here] at pc
    split at stepped
    next =>
      obtain rfl := Option.some.inj stepped
      exact ⟨inv.ledger, pc⟩
    next =>
      obtain rfl := Option.some.inj stepped
      exact firstCall_inv inv.ledger pc
  next rowIds txid nudges here =>
    rw [here] at pc
    have ledger := attachBatchTxid_ledger txid inv.ledger pc.1 pc.2
    obtain rfl := Option.some.inj stepped
    split
    next => exact nudge_inv ledger
    next => exact ⟨ledger, trivial⟩
  next rowIds here =>
    obtain rfl := Option.some.inj stepped
    rw [here] at pc
    refine ⟨abortBatch_ledger inv.ledger pc ?_, trivial⟩
    intro row member tx accepted d inside overlap
    apply safe
    refine ⟨row, member, ?_, tx, accepted, d, inside, overlap⟩
    rw [here, ← pc]
    exact List.mem_map_of_mem member
  next => contradiction

theorem replied_inv (inv : Inv s) (stepped : replied s = some t) : Inv t := by
  have pc := inv.pc
  simp only [replied] at stepped
  split at stepped
  case h_4 => contradiction
  all_goals
    next here =>
      obtain rfl := Option.some.inj stepped
      rw [here] at pc
      exact ⟨inv.ledger, pc⟩

theorem lost_inv (inv : Inv s) (stepped : lost s = some t) : Inv t := by
  have pc := inv.pc
  simp only [lost] at stepped
  split at stepped
  case h_4 => contradiction
  all_goals
    next here =>
      obtain rfl := Option.some.inj stepped
      rw [here] at pc
      exact ⟨inv.ledger, pc.1⟩

theorem failed_inv (inv : Inv s) (stepped : failed s = some t) : Inv t := by
  have pc := inv.pc
  simp only [failed] at stepped
  split at stepped
  case h_1 here =>
    obtain rfl := Option.some.inj stepped
    rw [here] at pc
    exact ⟨inv.ledger, pc.rows⟩
  case h_10 => contradiction
  case h_2 here | h_3 here | h_4 here | h_5 here =>
    obtain rfl := Option.some.inj stepped
    rw [here] at pc
    exact ⟨inv.ledger, pc.1.rows⟩
  all_goals
    obtain rfl := Option.some.inj stepped
    exact Inv.idle inv.ledger

theorem txStatus_inv (inv : Inv s) (stepped : step cfg s (.txStatus status) = some t) : Inv t := by
  have pc := inv.pc
  simp only [step] at stepped
  split at stepped
  next pending here =>
    obtain rfl := Option.some.inj stepped
    rw [here] at pc
    refine ⟨inv.ledger, ?_⟩
    dsimp only
    split
    next => exact pc
    next => exact pc
  next => contradiction

theorem utxos_inv (inv : Inv s) (stepped : step cfg s (.utxos reply) = some t) : Inv t := by
  have pc := inv.pc
  simp only [step] at stepped
  split at stepped
  next pending status here =>
    rw [here] at pc
    split at stepped
    next =>
      obtain rfl := Option.some.inj stepped
      exact ⟨inv.ledger, pc⟩
    next =>
      obtain rfl := Option.some.inj stepped
      exact blocked_inv inv.ledger
  next => contradiction

theorem mempool_inv (inv : Inv s) (stepped : step cfg s (.mempool reply) = some t) : Inv t := by
  have pc := inv.pc
  simp only [step] at stepped
  split at stepped
  next due here =>
    obtain rfl := Option.some.inj stepped
    rw [here] at pc
    refine ⟨inv.ledger, ?_⟩
    dsimp only
    split
    next => trivial
    next => exact pc
  next => contradiction

theorem balance_inv (inv : Inv s) (stepped : step cfg s (.balance reply) = some t) : Inv t := by
  have pc := inv.pc
  simp only [step] at stepped
  split at stepped
  next due available here =>
    obtain rfl := Option.some.inj stepped
    rw [here] at pc
    refine ⟨inv.ledger, ?_⟩
    dsimp only
    split
    next => trivial
    next => exact pc
  next =>
    obtain rfl := Option.some.inj stepped
    exact Inv.idle inv.ledger
  next => contradiction

theorem unlocked_inv (inv : Inv s) (stepped : step cfg s .unlocked = some t) : Inv t := by
  have pc := inv.pc
  simp only [step] at stepped
  split at stepped
  next batch here =>
    obtain rfl := Option.some.inj stepped
    rw [here] at pc
    exact firstCall_inv inv.ledger pc
  next => contradiction

theorem unsigned_inv (inv : Inv s) (stepped : step cfg s (.unsigned outputs) = some t) : Inv t := by
  have pc := inv.pc
  simp only [step] at stepped
  split at stepped
  next batch here =>
    rw [here] at pc
    split at stepped
    next =>
      obtain rfl := Option.some.inj stepped
      exact ⟨inv.ledger, pc⟩
    next =>
      obtain rfl := Option.some.inj stepped
      exact ⟨inv.ledger, pc.1.rows⟩
  next => contradiction

/-- One step keeps the invariant unless it drops the rows of an accepted batch. -/
theorem step_inv (inv : Inv s) (safe : ¬ DropsAccepted s event)
    (stepped : step cfg s event = some t) : Inv t := by
  cases event with
  | accrue workerId sats =>
    simp only [step] at stepped
    split at stepped
    next =>
      obtain rfl := Option.some.inj stepped
      have paid := Db.paid_accrue s.db workerId sats
      have known := fun other => Credits.mem_accrue s.db.credits workerId sats other
      exact ⟨inv.ledger.frame rfl paid known, inv.pc.frame rfl paid known⟩
    next => contradiction
  | register worker =>
    obtain rfl := Option.some.inj stepped
    exact ⟨inv.ledger.frame rfl (fun _ => rfl) (fun _ => id),
      inv.pc.frame rfl (fun _ => rfl) (fun _ => id)⟩
  | wait ms =>
    obtain rfl := Option.some.inj stepped
    exact ⟨inv.ledger, inv.pc⟩
  | crash =>
    obtain rfl := Option.some.inj stepped
    exact ⟨inv.ledger, trivial⟩
  | tick => exact tick_inv inv stepped
  | proceed => exact proceed_inv inv safe stepped
  | accept txid => exact accept_inv inv stepped
  | replied => exact replied_inv inv stepped
  | lost => exact lost_inv inv stepped
  | failed => exact failed_inv inv stepped
  | txStatus status => exact txStatus_inv inv stepped
  | utxos reply => exact utxos_inv inv stepped
  | mempool reply => exact mempool_inv inv stepped
  | balance reply => exact balance_inv inv stepped
  | unlocked => exact unlocked_inv inv stepped
  | unsigned outputs => exact unsigned_inv inv stepped
  | signed =>
    have pc := inv.pc
    simp only [step] at stepped
    split at stepped
    next here =>
      obtain rfl := Option.some.inj stepped
      rw [here] at pc
      exact ⟨inv.ledger, pc⟩
    next => contradiction
  | mined =>
    simp only [step] at stepped
    split at stepped
    next =>
      obtain rfl := Option.some.inj stepped
      exact Inv.idle inv.ledger
    next => contradiction

theorem Inv.atMostOnce (inv : Inv s) : AtMostOnce s where
  once := inv.ledger.once
  recorded batch submits := by
    have holding : Holding s.db s.accepted batch := by
      have pc := inv.pc
      cases here : s.pc with
      | creating current | submitting current outputs | sending current =>
        rw [here] at pc submits
        obtain rfl := Option.some.inj submits
        exact pc.1
      | _ =>
        rw [here] at submits
        contradiction
    -- no transaction of the past reaches into a debt that is being sent
    intro tx member overlapping
    obtain ⟨d, inside, e, sending, worker, _, before⟩ := overlapping
    rw [← holding.debts] at sending
    obtain ⟨row, _, rfl⟩ := List.mem_map.mp sending
    have settled := holding.settled tx member d inside
    rw [worker] at settled
    exact absurd settled (not_le.mpr before)

/-- The ledger before the first payout. -/
structure Fresh (s : State) : Prop where
  clear : s.db.inFlight = []
  unsent : s.accepted = []
  idle : s.pc = .idle

theorem Fresh.inv (fresh : Fresh s) : Inv s where
  ledger := by
    refine Ledger.of_clear fresh.clear ?_ ?_ ?_ <;> simp [fresh.unsent]
  pc := by rw [fresh.idle]; trivial

/-- Along every run from an empty queue, through any crashes and failures, debts are
paid at most once if no rows are dropped under an accepted transaction. -/
theorem payout_at_most_once (cfg : Config) (s : State) (events : List Event) (fresh : Fresh s)
    (safe : Transition.Along (step cfg) (fun s event _ => ¬ DropsAccepted s event) s events) :
    Transition.Along (step cfg) (fun _ _ t => AtMostOnce t) s events :=
  Transition.Along.of_invariant
    (fun _ _ _ inv safe stepped => ⟨step_inv inv safe stepped,
      (step_inv inv safe stepped).atMostOnce⟩)
    fresh.inv safe

/-- One worker with an address, on the enforcer's wallet. -/
def soleWorker : State where
  db := ⟨[⟨1, some "tb1qminer"⟩], ⟨[], List.nodup_nil⟩, [], [], 1⟩
  accepted := []
  nowMs := 0
  memory := .fresh
  pc := .idle

def enforcerConfig : Config := ⟨.enforcer, 10000, 50, false, false, 0, 0, false⟩

/-- A tick up to its `SendTransaction`. -/
def sendTick : List Event := [.tick, .proceed, .balance (some 1000000), .proceed, .proceed]

/-- A call fails cleanly and is aborted, the next one goes out, and the process dies
after it has recorded the txid; the batch is settled after the restart. -/
def crashRun : List Event :=
  .accrue 1 20000 :: sendTick ++ [.failed, .proceed] ++ sendTick ++
    [.accept "a1", .replied, .proceed, .crash, .tick, .txStatus ⟨true, true, false⟩, .proceed,
      .proceed]

theorem payout_at_most_once_crash :
    (Transition.run (step enforcerConfig) soleWorker crashRun).map
      (fun s => (s.accepted.length, s.db.payouts.length)) =
        some (1, 1) ∧
      Transition.Along (step enforcerConfig) (fun _ _ t => AtMostOnce t) soleWorker crashRun :=
  ⟨by decide +kernel,
    payout_at_most_once enforcerConfig soleWorker crashRun ⟨rfl, rfl, rfl⟩ (by decide +kernel)⟩

/-- The node sends the payment and its answer is lost. The tick aborts, and the next
one sends the same debt again. -/
def lostRun : List Event :=
  .accrue 1 20000 :: sendTick ++ [.accept "a1", .lost, .proceed] ++ sendTick ++ [.accept "a2"]

theorem payout_lost_reply :
    Fresh soleWorker ∧
    ¬ Transition.Along (step enforcerConfig) (fun _ _ t => AtMostOnce t) soleWorker lostRun := by
  have fresh : Fresh soleWorker := ⟨rfl, rfl, rfl⟩
  refine ⟨fresh, fun along => ?_⟩
  have twice : (Transition.run (step enforcerConfig) soleWorker lostRun).map
      (fun s => decide (s.accepted.Pairwise Disjoint)) = some false := by decide +kernel
  obtain ⟨final, ran, overlapping⟩ := Option.map_eq_some_iff.mp twice
  exact of_decide_eq_false overlapping (along.final fresh.inv.atMostOnce ran).once

end SimplePool.Payout
