import Mathlib.Data.Rat.Defs
import SimplePool.Lib.KeyedTable
import SimplePool.Lib.KeysetPages

/-! The slipstream service's database: every submission, a row for each accepted transaction
with where it stands, and every change of that. -/
namespace SimplePool.Slipstream

inductive Status where
  | pending | inTemplate | mined | confirmed | dropped
deriving DecidableEq, Repr

def openStatuses : List Status := [.pending, .inTemplate]

structure Submission where
  ts : Nat
  submitter : Option String
  txid : Option String
  rawHex : String
  accepted : Bool
  rejectReason : Option String
deriving DecidableEq, Repr

/-- A row of `slipstream_txs`. -/
structure Row where
  txid : String
  wtxid : String
  rawHex : String
  vsize : Nat
  weight : Nat
  feeSats : Int
  feeRate : ℚ
  requiredFeeRate : ℚ
  submittedAt : Nat
  submittedHeight : Option Int
  submitter : Option String
  status : Status
  statusReason : Option String
  statusAt : Nat
  firstInTemplateAt : Option Nat
  lastInTemplateAt : Option Nat
  minedBlockHash : Option String
  minedHeight : Option Int
  minedAt : Option Nat
  minedByPool : Option Bool
  confirmations : Option Int
  confirmedAt : Option Nat
  resubmissions : Nat
deriving DecidableEq, Repr

/-- A column with the value that is written to it. -/
inductive Column where
  | rawHex (value : String)
  | feeSats (value : Int)
  | feeRate (value : ℚ)
  | requiredFeeRate (value : ℚ)
  | submittedAt (value : Nat)
  | submittedHeight (value : Option Int)
  | firstInTemplateAt (value : Option Nat)
  | lastInTemplateAt (value : Option Nat)
  | minedBlockHash (value : Option String)
  | minedHeight (value : Option Int)
  | minedAt (value : Option Nat)
  | minedByPool (value : Option Bool)
  | confirmations (value : Option Int)
  | confirmedAt (value : Option Nat)
  | resubmissions (value : Nat)

def Column.write : Column → Row → Row
  | .rawHex value, row => { row with rawHex := value }
  | .feeSats value, row => { row with feeSats := value }
  | .feeRate value, row => { row with feeRate := value }
  | .requiredFeeRate value, row => { row with requiredFeeRate := value }
  | .submittedAt value, row => { row with submittedAt := value }
  | .submittedHeight value, row => { row with submittedHeight := value }
  | .firstInTemplateAt value, row => { row with firstInTemplateAt := value }
  | .lastInTemplateAt value, row => { row with lastInTemplateAt := value }
  | .minedBlockHash value, row => { row with minedBlockHash := value }
  | .minedHeight value, row => { row with minedHeight := value }
  | .minedAt value, row => { row with minedAt := value }
  | .minedByPool value, row => { row with minedByPool := value }
  | .confirmations value, row => { row with confirmations := value }
  | .confirmedAt value, row => { row with confirmedAt := value }
  | .resubmissions value, row => { row with resubmissions := value }

def Row.set (row : Row) (fields : List Column) : Row :=
  fields.foldl (fun row column => column.write row) row

/-- The `detail` that a status change is recorded with. -/
inductive Note where
  | none
  | block (hash : String) (height : Option Int)
  | after (why : String)
  | resubmittedBy (who : String)
deriving DecidableEq, Repr

inductive EventKind where
  | accepted (feeSats : Int) (feeRate requiredFeeRate : ℚ)
  | status (status : Status) (reason : Option String) (note : Note)
  | rebroadcast (after : String)
deriving DecidableEq, Repr

structure TxEvent where
  txid : String
  ts : Nat
  kind : EventKind
deriving DecidableEq, Repr

/-- Submissions and events stand latest first. -/
structure Store where
  submissions : List Submission
  txs : List Row
  events : List TxEvent

def Store.empty : Store := ⟨[], [], []⟩

def Store.logSubmission (store : Store) (submission : Submission) : Store :=
  { store with submissions := submission :: store.submissions }

def Store.event (store : Store) (txid : String) (ts : Nat) (kind : EventKind) : Store :=
  { store with events := ⟨txid, ts, kind⟩ :: store.events }

def Store.get (store : Store) (txid : String) : Option Row :=
  store.txs.find? fun row => row.txid = txid

def Store.update (store : Store) (txid : String) (write : Row → Row) : Store :=
  { store with txs := store.txs.map fun row => if row.txid = txid then write row else row }

/-- The insertion throws when the primary key is taken. -/
def Store.insertAccepted (store : Store) (row : Row) (ts : Nat) : Option Store :=
  if (store.get row.txid).isSome then none
  else
    some (Store.event { store with txs := store.txs ++ [row] } row.txid ts
      (.accepted row.feeSats row.feeRate row.requiredFeeRate))

def Row.move (row : Row) (status : Status) (reason : Option String) (statusAt : Nat) : Row :=
  { row with status, statusReason := reason, statusAt }

/-- Move a row to `status` and record the change; nothing is done where nothing changes, and
nothing is recorded where only `fields` change. -/
def Store.setStatus (store : Store) (txid : String) (status : Status) (ts : Nat)
    (reason : Option String) (fields : List Column) (note : Note) : Store :=
  match store.get txid with
  | none => store
  | some row =>
    let changed : Bool := row.status ≠ status || row.statusReason ≠ reason
    let extra := fields.filter fun column => column.write row ≠ row
    if !changed && extra.isEmpty then store
    else
      let store := store.update txid fun row =>
        (row.move status reason (if changed then ts else row.statusAt)).set extra
      if changed then store.event txid ts (.status status reason note) else store

/-- Columns set without an event. -/
def Store.touch (store : Store) (txid : String) (fields : List Column) : Store :=
  store.update txid fun row => row.set fields

/-- The oldest first, and those of one second in any order. -/
abbrev SubmittedOrder := KeysetPages.Listing fun row : Row => OrderDual.toDual row.submittedAt

def Store.byStatus (store : Store) (sqlite : SubmittedOrder) (statuses : List Status) : List Row :=
  sqlite.list (store.txs.filter fun row => row.status ∈ statuses)

section

variable {store store' : Store} {row : Row} {txid : String}

theorem Column.write_txid (column : Column) (row : Row) : (column.write row).txid = row.txid := by
  cases column <;> rfl

theorem Row.set_txid (row : Row) (fields : List Column) : (row.set fields).txid = row.txid := by
  induction fields generalizing row with
  | nil => rfl
  | cons column rest ih => exact (ih (column.write row)).trans (column.write_txid row)

/-- The transactions that have a row. -/
def Store.tracked (store : Store) : List String := store.txs.map Row.txid

theorem Store.get_isSome_iff (store : Store) (txid : String) :
    (store.get txid).isSome ↔ txid ∈ store.tracked := by
  rw [Store.get, List.find?_isSome, Store.tracked, List.mem_map]
  simp only [decide_eq_true_eq]

theorem Store.get_txid (found : store.get txid = some row) : row.txid = txid :=
  of_decide_eq_true (List.find?_some (p := fun row : Row => decide (row.txid = txid)) found)

theorem Store.get_update (store : Store) (txid : String) {write : Row → Row}
    (kept : ∀ row, (write row).txid = row.txid) (other : String) :
    (store.update txid write).get other = if other = txid then (store.get other).map write
      else store.get other := by
  rw [Store.get, Store.update, KeyedTable.find_update kept]
  split_ifs
  · rfl
  · exact Option.map_id_apply

theorem Store.update_tracked (store : Store) (txid : String) {write : Row → Row}
    (kept : ∀ row, (write row).txid = row.txid) :
    (store.update txid write).tracked = store.tracked := by
  rw [Store.tracked, Store.tracked, Store.update, List.map_map]
  refine List.map_congr_left fun row _ => ?_
  dsimp only [Function.comp]
  split_ifs
  · exact kept row
  · rfl

theorem Store.touch_tracked (store : Store) (txid : String) (fields : List Column) :
    (store.touch txid fields).tracked = store.tracked :=
  store.update_tracked txid fun row => row.set_txid fields

theorem Store.setStatus_tracked (store : Store) (txid : String) (status : Status) (ts : Nat)
    (reason : Option String) (fields : List Column) (note : Note) :
    (store.setStatus txid status ts reason fields note).tracked = store.tracked := by
  rw [Store.setStatus]
  split
  next => rfl
  next =>
    dsimp only
    split_ifs
    · rfl
    · exact store.update_tracked txid fun row => Row.set_txid _ _
    · exact store.update_tracked txid fun row => Row.set_txid _ _

theorem Store.setStatus_submissions (store : Store) (txid : String) (status : Status) (ts : Nat)
    (reason : Option String) (fields : List Column) (note : Note) :
    (store.setStatus txid status ts reason fields note).submissions = store.submissions := by
  rw [Store.setStatus]
  split
  next => rfl
  next =>
    dsimp only
    split_ifs
    · rfl
    · rfl
    · rfl

theorem Store.insertAccepted_some (inserted : store.insertAccepted row ts = some store') :
    store'.tracked = store.tracked ++ [row.txid] ∧ store'.submissions = store.submissions ∧
    row.txid ∉ store.tracked := by
  rw [Store.insertAccepted] at inserted
  split_ifs at inserted with taken
  obtain rfl := Option.some.inj inserted
  rw [Store.get_isSome_iff] at taken
  exact ⟨List.map_append, rfl, taken⟩

end

end SimplePool.Slipstream
