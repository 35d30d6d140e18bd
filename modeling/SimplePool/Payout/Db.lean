import Mathlib.Algebra.Order.BigOperators.Group.List
import Mathlib.Algebra.Order.Ring.Int
import Mathlib.Data.List.Nodup
import Mathlib.Data.List.Sort

/-! The tables the payout worker reads and writes, and the operations of db.js on
them. Each operation is one sqlite transaction. -/
namespace SimplePool.Payout

structure Worker where
  id : Nat
  payoutAddress : Option String
deriving DecidableEq, Repr

structure PpsCredit where
  workerId : Nat
  accruedSats : Int
  paidSats : Int
deriving DecidableEq, Repr

/-- `payouts_in_flight`. The txid is empty until one is attached. -/
structure InFlight where
  id : Nat
  workerId : Nat
  sats : Int
  txid : String
  startedAt : Nat
deriving DecidableEq, Repr

structure PayoutRow where
  workerId : Nat
  sats : Int
  feeSats : Int
  txid : String
  paidAt : Nat
deriving DecidableEq, Repr

/-- `pps_credits` has one row per worker. -/
structure Credits where
  rows : List PpsCredit
  keyed : (rows.map PpsCredit.workerId).Nodup

structure Db where
  workers : List Worker
  credits : Credits
  inFlight : List InFlight
  payouts : List PayoutRow
  nextRowId : Nat

def Credits.find (t : Credits) (workerId : Nat) : Option PpsCredit :=
  t.rows.find? (fun row => row.workerId = workerId)

def Db.paid (db : Db) (workerId : Nat) : Int :=
  ((db.credits.find workerId).map PpsCredit.paidSats).getD 0

def Db.accrued (db : Db) (workerId : Nat) : Int :=
  ((db.credits.find workerId).map PpsCredit.accruedSats).getD 0

def Credits.update (t : Credits) (f : PpsCredit → PpsCredit)
    (key : ∀ row, (f row).workerId = row.workerId) :
    Credits where
  rows := t.rows.map f
  keyed := by simpa only [List.map_map, Function.comp_def, key] using t.keyed

/-- The proxy's credit upsert. -/
def Credits.accrue (t : Credits) (workerId : Nat) (sats : Int) : Credits :=
  if known : workerId ∈ t.rows.map PpsCredit.workerId then
    t.update (fun row => if row.workerId = workerId
      then { row with accruedSats := row.accruedSats + sats } else row)
      (fun row => by split <;> rfl)
  else
    { rows := t.rows ++ [⟨workerId, sats, 0⟩]
      keyed := by
        rw [List.map_append, List.map_singleton, List.nodup_append]
        exact ⟨t.keyed, List.nodup_singleton _, fun a old b new => by
          obtain rfl := List.mem_singleton.mp new
          exact fun same => known (same ▸ old)⟩ }

def Credits.pay (t : Credits) (workerId : Nat) (sats : Int) : Credits :=
  t.update (fun row => if row.workerId = workerId then { row with paidSats := row.paidSats + sats }
    else row)
    (fun row => by split <;> rfl)

theorem Credits.find_update (t : Credits) (f : PpsCredit → PpsCredit)
    (key : ∀ row, (f row).workerId = row.workerId)
    (workerId : Nat) : (t.update f key).find workerId = (t.find workerId).map f := by
  simp only [Credits.find, Credits.update, List.find?_map, Function.comp_def, key]

theorem Credits.find_of_mem (t : Credits) (row : PpsCredit) (member : row ∈ t.rows) :
    t.find row.workerId = some row := by
  cases found : t.find row.workerId with
  | none =>
    have missing := List.find?_eq_none.mp found row member
    simp at missing
  | some other =>
    have same : other.workerId = row.workerId := by simpa using List.find?_some found
    have injective := List.inj_on_of_nodup_map t.keyed
    rw [injective (List.mem_of_find?_eq_some found) member same]

theorem Credits.find_isSome (t : Credits) (workerId : Nat) :
    (t.find workerId).isSome ↔ workerId ∈ t.rows.map PpsCredit.workerId := by
  simp [Credits.find]

/-- Accrual never moves what has been paid. -/
theorem Db.paid_accrue (db : Db) (accruing : Nat) (sats : Int) (workerId : Nat) :
    Db.paid { db with credits := db.credits.accrue accruing sats } workerId = db.paid workerId := by
  simp only [Db.paid, Credits.accrue]
  split
  next =>
    rw [Credits.find_update]
    cases db.credits.find workerId with
    | none => rfl
    | some row =>
      simp only [Option.map_some, Option.getD_some]
      split <;> rfl
  next =>
    simp only [Credits.find, List.find?_append, List.find?_singleton]
    cases found : db.credits.rows.find? (fun row => row.workerId = workerId) with
    | some row => rfl
    | none =>
      simp only [Option.none_or, Option.map_none, Option.getD_none]
      split <;> rfl

theorem Credits.mem_accrue (t : Credits) (accruing : Nat) (sats : Int) (workerId : Nat)
    (known : workerId ∈ t.rows.map PpsCredit.workerId) :
    workerId ∈ (t.accrue accruing sats).rows.map PpsCredit.workerId := by
  obtain ⟨row, member, rfl⟩ := List.mem_map.mp known
  simp only [Credits.accrue]
  split
  next =>
    refine List.mem_map.mpr ⟨_, List.mem_map_of_mem member, ?_⟩
    split <;> rfl
  next => exact List.mem_map_of_mem (List.mem_append_left _ member)

theorem Db.paid_pay (db : Db) (paying : Nat) (sats : Int) (workerId : Nat)
    (known : workerId ∈ db.credits.rows.map PpsCredit.workerId) :
    ((((db.credits.pay paying sats).find workerId).map PpsCredit.paidSats).getD 0) =
      db.paid workerId + if paying = workerId then sats else 0 := by
  simp only [Credits.pay, Credits.find_update, Db.paid]
  cases found : db.credits.find workerId with
  | none =>
    have some := (Credits.find_isSome db.credits workerId).mpr known
    simp [found] at some
  | some row =>
    have same : row.workerId = workerId := by simpa using List.find?_some found
    simp only [Option.map_some, Option.getD_some, same, eq_comm]
    split <;> simp

theorem Credits.mem_pay (t : Credits) (paying : Nat) (sats : Int) :
    (t.pay paying sats).rows.map PpsCredit.workerId = t.rows.map PpsCredit.workerId := by
  simp only [Credits.pay, Credits.update, List.map_map]
  refine List.map_congr_left fun row _ => ?_
  simp only [Function.comp_def]
  split <;> rfl

structure DueRow where
  workerId : Nat
  thunderAddress : String
  accruedSats : Int
  paidSats : Int
deriving DecidableEq, Repr

def DueRow.owedSats (row : DueRow) : Int := row.accruedSats - row.paidSats

/-- One joined row of `listDue`, if it passes the WHERE clause. -/
def dueRow (db : Db) (minSats : Int) (credit : PpsCredit) : Option DueRow :=
  match db.workers.find? (fun w => w.id = credit.workerId) with
  | some ⟨_, some address⟩ =>
    if minSats ≤ credit.accruedSats - credit.paidSats ∧ address ≠ "" ∧
        ¬ ∃ row ∈ db.inFlight, row.workerId = credit.workerId then
      some ⟨credit.workerId, address, credit.accruedSats, credit.paidSats⟩
    else none
  | _ => none

def listDue (db : Db) (minSats : Int) (limit : Nat) : List DueRow :=
  ((db.credits.rows.filterMap (dueRow db minSats)).insertionSort
    (fun a b => b.owedSats ≤ a.owedSats)).take limit

theorem dueRow_spec (due : dueRow db minSats credit = some row) :
    row.workerId = credit.workerId ∧ row.paidSats = credit.paidSats ∧
    row.accruedSats = credit.accruedSats := by
  simp only [dueRow] at due
  split at due
  next =>
    split at due
    next =>
      obtain rfl := Option.some.inj due
      exact ⟨rfl, rfl, rfl⟩
    next => contradiction
  next => contradiction

theorem listDue_perm (db : Db) (minSats : Int) (limit : Nat) :
    ∃ rest,
      (listDue db minSats limit ++ rest).Perm (db.credits.rows.filterMap (dueRow db minSats)) :=
  let sorted := (db.credits.rows.filterMap (dueRow db minSats)).insertionSort
    (fun a b => b.owedSats ≤ a.owedSats)
  ⟨sorted.drop limit, by
    rw [listDue, List.take_append_drop]
    exact List.perm_insertionSort _ _⟩

/-- Each worker is listed at most once. -/
theorem listDue_nodup (db : Db) (minSats : Int) (limit : Nat) :
    ((listDue db minSats limit).map DueRow.workerId).Nodup := by
  obtain ⟨rest, perm⟩ := listDue_perm db minSats limit
  have distinct : ((db.credits.rows.filterMap (dueRow db minSats)).map DueRow.workerId).Nodup := by
    refine db.credits.keyed.sublist ?_
    induction db.credits.rows with
    | nil => exact List.Sublist.refl _
    | cons credit credits ih =>
      rw [List.filterMap_cons]
      split
      next => exact ih.cons _
      next row due =>
        rw [List.map_cons, List.map_cons, (dueRow_spec due).1]
        exact ih.cons_cons _
  have listed := ((perm.map DueRow.workerId).nodup_iff).mpr distinct
  rw [List.map_append] at listed
  exact listed.of_append_left

/-- A listed row quotes the ledger. -/
theorem listDue_quotes (listed : row ∈ listDue db minSats limit) :
    row.workerId ∈ db.credits.rows.map PpsCredit.workerId ∧ row.paidSats = db.paid row.workerId ∧
      row.accruedSats = db.accrued row.workerId := by
  obtain ⟨rest, perm⟩ := listDue_perm db minSats limit
  obtain ⟨credit, member, due⟩ :=
    List.mem_filterMap.mp (perm.mem_iff.mp (List.mem_append_left _ listed))
  obtain ⟨worker, paid, accrued⟩ := dueRow_spec due
  have found := db.credits.find_of_mem credit member
  rw [worker, paid, accrued, Db.paid, Db.accrued, found]
  exact ⟨List.mem_map_of_mem member, rfl, rfl⟩

/-- One worker of a batch. `paidSats` is what was settled when the batch was listed. -/
structure BatchItem where
  workerId : Nat
  address : String
  sats : Int
  paidSats : Int
deriving DecidableEq, Repr

def batchRows (firstId : Nat) (items : List BatchItem) (nowSec : Nat) : List InFlight :=
  items.zipIdx.map fun (item, i) => ⟨firstId + i, item.workerId, item.sats, "", nowSec⟩

def beginBatch (db : Db) (items : List BatchItem) (nowSec : Nat) : List Nat × Db :=
  let rows := batchRows db.nextRowId items nowSec
  (rows.map InFlight.id,
    { db with inFlight := db.inFlight ++ rows, nextRowId := db.nextRowId + items.length })

def attachBatchTxid (db : Db) (rowIds : List Nat) (txid : String) : Db :=
  { db with inFlight := db.inFlight.map (fun row => if row.id ∈ rowIds then { row with txid }
      else row) }

def abortBatch (db : Db) (rowIds : List Nat) : Db :=
  { db with inFlight := db.inFlight.filter (fun row => row.id ∉ rowIds) }

theorem attachBatchTxid_inFlight (rows : db.inFlight.map InFlight.id = rowIds) (txid : String) :
    (attachBatchTxid db rowIds txid).inFlight = db.inFlight.map (fun row => { row with txid }) := by
  refine List.map_congr_left fun row member => ?_
  rw [if_pos (rows ▸ List.mem_map_of_mem member)]

theorem abortBatch_clear (rows : db.inFlight.map InFlight.id = rowIds) :
    (abortBatch db rowIds).inFlight = [] := by
  refine List.filter_eq_nil_iff.mpr fun row member => ?_
  simpa only [decide_not, Bool.not_eq_true', decide_eq_false_iff_not, not_not, ← rows] using
    List.mem_map_of_mem member

structure Pending where
  txid : String
  startedAt : Nat
  rows : List InFlight
deriving DecidableEq, Repr

/-- The rows under the newest txid. -/
def pendingBatch (db : Db) : Option Pending :=
  let rows := db.inFlight.filter (fun row => row.txid ≠ "")
  match rows.head?, rows.getLast? with
  | some first, some last =>
    some ⟨last.txid, first.startedAt, rows.filter (fun row => row.txid = last.txid)⟩
  | _, _ => none

/-- The rows under one txid are all the rows there are. -/
theorem pendingBatch_whole
    (single : ∀ row ∈ db.inFlight, ∀ other ∈ db.inFlight, row.txid = other.txid)
    (found : pendingBatch db = some pending) :
    pending.rows = db.inFlight ∧ db.inFlight ≠ [] ∧ pending.txid ≠ "" ∧ ∀ row ∈ db.inFlight,
    row.txid = pending.txid := by
  simp only [pendingBatch] at found
  split at found
  next first last _ lastRow =>
    obtain rfl := Option.some.inj found
    have member := List.mem_of_getLast? lastRow
    rw [List.mem_filter, decide_eq_true_eq] at member
    have same : ∀ row ∈ db.inFlight, row.txid = last.txid :=
      fun row inside => single row inside last member.1
    refine ⟨?_, List.ne_nil_of_mem member.1, member.2, same⟩
    simp only [List.filter_filter]
    refine List.filter_eq_self.mpr fun row inside => ?_
    simp [same row inside, member.2]
  next => contradiction

/-- The part of `finalizeBatch` for one row: credit it, record it, delete it. -/
def finalizeRow (txid : String) (nowSec : Nat) (db : Db) (item : InFlight × Int) : Db :=
  { db with
    credits := db.credits.pay item.1.workerId item.1.sats
    payouts := db.payouts ++ [⟨item.1.workerId, item.1.sats, item.2, txid, nowSec⟩]
    inFlight := db.inFlight.filter (fun row => row.id ≠ item.1.id) }

/-- The fee of the transaction is divided evenly, with the remainder on the first row. -/
def feeShares (totalFeeSats : Int) (n : Nat) : List Int :=
  let share := totalFeeSats / n
  (List.range n).map fun i => if i = 0 then share + (totalFeeSats - share * n) else share

def finalizeBatch (db : Db) (rows : List InFlight) (totalFeeSats : Int) (txid : String)
    (nowSec : Nat) : Db :=
  (rows.zip (feeShares totalFeeSats rows.length)).foldl (finalizeRow txid nowSec) db

theorem feeShares_length (totalFeeSats : Int) (n : Nat) :
    (feeShares totalFeeSats n).length = n := by
  simp [feeShares]

theorem finalizeRow_paid (known : workerId ∈ db.credits.rows.map PpsCredit.workerId) :
    (finalizeRow txid nowSec db item).paid workerId =
      db.paid workerId + if item.1.workerId = workerId then item.1.sats else 0 :=
  Db.paid_pay db item.1.workerId item.1.sats workerId known

theorem finalizeRow_known (txid : String) (nowSec : Nat) (db : Db) (item : InFlight × Int) :
    (finalizeRow txid nowSec db item).credits.rows.map PpsCredit.workerId =
      db.credits.rows.map PpsCredit.workerId :=
  Credits.mem_pay _ _ _

theorem finalizeRows_known (txid : String) (nowSec : Nat) (items : List (InFlight × Int))
    (db : Db) :
    (items.foldl (finalizeRow txid nowSec) db).credits.rows.map PpsCredit.workerId =
      db.credits.rows.map PpsCredit.workerId := by
  induction items generalizing db with
  | nil => rfl
  | cons item items ih => rw [List.foldl_cons, ih, finalizeRow_known]

theorem finalizeRows_paid (items : List (InFlight × Int)) (db : Db)
    (known : workerId ∈ db.credits.rows.map PpsCredit.workerId) :
    (items.foldl (finalizeRow txid nowSec) db).paid workerId =
      db.paid workerId + ((items.map Prod.fst).map fun row => if row.workerId = workerId
        then row.sats else 0).sum := by
  induction items generalizing db with
  | nil => simp
  | cons item items ih =>
    rw [List.foldl_cons, ih _ (by rwa [finalizeRow_known]), finalizeRow_paid known]
    simp only [List.map_cons, List.sum_cons]
    omega

theorem finalizeRows_inFlight (items : List (InFlight × Int)) (db : Db) :
    (items.foldl (finalizeRow txid nowSec) db).inFlight =
      db.inFlight.filter (fun row => row.id ∉ items.map (fun item => item.1.id)) := by
  induction items generalizing db with
  | nil => simp
  | cons item items ih =>
    rw [List.foldl_cons, ih]
    simp only [finalizeRow, List.filter_filter, List.map_cons, List.mem_cons, not_or,
      Bool.decide_and, Bool.and_comm]

theorem zip_feeShares (totalFeeSats : Int) (rows : List InFlight) :
    (rows.zip (feeShares totalFeeSats rows.length)).map Prod.fst = rows :=
  List.map_fst_zip (feeShares_length _ _).ge

/-- A settled worker has been paid the amounts of its rows on top of what it had. -/
theorem finalizeBatch_paid (known : workerId ∈ db.credits.rows.map PpsCredit.workerId) :
    (finalizeBatch db rows fee txid nowSec).paid workerId =
      db.paid workerId + (rows.map fun row => if row.workerId = workerId then row.sats
        else 0).sum := by
  rw [finalizeBatch, finalizeRows_paid _ _ known, zip_feeShares]

theorem finalizeBatch_known (db : Db) (rows : List InFlight) (fee : Int) (txid : String)
    (nowSec : Nat) :
    (finalizeBatch db rows fee txid nowSec).credits.rows.map PpsCredit.workerId =
      db.credits.rows.map PpsCredit.workerId :=
  finalizeRows_known _ _ _ _

/-- The rows of the batch are deleted. -/
theorem finalizeBatch_rows (db : Db) (rows : List InFlight) (fee : Int) (txid : String)
    (nowSec : Nat) :
    (finalizeBatch db rows fee txid nowSec).inFlight =
      db.inFlight.filter (fun row => row.id ∉ rows.map InFlight.id) := by
  have ids : (rows.zip (feeShares fee rows.length)).map (fun item => item.1.id) =
        rows.map InFlight.id := by
    rw [← zip_feeShares fee rows, List.map_map, zip_feeShares fee rows]
    rfl
  rw [finalizeBatch, finalizeRows_inFlight, ids]

theorem finalizeBatch_inFlight (db : Db) (fee : Int) (txid : String) (nowSec : Nat) :
    (finalizeBatch db db.inFlight fee txid nowSec).inFlight = [] := by
  rw [finalizeBatch_rows, List.filter_eq_nil_iff]
  intro row member
  simpa using List.mem_map_of_mem member

theorem finalizeBatch_nextRowId (db : Db) (rows : List InFlight) (fee : Int) (txid : String)
    (nowSec : Nat) :
    (finalizeBatch db rows fee txid nowSec).nextRowId = db.nextRowId := by
  rw [finalizeBatch]
  induction rows.zip (feeShares fee rows.length) generalizing db with
  | nil => rfl
  | cons item items ih => exact ih (finalizeRow txid nowSec db item)

/-- Payments only ever grow. -/
theorem finalizeBatch_paid_le (positive : ∀ row ∈ rows, 0 < row.sats) (workerId : Nat) :
    db.paid workerId ≤ (finalizeBatch db rows fee txid nowSec).paid workerId := by
  by_cases known : workerId ∈ db.credits.rows.map PpsCredit.workerId
  · rw [finalizeBatch_paid known]
    refine le_add_of_nonneg_right (List.sum_nonneg ?_)
    intro sats member
    obtain ⟨row, inside, rfl⟩ := List.mem_map.mp member
    split
    next => exact (positive row inside).le
    next => exact le_rfl
  · have before : db.credits.find workerId = none := by
      rw [← Option.not_isSome_iff_eq_none, Credits.find_isSome]
      exact known
    have after : (finalizeBatch db rows fee txid nowSec).credits.find workerId = none := by
      rw [← Option.not_isSome_iff_eq_none, Credits.find_isSome, finalizeBatch_known]
      exact known
    simp [Db.paid, before, after]

theorem finalizeBatch_paid_row (positive : ∀ row ∈ rows, 0 < row.sats) (member : row ∈ rows)
    (known : row.workerId ∈ db.credits.rows.map PpsCredit.workerId) :
    db.paid row.workerId + row.sats ≤
      (finalizeBatch db rows fee txid nowSec).paid row.workerId := by
  rw [finalizeBatch_paid known]
  refine Int.add_le_add_left ?_ _
  refine List.single_le_sum ?_ _ ?_
  · intro sats inside
    obtain ⟨other, listed, rfl⟩ := List.mem_map.mp inside
    split
    next => exact (positive other listed).le
    next => exact le_rfl
  · exact List.mem_map.mpr ⟨row, member, if_pos rfl⟩

end SimplePool.Payout
