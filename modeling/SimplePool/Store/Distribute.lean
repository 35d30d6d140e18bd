import Mathlib.Data.Rat.Floor
import SimplePool.Store.PplnsWindow

/-! `store_pplns_distribute`: matured blocks are split over their share window, one
transaction a block, with `pplns_distributed` as the latch. Every call into sqlite
may fail. -/
namespace SimplePool.Store

def coinbaseDustSats : Int := 546

/-- `Q_DUE`. Sorting by height reads every row before the first one is returned. -/
def dueQuery (db : Db) (maturityConfs : Int) : List BlockFound :=
  (db.blocksFound.rows.filter (fun row => row.status = .confirmed ∧ row.pplnsDistributed = false ∧
    maturityConfs ≤ row.confirmations ∧ 0 < row.pplnsWindowDiff)).insertionSort
      (fun a b => a.height ≤ b.height)

def gross (row : BlockFound) : Int := row.rewardSats.getD 0 + row.feeSats.getD 0

/-- Net of the operator fee, unless the fee is dust and was never paid out. -/
def payable (gross feeBps : Int) : Int :=
  if 0 < feeBps ∧ feeBps ≤ 10000 then
    let fee := (gross * feeBps).tdiv 10000
    if coinbaseDustSats ≤ fee then gross - fee else gross
  else gross

/-- What one window row is credited, if anything. -/
def creditOf (blockId : Nat) (payable : Int) (row : WindowRow) : Option Credit :=
  if ¬ 0 < row.total ∨ ¬ 0 < row.wd then none
  else
    let amt := ⌊(payable : ℚ) * (row.wd / row.total)⌋
    if amt ≤ 0 then none else some ⟨blockId, row.workerId, amt⟩

/-- `Q_CREDIT`: insert, or add to what is there. -/
def creditUpsert (credit : Credit) (db : Db) : Db :=
  { db with
    ppsCredits :=
      if db.ppsCredits.any (fun row => row.workerId = credit.workerId) then
        db.ppsCredits.map (fun row =>
          if row.workerId = credit.workerId then
            { row with accruedSats := row.accruedSats + credit.sats }
          else row)
      else db.ppsCredits ++ [⟨credit.workerId, credit.sats, 0⟩]
    credited := db.credited ++ [credit] }

/-- `Q_MARK`. -/
def markDistributed (blockId : Nat) (db : Db) : Db :=
  let latch (row : BlockFound) :=
    if row.id = blockId then { row with pplnsDistributed := true } else row
  { db with
    blocksFound := db.blocksFound.update latch (fun row => by dsimp only [latch]; split <;> rfl) }

section Loops

variable (oracle : Oracle)

/-- The loop over the window rows. It ends at the first step that is not a row: the
end of the rows and an error are the same to it. -/
def creditLoop (blockId : Nat) (payable : Int) :
    Connection → Nat → List WindowRow → Bool × Nat × Connection
  | c, credited, [] => (true, credited, (c.ask oracle (.step .window)).2)
  | c, credited, row :: rest =>
    match c.ask oracle (.step .window) with
    | (.served, c) =>
      match creditOf blockId payable row with
      | none => creditLoop blockId payable c credited rest
      | some credit =>
        match c.ask oracle (.step .credit) with
        | (.served, c) =>
          creditLoop blockId payable (c.write (creditUpsert credit)) (credited + 1) rest
        | (_, c) => (false, credited, c)
    | (_, c) => (true, credited, c)

/-- `sqlite3_prepare_v2` for the three statements, stopping at the first failure. -/
def prepareAll : Connection → List Statement → Bool × Connection
  | c, [] => (true, c)
  | c, statement :: rest =>
    match c.ask oracle (.prepare statement) with
    | (.served, c) => prepareAll c rest
    | (_, c) => (false, c)

def markStep (blockId : Nat) (c : Connection) : Bool × Connection :=
  match c.ask oracle (.step .mark) with
  | (.served, c) => (true, c.write (markDistributed blockId))
  | (_, c) => (false, c)

/-- What became of one due block. -/
inductive BlockResult where
  | nothingToShare
  | distributed (workers : Nat)
  | failed
deriving DecidableEq, Repr

/-- The transaction of one block, from `txn_begin` to `txn_commit` or
`txn_rollback`. -/
def distributeInTxn (row : BlockFound) (payable : Int) (c : Connection) :
    BlockResult × Connection :=
  match txnBegin oracle c with
  | (false, c) => (.failed, c)
  | (true, c) =>
    match prepareAll oracle c [.window, .credit, .mark] with
    | (false, c) => (.failed, txnRollback c)
    | (true, c) =>
      let rows := windowQuery c.db.shares (buffer hashStrMax row.hash) row.pplnsWindowDiff
      match creditLoop oracle row.id payable c 0 rows with
      | (false, _, c) => (.failed, txnRollback c)
      | (true, credited, c) =>
        match markStep oracle row.id c with
        | (false, c) => (.failed, txnRollback c)
        | (true, c) =>
          match txnCommit oracle c with
          | (false, c) => (.failed, c)
          | (true, c) => (.distributed credited, c)

def distributeBlock (feeBps : Int) (row : BlockFound) (c : Connection) : BlockResult × Connection :=
  let payable := payable (gross row) feeBps
  if payable ≤ 0 then
    match c.ask oracle (.prepare .mark) with
    | (.served, c) => (.nothingToShare, (markStep oracle row.id c).2)
    | (_, c) => (.nothingToShare, c)
  else distributeInTxn oracle row payable c

structure Distribution where
  failed : Bool
  blocks : Nat
  workers : Nat
deriving DecidableEq, Repr

def distributeLoop (feeBps : Int) :
    Connection → Distribution → List BlockFound → Distribution × Connection
  | c, out, [] => (out, (c.ask oracle (.step .due)).2)
  | c, out, row :: rest =>
    match c.ask oracle (.step .due) with
    | (.served, c) =>
      match distributeBlock oracle feeBps row c with
      | (.nothingToShare, c) => distributeLoop feeBps c out rest
      | (.distributed workers, c) =>
        distributeLoop feeBps c { out with
          blocks := out.blocks + 1, workers := out.workers + workers } rest
      | (.failed, c) => ({ out with failed := true }, c)
    | (_, c) => (out, c)

def storePplnsDistribute (maturityConfs feeBps : Int) (c : Connection) :
    Distribution × Connection :=
  match c.ask oracle (.prepare .due) with
  | (.served, c) =>
    distributeLoop oracle feeBps c ⟨false, 0, 0⟩ (dueQuery c.db (max maturityConfs 0))
  | (_, c) => (⟨true, 0, 0⟩, c)

/-- The arguments of one call. -/
structure DistributeCall where
  maturityConfs : Int
  feeBps : Int
deriving DecidableEq, Repr

def distributeRun (c : Connection) (calls : List DistributeCall) : Connection :=
  calls.foldl (fun c call => (storePplnsDistribute oracle call.maturityConfs call.feeBps c).2) c

end Loops

end SimplePool.Store
