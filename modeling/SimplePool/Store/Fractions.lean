import Mathlib.Data.List.Dedup
import SimplePool.Store.Connection

/-! The payout queue of the coinbase rail. What a block's coinbase did to it is staged with
the block, applied once the block is confirmed and discarded once it is orphaned. -/
namespace SimplePool.Store

/-- `store_fraction_delta_t`. -/
structure FractionDelta where
  workerId : Int
  delta : ℚ
deriving DecidableEq, Repr

/-- The deltas that name a worker, as the rows they are written to. -/
def stagedRows (hash : String) (deltas : List FractionDelta) : List PendingFraction :=
  (deltas.filter fun d => decide (0 < d.workerId)).map fun d => ⟨hash, d.workerId.toNat, d.delta⟩

/-- Insert, or replace what is there. -/
def pendingUpsert (pending : PendingFraction) (db : Db) : Db :=
  { db with
    pendingFractions :=
      if db.pendingFractions.any (fun row => row.blockHash = pending.blockHash ∧
        row.workerId = pending.workerId) then
        db.pendingFractions.map (fun row =>
          if row.blockHash = pending.blockHash ∧ row.workerId = pending.workerId then
            { row with delta := pending.delta }
          else row)
      else db.pendingFractions ++ [pending] }

/-- How far from zero the sum of a set may be. -/
def fractionTolerance : ℚ := 1 / 1000000000

section Stage

variable (oracle : Oracle)

/-- `none` is a step that failed. -/
def stageLoop : Connection → Nat → List PendingFraction → Option Nat × Connection
  | c, wrote, [] => (some wrote, c)
  | c, wrote, row :: rest =>
    match c.ask oracle (.step .stageFraction) with
    | (.served, c) => stageLoop (c.write (pendingUpsert row)) (wrote + 1) rest
    | (_, c) => (none, c)

/-- `none` is one of the negative return values; nothing is staged then. -/
def storeStageBlockFractions (hash : String) (deltas : List FractionDelta) (c : Connection) :
    Option Nat × Connection :=
  if hash = "" then (none, c)
  else
    let rows := stagedRows hash deltas
    let sum := (rows.map PendingFraction.delta).sum
    if rows = [] then (some 0, c)
    else if fractionTolerance < sum ∨ sum < -fractionTolerance then (none, c)
    else
      match txnBegin oracle c with
      | (false, c) => (none, c)
      | (true, c) =>
        match c.ask oracle (.prepare .stageFraction) with
        | (.served, c) =>
          match stageLoop oracle c 0 rows with
          | (none, c) => (none, txnRollback c)
          | (some wrote, c) =>
            match txnCommit oracle c with
            | (true, c) => (some wrote, c)
            | (false, c) => (none, c)
        | (_, c) => (none, txnRollback c)

end Stage

def settledHashesMax : Nat := 64

/-- `ONE_HASH`: the staged blocks whose fate is known, with whether they stand. -/
def settledHashesQuery (db : Db) : List (String × Bool) :=
  ((db.pendingFractions.flatMap fun pending =>
      (db.blocksFound.rows.filter (fun row => row.hash = pending.blockHash ∧
        (row.status = .confirmed ∨ row.status = .orphaned))).map
      fun row => (pending.blockHash, decide (row.status = .confirmed))).dedup).take settledHashesMax

/-- One row of `APPLY_ONE`: insert, or add to what is there. -/
def fractionUpsert (db : Db) (pending : PendingFraction) : Db :=
  { db with
    pplnsFractions :=
      if db.pplnsFractions.any (fun row => row.workerId = pending.workerId) then
        db.pplnsFractions.map (fun row =>
          if row.workerId = pending.workerId then
            { row with owedFraction := row.owedFraction + pending.delta }
          else row)
      else db.pplnsFractions ++ [⟨pending.workerId, pending.delta⟩] }

/-- `APPLY_ONE`. -/
def applyFractions (hash : String) (db : Db) : Db :=
  (db.pendingFractions.filter (fun pending => pending.blockHash = hash)).foldl fractionUpsert db

/-- `DROP_ONE`. -/
def dropPending (hash : String) (db : Db) : Db :=
  { db with
    pendingFractions := db.pendingFractions.filter (fun pending => pending.blockHash ≠ hash) }

section Settle

variable (oracle : Oracle)

/-- The rows of `ONE_HASH` up to the first step that is not a row. -/
def readHashes :
    Connection → List (String × Bool) → List (String × Bool) → List (String × Bool) × Connection
  | c, out, [] =>
    (out, if out.length < settledHashesMax then (c.ask oracle (.step .settledHashes)).2 else c)
  | c, out, (hash, confirmed) :: rest =>
    match c.ask oracle (.step .settledHashes) with
    | (.served, c) => readHashes c (out ++ [(buffer 80 hash, confirmed)]) rest
    | (_, c) => (out, c)

/-- Prepare and step one statement that writes. -/
def runWrite (statement : Statement) (f : Db → Db) (c : Connection) : Bool × Connection :=
  match c.ask oracle (.prepare statement) with
  | (.served, c) =>
    match c.ask oracle (.step statement) with
    | (.served, c) => (true, c.write f)
    | (_, c) => (false, c)
  | (_, c) => (false, c)

structure FractionTotals where
  applied : Nat
  discarded : Nat
deriving DecidableEq, Repr

def settleLoop :
    Connection → FractionTotals → List (String × Bool) → Option FractionTotals × Connection
  | c, totals, [] => (some totals, c)
  | c, totals, (hash, confirmed) :: rest =>
    match if confirmed then runWrite oracle .applyFraction (applyFractions hash) c
      else (true, c) with
    | (false, c) => (none, c)
    | (true, c) =>
      let totals : FractionTotals :=
        if confirmed then { totals with applied := totals.applied + 1 }
        else { totals with discarded := totals.discarded + 1 }
      match runWrite oracle .dropPending (dropPending hash) c with
      | (false, c) => (none, c)
      | (true, c) => settleLoop c totals rest

/-- `none` is one of the negative return values; nothing is settled then. -/
def storeSettleBlockFractions (c : Connection) : Option FractionTotals × Connection :=
  match c.ask oracle (.prepare .anyPending) with
  | (.served, c) =>
    match c.ask oracle (.step .anyPending) with
    | (.served, c) =>
      if c.db.pendingFractions = [] then (some ⟨0, 0⟩, c)
      else
        match txnBegin oracle c with
        | (false, c) => (none, c)
        | (true, c) =>
          match c.ask oracle (.prepare .settledHashes) with
          | (.served, c) =>
            match readHashes oracle c [] (settledHashesQuery c.db) with
            | (hashes, c) =>
              match settleLoop oracle c ⟨0, 0⟩ hashes with
              | (none, c) => (none, txnRollback c)
              | (some totals, c) =>
                match txnCommit oracle c with
                | (true, c) => (some totals, c)
                | (false, c) => (none, c)
          | (_, c) => (none, txnRollback c)
    | (_, c) => (some ⟨0, 0⟩, c)
  | (_, c) => (none, c)

end Settle

section Frame

variable {oracle : Oracle} {c after : Connection}

@[simp] theorem applyFractions_blocksFound (hash : String) (db : Db) :
    (applyFractions hash db).blocksFound = db.blocksFound := by
  have fold :
    ∀ (rows : List PendingFraction) (db : Db), (rows.foldl fractionUpsert db).blocksFound =
      db.blocksFound := by
    intro rows
    induction rows with
    | nil => exact fun _ => rfl
    | cons row rest ih => exact fun db => ih (fractionUpsert db row)
  exact fold _ db

theorem runWrite_keeps {α : Type} {f : Db → α} {x : α} {g : Db → Db} (frame : ∀ db, f (g db) = f db)
    (keeps : c.Keeps f x) (ran : runWrite oracle statement g c = (ok, after)) :
    after.Keeps f x := by
  rw [runWrite] at ran
  split at ran
  next mid prepared =>
    split at ran
    next stepped asked =>
      cases ran
      exact ((keeps.ask prepared).ask asked).write frame
    next stepped asked =>
      cases ran
      exact (keeps.ask prepared).ask asked
  next mid prepared =>
    cases ran
    exact keeps.ask prepared

theorem readHashes_keeps {α : Type} {f : Db → α} {x : α} (keeps : c.Keeps f x)
    (read : readHashes oracle c out rows = (hashes, after)) : after.Keeps f x := by
  induction rows generalizing c out with
  | nil =>
    rw [readHashes, Prod.mk.injEq] at read
    obtain ⟨_, rfl⟩ := read
    split
    · exact keeps.ask rfl
    · exact keeps
  | cons row rest ih =>
    rw [readHashes] at read
    split at read
    next mid asked => exact ih (keeps.ask asked) read
    next mid asked =>
      cases read
      exact keeps.ask asked

/-- Settling the queue does not touch the blocks. -/
theorem settleLoop_keeps (keeps : c.Keeps Db.blocksFound x)
    (looped : settleLoop oracle c totals rows = (result, after)) :
    after.Keeps Db.blocksFound x := by
  induction rows generalizing c totals with
  | nil =>
    cases looped
    exact keeps
  | cons row rest ih =>
    obtain ⟨hash, confirmed⟩ := row
    rw [settleLoop] at looped
    have applied : ∀ ok mid, (if confirmed = true then
        runWrite oracle .applyFraction (applyFractions hash) c else (true, c)) = (ok, mid) →
        mid.Keeps Db.blocksFound x := by
      intro ok mid ran
      split at ran
      · exact runWrite_keeps (applyFractions_blocksFound hash) keeps ran
      · cases ran
        exact keeps
    have drop : ∀ db, (dropPending hash db).blocksFound = db.blocksFound := fun _ => rfl
    split at looped
    next mid ran =>
      cases looped
      exact applied _ _ ran
    next mid ran =>
      dsimp only at looped
      split at looped
      next dropped wrote =>
        cases looped
        exact runWrite_keeps drop (applied _ _ ran) wrote
      next dropped wrote => exact ih (runWrite_keeps drop (applied _ _ ran) wrote) looped

theorem storeSettleBlockFractions_keeps (closed : c.working = none)
    (keeps : c.Keeps Db.blocksFound x)
    (ran : storeSettleBlockFractions oracle c = (result, after)) :
    after.working = none ∧ after.Keeps Db.blocksFound x := by
  rw [storeSettleBlockFractions] at ran
  split at ran
  next prepared asked =>
    have closed := ask_closed closed asked
    have keeps := keeps.ask asked
    split at ran
    next stepped asked =>
      have closed := ask_closed closed asked
      have keeps := keeps.ask asked
      split at ran
      · cases ran
        exact ⟨closed, keeps⟩
      · split at ran
        next begun failed =>
          cases ran
          exact ⟨(txnBegin_spec closed failed).2.2 rfl, keeps.begin failed⟩
        next begun opened =>
          have keeps := keeps.begin opened
          split at ran
          next listing asked =>
            have keeps := keeps.ask asked
            split at ran
            next hashes read done =>
              have keeps := readHashes_keeps keeps done
              split at ran
              next looped failed =>
                cases ran
                exact ⟨rfl, (settleLoop_keeps keeps failed).rollback⟩
              next totals looped settled =>
                have keeps := settleLoop_keeps keeps settled
                split at ran
                next landed committed =>
                  cases ran
                  exact ⟨(txnCommit_spec committed).1, keeps.commit committed⟩
                next landed committed =>
                  cases ran
                  exact ⟨(txnCommit_spec committed).1, keeps.commit committed⟩
          next listing asked =>
            cases ran
            exact ⟨rfl, (keeps.ask asked).rollback⟩
    next stepped asked =>
      cases ran
      exact ⟨ask_closed closed asked, keeps.ask asked⟩
  next prepared asked =>
    cases ran
    exact ⟨ask_closed closed asked, keeps.ask asked⟩

end Frame

end SimplePool.Store
