import SimplePool.Store.Distribute

/-! A matured block is distributed at most once and as a whole, as long as sqlite
reports no error from the window query. The distributor cannot tell such an error
from the end of the rows. -/
namespace SimplePool.Store

/-- The complete split of a block at a given fee. -/
def split (shares : ShareTable) (row : BlockFound) (feeBps : Int) : List Credit :=
  let payable := payable (gross row) feeBps
  if payable ≤ 0 then []
  else (windowQuery shares (buffer hashStrMax row.hash) row.pplnsWindowDiff).filterMap
    (creditOf row.id payable)

def creditAll (credits : List Credit) (db : Db) : Db :=
  credits.foldl (fun db credit => creditUpsert credit db) db

/-- The effect a distribution is meant to have: all of the split, and the latch. -/
def settle (row : BlockFound) (feeBps : Int) (db : Db) : Db :=
  markDistributed row.id (creditAll (split db.shares row feeBps) db)

def creditsOf (db : Db) (blockId : Nat) : List Credit :=
  db.credited.filter (fun credit => credit.blockId = blockId)

def accruedSats (db : Db) (workerId : Nat) : Int :=
  ((db.ppsCredits.find? (fun row => row.workerId = workerId)).map PpsCredit.accruedSats).getD 0

def creditedTo (db : Db) (workerId : Nat) : Int :=
  ((db.credited.filter (fun credit => credit.workerId = workerId)).map Credit.sats).sum

/-- Nothing of the block is credited and its latch is clear, or its latch is set and
its whole split, at one of the fees in use, is credited once. -/
def Settled (fees : Int → Prop) (db : Db) (row : BlockFound) : Prop :=
  row.pplnsDistributed = false ∧ creditsOf db row.id = [] ∨
    row.pplnsDistributed = true ∧ ∃ feeBps, fees feeBps ∧
    creditsOf db row.id = split db.shares row feeBps

/-- Every block is settled in one of the two ways, and the balances are what the
workers had otherwise plus what the blocks credited. -/
structure Consistent (base : Nat → Int) (fees : Int → Prop) (db : Db) : Prop where
  settled : ∀ row ∈ db.blocksFound.rows, Settled fees db row
  backed : ∀ workerId, accruedSats db workerId = base workerId + creditedTo db workerId

section Effects

variable (db : Db) (credits : List Credit)

@[simp] theorem creditAll_shares : (creditAll credits db).shares = db.shares := by
  induction credits generalizing db with
  | nil => rfl
  | cons credit rest ih => exact ih (creditUpsert credit db)

@[simp] theorem creditAll_blocksFound : (creditAll credits db).blocksFound = db.blocksFound := by
  induction credits generalizing db with
  | nil => rfl
  | cons credit rest ih => exact ih (creditUpsert credit db)

theorem creditAll_credited : (creditAll credits db).credited = db.credited ++ credits := by
  induction credits generalizing db with
  | nil => simp [creditAll]
  | cons credit rest ih => exact (ih (creditUpsert credit db)).trans (by simp [creditUpsert])

theorem accruedSats_upsert (credit : Credit) (workerId : Nat) :
    accruedSats (creditUpsert credit db) workerId =
      accruedSats db workerId + if credit.workerId = workerId then credit.sats else 0 := by
  simp only [accruedSats, creditUpsert]
  split
  next known =>
    have key : (fun row : PpsCredit => decide (row.workerId = workerId)) ∘ (fun row : PpsCredit =>
        if row.workerId = credit.workerId then
          { row with accruedSats := row.accruedSats + credit.sats }
        else row) = fun row => decide (row.workerId = workerId) := by
      funext row
      dsimp only [Function.comp]
      split <;> rfl
    rw [List.find?_map, key]
    cases found : db.ppsCredits.find? (fun row => row.workerId = workerId) with
    | none =>
      have other : credit.workerId ≠ workerId := by
        rintro rfl
        obtain ⟨row, member, same⟩ := List.any_eq_true.mp known
        exact absurd same (List.find?_eq_none.mp found row member)
      simp [other]
    | some row =>
      have same : row.workerId = workerId := by simpa using List.find?_some found
      by_cases mine : credit.workerId = workerId
      · simp [same, mine]
      · simp [same, mine, Ne.symm mine]
  next unknown =>
    rw [List.find?_append]
    cases found : db.ppsCredits.find? (fun row => row.workerId = workerId) with
    | none =>
      by_cases mine : credit.workerId = workerId
      · simp [mine]
      · simp [mine]
    | some row =>
      have same : row.workerId = workerId := by simpa using List.find?_some found
      have other : credit.workerId ≠ workerId := by
        rintro rfl
        exact unknown (List.any_eq_true.mpr ⟨row,
            List.mem_of_find?_eq_some found, by simpa using same⟩)
      simp [other]

/-- Crediting moves the balances by exactly what the credits say. -/
theorem creditAll_backed {base : Nat → Int}
    (backed : ∀ workerId, accruedSats db workerId = base workerId + creditedTo db workerId)
    (workerId : Nat) :
    accruedSats (creditAll credits db) workerId =
      base workerId + creditedTo (creditAll credits db) workerId := by
  induction credits generalizing db with
  | nil => exact backed workerId
  | cons credit rest ih =>
    apply ih (creditUpsert credit db)
    intro workerId
    rw [accruedSats_upsert, backed]
    by_cases mine : credit.workerId = workerId
    · simp [creditedTo, creditUpsert, mine, add_assoc]
    · simp [creditedTo, creditUpsert, mine]

theorem split_blockId (member : credit ∈ split shares row feeBps) : credit.blockId = row.id := by
  simp only [split] at member
  split at member
  · cases member
  · obtain ⟨shown, _, made⟩ := List.mem_filterMap.mp member
    simp only [creditOf] at made
    split at made
    · cases made
    · split at made
      · cases made
      · cases made
        rfl

theorem creditsOf_settle (row : BlockFound) (feeBps : Int) (blockId : Nat) :
    creditsOf (settle row feeBps db) blockId =
      creditsOf db blockId ++ if blockId = row.id then split db.shares row feeBps else [] := by
  have made : ∀ credit ∈ split db.shares row feeBps, credit.blockId = row.id :=
    fun _ => split_blockId
  simp only [creditsOf, settle, markDistributed, creditAll_credited, List.filter_append]
  congr 1
  split
  next same =>
    rw [List.filter_eq_self]
    intro credit member
    simpa [same] using made credit member
  next other =>
    rw [List.filter_eq_nil_iff]
    intro credit member
    simpa [made credit member] using Ne.symm other

@[simp] theorem settle_shares (row : BlockFound) (feeBps : Int) :
    (settle row feeBps db).shares = db.shares := by
  simp only [settle, markDistributed, creditAll_shares]

theorem mem_settle_iff (row : BlockFound) (feeBps : Int) (other : BlockFound) :
    other ∈ (settle row feeBps db).blocksFound.rows ↔
      ∃ before ∈ db.blocksFound.rows,
        (if before.id = row.id then { before with pplnsDistributed := true } else before) =
          other := by
  simp only [settle, markDistributed, BlockTable.update, creditAll_blocksFound, List.mem_map]

/-- Distributing a block whose latch is clear keeps every block settled. -/
theorem settle_consistent {base : Nat → Int} {fees : Int → Prop}
    (consistent : Consistent base fees db)
    (member : row ∈ db.blocksFound.rows) (clear : row.pplnsDistributed = false)
    (fee : fees feeBps) :
    Consistent base fees (settle row feeBps db) where
  settled := by
    intro after shown
    obtain ⟨before, known, rfl⟩ := (mem_settle_iff db row feeBps after).mp shown
    have credits := creditsOf_settle db row feeBps
    by_cases same : before.id = row.id
    · have eq : before = row := db.blocksFound.eq_of_id known member same
      subst eq
      have nothing : creditsOf db before.id = [] := by
        rcases consistent.settled before known with ⟨_, nothing⟩ | ⟨set, _⟩
        · exact nothing
        · simp [clear] at set
      right
      refine ⟨by simp, feeBps, fee, ?_⟩
      simp only [if_true, credits, nothing, List.nil_append, settle_shares]
      rfl
    · simp only [if_neg same, Settled, credits, List.append_nil, settle_shares]
      exact consistent.settled before known
  backed := creditAll_backed db _ consistent.backed

end Effects

section Calls

variable {oracle : Oracle} {c after : Connection} {call : Call} {outcome : Outcome}

theorem prepareAll_spec (asked : prepareAll oracle c statements = (ok, after)) :
    after.committed = c.committed ∧ (ok = true → after.working = c.working) := by
  induction statements generalizing c with
  | nil =>
    cases asked
    exact ⟨rfl, fun _ => rfl⟩
  | cons statement rest ih =>
    rw [prepareAll] at asked
    split at asked
    next mid prepared =>
      obtain ⟨committed, working⟩ := ask_served prepared
      obtain ⟨kept, same⟩ := ih asked
      exact ⟨kept.trans committed, fun done => (same done).trans working⟩
    next mid prepared =>
      cases asked
      exact ⟨ask_committed prepared, by simp⟩

/-- While the window query reports no error, a loop that ends well has applied the
credit of every row. -/
theorem creditLoop_spec (reads : ∀ position, oracle (.step .window) position = .served)
    (opened : c.working = some db)
    (looped : creditLoop oracle blockId amount c credited rows = (ok, count, after)) :
    after.committed = c.committed ∧
      (ok = true →
        after.working = some (creditAll (rows.filterMap (creditOf blockId amount)) db)) := by
  induction rows generalizing c credited db with
  | nil =>
    rw [creditLoop, Prod.mk.injEq, Prod.mk.injEq] at looped
    obtain ⟨rfl, rfl, rfl⟩ := looped
    have served : c.ask oracle (.step .window) = (.served, (c.ask oracle (.step .window)).2) :=
      Prod.ext (reads _) rfl
    obtain ⟨committed, working⟩ := ask_served served
    exact ⟨committed, fun _ => working.trans opened⟩
  | cons row rest ih =>
    rw [creditLoop] at looped
    split at looped
    next mid read =>
      obtain ⟨committed, working⟩ := ask_served read
      split at looped
      next skipped =>
        obtain ⟨kept, applied⟩ := ih (working.trans opened) looped
        rw [List.filterMap_cons_none skipped]
        exact ⟨kept.trans committed, applied⟩
      next credit made =>
        split at looped
        next paid stepped =>
          obtain ⟨same, unchanged⟩ := ask_served stepped
          have written :
              (paid.write (creditUpsert credit)).working = some (creditUpsert credit db) := by
            simp only [Connection.write, unchanged, working, opened]
          have kept : (paid.write (creditUpsert credit)).committed = paid.committed := by
            simp only [Connection.write, unchanged, working, opened]
          obtain ⟨still, applied⟩ := ih written looped
          rw [List.filterMap_cons_some made]
          exact ⟨((still.trans kept).trans same).trans committed, applied⟩
        next mid stepped =>
          cases looped
          exact ⟨(ask_committed stepped).trans committed, by simp⟩
    next mid failed read =>
      exact absurd ((ask_outcome read).trans (reads _)) failed

theorem markStep_failed (marked : markStep oracle blockId c = (false, after)) :
    after.committed = c.committed := by
  rw [markStep] at marked
  split at marked
  · cases marked
  next mid stepped =>
    cases marked
    exact ask_committed stepped

theorem markStep_open (opened : c.working = some db)
    (marked : markStep oracle blockId c = (true, after)) :
    after.committed = c.committed ∧ after.working = some (markDistributed blockId db) := by
  rw [markStep] at marked
  split at marked
  next mid stepped =>
    cases marked
    obtain ⟨committed, working⟩ := ask_served stepped
    simp only [Connection.write, working, opened, committed, and_self]
  · cases marked

theorem markStep_closed (closed : c.working = none)
    (marked : markStep oracle blockId c = (ok, after)) :
    after.working = none ∧
      (after.committed = c.committed ∨ after.committed = markDistributed blockId c.committed) := by
  rw [markStep] at marked
  split at marked
  next mid stepped =>
    cases marked
    obtain ⟨committed, working⟩ := ask_served stepped
    simp only [Connection.write, working, closed, committed, or_true, and_self]
  next mid stepped =>
    cases marked
    exact ⟨ask_closed closed stepped, Or.inl (ask_committed stepped)⟩

end Calls

section Blocks

variable {oracle : Oracle} (reads : ∀ position, oracle (.step .window) position = .served)
include reads

/-- The transaction of a block leaves the database alone or settles the block. -/
theorem distributeInTxn_spec (closed : c.working = none)
    (positive : ¬ payable (gross row) feeBps ≤ 0)
    (ran : distributeInTxn oracle row (payable (gross row) feeBps) c = (result, after)) :
    after.working = none ∧
      (after.committed = c.committed ∨ after.committed = settle row feeBps c.committed) := by
  rw [distributeInTxn] at ran
  split at ran
  next begun started =>
    cases ran
    obtain ⟨same, _, still⟩ := txnBegin_spec closed started
    exact ⟨still rfl, Or.inl same⟩
  next begun started =>
    obtain ⟨same, opened, _⟩ := txnBegin_spec closed started
    split at ran
    next mid prepared =>
      cases ran
      exact ⟨rfl, Or.inl ((prepareAll_spec prepared).1.trans same)⟩
    next mid prepared =>
      obtain ⟨kept, working⟩ := prepareAll_spec prepared
      have view : mid.working = some c.committed := (working rfl).trans (opened rfl)
      have shares : mid.db.shares = c.committed.shares := by
        rw [Connection.db, view, Option.getD_some]
      dsimp only at ran
      split at ran
      next count looped done =>
        cases ran
        exact ⟨rfl, Or.inl (((creditLoop_spec reads view done).1.trans kept).trans same)⟩
      next count looped done =>
        obtain ⟨still, applied⟩ := creditLoop_spec reads view done
        split at ran
        next marked stepped =>
          cases ran
          exact ⟨rfl, Or.inl ((((markStep_failed stepped).trans still).trans kept).trans same)⟩
        next marked stepped =>
          obtain ⟨kept', latched⟩ := markStep_open (applied rfl) stepped
          have settled : markDistributed row.id
            (creditAll ((windowQuery mid.db.shares (buffer hashStrMax row.hash)
              row.pplnsWindowDiff).filterMap (creditOf row.id (payable (gross row) feeBps)))
                c.committed) = settle row feeBps c.committed := by
            simp only [settle, split, if_neg positive, shares]
          rw [settled] at latched
          have unchanged := ((kept'.trans still).trans kept).trans same
          cases committing : txnCommit oracle marked with
          | mk ok final =>
            obtain ⟨closed', outcome⟩ := txnCommit_spec committing
            have same : after = final := by
              rw [committing] at ran
              cases ok <;> cases ran <;> rfl
            subst same
            refine ⟨closed', outcome.imp (fun none => none.trans unchanged) (fun landed => ?_)⟩
            exact Option.some.inj (landed.trans latched)

theorem distributeBlock_spec (closed : c.working = none)
    (ran : distributeBlock oracle feeBps row c = (result, after)) :
    after.working = none ∧
      (after.committed = c.committed ∨ after.committed = settle row feeBps c.committed) := by
  simp only [distributeBlock] at ran
  split at ran
  next nothing =>
    split at ran
    next mid prepared =>
      cases ran
      obtain ⟨committed, working⟩ := ask_served prepared
      have settled : settle row feeBps c.committed = markDistributed row.id c.committed := by
        simp only [settle, split, nothing, if_true, creditAll, List.foldl_nil]
      rw [settled, ← committed]
      exact markStep_closed (working.trans closed) rfl
    next mid prepared =>
      cases ran
      exact ⟨ask_closed closed prepared, Or.inl (ask_committed prepared)⟩
  next positive => exact distributeInTxn_spec reads closed positive ran

/-- The remaining due rows are still in the table with their latch clear. -/
def Due (db : Db) (rows : List BlockFound) : Prop :=
  (rows.map BlockFound.id).Nodup ∧ ∀ row ∈ rows, row ∈ db.blocksFound.rows ∧
  row.pplnsDistributed = false

omit reads in
theorem Due.settle {db : Db} (due : Due db (row :: rest)) (feeBps : Int) :
    Due (settle row feeBps db) rest := by
  obtain ⟨distinct, clear⟩ := due
  obtain ⟨apart, distinct⟩ := List.nodup_cons.mp distinct
  refine ⟨distinct, fun other member => ?_⟩
  obtain ⟨known, unset⟩ := clear other (List.mem_cons_of_mem _ member)
  have differs : other.id ≠ row.id := fun same => apart (same ▸ List.mem_map_of_mem member)
  exact ⟨(mem_settle_iff db row feeBps other).mpr ⟨other, known, if_neg differs⟩, unset⟩

theorem distributeLoop_consistent {base : Nat → Int} {fees : Int → Prop} (fee : fees feeBps)
    (closed : c.working = none) (consistent : Consistent base fees c.committed)
    (due : Due c.committed rows)
    (looped : distributeLoop oracle feeBps c out rows = (result, after)) :
    after.working = none ∧ Consistent base fees after.committed := by
  induction rows generalizing c out with
  | nil =>
    rw [distributeLoop] at looped
    cases asked : c.ask oracle (.step .due) with
    | mk outcome mid =>
      rw [asked] at looped
      cases looped
      rw [ask_committed asked]
      exact ⟨ask_closed closed asked, consistent⟩
  | cons row rest ih =>
    rw [distributeLoop] at looped
    split at looped
    next mid stepped =>
      obtain ⟨committed, working⟩ := ask_served stepped
      rw [← committed] at consistent due
      cases ran : distributeBlock oracle feeBps row mid with
      | mk block final =>
        obtain ⟨still, outcome⟩ := distributeBlock_spec reads (working.trans closed) ran
        have later : Consistent base fees final.committed ∧ Due final.committed rest := by
          rcases outcome with same | settled
          · rw [same]
            exact ⟨consistent, (List.nodup_cons.mp due.1).2,
              fun other member => due.2 other (by simp [member])⟩
          · obtain ⟨known, clear⟩ := due.2 row (by simp)
            rw [settled]
            exact ⟨settle_consistent _ consistent known clear fee, due.settle feeBps⟩
        rw [ran] at looped
        cases block with
        | nothingToShare => exact ih still later.1 later.2 looped
        | distributed workers => exact ih still later.1 later.2 looped
        | failed =>
          cases looped
          exact ⟨still, later.1⟩
    next mid stepped =>
      cases looped
      rw [ask_committed stepped]
      exact ⟨ask_closed closed stepped, consistent⟩

omit reads in
theorem dueQuery_due (db : Db) (maturityConfs : Int) : Due db (dueQuery db maturityConfs) := by
  constructor
  · have sorted := List.perm_insertionSort (fun a b : BlockFound => a.height ≤ b.height)
    refine ((sorted _).map BlockFound.id).nodup_iff.mpr ?_
    exact (List.filter_sublist.map BlockFound.id).nodup db.blocksFound.keyed
  · intro row member
    obtain ⟨known, _, clear, _⟩ := by
      simpa only [dueQuery, List.mem_insertionSort, List.mem_filter, decide_eq_true_eq] using member
    exact ⟨known, clear⟩

theorem storePplnsDistribute_consistent {base : Nat → Int} {fees : Int → Prop} (fee : fees feeBps)
    (closed : c.working = none) (consistent : Consistent base fees c.committed)
    (ran : storePplnsDistribute oracle maturityConfs feeBps c = (result, after)) :
    after.working = none ∧ Consistent base fees after.committed := by
  rw [storePplnsDistribute] at ran
  split at ran
  next mid prepared =>
    obtain ⟨committed, working⟩ := ask_served prepared
    have view : mid.db = mid.committed := by
      simp only [Connection.db, working, closed, Option.getD_none]
    rw [view] at ran
    rw [← committed] at consistent
    exact distributeLoop_consistent reads fee (working.trans closed) consistent
      (dueQuery_due _ _) ran
  next mid prepared =>
    cases ran
    rw [ask_committed prepared]
    exact ⟨ask_closed closed prepared, consistent⟩

end Blocks

section Frame

variable {oracle : Oracle} {c after : Connection} {α : Type} {f : Db → α} {x : α}
  (credits : ∀ credit db, f (creditUpsert credit db) = f db)
  (marks : ∀ blockId db, f (markDistributed blockId db) = f db)

theorem prepareAll_keeps (keeps : c.Keeps f x)
    (asked : prepareAll oracle c statements = (ok, after)) :
    after.Keeps f x := by
  induction statements generalizing c with
  | nil =>
    cases asked
    exact keeps
  | cons statement rest ih =>
    rw [prepareAll] at asked
    split at asked
    next mid prepared => exact ih (keeps.ask prepared) asked
    next mid prepared =>
      cases asked
      exact keeps.ask prepared

include marks in
theorem markStep_keeps (keeps : c.Keeps f x) (marked : markStep oracle blockId c = (ok, after)) :
    after.Keeps f x := by
  rw [markStep] at marked
  split at marked
  next mid stepped =>
    cases marked
    exact (keeps.ask stepped).write (marks blockId)
  next mid stepped =>
    cases marked
    exact keeps.ask stepped

include credits in
theorem creditLoop_keeps (keeps : c.Keeps f x)
    (looped : creditLoop oracle blockId amount c credited rows = (ok, count, after)) :
    after.Keeps f x := by
  induction rows generalizing c credited with
  | nil =>
    rw [creditLoop, Prod.mk.injEq, Prod.mk.injEq] at looped
    obtain ⟨_, _, rfl⟩ := looped
    exact keeps.ask rfl
  | cons row rest ih =>
    rw [creditLoop] at looped
    split at looped
    next mid read =>
      have keeps := keeps.ask read
      split at looped
      · exact ih keeps looped
      next credit made =>
        split at looped
        next paid stepped => exact ih ((keeps.ask stepped).write (credits credit)) looped
        next paid stepped =>
          cases looped
          exact keeps.ask stepped
    next mid failed read =>
      cases looped
      exact keeps.ask read

include credits marks

theorem distributeInTxn_keeps (closed : c.working = none) (keeps : c.Keeps f x)
    (ran : distributeInTxn oracle row amount c = (result, after)) :
    after.working = none ∧ after.Keeps f x := by
  rw [distributeInTxn] at ran
  split at ran
  next begun failed =>
    cases ran
    exact ⟨(txnBegin_spec closed failed).2.2 rfl, keeps.begin failed⟩
  next begun opened =>
    have keeps := keeps.begin opened
    split at ran
    next mid prepared =>
      cases ran
      exact ⟨rfl, (prepareAll_keeps keeps prepared).rollback⟩
    next mid prepared =>
      have keeps := prepareAll_keeps keeps prepared
      dsimp only at ran
      split at ran
      next count looped done =>
        cases ran
        exact ⟨rfl, (creditLoop_keeps credits keeps done).rollback⟩
      next count looped done =>
        have keeps := creditLoop_keeps credits keeps done
        split at ran
        next marked stepped =>
          cases ran
          exact ⟨rfl, (markStep_keeps marks keeps stepped).rollback⟩
        next marked stepped =>
          have keeps := markStep_keeps marks keeps stepped
          split at ran
          next final committed =>
            cases ran
            exact ⟨(txnCommit_spec committed).1, keeps.commit committed⟩
          next final committed =>
            cases ran
            exact ⟨(txnCommit_spec committed).1, keeps.commit committed⟩

theorem distributeBlock_keeps (closed : c.working = none) (keeps : c.Keeps f x)
    (ran : distributeBlock oracle feeBps row c = (result, after)) :
    after.working = none ∧ after.Keeps f x := by
  simp only [distributeBlock] at ran
  split at ran
  · split at ran
    next mid prepared =>
      cases ran
      exact ⟨(markStep_closed (ask_closed closed prepared) rfl).1,
        markStep_keeps marks (keeps.ask prepared) rfl⟩
    next mid prepared =>
      cases ran
      exact ⟨ask_closed closed prepared, keeps.ask prepared⟩
  · exact distributeInTxn_keeps credits marks closed keeps ran

/-- Whatever fails, the distributor only credits and latches. -/
theorem distributeLoop_keeps (closed : c.working = none) (keeps : c.Keeps f x)
    (looped : distributeLoop oracle feeBps c out rows = (result, after)) :
    after.working = none ∧ after.Keeps f x := by
  induction rows generalizing c out with
  | nil =>
    rw [distributeLoop, Prod.mk.injEq] at looped
    obtain ⟨_, rfl⟩ := looped
    exact ⟨ask_closed closed rfl, keeps.ask rfl⟩
  | cons row rest ih =>
    rw [distributeLoop] at looped
    split at looped
    next mid stepped =>
      cases ran : distributeBlock oracle feeBps row mid with
      | mk block final =>
        obtain ⟨still, kept⟩ := distributeBlock_keeps credits marks (ask_closed closed stepped)
          (keeps.ask stepped) ran
        rw [ran] at looped
        cases block with
        | nothingToShare => exact ih still kept looped
        | distributed workers => exact ih still kept looped
        | failed =>
          cases looped
          exact ⟨still, kept⟩
    next mid stepped =>
      cases looped
      exact ⟨ask_closed closed stepped, keeps.ask stepped⟩

theorem storePplnsDistribute_keeps (closed : c.working = none) (keeps : c.Keeps f x)
    (ran : storePplnsDistribute oracle maturityConfs feeBps c = (result, after)) :
    after.working = none ∧ after.Keeps f x := by
  rw [storePplnsDistribute] at ran
  split at ran
  next mid prepared =>
    exact distributeLoop_keeps credits marks (ask_closed closed prepared) (keeps.ask prepared) ran
  next mid prepared =>
    cases ran
    exact ⟨ask_closed closed prepared, keeps.ask prepared⟩

end Frame

/-- In every sequence of calls in which no step of the window query reports an
error, whatever else fails, each block stays settled one way or the other. -/
theorem distributeRun_consistent (oracle : Oracle) (base : Nat → Int) (fees : Int → Prop) (db : Db)
    (calls : List DistributeCall)
    (reads : ∀ position, oracle (.step .window) position = .served)
    (charged : ∀ call ∈ calls, fees call.feeBps)
    (consistent : Consistent base fees db) :
    (distributeRun oracle ⟨db, none, 0⟩ calls).working = none ∧
      Consistent base fees (distributeRun oracle ⟨db, none, 0⟩ calls).committed := by
  have run : ∀ c : Connection, c.working = none → Consistent base fees c.committed →
      (distributeRun oracle c calls).working = none ∧
        Consistent base fees (distributeRun oracle c calls).committed := by
    induction calls with
    | nil => exact fun c closed consistent => ⟨closed, consistent⟩
    | cons call rest ih =>
      intro c closed consistent
      obtain ⟨still, kept⟩ :=
        storePplnsDistribute_consistent reads (charged call (by simp)) closed consistent rfl
      exact ih (fun later member => charged later (by simp [member])) _ still kept
  exact run _ rfl consistent

/-- A matured block of 1000 sats, found by the second of two equal workers. -/
def maturedDb : Db where
  workers := [⟨1, some "bc1qa"⟩, ⟨2, some "bc1qb"⟩]
  shares :=
    { rows := [⟨1, 1, 1, none⟩, ⟨2, 2, 1, some "00ab"⟩]
      ascending := by decide
      ranged := by decide
      sized := by decide }
  blocksFound :=
    ⟨[⟨1, 10, "00ab", some 1000, none, .confirmed, 100, 2, false, some .node⟩], by decide⟩
  templates := []
  ppsCredits := []
  pplnsFractions := []
  pendingFractions := []
  credited := []

theorem maturedDb_consistent : Consistent (fun _ => 0) (· = 0) maturedDb where
  settled := by
    intro row member
    obtain rfl := List.mem_singleton.mp member
    exact Or.inl ⟨rfl, rfl⟩
  backed := fun _ => rfl

/-- Every credit step fails, and so does the first COMMIT. -/
def failingWrites : Oracle
  | .step .credit, position => if position < 10 then .rolledBack else .served
  | .commit, position => if position < 24 then .error else .served
  | _, _ => .served

theorem distributeRun_consistent_retried :
    (distributeRun failingWrites ⟨maturedDb, none, 0⟩
      [⟨100, 0⟩, ⟨100, 0⟩, ⟨100, 0⟩]).committed.credited = [⟨1, 2, 500⟩, ⟨1, 1, 500⟩] ∧
    Consistent (fun _ => 0) (· = 0)
      (distributeRun failingWrites ⟨maturedDb, none, 0⟩ [⟨100, 0⟩, ⟨100, 0⟩, ⟨100, 0⟩]).committed :=
  ⟨by decide +kernel, (distributeRun_consistent failingWrites (fun _ => 0) (· = 0) maturedDb _
    (fun _ => rfl) (by decide) maturedDb_consistent).2⟩

/-- The second step of the window query fails, as on an IO error. -/
def failingWindow : Oracle
  | .step .window, position => if position = 8 then .error else .served
  | _, _ => .served

/-- The step error ends the loop over the window like the end of its rows: one
worker's half is committed together with the latch, and the other is never paid. -/
theorem distributeRun_window_error :
    Consistent (fun _ => 0) (· = 0) maturedDb ∧
    (distributeRun failingWindow ⟨maturedDb, none, 0⟩ [⟨100, 0⟩]).committed.credited =
      [⟨1, 2, 500⟩] ∧
    ¬ Consistent (fun _ => 0) (· = 0)
      (distributeRun failingWindow ⟨maturedDb, none, 0⟩ [⟨100, 0⟩]).committed := by
  refine ⟨maturedDb_consistent, by decide +kernel, fun consistent => ?_⟩
  have latched := consistent.settled
    ⟨1, 10, "00ab", some 1000, none, .confirmed, 100, 2, true, some .node⟩ (by decide +kernel)
  rcases latched with ⟨clear, _⟩ | ⟨_, feeBps, rfl, whole⟩
  · cases clear
  · revert whole
    decide +kernel

end SimplePool.Store
