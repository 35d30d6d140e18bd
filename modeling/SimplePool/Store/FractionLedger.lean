import Mathlib.Algebra.BigOperators.Group.List.Basic
import Mathlib.Tactic.Ring
import SimplePool.Lib.Transition
import SimplePool.Store.Fractions

/-! What a block did to the payout queue is added to it at most once, as long as no step
of the listing of settled blocks makes sqlite roll the transaction back. The loop over the
listing takes such a step for the end of its rows and writes on outside the transaction. -/
namespace SimplePool.Store
open Transition

/-- The rows of a staged set together, counted with the given weights of the workers. -/
def weigh (weight : Nat → ℚ) (rows : List PendingFraction) : ℚ :=
  (rows.map fun row => weight row.workerId * row.delta).sum

def ledgerSum (weight : Nat → ℚ) (db : Db) : ℚ :=
  (db.pplnsFractions.map fun row => weight row.workerId * row.owedFraction).sum

/-- One row a worker: `worker_id` is the primary key. -/
def OneRowEach (db : Db) : Prop := (db.pplnsFractions.map PplnsFraction.workerId).Nodup

/-- The first fate that a listing gives a block. -/
def fateIn (hashes : List (String × Bool)) (hash : String) : Option Bool :=
  (hashes.find? fun fate => fate.1 = hash).map Prod.snd

/-- The effect of settling the listed blocks one after the other. -/
def settleFractions (hashes : List (String × Bool)) (db : Db) : Db :=
  hashes.foldl (fun db fate => dropPending fate.1 (if fate.2 then applyFractions fate.1 db else db))
    db

def stageAll (rows : List PendingFraction) (db : Db) : Db :=
  rows.foldl (fun db row => pendingUpsert row db) db

section Effects

variable (weight : Nat → ℚ) (db : Db)

theorem weigh_append (first rest : List PendingFraction) :
    weigh weight (first ++ rest) = weigh weight first + weigh weight rest := by
  rw [weigh, List.map_append, List.sum_append]
  rfl

theorem sum_addAt {rows : List PplnsFraction} (keyed : (rows.map PplnsFraction.workerId).Nodup)
    (key : Nat) (delta : ℚ) :
    ((rows.map fun row => if row.workerId = key
      then { row with owedFraction := row.owedFraction + delta } else row).map
      fun row => weight row.workerId * row.owedFraction).sum =
      (rows.map fun row => weight row.workerId * row.owedFraction).sum +
        if key ∈ rows.map PplnsFraction.workerId then weight key * delta else 0 := by
  induction rows with
  | nil => simp
  | cons row rest ih =>
    obtain ⟨apart, keyed⟩ := List.nodup_cons.mp keyed
    simp only [List.map_cons, List.sum_cons, List.mem_cons, ih keyed]
    by_cases same : row.workerId = key
    · subst same
      rw [if_pos rfl, if_neg apart, if_pos (Or.inl rfl)]
      ring
    · rw [if_neg same]
      simp only [Ne.symm same, false_or]
      ring

theorem ledgerSum_upsert (keyed : OneRowEach db) (pending : PendingFraction) :
    ledgerSum weight (fractionUpsert db pending) =
      ledgerSum weight db + weight pending.workerId * pending.delta := by
  have known : (db.pplnsFractions.any fun row => row.workerId = pending.workerId) = true ↔
      pending.workerId ∈ db.pplnsFractions.map PplnsFraction.workerId := by
    simp [List.any_eq_true]
  simp only [ledgerSum, fractionUpsert]
  split
  next found => rw [sum_addAt weight keyed, if_pos (known.mp found)]
  next => simp

theorem oneRowEach_upsert (keyed : OneRowEach db) (pending : PendingFraction) :
    OneRowEach (fractionUpsert db pending) := by
  simp only [OneRowEach, fractionUpsert]
  split
  next =>
    have same :
      PplnsFraction.workerId ∘ (fun row : PplnsFraction => if row.workerId = pending.workerId then
        { row with owedFraction := row.owedFraction + pending.delta } else row) =
            PplnsFraction.workerId := by
      funext row
      dsimp only [Function.comp]
      split <;> rfl
    rw [List.map_map, same]
    exact keyed
  next unknown =>
    rw [List.map_append, List.nodup_append]
    refine ⟨keyed, List.nodup_singleton _, ?_⟩
    rintro id member other new rfl
    obtain ⟨row, inside, rfl⟩ := List.mem_map.mp member
    have equal : row.workerId = pending.workerId := List.mem_singleton.mp new
    exact unknown (List.any_eq_true.mpr ⟨row, inside, by simpa using equal⟩)

variable {db}

theorem foldl_fractionUpsert (keyed : OneRowEach db) (rows : List PendingFraction) :
    OneRowEach (rows.foldl fractionUpsert db) ∧
      (rows.foldl fractionUpsert db).pendingFractions = db.pendingFractions ∧
      ledgerSum weight (rows.foldl fractionUpsert db) =
        ledgerSum weight db + weigh weight rows := by
  induction rows generalizing db with
  | nil => simp [keyed, weigh]
  | cons row rest ih =>
    obtain ⟨still, same, sum⟩ := ih (oneRowEach_upsert db keyed row)
    refine ⟨still, same, ?_⟩
    rw [List.foldl_cons, sum, ledgerSum_upsert weight db keyed]
    simp only [weigh, List.map_cons, List.sum_cons]
    ring

theorem weigh_filter (rows : List PendingFraction) (p : PendingFraction → Bool) :
    weigh weight (rows.filter p) =
      (rows.map fun row => if p row then weight row.workerId * row.delta else 0).sum := by
  induction rows with
  | nil => rfl
  | cons row rest ih =>
    rw [List.filter_cons, List.map_cons, List.sum_cons, ← ih]
    split
    · rw [weigh, List.map_cons, List.sum_cons]
      rfl
    · rw [zero_add]

theorem fateIn_cons (hash : String) (confirmed : Bool) (rest : List (String × Bool))
    (other : String) :
    fateIn ((hash, confirmed) :: rest) other = if hash = other then some confirmed
      else fateIn rest other := by
  rw [fateIn, List.find?_cons]
  by_cases same : hash = other
  · simp [same]
  · simp [same, fateIn]

theorem ledgerSum_dropPending (hash : String) (db : Db) :
    ledgerSum weight (dropPending hash db) = ledgerSum weight db := rfl

theorem settleOne_spec (keyed : OneRowEach db) (hash : String) (confirmed : Bool) :
    OneRowEach (dropPending hash (if confirmed then applyFractions hash db else db)) ∧
      (dropPending hash (if confirmed then applyFractions hash db else db)).pendingFractions =
        db.pendingFractions.filter (fun row => row.blockHash ≠ hash) ∧
      ledgerSum weight (dropPending hash (if confirmed then applyFractions hash db else db)) =
        ledgerSum weight db +
        weigh weight (db.pendingFractions.filter fun row => row.blockHash = hash ∧
          confirmed = true) := by
  cases confirmed with
  | false => exact ⟨keyed, rfl, by simp [weigh]; rfl⟩
  | true =>
    obtain ⟨still, same, sum⟩ := foldl_fractionUpsert weight keyed
      (db.pendingFractions.filter fun pending => pending.blockHash = hash)
    refine ⟨still, ?_, ?_⟩
    · simp only [dropPending, if_true, applyFractions, same]
    · simpa only [ledgerSum_dropPending, if_true, applyFractions, and_true] using sum

/-- Settling takes the listed blocks off the queue and adds the rows of those whose first
fate is that they stand. -/
theorem settleFractions_spec (keyed : OneRowEach db) (hashes : List (String × Bool)) :
    OneRowEach (settleFractions hashes db) ∧
      (settleFractions hashes db).pendingFractions =
        db.pendingFractions.filter (fun row => fateIn hashes row.blockHash = none) ∧
      ledgerSum weight (settleFractions hashes db) = ledgerSum weight db +
        weigh weight (db.pendingFractions.filter fun row => fateIn hashes row.blockHash =
          some true) := by
  induction hashes generalizing db with
  | nil => simp [settleFractions, keyed, fateIn, weigh]
  | cons fate rest ih =>
    obtain ⟨hash, confirmed⟩ := fate
    obtain ⟨keyed', dropped, applied⟩ := settleOne_spec weight keyed hash confirmed
    obtain ⟨still, left, sum⟩ := ih keyed'
    refine ⟨still, ?_, ?_⟩
    · rw [settleFractions, List.foldl_cons, ← settleFractions, left, dropped, List.filter_filter]
      apply List.filter_congr
      intro row _
      rw [fateIn_cons]
      by_cases same : row.blockHash = hash
      · simp [same]
      · simp [same, Ne.symm same]
    · rw [settleFractions, List.foldl_cons, ← settleFractions, sum, applied, dropped,
        List.filter_filter, add_assoc]
      congr 1
      simp only [weigh_filter, ← List.sum_map_add]
      congr 1
      apply List.map_congr_left
      intro row _
      rw [fateIn_cons]
      by_cases same : row.blockHash = hash
      · simp [same]
      · simp [same, Ne.symm same]

/-- A set for a block that has nothing staged goes to the end of the table. -/
theorem stageAll_spec {rows : List PendingFraction}
    (distinct : (rows.map PendingFraction.workerId).Nodup)
    (fresh : ∀ row ∈ rows, ∀ old ∈ db.pendingFractions, ¬ (old.blockHash = row.blockHash ∧
      old.workerId = row.workerId)) :
    (stageAll rows db).pendingFractions = db.pendingFractions ++ rows ∧
      (stageAll rows db).pplnsFractions = db.pplnsFractions := by
  induction rows generalizing db with
  | nil => simp [stageAll]
  | cons row rest ih =>
    obtain ⟨apart, distinct⟩ := List.nodup_cons.mp distinct
    have inserted : (pendingUpsert row db).pendingFractions = db.pendingFractions ++ [row] := by
      have absent : ¬ (db.pendingFractions.any fun old =>
          decide (old.blockHash = row.blockHash ∧ old.workerId = row.workerId)) = true := by
        rw [List.any_eq_true]
        rintro ⟨old, member, same⟩
        exact fresh row List.mem_cons_self old member (of_decide_eq_true same)
      simp only [pendingUpsert, if_neg absent]
    have fresh' : ∀ later ∈ rest, ∀ old ∈ (pendingUpsert row db).pendingFractions,
        ¬ (old.blockHash = later.blockHash ∧ old.workerId = later.workerId) := by
      intro later member old inside
      rw [inserted] at inside
      rcases List.mem_append.mp inside with before | new
      · exact fresh later (List.mem_cons_of_mem _ member) old before
      · obtain rfl := List.mem_singleton.mp new
        rintro ⟨_, same⟩
        exact apart (same ▸ List.mem_map_of_mem member)
    obtain ⟨staged, ledger⟩ := ih distinct fresh'
    refine ⟨?_, ledger⟩
    rw [stageAll, List.foldl_cons, ← stageAll, staged, inserted, List.append_assoc,
      List.singleton_append]

end Effects

section Calls

variable {oracle : Oracle} {c after : Connection}

theorem ask_kept (asked : c.ask oracle call = (outcome, after)) (kept : outcome ≠ .rolledBack) :
    after.working = c.working := by
  simp only [Connection.ask, Prod.mk.injEq] at asked
  obtain ⟨rfl, rfl⟩ := asked
  rw [if_neg kept]

theorem write_open {g : Db → Db} (opened : c.working = some db) :
    (c.write g).committed = c.committed ∧ (c.write g).working = some (g db) := by
  simp only [Connection.write, opened, and_self]

theorem runWrite_spec {g : Db → Db} (opened : c.working = some db)
    (ran : runWrite oracle statement g c = (ok, after)) :
    after.committed = c.committed ∧ (ok = true → after.working = some (g db)) := by
  rw [runWrite] at ran
  split at ran
  next mid prepared =>
    obtain ⟨committed, working⟩ := ask_served prepared
    split at ran
    next stepped asked =>
      cases ran
      obtain ⟨same, unchanged⟩ := ask_served asked
      obtain ⟨kept, written⟩ := write_open (g := g) ((unchanged.trans working).trans opened)
      exact ⟨(kept.trans same).trans committed, fun _ => written⟩
    next stepped asked =>
      cases ran
      exact ⟨(ask_committed asked).trans committed, by simp⟩
  next mid prepared =>
    cases ran
    exact ⟨ask_committed prepared, by simp⟩

/-- A loop that ends well has settled every block it was given. -/
theorem settleLoop_spec (opened : c.working = some db)
    (looped : settleLoop oracle c totals hashes = (result, after)) :
    after.committed = c.committed ∧
    (result ≠ none → after.working = some (settleFractions hashes db)) := by
  induction hashes generalizing c totals db with
  | nil =>
    cases looped
    exact ⟨rfl, fun _ => opened⟩
  | cons fate rest ih =>
    obtain ⟨hash, confirmed⟩ := fate
    rw [settleLoop] at looped
    have applied : ∀ ok mid, (if confirmed = true then
        runWrite oracle .applyFraction (applyFractions hash) c else (true, c)) = (ok, mid) →
        mid.committed = c.committed ∧
          (ok = true → mid.working = some (if confirmed then applyFractions hash db else db)) := by
      intro ok mid ran
      cases confirmed with
      | true =>
        rw [if_pos rfl] at ran ⊢
        exact runWrite_spec opened ran
      | false =>
        cases ran
        exact ⟨rfl, fun _ => opened⟩
    split at looped
    next mid ran =>
      cases looped
      exact ⟨(applied _ _ ran).1, by simp⟩
    next mid ran =>
      obtain ⟨committed, working⟩ := applied _ _ ran
      dsimp only at looped
      split at looped
      next dropped wrote =>
        cases looped
        exact ⟨(runWrite_spec (working rfl) wrote).1.trans committed, by simp⟩
      next dropped wrote =>
        obtain ⟨same, unstaged⟩ := runWrite_spec (working rfl) wrote
        obtain ⟨kept, settled⟩ := ih (unstaged rfl) looped
        exact ⟨(kept.trans same).trans committed, settled⟩

/-- A loop that ends well has staged every row it was given. -/
theorem stageLoop_spec (opened : c.working = some db)
    (looped : stageLoop oracle c wrote rows = (result, after)) :
    after.committed = c.committed ∧ (result ≠ none → after.working = some (stageAll rows db)) := by
  induction rows generalizing c wrote db with
  | nil =>
    cases looped
    exact ⟨rfl, fun _ => opened⟩
  | cons row rest ih =>
    rw [stageLoop] at looped
    split at looped
    next mid stepped =>
      obtain ⟨committed, working⟩ := ask_served stepped
      obtain ⟨same, written⟩ := write_open (g := pendingUpsert row) (working.trans opened)
      obtain ⟨kept, staged⟩ := ih written looped
      exact ⟨(kept.trans same).trans committed, staged⟩
    next mid stepped =>
      cases looped
      exact ⟨ask_committed stepped, by simp⟩

/-- COMMIT reports success exactly when what it was given is in the database. -/
theorem txnCommit_landed (opened : c.working = some db)
    (committing : txnCommit oracle c = (ok, after)) :
    after.working = none ∧ after.committed = if ok then db else c.committed := by
  rw [txnCommit] at committing
  cases asked : c.ask oracle .commit with
  | mk outcome mid =>
    have committed := ask_committed asked
    simp only [asked] at committing
    split at committing
    next held working =>
      cases committing
      exact ⟨rfl, Option.some.inj ((working.symm.trans (ask_served asked).2).trans opened)⟩
    next =>
      cases committing
      exact ⟨rfl, committed⟩

/-- A stage is all or nothing, and says which. -/
theorem storeStageBlockFractions_spec {hash : String} (closed : c.working = none)
    (ran : storeStageBlockFractions oracle hash deltas c = (result, after)) :
    after.working = none ∧
      after.committed = if result = none then c.committed
        else stageAll (stagedRows hash deltas) c.committed := by
  rw [storeStageBlockFractions] at ran
  split at ran
  · cases ran
    exact ⟨closed, rfl⟩
  dsimp only at ran
  split at ran
  next nothing =>
    cases ran
    exact ⟨closed, by simp [nothing, stageAll]⟩
  split at ran
  · cases ran
    exact ⟨closed, rfl⟩
  split at ran
  next begun failed =>
    cases ran
    obtain ⟨same, _, still⟩ := txnBegin_spec closed failed
    exact ⟨still rfl, same⟩
  next begun started =>
    obtain ⟨same, opened, _⟩ := txnBegin_spec closed started
    split at ran
    next mid prepared =>
      obtain ⟨committed, working⟩ := ask_served prepared
      have unchanged := committed.trans same
      split at ran
      next looped failed =>
        cases ran
        exact ⟨rfl, (stageLoop_spec (working.trans (opened rfl)) failed).1.trans unchanged⟩
      next wrote looped done =>
        obtain ⟨kept, staged⟩ := stageLoop_spec (working.trans (opened rfl)) done
        split at ran
        next landed committing =>
          cases ran
          exact txnCommit_landed (staged (by simp)) committing
        next landed committing =>
          cases ran
          obtain ⟨shut, left⟩ := txnCommit_landed (staged (by simp)) committing
          exact ⟨shut, (left.trans kept).trans unchanged⟩
    next mid prepared =>
      cases ran
      exact ⟨rfl, (ask_committed prepared).trans same⟩

/-- While no step rolls back, the loop over the listing reads a first part of it, and the
transaction stays open. -/
theorem readHashes_spec (reads : ∀ position, oracle (.step .settledHashes) position ≠ .rolledBack)
    (whole : ∀ fate ∈ rows, buffer 80 fate.1 = fate.1) (opened : c.working = some db)
    (read : readHashes oracle c out rows = (hashes, after)) :
    after.committed = c.committed ∧ after.working = some db ∧ ∃ n, hashes = out ++ rows.take n := by
  induction rows generalizing c out with
  | nil =>
    rw [readHashes, Prod.mk.injEq] at read
    obtain ⟨rfl, rfl⟩ := read
    split
    · refine ⟨ask_committed rfl, ?_, 0, by simp⟩
      exact (ask_kept rfl (reads c.calls)).trans opened
    · exact ⟨rfl, opened, 0, by simp⟩
  | cons fate rest ih =>
    obtain ⟨hash, confirmed⟩ := fate
    rw [readHashes] at read
    split at read
    next mid asked =>
      obtain ⟨committed, working⟩ := ask_served asked
      rw [whole (hash, confirmed) List.mem_cons_self] at read
      obtain ⟨kept, still, n, rfl⟩ :=
        ih (fun fate member => whole fate (List.mem_cons_of_mem _ member))
        (working.trans opened) read
      refine ⟨kept.trans committed, still, n + 1, ?_⟩
      rw [List.append_assoc, List.take_succ_cons, List.singleton_append]
    next mid asked =>
      cases read
      refine ⟨ask_committed asked, ?_, 0, by simp⟩
      exact (ask_kept asked (ask_outcome asked ▸ reads c.calls)).trans opened

/-- Settling is all or nothing, and says which. -/
theorem storeSettleBlockFractions_spec
    (reads : ∀ position, oracle (.step .settledHashes) position ≠ .rolledBack)
    (whole : ∀ fate ∈ settledHashesQuery c.committed, buffer 80 fate.1 = fate.1)
    (closed : c.working = none) (ran : storeSettleBlockFractions oracle c = (result, after)) :
    after.working = none ∧ ∃ n, after.committed =
      if result = none then c.committed
      else settleFractions ((settledHashesQuery c.committed).take n) c.committed := by
  rw [storeSettleBlockFractions] at ran
  split at ran
  next prepared asked =>
    obtain ⟨committed, working⟩ := ask_served asked
    split at ran
    next stepped asked =>
      obtain ⟨committed', working'⟩ := ask_served asked
      have shut := (working'.trans working).trans closed
      have unchanged := committed'.trans committed
      split at ran
      · cases ran
        exact ⟨shut, 0, unchanged⟩
      split at ran
      next begun failed =>
        cases ran
        obtain ⟨same, _, still⟩ := txnBegin_spec shut failed
        exact ⟨still rfl, 0, same.trans unchanged⟩
      next begun started =>
        obtain ⟨same, opened, _⟩ := txnBegin_spec shut started
        have unchanged := same.trans unchanged
        split at ran
        next listing asked =>
          obtain ⟨held, view⟩ := ask_served asked
          have unchanged := held.trans unchanged
          have shown : listing.working = some c.committed :=
            (view.trans (opened rfl)).trans (congrArg some (committed'.trans committed))
          have seen : listing.db = c.committed := by rw [Connection.db, shown, Option.getD_some]
          split at ran
          next hashes read done =>
            rw [seen] at done
            obtain ⟨kept, still, n, rfl⟩ := readHashes_spec reads whole shown done
            have unchanged := kept.trans unchanged
            split at ran
            next looped failed =>
              cases ran
              exact ⟨rfl, 0, (settleLoop_spec still failed).1.trans unchanged⟩
            next totals looped settled =>
              obtain ⟨left, applied⟩ := settleLoop_spec still settled
              split at ran
              next landed committing =>
                cases ran
                obtain ⟨shut, final⟩ := txnCommit_landed (applied (by simp)) committing
                exact ⟨shut, n, final⟩
              next landed committing =>
                cases ran
                obtain ⟨shut, final⟩ := txnCommit_landed (applied (by simp)) committing
                exact ⟨shut, 0, (final.trans left).trans unchanged⟩
        next listing asked =>
          cases ran
          exact ⟨rfl, 0, (ask_committed asked).trans unchanged⟩
    next stepped asked =>
      cases ran
      exact ⟨ask_closed (working.trans closed) asked, 0, (ask_committed asked).trans committed⟩
  next prepared asked =>
    cases ran
    exact ⟨ask_closed closed asked, 0, ask_committed asked⟩

end Calls

/-- The tables, with the sets staged so far and the blocks settled so far, each with
whether it stood. -/
structure FractionState where
  conn : Connection
  staged : List (String × List PendingFraction)
  settled : List (String × Bool)

inductive FractionEvent where
  | stage (hash : String) (deltas : List FractionDelta)
  | settle
  /-- Blocks are found, confirmed, orphaned and rejected. -/
  | blocks (table : BlockTable)

/-- The blocks that left the staging table, with the fate that the listing gave them. -/
def settledNow (before after : Db) : List (String × Bool) :=
  (((before.pendingFractions.map PendingFraction.blockHash).dedup).filter fun hash =>
      ¬ after.pendingFractions.any fun row => row.blockHash = hash).filterMap
    fun hash => (fateIn (settledHashesQuery before) hash).map fun confirmed => (hash, confirmed)

/-- A block is staged at most once and with distinct workers. Its hash has 64 digits, and the
listing is read into buffers of 80 bytes. -/
def stageable (s : FractionState) (hash : String) (rows : List PendingFraction) : Prop :=
  hash ∉ s.staged.map Prod.fst ∧ (rows.map PendingFraction.workerId).Nodup ∧ hash.toList.length < 80

instance (s : FractionState) (hash : String) (rows : List PendingFraction) :
    Decidable (stageable s hash rows) :=
  inferInstanceAs (Decidable (_ ∧ _))

def fractionStep (oracle : Oracle) (s : FractionState) : FractionEvent → Option FractionState
  | .stage hash deltas =>
    if stageable s hash (stagedRows hash deltas) then
      match storeStageBlockFractions oracle hash deltas s.conn with
      | (none, conn) => some { s with conn }
      | (some _, conn) =>
        some { s with conn, staged := s.staged ++ [(hash, stagedRows hash deltas)] }
    else none
  | .settle =>
    let (_, conn) := storeSettleBlockFractions oracle s.conn
    some { s with conn, settled := s.settled ++ settledNow s.conn.db conn.db }
  | .blocks table => some { s with conn := s.conn.write fun db => { db with blocksFound := table } }

def FractionEvent.fails (oracle : Oracle) (s : FractionState) : FractionEvent → Prop
  | .stage hash deltas => (storeStageBlockFractions oracle hash deltas s.conn).1 = none
  | .settle => (storeSettleBlockFractions oracle s.conn).1 = none
  | .blocks _ => False

/-- The sets of the blocks that stood when they were settled. -/
def applied (s : FractionState) : List PendingFraction :=
  s.staged.flatMap fun set => if (set.1, true) ∈ s.settled then set.2 else []

/-- The sets of the blocks that are not settled. -/
def waiting (s : FractionState) : List PendingFraction :=
  s.staged.flatMap fun set => if set.1 ∈ s.settled.map Prod.fst then [] else set.2

def owedFraction (db : Db) (workerId : Nat) : ℚ :=
  ((db.pplnsFractions.find? fun row => row.workerId = workerId).map PplnsFraction.owedFraction).getD
    0

def deltaOf (rows : List PendingFraction) (workerId : Nat) : ℚ :=
  ((rows.filter fun row => row.workerId = workerId).map PendingFraction.delta).sum

structure AppliedOnce (oracle : Oracle) (before : FractionState) (event : FractionEvent)
    (after : FractionState) :
    Prop where
  /-- No block is settled twice. -/
  once : (after.settled.map Prod.fst).Nodup
  /-- The queue holds the sets of the blocks that stood, each once, and nothing else. -/
  owed : ∀ workerId, owedFraction after.conn.db workerId = deltaOf (applied after) workerId
  unsettled : after.conn.db.pendingFractions = waiting after
  /-- A block is settled by the status it has then. -/
  fate : ∀ hash confirmed, (hash, confirmed) ∈ after.settled → (hash, confirmed) ∉ before.settled →
    ∃ row ∈ before.conn.db.blocksFound.rows, row.hash = hash ∧
      row.status = if confirmed then .confirmed else .orphaned
  failed : event.fails oracle before →
    after.conn.db.pplnsFractions = before.conn.db.pplnsFractions ∧
    after.conn.db.pendingFractions = before.conn.db.pendingFractions
  balanced : (∀ set ∈ after.staged, (set.2.map PendingFraction.delta).sum = 0) →
    (after.conn.db.pplnsFractions.map PplnsFraction.owedFraction).sum = 0

/-- The invariant of the queue and the staging table. -/
structure Ledger (s : FractionState) : Prop where
  closed : s.conn.working = none
  keyed : OneRowEach s.conn.committed
  sized : ∀ set ∈ s.staged, set.1.toList.length < 80
  marked : ∀ set ∈ s.staged, ∀ row ∈ set.2, row.blockHash = set.1
  once : (s.settled.map Prod.fst).Nodup
  known : ∀ fate ∈ s.settled, fate.1 ∈ s.staged.map Prod.fst
  unsettled : s.conn.committed.pendingFractions = waiting s
  booked : ∀ weight, ledgerSum weight s.conn.committed = weigh weight (applied s)

section Steps

variable {s t : FractionState}

theorem fateIn_of_take {hashes : List (String × Bool)} {hash : String}
    (found : fateIn (hashes.take n) hash = some confirmed) :
    fateIn hashes hash = some confirmed := by
  rw [← List.take_append_drop n hashes, fateIn, List.find?_append]
  obtain ⟨fate, first, rfl⟩ := Option.map_eq_some_iff.mp found
  rw [first]
  rfl

theorem mem_settledHashesQuery (member : fate ∈ settledHashesQuery db) :
    (∃ pending ∈ db.pendingFractions, pending.blockHash = fate.1) ∧
      ∃ row ∈ db.blocksFound.rows, row.hash = fate.1 ∧
      row.status = if fate.2 then .confirmed else .orphaned := by
  have listed := List.mem_dedup.mp (List.mem_of_mem_take member)
  obtain ⟨pending, staged, inside⟩ := List.mem_flatMap.mp listed
  obtain ⟨row, found, rfl⟩ := List.mem_map.mp inside
  obtain ⟨known, same, settled⟩ := by simpa only [List.mem_filter, decide_eq_true_eq] using found
  refine ⟨⟨pending, staged, rfl⟩, row, known, same, ?_⟩
  rcases settled with confirmed | orphaned
  · simp [confirmed]
  · simp [orphaned]

/-- What a listing that was read up to some row settles. -/
theorem mem_settledNow_iff {before after : Db}
    (left : after.pendingFractions = before.pendingFractions.filter
      fun row => fateIn ((settledHashesQuery before).take n) row.blockHash = none) (hash : String)
      (confirmed : Bool) :
    (hash, confirmed) ∈ settledNow before after ↔
      hash ∈ before.pendingFractions.map PendingFraction.blockHash ∧
        fateIn ((settledHashesQuery before).take n) hash = some confirmed := by
  have gone : hash ∈ before.pendingFractions.map PendingFraction.blockHash →
      (¬ (after.pendingFractions.any fun row => row.blockHash = hash) = true ↔
        fateIn ((settledHashesQuery before).take n) hash ≠ none) := by
    intro staged
    obtain ⟨row, member, rfl⟩ := List.mem_map.mp staged
    rw [left, not_iff_not, List.any_eq_true]
    constructor
    · rintro ⟨other, inside, same⟩
      have unsettled := (List.mem_filter.mp inside).2
      rw [← of_decide_eq_true same]
      exact of_decide_eq_true unsettled
    · exact fun unsettled => ⟨row, List.mem_filter.mpr ⟨member, decide_eq_true unsettled⟩, by simp⟩
  simp only [settledNow, List.mem_filterMap, List.mem_filter, List.mem_dedup,
    Option.map_eq_some_iff, Prod.mk.injEq]
  constructor
  · rintro ⟨_, ⟨staged, absent⟩, _, listed, rfl, rfl⟩
    refine ⟨staged, ?_⟩
    obtain ⟨other, found⟩ :=
      Option.ne_none_iff_exists'.mp ((gone staged).mp (of_decide_eq_true absent))
    rw [found, ← fateIn_of_take found, listed]
  · rintro ⟨staged, found⟩
    have absent := (gone staged).mpr (by simp [found])
    exact ⟨hash, ⟨staged, decide_eq_true absent⟩, confirmed, fateIn_of_take found, rfl, rfl⟩

theorem settledNow_nodup (before after : Db) : ((settledNow before after).map Prod.fst).Nodup := by
  have part : ∀ (f : String → Option Bool) (hashes : List String),
      ((hashes.filterMap fun hash => (f hash).map fun confirmed => (hash, confirmed)).map
        Prod.fst).Sublist hashes := by
    intro f hashes
    induction hashes with
    | nil => exact List.Sublist.slnil
    | cons hash rest ih =>
      rw [List.filterMap_cons]
      cases f hash with
      | none => exact ih.cons hash
      | some confirmed => exact ih.cons_cons hash
  exact (part _ _).nodup ((List.nodup_dedup _).filter _)

theorem filter_marked {rows : List PendingFraction} {hash : String}
    (marked : ∀ row ∈ rows, row.blockHash = hash) (p : String → Bool) :
    (rows.filter fun row => p row.blockHash) = if p hash then rows else [] := by
  split
  next kept =>
    rw [List.filter_eq_self]
    intro row member
    rw [marked row member, kept]
  next dropped =>
    rw [List.filter_eq_nil_iff]
    intro row member
    rwa [marked row member]

theorem weigh_flatMap (weight : Nat → ℚ) (sets : List (String × List PendingFraction))
    (f : String × List PendingFraction → List PendingFraction) :
    weigh weight (sets.flatMap f) = (sets.map fun set => weigh weight (f set)).sum := by
  induction sets with
  | nil => rfl
  | cons set rest ih => rw [List.flatMap_cons, weigh_append, ih, List.map_cons, List.sum_cons]

theorem Ledger.whole (ledger : Ledger s) :
    ∀ fate ∈ settledHashesQuery s.conn.committed, buffer 80 fate.1 = fate.1 := by
  intro fate member
  obtain ⟨⟨pending, staged, same⟩, _⟩ := mem_settledHashesQuery member
  rw [ledger.unsettled, waiting] at staged
  obtain ⟨set, inside, rows⟩ := List.mem_flatMap.mp staged
  split at rows
  · cases rows
  · rw [← same, ledger.marked set inside pending rows, buffer, List.take_of_length_le,
      String.ofList_toList]
    exact Nat.le_of_lt_succ (ledger.sized set inside)

theorem Ledger.pending_of_fresh (ledger : Ledger s) {set : String × List PendingFraction}
    (member : set ∈ s.staged) (fresh : set.1 ∉ s.settled.map Prod.fst) (nonempty : set.2 ≠ []) :
    set.1 ∈ s.conn.committed.pendingFractions.map PendingFraction.blockHash := by
  obtain ⟨row, inside⟩ := List.exists_mem_of_ne_nil _ nonempty
  refine List.mem_map.mpr ⟨row, ?_, ledger.marked set member row inside⟩
  rw [ledger.unsettled, waiting]
  exact List.mem_flatMap.mpr ⟨set, member, by rwa [if_neg fresh]⟩

theorem Ledger.pending_fresh (ledger : Ledger s) {hash : String}
    (staged : hash ∈ s.conn.committed.pendingFractions.map PendingFraction.blockHash) :
    hash ∉ s.settled.map Prod.fst ∧ hash ∈ s.staged.map Prod.fst := by
  obtain ⟨row, member, rfl⟩ := List.mem_map.mp staged
  rw [ledger.unsettled, waiting] at member
  obtain ⟨set, inside, rows⟩ := List.mem_flatMap.mp member
  split at rows
  · cases rows
  next fresh =>
    rw [ledger.marked set inside row rows]
    exact ⟨fresh, List.mem_map_of_mem inside⟩

/-- Settling the first part of the listing, with the blocks it settles. -/
theorem Ledger.settle (ledger : Ledger s) (n : Nat) {conn : Connection}
    (closed : conn.working = none)
    (settled : conn.committed =
      settleFractions ((settledHashesQuery s.conn.committed).take n) s.conn.committed) :
    Ledger { s with conn, settled := s.settled ++ settledNow s.conn.committed conn.committed } := by
  have effect := fun weight =>
    settleFractions_spec weight ledger.keyed ((settledHashesQuery s.conn.committed).take n)
  rw [← settled] at effect
  obtain ⟨keyed, left, _⟩ := effect fun _ => 0
  have now := mem_settledNow_iff left
  have gone : ∀ hash, hash ∈ (settledNow s.conn.committed conn.committed).map Prod.fst ↔
      hash ∈ s.conn.committed.pendingFractions.map PendingFraction.blockHash ∧
        fateIn ((settledHashesQuery s.conn.committed).take n) hash ≠ none := by
    intro hash
    constructor
    · intro member
      obtain ⟨⟨_, confirmed⟩, inside, rfl⟩ := List.mem_map.mp member
      obtain ⟨staged, found⟩ := (now _ _).mp inside
      exact ⟨staged, by simp [found]⟩
    · rintro ⟨staged, found⟩
      obtain ⟨confirmed, found⟩ := Option.ne_none_iff_exists'.mp found
      exact List.mem_map.mpr ⟨(hash, confirmed), (now _ _).mpr ⟨staged, found⟩, rfl⟩
  refine ⟨closed, keyed, ledger.sized, ledger.marked, ?_, ?_, ?_, ?_⟩
  · -- a block that is settled now was still waiting
    rw [List.map_append, List.nodup_append]
    refine ⟨ledger.once, settledNow_nodup _ _, ?_⟩
    rintro hash old _ new rfl
    exact (ledger.pending_fresh ((gone hash).mp new).1).1 old
  · intro fate member
    rcases List.mem_append.mp member with old | new
    · exact ledger.known fate old
    · exact (ledger.pending_fresh ((now _ _).mp new).1).2
  · rw [left, ledger.unsettled, waiting, List.filter_flatMap]
    apply List.flatMap_congr
    intro set member
    simp only [List.map_append, List.mem_append, gone]
    by_cases old : set.1 ∈ s.settled.map Prod.fst
    · simp [old]
    · rw [if_neg old,
        filter_marked (ledger.marked set member) fun hash => decide (fateIn _ hash = none)]
      by_cases nonempty : set.2 = []
      · simp [nonempty]
      · have staged := ledger.pending_of_fresh member old nonempty
        by_cases found : fateIn ((settledHashesQuery s.conn.committed).take n) set.1 = none
        · simp [old, found]
        · simp only [old, staged, found, decide_false, Bool.false_eq_true, if_false, false_or,
            ne_eq, not_false_iff, and_self, if_true]
  · intro weight
    rw [(effect weight).2.2, ledger.booked, ledger.unsettled, waiting, List.filter_flatMap, applied,
      applied]
    simp only [weigh_flatMap, ← List.sum_map_add]
    congr 1
    apply List.map_congr_left
    intro set member
    simp only [List.mem_append, now]
    by_cases old : set.1 ∈ s.settled.map Prod.fst
    · have waited : set.1 ∉ s.conn.committed.pendingFractions.map PendingFraction.blockHash :=
        fun staged => (ledger.pending_fresh staged).1 old
      simp only [waited, false_and, or_false, old, if_true, List.filter_nil]
      exact add_zero _
    · have never : (set.1, true) ∉ s.settled := fun inside => old (List.mem_map_of_mem inside)
      rw [if_neg old,
        filter_marked (ledger.marked set member) fun hash => decide (fateIn _ hash = some true)]
      by_cases nonempty : set.2 = []
      · simp [nonempty, weigh]
      · have staged := ledger.pending_of_fresh member old nonempty
        simp only [never, staged, if_false, false_or, true_and, decide_eq_true_eq]
        exact zero_add _

theorem Ledger.stage (ledger : Ledger s) {hash : String}
    (allowed : stageable s hash (stagedRows hash deltas))
    {conn : Connection} (closed : conn.working = none)
    (staged : conn.committed = stageAll (stagedRows hash deltas) s.conn.committed) :
    Ledger { s with conn, staged := s.staged ++ [(hash, stagedRows hash deltas)] } := by
  obtain ⟨fresh, distinct, digits⟩ := allowed
  have carried : ∀ row ∈ stagedRows hash deltas, row.blockHash = hash := by
    intro row member
    obtain ⟨_, _, rfl⟩ := List.mem_map.mp member
    rfl
  have apart : ∀ row ∈ stagedRows hash deltas, ∀ old ∈ s.conn.committed.pendingFractions,
      ¬ (old.blockHash = row.blockHash ∧ old.workerId = row.workerId) := by
    rintro row member old inside ⟨same, _⟩
    rw [carried row member] at same
    exact fresh (same ▸ (ledger.pending_fresh (List.mem_map_of_mem inside)).2)
  have never : hash ∉ s.settled.map Prod.fst := by
    intro member
    obtain ⟨fate, inside, rfl⟩ := List.mem_map.mp member
    exact fresh (ledger.known fate inside)
  have unapplied : (hash, true) ∉ s.settled := fun inside => never (List.mem_map_of_mem inside)
  obtain ⟨pending, fractions⟩ := stageAll_spec distinct apart
  rw [← staged] at pending fractions
  constructor
  · exact closed
  · rw [OneRowEach, fractions]
    exact ledger.keyed
  · intro set member
    rcases List.mem_append.mp member with old | new
    · exact ledger.sized set old
    · obtain rfl := List.mem_singleton.mp new
      exact digits
  · intro set member
    rcases List.mem_append.mp member with old | new
    · exact ledger.marked set old
    · obtain rfl := List.mem_singleton.mp new
      exact carried
  · exact ledger.once
  · intro fate member
    rw [List.map_append]
    exact List.mem_append_left _ (ledger.known fate member)
  · rw [pending, ledger.unsettled, waiting, waiting, List.flatMap_append, List.flatMap_singleton,
      if_neg never]
  · intro weight
    have same : applied { s with conn, staged := s.staged ++ [(hash, stagedRows hash deltas)] } =
          applied s := by
      rw [applied, applied, List.flatMap_append, List.flatMap_singleton, if_neg unapplied,
        List.append_nil]
    rw [same, ledgerSum, fractions]
    exact ledger.booked weight

theorem Ledger.same (ledger : Ledger s) {conn : Connection} (closed : conn.working = none)
    (fractions : conn.committed.pplnsFractions = s.conn.committed.pplnsFractions)
    (pending : conn.committed.pendingFractions = s.conn.committed.pendingFractions) :
    Ledger { s with conn } where
  closed := closed
  keyed := by
    rw [OneRowEach, fractions]
    exact ledger.keyed
  sized := ledger.sized
  marked := ledger.marked
  once := ledger.once
  known := ledger.known
  unsettled := pending.trans ledger.unsettled
  booked := by
    intro weight
    rw [ledgerSum, fractions]
    exact ledger.booked weight

theorem Ledger.db (ledger : Ledger s) : s.conn.db = s.conn.committed := by
  rw [Connection.db, ledger.closed, Option.getD_none]

/-- One step keeps the invariant, settles blocks by the status they have, and does
nothing if it fails. -/
theorem fractionStep_spec (reads : ∀ position, oracle (.step .settledHashes) position ≠ .rolledBack)
    (ledger : Ledger s) (stepped : fractionStep oracle s event = some t) :
    Ledger t ∧
      (∀ hash confirmed, (hash, confirmed) ∈ t.settled → (hash, confirmed) ∉ s.settled →
        ∃ row ∈ s.conn.committed.blocksFound.rows, row.hash = hash ∧
          row.status = if confirmed then .confirmed else .orphaned) ∧
      (event.fails oracle s → t.conn.committed.pplnsFractions = s.conn.committed.pplnsFractions ∧
        t.conn.committed.pendingFractions = s.conn.committed.pendingFractions) := by
  cases event with
  | stage hash deltas =>
    rw [fractionStep] at stepped
    split at stepped
    next allowed =>
      split at stepped
      next conn ran =>
        obtain ⟨closed, same⟩ := storeStageBlockFractions_spec ledger.closed ran
        obtain rfl := Option.some.inj stepped
        rw [if_pos rfl] at same
        refine ⟨ledger.same closed (by rw [same]) (by rw [same]), fun _ _ new old => absurd new old,
          fun _ => ?_⟩
        exact ⟨congrArg _ same, congrArg _ same⟩
      next wrote conn ran =>
        obtain ⟨closed, staged⟩ := storeStageBlockFractions_spec ledger.closed ran
        obtain rfl := Option.some.inj stepped
        refine ⟨ledger.stage allowed closed staged, fun _ _ new old => absurd new old,
          fun failed => ?_⟩
        rw [FractionEvent.fails, ran] at failed
        cases failed
    next => cases stepped
  | settle =>
    rw [fractionStep] at stepped
    cases ran : storeSettleBlockFractions oracle s.conn with
    | mk result conn =>
      obtain ⟨closed, n, settled⟩ :=
        storeSettleBlockFractions_spec reads ledger.whole ledger.closed ran
      have view : conn.db = conn.committed := by rw [Connection.db, closed, Option.getD_none]
      rw [ran] at stepped
      obtain rfl := Option.some.inj stepped
      simp only [ledger.db, view]
      refine ⟨?_, ?_, ?_⟩
      · cases result with
        | none => exact ledger.settle 0 closed settled
        | some totals => exact ledger.settle n closed settled
      · intro hash confirmed new old
        have now := (List.mem_append.mp new).resolve_left old
        simp only [settledNow, List.mem_filterMap, Option.map_eq_some_iff, Prod.mk.injEq] at now
        obtain ⟨listing, _, _, listed, rfl, rfl⟩ := now
        obtain ⟨fate, found, rfl⟩ := Option.map_eq_some_iff.mp listed
        have same : fate.1 = listing := by simpa using List.find?_some found
        rw [← same]
        exact (mem_settledHashesQuery (List.mem_of_find?_eq_some found)).2
      · intro failed
        rw [FractionEvent.fails, ran] at failed
        obtain rfl : result = none := failed
        rw [if_pos rfl] at settled
        exact ⟨congrArg _ settled, congrArg _ settled⟩
  | blocks table =>
    obtain rfl := Option.some.inj stepped
    have written : s.conn.write (fun db => { db with blocksFound := table }) =
        { s.conn with committed := { s.conn.committed with blocksFound := table } } := by
      simp only [Connection.write, ledger.closed]
    rw [written]
    exact ⟨ledger.same ledger.closed rfl rfl, fun _ _ new old => absurd new old, False.elim⟩

/-- The tables of blocks and templates. -/
def chainTables (db : Db) : BlockTable × List Template := (db.blocksFound, db.templates)

theorem chainTables_foldl {α : Type} {f : Db → α → Db}
    (kept : ∀ db x, chainTables (f db x) = chainTables db) (xs : List α)
    (db : Db) : chainTables (xs.foldl f db) = chainTables db := by
  induction xs generalizing db with
  | nil => rfl
  | cons x rest ih => rw [List.foldl_cons, ih, kept]

theorem settleFractions_chainTables (hashes : List (String × Bool)) (db : Db) :
    chainTables (settleFractions hashes db) = chainTables db := by
  refine chainTables_foldl (fun db fate => ?_) hashes db
  change chainTables (if fate.2 then applyFractions fate.1 db else db) = chainTables db
  split
  · exact chainTables_foldl (f := fractionUpsert) (fun _ _ => rfl) _ db
  · rfl

/-- Neither staging nor settling writes a block or a template. -/
theorem fractionStep_chainTables
    (reads : ∀ position, oracle (.step .settledHashes) position ≠ .rolledBack)
    (ledger : Ledger s) (stepped : fractionStep oracle s event = some t)
    (still : ∀ table, event ≠ .blocks table) :
    chainTables t.conn.committed = chainTables s.conn.committed := by
  cases event with
  | stage hash deltas =>
    rw [fractionStep] at stepped
    split at stepped
    next =>
      split at stepped
      next conn ran =>
        obtain ⟨_, same⟩ := storeStageBlockFractions_spec ledger.closed ran
        obtain rfl := Option.some.inj stepped
        rw [if_pos rfl] at same
        exact congrArg chainTables same
      next wrote conn ran =>
        obtain ⟨_, same⟩ := storeStageBlockFractions_spec ledger.closed ran
        obtain rfl := Option.some.inj stepped
        rw [if_neg (Option.some_ne_none wrote)] at same
        exact (congrArg chainTables same).trans
          (chainTables_foldl (f := fun db row => pendingUpsert row db) (fun _ _ => rfl) _ _)
    next => contradiction
  | settle =>
    rw [fractionStep] at stepped
    cases ran : storeSettleBlockFractions oracle s.conn with
    | mk result conn =>
      obtain ⟨_, n, settled⟩ := storeSettleBlockFractions_spec reads ledger.whole ledger.closed ran
      rw [ran] at stepped
      obtain rfl := Option.some.inj stepped
      refine (congrArg chainTables settled).trans ?_
      split
      · rfl
      · exact settleFractions_chainTables _ _
  | blocks table => exact absurd rfl (still table)

/-- A statement that leaves the queue and the staging table alone. -/
theorem Ledger.write (ledger : Ledger s) {f : Db → Db}
    (kept : ∀ db, (f db).pplnsFractions = db.pplnsFractions ∧
      (f db).pendingFractions = db.pendingFractions) :
    Ledger { s with conn := s.conn.write f } ∧ (s.conn.write f).committed = f s.conn.committed := by
  have written : s.conn.write f = { s.conn with committed := f s.conn.committed } := by
    simp only [Connection.write, ledger.closed]
  rw [written]
  obtain ⟨fractions, pending⟩ := kept s.conn.committed
  exact ⟨ledger.same ledger.closed fractions pending, rfl⟩

theorem owedFraction_eq {rows : List PplnsFraction}
    (keyed : (rows.map PplnsFraction.workerId).Nodup) (workerId : Nat) :
    ((rows.find? fun row => row.workerId = workerId).map PplnsFraction.owedFraction).getD 0 =
      (rows.map fun row => (if row.workerId = workerId then 1 else 0) * row.owedFraction).sum := by
  induction rows with
  | nil => rfl
  | cons row rest ih =>
    obtain ⟨apart, keyed⟩ := List.nodup_cons.mp keyed
    rw [List.find?_cons, List.map_cons, List.sum_cons, ← ih keyed]
    by_cases same : row.workerId = workerId
    · subst same
      have absent : rest.find? (fun other => other.workerId = row.workerId) = none := by
        rw [List.find?_eq_none]
        intro other member equal
        exact apart (of_decide_eq_true equal ▸ List.mem_map_of_mem member)
      simp [absent]
    · simp [same]

theorem deltaOf_eq (rows : List PendingFraction) (workerId : Nat) :
    deltaOf rows workerId = weigh (fun id => if id = workerId then 1 else 0) rows := by
  induction rows with
  | nil => rfl
  | cons row rest ih =>
    have split : weigh (fun id => if id = workerId then 1 else 0) (row :: rest) =
        (if row.workerId = workerId then 1 else 0) * row.delta +
          weigh (fun id => if id = workerId then 1 else 0) rest := List.sum_cons
    rw [split, ← ih, deltaOf, List.filter_cons]
    by_cases same : row.workerId = workerId
    · simp [same, deltaOf]
    · simp [same, deltaOf]

/-- Each worker is owed what the blocks that stood say. -/
theorem Ledger.owed (ledger : Ledger s) (workerId : Nat) :
    owedFraction s.conn.committed workerId = deltaOf (applied s) workerId := by
  rw [deltaOf_eq, ← ledger.booked, owedFraction, owedFraction_eq ledger.keyed]
  rfl

theorem Ledger.balanced (ledger : Ledger s)
    (cancel : ∀ set ∈ s.staged, (set.2.map PendingFraction.delta).sum = 0) :
    (s.conn.committed.pplnsFractions.map PplnsFraction.owedFraction).sum = 0 := by
  have booked := ledger.booked fun _ => 1
  simp only [ledgerSum, one_mul] at booked
  rw [booked, applied, weigh_flatMap]
  apply List.sum_eq_zero
  intro sum member
  obtain ⟨set, inside, rfl⟩ := List.mem_map.mp member
  split
  · simpa only [weigh, one_mul] using cancel set inside
  · rfl

end Steps

def freshFractions : FractionState := ⟨⟨.empty, none, 0⟩, [], []⟩

theorem freshFractions_ledger : Ledger freshFractions where
  closed := rfl
  keyed := List.nodup_nil
  sized := by simp [freshFractions]
  marked := by simp [freshFractions]
  once := List.nodup_nil
  known := by simp [freshFractions]
  unsettled := rfl
  booked := fun _ => rfl

/-- In every sequence of stagings, settlements and changes of the blocks in which no step
of the listing rolls the transaction back, whatever else fails, each block's set is applied
at most once. -/
theorem fractions_applied_once (oracle : Oracle) (events : List FractionEvent)
    (reads : ∀ position, oracle (.step .settledHashes) position ≠ .rolledBack) :
    Along (fractionStep oracle) (AppliedOnce oracle) freshFractions events := by
  refine Along.always ?_ freshFractions_ledger
  intro s event t ledger stepped
  obtain ⟨later, fate, failed⟩ := fractionStep_spec reads ledger stepped
  refine ⟨later, later.once, ?_, ?_, ?_, ?_, ?_⟩
  · rw [later.db]
    exact later.owed
  · rw [later.db]
    exact later.unsettled
  · rw [ledger.db]
    exact fate
  · rw [ledger.db, later.db]
    exact failed
  · rw [later.db]
    exact later.balanced

def fateTable (first second : BlockStatus) : BlockTable where
  rows := [⟨1, 10, "00aa", some 1000, none, first, 3, 2, false, some .node⟩,
    ⟨2, 11, "00bb", some 1000, none, second, 2, 2, false, some .node⟩]
  keyed := by simp

/-- Two blocks are staged and settled, of which the first stands. -/
def stagedTwice : List FractionEvent :=
  [.stage "00aa" [⟨1, 1 / 2⟩, ⟨2, -(1 / 2)⟩], .stage "00bb" [⟨1, 1 / 4⟩, ⟨3, -(1 / 4)⟩],
    .blocks (fateTable .confirmed .orphaned), .settle, .settle]

/-- The first DROP fails and takes the transaction with it. -/
def failingDrop : Oracle
  | .step .dropPending, position => if position < 30 then .rolledBack else .served
  | _, _ => .served

theorem fractions_applied_once_retried :
    ((run (fractionStep failingDrop) freshFractions stagedTwice).map fun t =>
      (t.settled, t.conn.committed.pplnsFractions)) =
      some ([("00aa", true), ("00bb", false)], [⟨1, 1 / 2⟩, ⟨2, -(1 / 2)⟩]) ∧
    Along (fractionStep failingDrop) (AppliedOnce failingDrop) freshFractions stagedTwice := by
  constructor
  · decide +kernel
  · apply fractions_applied_once
    intro position
    simp [failingDrop]

def stagedOnce : List FractionEvent :=
  [.stage "00aa" [⟨1, 1 / 2⟩, ⟨2, -(1 / 2)⟩], .blocks (fateTable .confirmed .pending), .settle,
    .settle]

/-- The step after the first row of the listing fails, as on an IO error, and sqlite rolls
back; then the first DROP fails. -/
def failingListing : Oracle
  | .step .settledHashes, position => if position = 10 then .rolledBack else .served
  | .step .dropPending, position => if position = 14 then .error else .served
  | _, _ => .served

/-- The settlement goes on in autocommit. It reports a failure, yet the set is in the queue,
and the next pass adds it again. -/
theorem fractions_applied_twice :
    ((run (fractionStep failingListing) freshFractions stagedOnce).map fun t =>
      (t.staged, t.conn.committed.pplnsFractions)) =
      some ([("00aa", [⟨"00aa", 1, 1 / 2⟩, ⟨"00aa", 2, -(1 / 2)⟩])], [⟨1, 1⟩, ⟨2, -1⟩]) ∧
    ¬ Along (fractionStep failingListing) (AppliedOnce failingListing) freshFractions
      stagedOnce := by
  refine ⟨by decide +kernel, fun along => ?_⟩
  have owed : Along (fractionStep failingListing) (fun _ _ t => owedFraction t.conn.db 1 =
    deltaOf (applied t) 1)
      freshFractions stagedOnce := along.imp fun _ _ _ _ once => once.owed 1
  revert owed
  decide +kernel

end SimplePool.Store
