import SimplePool.Lib.KeyedTable
import SimplePool.Store.FractionLedger

/-! The sets of pplns_pending_fractions. A set that does not come to zero is refused before
it is written, row by row and over the rows that are there, so that what stands in the table
for a block need not be the set that was checked. -/
namespace SimplePool.Store
open Transition KeyedTable

/-- The primary key. -/
def PendingFraction.key (row : PendingFraction) : String × Nat := (row.blockHash, row.workerId)

def PendingFraction.replaced (old new : PendingFraction) : PendingFraction :=
  { old with delta := new.delta }

theorem pendingUpsert_eq (row : PendingFraction) (db : Db) :
    (pendingUpsert row db).pendingFractions =
    upsert PendingFraction.key PendingFraction.replaced row db.pendingFractions := by
  simp only [pendingUpsert, upsert, PendingFraction.key, PendingFraction.replaced, Prod.mk.injEq]

/-- What the rows of a block come to. -/
def stagedSum (hash : String) (db : Db) : ℚ :=
  ((db.pendingFractions.filter fun row => row.blockHash = hash).map PendingFraction.delta).sum

/-- Within what the function tolerates of a set. -/
def Cancels (sum : ℚ) : Prop := ¬(fractionTolerance < sum ∨ sum < -fractionTolerance)

def Balanced (db : Db) : Prop := ∀ hash, Cancels (stagedSum hash db)

/-- The rows of a block that belong to none of the workers. -/
def othersSum (hash : String) (ids : List Nat) (db : Db) : ℚ :=
  (db.pendingFractions.map fun row => if row.blockHash = hash ∧
    row.workerId ∉ ids then row.delta else 0).sum

theorem stagedSum_eq (hash : String) (db : Db) : stagedSum hash db = othersSum hash [] db := by
  rw [stagedSum, sum_filter, othersSum]
  simp

/-- One row takes the place of its worker's. -/
theorem othersSum_upsert (keyed : (db.pendingFractions.map PendingFraction.key).Nodup)
    (apart : row.workerId ∉ ids) :
    othersSum row.blockHash ids (pendingUpsert row db) =
      othersSum row.blockHash (row.workerId :: ids) db + row.delta := by
  rw [othersSum, pendingUpsert_eq, sum_upsert _ _ keyed, sum_filter, if_pos ⟨rfl, apart⟩]
  · congr 3
    funext old
    by_cases block : old.blockHash = row.blockHash <;> by_cases worker : old.workerId = row.workerId
      <;>
      simp [PendingFraction.key, block, worker]
  · intro old same
    obtain ⟨block, worker⟩ := Prod.mk.inj same
    simp [PendingFraction.replaced, block, worker]

theorem pendingUpsert_keyed (keyed : (db.pendingFractions.map PendingFraction.key).Nodup)
    (row : PendingFraction) :
    ((pendingUpsert row db).pendingFractions.map PendingFraction.key).Nodup := by
  rw [pendingUpsert_eq]
  exact upsert_keyed (fun _ => rfl) keyed

/-- A set with distinct workers stands as it is, beside the rows of the other workers. -/
theorem stagedSum_stageAll (keyed : (db.pendingFractions.map PendingFraction.key).Nodup)
    {hash : String}
    {rows : List PendingFraction} (block : ∀ row ∈ rows, row.blockHash = hash)
    (distinct : (rows.map PendingFraction.workerId).Nodup) :
    stagedSum hash (stageAll rows db) =
      othersSum hash (rows.map PendingFraction.workerId) db +
        (rows.map PendingFraction.delta).sum := by
  induction rows generalizing db with
  | nil => simp [stageAll, stagedSum_eq]
  | cons row rest ih =>
    obtain ⟨apart, distinct⟩ := List.nodup_cons.mp distinct
    obtain ⟨here, later⟩ := List.forall_mem_cons.mp block
    subst here
    rw [stageAll, List.foldl_cons, ← stageAll, ih (pendingUpsert_keyed keyed row) later distinct,
      othersSum_upsert keyed apart, List.map_cons, List.map_cons, List.sum_cons, add_assoc]

theorem stageAll_keyed (keyed : (db.pendingFractions.map PendingFraction.key).Nodup)
    (rows : List PendingFraction) :
    ((stageAll rows db).pendingFractions.map PendingFraction.key).Nodup := by
  induction rows generalizing db with
  | nil => exact keyed
  | cons row rest ih => exact ih (pendingUpsert_keyed keyed row)

theorem stagedSum_upsert_other {hash : String}
    (keyed : (db.pendingFractions.map PendingFraction.key).Nodup)
    (other : row.blockHash ≠ hash) : stagedSum hash (pendingUpsert row db) = stagedSum hash db := by
  rw [stagedSum_eq, stagedSum_eq, othersSum, othersSum, pendingUpsert_eq, sum_upsert _ _ keyed,
    sum_filter, if_neg fun same => other same.1, add_zero]
  · congr 2
    funext old
    by_cases block : old.blockHash = row.blockHash
    · simp [block, other]
    · simp [PendingFraction.key, block]
  · intro old same
    obtain ⟨block, worker⟩ := Prod.mk.inj same
    simp [PendingFraction.replaced, block, other]

/-- Other blocks' rows are left alone. -/
theorem stagedSum_stageAll_other {hash other : String}
    (keyed : (db.pendingFractions.map PendingFraction.key).Nodup)
    {rows : List PendingFraction} (block : ∀ row ∈ rows, row.blockHash = other)
    (apart : other ≠ hash) :
    stagedSum hash (stageAll rows db) = stagedSum hash db := by
  induction rows generalizing db with
  | nil => rfl
  | cons row rest ih =>
    obtain ⟨here, later⟩ := List.forall_mem_cons.mp block
    rw [stageAll, List.foldl_cons, ← stageAll, ih (pendingUpsert_keyed keyed row) later,
      stagedSum_upsert_other keyed (here.trans_ne apart)]

/-- The arguments of one call. -/
structure StageCall where
  hash : String
  deltas : List FractionDelta

def stageStep (oracle : Oracle) (c : Connection) (call : StageCall) : Option Connection :=
  some (storeStageBlockFractions oracle call.hash call.deltas c).2

/-- A set that passes the check names no worker twice, and every worker that has a row for
the block. -/
def Renews (c : Connection) (call : StageCall) : Prop :=
  let rows := stagedRows call.hash call.deltas
  rows ≠ [] → Cancels (rows.map PendingFraction.delta).sum →
    (rows.map PendingFraction.workerId).Nodup ∧
      ∀ old ∈ c.committed.pendingFractions, old.blockHash = call.hash →
        old.workerId ∈ rows.map PendingFraction.workerId

/-- What the function relies on and keeps. -/
structure StageReady (c : Connection) : Prop where
  closed : c.working = none
  keyed : (c.committed.pendingFractions.map PendingFraction.key).Nodup
  balanced : Balanced c.committed

/-- What is staged has passed the check. -/
theorem storeStageBlockFractions_cancels {hash : String}
    (ran : storeStageBlockFractions oracle hash deltas c = (some wrote, after))
    (something : stagedRows hash deltas ≠ []) :
    Cancels ((stagedRows hash deltas).map PendingFraction.delta).sum := by
  intro off
  rw [storeStageBlockFractions] at ran
  dsimp only at ran
  split_ifs at ran
  all_goals cases ran

theorem stagedRows_block (hash : String) (deltas : List FractionDelta) :
    ∀ row ∈ stagedRows hash deltas, row.blockHash = hash := by
  intro row member
  obtain ⟨d, _, rfl⟩ := List.mem_map.mp member
  rfl

/-- A set that renews the block's rows is what stands for the block. -/
theorem stagedSum_renewed {hash : String}
    (keyed : (db.pendingFractions.map PendingFraction.key).Nodup) {rows : List PendingFraction}
    (block : ∀ row ∈ rows, row.blockHash = hash)
    (distinct : (rows.map PendingFraction.workerId).Nodup)
    (covers : ∀ old ∈ db.pendingFractions, old.blockHash = hash →
      old.workerId ∈ rows.map PendingFraction.workerId) :
    stagedSum hash (stageAll rows db) = (rows.map PendingFraction.delta).sum := by
  have nobody : othersSum hash (rows.map PendingFraction.workerId) db = 0 := by
    apply List.sum_eq_zero
    intro delta member
    obtain ⟨old, inside, rfl⟩ := List.mem_map.mp member
    exact if_neg fun left => left.2 (covers old inside left.1)
  rw [stagedSum_stageAll keyed block distinct, nobody, zero_add]

theorem StageReady.step {c after : Connection} (ready : StageReady c) (renews : Renews c call)
    (stepped : stageStep oracle c call = some after) : StageReady after := by
  obtain rfl := Option.some.inj stepped
  cases ran : storeStageBlockFractions oracle call.hash call.deltas c with
  | mk result after =>
    obtain ⟨closed, left⟩ := storeStageBlockFractions_spec ready.closed ran
    cases result with
    | none =>
      rw [if_pos rfl] at left
      exact ⟨closed, left ▸ ready.keyed, left ▸ ready.balanced⟩
    | some wrote =>
      rw [if_neg (Option.some_ne_none wrote)] at left
      refine ⟨closed, left ▸ stageAll_keyed ready.keyed _, ?_⟩
      intro hash
      dsimp only
      rw [left]
      by_cases same : call.hash = hash
      · subst same
        by_cases nothing : stagedRows call.hash call.deltas = []
        · rw [nothing]
          exact ready.balanced call.hash
        · have cancels := storeStageBlockFractions_cancels ran nothing
          obtain ⟨distinct, covers⟩ := renews nothing cancels
          rwa [stagedSum_renewed ready.keyed (stagedRows_block _ _) distinct covers]
      · rw [stagedSum_stageAll_other ready.keyed (stagedRows_block _ _) same]
        exact ready.balanced hash

/-- In every run of calls that renew what they find, with statements failing anywhere, the rows
of every block come to zero. -/
theorem staged_sets_balance (oracle : Oracle) (c : Connection) (calls : List StageCall)
    (ready : StageReady c)
    (renews : Along (stageStep oracle) (fun c call _ => Renews c call) c calls) :
    Along (stageStep oracle) (fun _ _ after => Balanced after.committed) c calls := by
  refine Along.of_invariant (I := StageReady) ?_ ready renews
  intro c call after ready renews stepped
  have later := ready.step renews stepped
  exact ⟨later, later.balanced⟩

instance (sum : ℚ) : Decidable (Cancels sum) := inferInstanceAs (Decidable (¬_))

instance (c : Connection) (call : StageCall) : Decidable (Renews c call) :=
  inferInstanceAs (Decidable (_ → _ → _ ∧ ∀ old ∈ c.committed.pendingFractions, _ → _))

def nothingStaged : Connection := ⟨.empty, none, 0⟩

theorem nothingStaged_ready : StageReady nothingStaged where
  closed := rfl
  keyed := List.nodup_nil
  balanced := by
    intro hash
    change Cancels 0
    decide +kernel

def turn (first second : Int) (delta : ℚ) : StageCall := ⟨"b", [⟨first, delta⟩, ⟨second, -delta⟩]⟩

/-- The block is found again, with another division among the same workers. -/
theorem staged_sets_balance_again :
    Along (stageStep .served) (fun c call _ => Renews c call) nothingStaged
      [turn 1 2 (1 / 2), turn 2 1 (1 / 4)] ∧
    Along (stageStep .served) (fun _ _ after => Balanced after.committed) nothingStaged
      [turn 1 2 (1 / 2), turn 2 1 (1 / 4)] := by
  have renews : Along (stageStep .served) (fun c call _ => Renews c call) nothingStaged
      [turn 1 2 (1 / 2), turn 2 1 (1 / 4)] := by
    decide +kernel
  exact ⟨renews, staged_sets_balance .served nothingStaged _ nothingStaged_ready renews⟩

/-- Named twice in one set a worker keeps the last delta, and named in another set of the block
the others keep theirs. -/
theorem staged_sets_unbalanced :
    ¬Along (stageStep .served) (fun _ _ after => Balanced after.committed) nothingStaged
      [turn 1 1 (1 / 2)] ∧
    ¬Along (stageStep .served) (fun _ _ after => Balanced after.committed) nothingStaged
      [turn 1 2 (1 / 2), turn 2 3 (1 / 2)] := by
  have facts : (¬Along (stageStep .served)
    (fun _ _ after => Cancels (stagedSum "b" after.committed)) nothingStaged [turn 1 1 (1 / 2)]) ∧
      ¬Along (stageStep .served) (fun _ _ after => Cancels (stagedSum "b" after.committed))
        nothingStaged
        [turn 1 2 (1 / 2), turn 2 3 (1 / 2)] := by
    decide +kernel
  exact ⟨fun along => facts.1 (along.imp fun _ _ _ _ balanced => balanced "b"),
    fun along => facts.2 (along.imp fun _ _ _ _ balanced => balanced "b")⟩

end SimplePool.Store
