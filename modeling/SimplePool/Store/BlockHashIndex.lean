import Mathlib.Data.List.MinMax
import SimplePool.Store.Schema

/-! Collapsing the rows of `blocks_found` that share a hash, which comes before the
unique index on it. -/
namespace SimplePool.Store

/-- `ORDER BY id LIMIT 1` over the rows of a hash that pass a test. -/
def BlockTable.earliest (t : BlockTable) (hash : String) (test : BlockFound → Bool) :
    Option BlockFound :=
  (t.rows.filter (fun row => row.hash = hash && test row)).argmin BlockFound.id

def decided (row : BlockFound) : Bool := row.status ≠ .pending

/-- `Q_PROMOTE` for one row. A row promoted earlier in the statement has the status of
the row found here, so the table from before the statement gives the same answer. -/
def promote (t : BlockTable) (row : BlockFound) : BlockFound :=
  if row.status = .pending then
    match t.earliest row.hash decided with
    | some verdict => { row with status := verdict.status }
    | none => row
  else row

theorem promote_keeps (t : BlockTable) (row : BlockFound) :
    (promote t row).id = row.id ∧ (promote t row).hash = row.hash ∧
      (promote t row).pplnsDistributed = row.pplnsDistributed := by
  simp only [promote]
  split
  · split <;> exact ⟨rfl, rfl, rfl⟩
  · exact ⟨rfl, rfl, rfl⟩

/-- `Q_DEDUPE`: a row stays when its id is the smallest of its hash. -/
def BlockTable.dedupe (t : BlockTable) : BlockTable where
  rows :=
    t.rows.filter (fun row => (t.earliest row.hash (fun _ => true)).map BlockFound.id = some row.id)
  keyed := t.keyed.sublist (List.filter_sublist.map _)

def storeFinalizeBlockHashIndex (db : Db) : Db :=
  let promoted :=
    db.blocksFound.update (promote db.blocksFound) (fun row => (promote_keeps _ row).1)
  { db with blocksFound := promoted.dedupe }

/-- The first row of its hash among those that pass a test. -/
def BlockTable.Earliest (t : BlockTable) (test : BlockFound → Bool) (row : BlockFound) : Prop :=
  (row ∈ t.rows ∧ test row) ∧ ∀ other ∈ t.rows, other.hash = row.hash → test other →
    row.id ≤ other.id

theorem BlockTable.earliest_spec {t : BlockTable} {hash : String} {test : BlockFound → Bool}
    (found : t.earliest hash test = some row) : row.hash = hash ∧ t.Earliest test row := by
  have member := List.argmin_mem found
  simp only [List.mem_filter, Bool.and_eq_true, decide_eq_true_eq] at member
  refine ⟨member.2.1, ⟨member.1, member.2.2⟩, ?_⟩
  intro other present same passes
  have candidate : other ∈ t.rows.filter (fun row => row.hash = hash && test row) := by
    simp only [List.mem_filter, Bool.and_eq_true, decide_eq_true_eq]
    exact ⟨present, same.trans member.2.1, passes⟩
  exact List.le_of_mem_argmin candidate found

theorem BlockTable.earliest_exists {t : BlockTable} (test : BlockFound → Bool)
    (present : row ∈ t.rows)
    (passes : test row) : ∃ first, t.earliest row.hash test = some first := by
  cases found : t.earliest row.hash test with
  | some first => exact ⟨first, rfl⟩
  | none =>
    have empty := List.argmin_eq_none.mp found
    have candidate : row ∈ t.rows.filter (fun other => other.hash = row.hash && test other) := by
      simp only [List.mem_filter, Bool.and_eq_true, decide_eq_true_eq]
      exact ⟨present, trivial, passes⟩
    rw [empty] at candidate
    exact absurd candidate List.not_mem_nil

theorem BlockTable.Earliest.unique {t : BlockTable} (one : t.Earliest test a)
    (other : t.Earliest test b) (same : a.hash = b.hash) : a = b :=
  t.eq_of_id one.1.1 other.1.1
    (Nat.le_antisymm (one.2 b other.1.1 same.symm other.1.2) (other.2 a one.1.1 same one.1.2))

theorem BlockTable.earliest_eq_some {t : BlockTable} {test : BlockFound → Bool}
    (first : t.Earliest test row) :
    t.earliest row.hash test = some row := by
  obtain ⟨found, isFound⟩ := BlockTable.earliest_exists test first.1.1 first.1.2
  obtain ⟨same, earliest⟩ := BlockTable.earliest_spec isFound
  rw [isFound, earliest.unique first same]

theorem BlockTable.mem_dedupe (t : BlockTable) (row : BlockFound) :
    row ∈ t.dedupe.rows ↔ t.Earliest (fun _ => true) row := by
  rw [dedupe, List.mem_filter, decide_eq_true_eq]
  constructor
  · rintro ⟨present, smallest⟩
    obtain ⟨first, found, same⟩ := Option.map_eq_some_iff.mp smallest
    obtain ⟨-, earliest⟩ := BlockTable.earliest_spec found
    rwa [t.eq_of_id present earliest.1.1 same.symm]
  · intro first
    rw [BlockTable.earliest_eq_some first]
    exact ⟨first.1.1, rfl⟩

/-- The survivors are the first rows of each hash, promoted. -/
theorem mem_storeFinalizeBlockHashIndex (db : Db) (kept : BlockFound) :
    kept ∈ (storeFinalizeBlockHashIndex db).blocksFound.rows ↔
      ∃ first, db.blocksFound.Earliest (fun _ => true) first ∧
      promote db.blocksFound first = kept := by
  simp only [storeFinalizeBlockHashIndex, BlockTable.mem_dedupe, BlockTable.Earliest,
    BlockTable.update, List.mem_map, and_true, true_implies]
  constructor
  · rintro ⟨⟨first, present, rfl⟩, smallest⟩
    refine ⟨first, ⟨present, ?_⟩, rfl⟩
    intro other there same
    have least := smallest _ ⟨other, there, rfl⟩
    rw [(promote_keeps _ other).1, (promote_keeps _ first).1, (promote_keeps _ other).2.1,
      (promote_keeps _ first).2.1] at least
    exact least same
  · rintro ⟨first, ⟨present, smallest⟩, rfl⟩
    refine ⟨⟨first, present, rfl⟩, ?_⟩
    rintro _ ⟨other, there, rfl⟩ same
    rw [(promote_keeps _ other).2.1, (promote_keeps _ first).2.1] at same
    rw [(promote_keeps _ other).1, (promote_keeps _ first).1]
    exact smallest other there same

/-- A survivor carries the earliest verdict of its hash. -/
theorem promote_status {t : BlockTable} (first : t.Earliest (fun _ => true) row)
    (verdict : t.Earliest decided known)
    (same : known.hash = row.hash) : (promote t row).status = known.status := by
  have found := BlockTable.earliest_eq_some verdict
  rw [same] at found
  by_cases waiting : row.status = .pending
  · simp only [promote, if_pos waiting, found]
  · have own : t.Earliest decided row :=
      ⟨⟨first.1.1, by simpa [decided] using waiting⟩,
        fun other there same _ => first.2 other there same rfl⟩
    rw [promote, if_neg waiting, own.unique verdict same.symm]

/-- What collapsing has to keep of a table: one row per hash, confirmations, the hope of
a block that was not refused, and the latch of one that was distributed. -/
structure Collapsed (before after : BlockTable) : Prop where
  single : (after.rows.map BlockFound.hash).Nodup
  hashes : ∀ hash, hash ∈ after.rows.map BlockFound.hash ↔ hash ∈ before.rows.map BlockFound.hash
  confirmed : ∀ row ∈ before.rows, row.status = .confirmed →
    ∀ kept ∈ after.rows, kept.hash = row.hash → kept.status = .confirmed
  notRejected : ∀ row ∈ before.rows, row.status = .pending ∨ row.status = .confirmed →
    ∀ kept ∈ after.rows, kept.hash = row.hash → kept.status ≠ .rejected
  latched : ∀ row ∈ before.rows, row.pplnsDistributed →
    ∀ kept ∈ after.rows, kept.hash = row.hash → kept.pplnsDistributed

/-- The earliest rows of a hash already say what the rest of its rows know: the first
verdict is a confirmation if there is one and no refusal while a row is pending, and
the first row has the latch if any row has it. -/
structure EarliestKnowsBest (t : BlockTable) : Prop where
  verdict : ∀ first, t.Earliest decided first → ∀ row ∈ t.rows, row.hash = first.hash →
    (row.status = .confirmed → first.status = .confirmed) ∧
    (row.status = .pending → first.status ≠ .rejected)
  latch : ∀ first, t.Earliest (fun _ => true) first → ∀ row ∈ t.rows, row.hash = first.hash →
    row.pplnsDistributed → first.pplnsDistributed

theorem storeFinalizeBlockHashIndex_single (db : Db) :
    ((storeFinalizeBlockHashIndex db).blocksFound.rows.map BlockFound.hash).Nodup := by
  apply List.Nodup.map_on
  · intro a keptA b keptB same
    obtain ⟨first, earliest, rfl⟩ := (mem_storeFinalizeBlockHashIndex db a).mp keptA
    obtain ⟨other, earliest', rfl⟩ := (mem_storeFinalizeBlockHashIndex db b).mp keptB
    rw [(promote_keeps _ first).2.1, (promote_keeps _ other).2.1] at same
    rw [earliest.unique earliest' same]
  · exact List.Nodup.of_map _ (storeFinalizeBlockHashIndex db).blocksFound.keyed

theorem storeFinalizeBlockHashIndex_hashes (db : Db) (hash : String) :
    hash ∈ (storeFinalizeBlockHashIndex db).blocksFound.rows.map BlockFound.hash ↔
      hash ∈ db.blocksFound.rows.map BlockFound.hash := by
  simp only [List.mem_map, mem_storeFinalizeBlockHashIndex]
  constructor
  · rintro ⟨_, ⟨first, earliest, rfl⟩, rfl⟩
    exact ⟨first, earliest.1.1, (promote_keeps _ first).2.1.symm⟩
  · rintro ⟨row, present, rfl⟩
    obtain ⟨first, found⟩ := BlockTable.earliest_exists (fun _ => true) present rfl
    obtain ⟨same, earliest⟩ := BlockTable.earliest_spec found
    exact ⟨_, ⟨first, earliest, rfl⟩, (promote_keeps _ first).2.1.trans same⟩

theorem survivor_exists (db : Db) (present : row ∈ db.blocksFound.rows) :
    ∃ kept ∈ (storeFinalizeBlockHashIndex db).blocksFound.rows, kept.hash = row.hash :=
  List.mem_map.mp
    ((storeFinalizeBlockHashIndex_hashes db row.hash).mpr (List.mem_map_of_mem present))

/-- The survivor of a hash has the latch of its first row and the first verdict, or no
verdict where no row has one. -/
theorem survivor_spec {db : Db}
    (survives : kept ∈ (storeFinalizeBlockHashIndex db).blocksFound.rows) :
    (∃ first, db.blocksFound.Earliest (fun _ => true) first ∧ first.hash = kept.hash ∧
      kept.pplnsDistributed = first.pplnsDistributed) ∧
    ((∃ known, db.blocksFound.Earliest decided known ∧ known.hash = kept.hash ∧
      kept.status = known.status) ∨
      kept.status = .pending ∧ ∀ row ∈ db.blocksFound.rows, row.hash = kept.hash →
      row.status = .pending) := by
  obtain ⟨first, earliest, rfl⟩ := (mem_storeFinalizeBlockHashIndex db kept).mp survives
  obtain ⟨-, sameHash, sameLatch⟩ := promote_keeps db.blocksFound first
  refine ⟨⟨first, earliest, sameHash.symm, sameLatch⟩, ?_⟩
  cases found : db.blocksFound.earliest first.hash decided with
  | some known =>
    obtain ⟨same, verdict⟩ := BlockTable.earliest_spec found
    exact Or.inl ⟨known, verdict, same.trans sameHash.symm, promote_status earliest verdict same⟩
  | none =>
    have silent : ∀ row ∈ db.blocksFound.rows, row.hash = first.hash → row.status = .pending := by
      intro row present same
      by_contra undecided
      obtain ⟨known, isKnown⟩ :=
        BlockTable.earliest_exists decided present (by simpa [decided] using undecided)
      rw [same, found] at isKnown
      contradiction
    have waiting := silent first earliest.1.1 rfl
    refine Or.inr ⟨?_, fun row present same => silent row present (same.trans sameHash)⟩
    simp only [promote, if_pos waiting, found]
    exact waiting

/-- A table that has one row for each hash stays as it is. -/
theorem storeFinalizeBlockHashIndex_rows {db : Db}
    (distinct : (db.blocksFound.rows.map BlockFound.hash).Nodup) :
    (storeFinalizeBlockHashIndex db).blocksFound.rows = db.blocksFound.rows := by
  have promoted : db.blocksFound.rows.map (promote db.blocksFound) = db.blocksFound.rows := by
    refine (List.map_congr_left fun row member => ?_).trans (List.map_id db.blocksFound.rows)
    change promote db.blocksFound row = row
    rw [promote]
    split
    next pending =>
      split
      next verdict found =>
        obtain ⟨same, ⟨there, known⟩, _⟩ := BlockTable.earliest_spec found
        rw [List.inj_on_of_nodup_map distinct there member same, decided, pending] at known
        contradiction
      next => rfl
    next => rfl
  have table : db.blocksFound.update (promote db.blocksFound) (fun row => (promote_keeps _ row).1) =
        db.blocksFound := by
    simp only [BlockTable.update, promoted]
  simp only [storeFinalizeBlockHashIndex, table, BlockTable.dedupe]
  rw [List.filter_eq_self]
  intro row member
  obtain ⟨first, found⟩ := BlockTable.earliest_exists (fun _ => true) member rfl
  obtain ⟨same, ⟨there, _⟩, _⟩ := BlockTable.earliest_spec found
  rw [found, List.inj_on_of_nodup_map distinct there member same]
  exact decide_eq_true rfl

/-- Collapsing keeps what it has to exactly when the earliest rows know best. -/
theorem storeFinalizeBlockHashIndex_collapses_iff (db : Db) :
    Collapsed db.blocksFound (storeFinalizeBlockHashIndex db).blocksFound ↔
    EarliestKnowsBest db.blocksFound := by
  constructor
  · intro collapsed
    constructor
    · intro first earliest row present same
      obtain ⟨kept, survives, sameKept⟩ := survivor_exists db present
      have status : kept.status = first.status := by
        rcases (survivor_spec survives).2 with ⟨known, verdict, sameKnown, status⟩ | ⟨-, silent⟩
        · rw [status, verdict.unique earliest (sameKnown.trans (sameKept.trans same))]
        · have waiting := silent first earliest.1.1 (same.symm.trans sameKept.symm)
          exact absurd waiting (by simpa [decided] using earliest.1.2)
      rw [← status]
      exact ⟨fun confirmed => collapsed.confirmed row present confirmed kept survives sameKept,
        fun waiting => collapsed.notRejected row present (Or.inl waiting) kept survives sameKept⟩
    · intro first earliest row present same latched
      obtain ⟨kept, survives, sameKept⟩ := survivor_exists db present
      obtain ⟨first', earliest', sameFirst, latch⟩ := (survivor_spec survives).1
      rw [earliest.unique earliest' (same.symm.trans (sameKept.symm.trans sameFirst.symm)), ← latch]
      exact collapsed.latched row present latched kept survives sameKept
  · intro best
    have confirmed : ∀ row ∈ db.blocksFound.rows, row.status = .confirmed →
        ∀ kept ∈ (storeFinalizeBlockHashIndex db).blocksFound.rows, kept.hash = row.hash →
          kept.status = .confirmed := by
      intro row present confirmed kept survives same
      rcases (survivor_spec survives).2 with ⟨known, verdict, sameKnown, status⟩ | ⟨-, silent⟩
      · rw [status]
        exact (best.verdict known verdict row present (same.symm.trans sameKnown.symm)).1 confirmed
      · have waiting := silent row present same.symm
        rw [confirmed] at waiting
        contradiction
    refine ⟨storeFinalizeBlockHashIndex_single db, storeFinalizeBlockHashIndex_hashes db, confirmed,
      ?_, ?_⟩
    · intro row present hopeful kept survives same
      rcases hopeful with waiting | isConfirmed
      · rcases (survivor_spec survives).2 with ⟨known, verdict, sameKnown, status⟩ | ⟨status, -⟩
        · rw [status]
          exact (best.verdict known verdict row present (same.symm.trans sameKnown.symm)).2 waiting
        · rw [status]
          decide
      · rw [confirmed row present isConfirmed kept survives same]
        decide
    · intro row present latched kept survives same
      obtain ⟨first, earliest, sameFirst, latch⟩ := (survivor_spec survives).1
      rw [latch]
      exact best.latch first earliest row present (same.symm.trans sameFirst.symm) latched

/-- A block that waits for its verdict, and the same solution handed in again after a
restart, which the node refused as a duplicate. -/
def foundTwice : Db :=
  let row (id : Nat) (status : BlockStatus) : BlockFound :=
    { id, height := 800001, hash := "dup_hash", rewardSats := some 5000000000, feeSats := none,
      status,
      confirmations := 0, pplnsWindowDiff := 0, pplnsDistributed := false, checkedVia := none }
  { Db.empty with blocksFound := ⟨[row 1 .pending, row 2 .rejected], by decide⟩ }

theorem foundTwice_not_collapsed :
    ¬ Collapsed foundTwice.blocksFound (storeFinalizeBlockHashIndex foundTwice).blocksFound := by
  intro collapsed
  have waits : (foundTwice.blocksFound.rows[0]).status = .pending := rfl
  have refused := collapsed.notRejected _ (List.getElem_mem _) (Or.inl waits)
  revert refused
  decide

end SimplePool.Store
