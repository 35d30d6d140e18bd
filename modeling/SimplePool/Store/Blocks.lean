import Mathlib.Data.List.Sort
import SimplePool.Store.Schema

/-! The statements of store.c on `blocks_found` and `templates`: recording a
candidate and a template, and the passes that decide which candidates are in the
chain. -/
namespace SimplePool.Store

/-- `store_record_block` with the INSERT OR IGNORE the writer makes of it. -/
def storeRecordBlock (height : Int) (hash : String) (rewardSats feeSats : Int)
    (status : BlockStatus) (pplnsWindowDiff : ℚ) (db : Db) : Db :=
  if height ≤ 0 then db
  else
    let hash := buffer hashStrMax hash
    if db.blocksFound.rows.any (fun row => row.hash = hash) then db
    else { db with blocksFound := db.blocksFound.insert {
      id := 0
      height, hash
      rewardSats := if 0 < rewardSats then some rewardSats else none
      feeSats := if 0 < feeSats then some feeSats else none
      status
      confirmations := 0
      pplnsWindowDiff
      pplnsDistributed := false
      checkedVia := none } }

/-- The part of a template that makes it different work. -/
def Template.sameWork (a b : Template) : Bool :=
  a.height = b.height && a.prevHash = b.prevHash && a.bits = b.bits && a.source = b.source &&
    a.cbSpendable = b.cbSpendable && a.cbOpReturns = b.cbOpReturns && a.longpoll = b.longpoll

/-- A poll that matches the newest row is folded into it; any other opens a row and
trims the history by the template's own clock. -/
def storeRecordTemplate (retentionDays : Int) (t : Template) (db : Db) : Db :=
  match db.templates.getLast? with
  | some last =>
    if last.sameWork t then
      { db with templates := db.templates.dropLast ++ [{ last with
          lastSeen := t.ts
          polls := last.polls + 1
          networkDifficulty := t.networkDifficulty
          coinbaseValueSats := t.coinbaseValueSats
          txCount := t.txCount
          txFeesSats := t.txFeesSats
          rateSatsPerDiff := t.rateSatsPerDiff }] }
    else { db with templates := opened }
  | none => { db with templates := opened }
where
  opened : List Template :=
    let rows := db.templates ++ [{ t with lastSeen := t.ts, polls := 1 }]
    if 0 < retentionDays then
      rows.filter (fun row => t.ts - retentionDays * 86400 ≤ row.ts)
    else rows

/-- The newest observation of the tip below `height`. -/
def observed (templates : List Template) (height : Int) : Option String :=
  ((templates.filter (fun t => t.height = height)).getLast?).map Template.prevHash

/-- `Q_RESOLVE` for one row. -/
def resolve (templates : List Template) (tipHeight : Int) (row : BlockFound) : BlockFound :=
  if row.status = .rejected then row
  else
    match observed templates (row.height + 1) with
    | none => row
    | some tip =>
      if tip = row.hash then
        { row with status := .confirmed, checkedVia := some .tips,
                   confirmations := max 0 (tipHeight - row.height + 1) }
      else { row with status := .orphaned, checkedVia := some .tips, confirmations := 0 }

/-- `Q_IMPOSSIBLE` for one row. -/
def impossible (tipHeight : Int) (row : BlockFound) : BlockFound :=
  if row.status ≠ .rejected ∧ (row.height ≤ 0 ∨ tipHeight < row.height) then
    { row with status := .orphaned, confirmations := 0, checkedVia := some .tips }
  else row

theorem resolve_id (templates : List Template) (tipHeight : Int) (row : BlockFound) :
    (resolve templates tipHeight row).id = row.id := by
  simp only [resolve]
  split
  · rfl
  · split
    · rfl
    · split <;> rfl

theorem resolve_names (templates : List Template) (tipHeight : Int) (row : BlockFound) :
    (resolve templates tipHeight row).height = row.height ∧
    (resolve templates tipHeight row).hash = row.hash := by
  simp only [resolve]
  split
  · exact ⟨rfl, rfl⟩
  · split
    · exact ⟨rfl, rfl⟩
    · split <;> exact ⟨rfl, rfl⟩

theorem impossible_id (tipHeight : Int) (row : BlockFound) :
    (impossible tipHeight row).id = row.id := by
  simp only [impossible]
  split <;> rfl

def countWithStatus (db : Db) (status : BlockStatus) : Nat :=
  db.blocksFound.rows.countP (fun row => row.status = status)

/-- The totals the templates pass reports. -/
structure StatusTotals where
  confirmed : Nat
  orphaned : Nat
  pending : Nat
deriving DecidableEq, Repr

def storeReconcileBlocksFromTemplates (tipHeight : Int) (db : Db) : StatusTotals × Db :=
  let resolved := db.blocksFound.update (resolve db.templates tipHeight) (resolve_id _ _)
  let blocks :=
    if 0 < tipHeight then resolved.update (impossible tipHeight) (impossible_id _) else resolved
  let db := { db with blocksFound := blocks }
  (⟨countWithStatus db .confirmed, countWithStatus db .orphaned, countWithStatus db .pending⟩, db)

/-- `store_block_candidate_t`. -/
structure BlockCandidate where
  hash : String
  height : Int
deriving DecidableEq, Repr

def blockCandidateHashSize : Nat := 80

/-- `ORDER BY height DESC, id DESC`. -/
def newerFirst (a b : BlockFound) : Prop := b.height < a.height ∨ a.height = b.height ∧ b.id ≤ a.id

instance (a b : BlockFound) : Decidable (newerFirst a b) := inferInstanceAs (Decidable (_ ∨ _))

/-- A row the node is still asked about. -/
def unresolved (tipHeight finalDepth : Int) (row : BlockFound) : Bool :=
  (row.status = .pending || row.status = .confirmed) && row.confirmations < finalDepth &&
    row.height ≤ tipHeight

def storeListUnresolvedBlocks (tipHeight finalDepth : Int) (cap : Nat) (db : Db) :
    List BlockCandidate :=
  (((db.blocksFound.rows.filter (unresolved tipHeight finalDepth)).insertionSort newerFirst).take
    cap).map
    fun row => ⟨buffer blockCandidateHashSize row.hash, row.height⟩

def storeSetBlockStatus (hash : String) (status : BlockStatus) (confirmations : Int)
    (checkedVia : Option CheckedVia) (db : Db) : Db :=
  let verdict (row : BlockFound) : BlockFound :=
    if row.hash = hash then { row with status, confirmations := max 0 confirmations, checkedVia }
      else row
  { db with
    blocksFound := db.blocksFound.update verdict fun row => by
      dsimp only [verdict]
      split <;> rfl }

@[simp] theorem storeRecordTemplate_blocksFound (retentionDays : Int) (t : Template) (db : Db) :
    (storeRecordTemplate retentionDays t db).blocksFound = db.blocksFound := by
  simp only [storeRecordTemplate]
  split
  · split <;> rfl
  · rfl

@[simp] theorem storeRecordBlock_templates (height : Int) (hash : String) (rewardSats feeSats : Int)
    (status : BlockStatus) (window : ℚ) (db : Db) :
    (storeRecordBlock height hash rewardSats feeSats status window db).templates =
      db.templates := by
  simp only [storeRecordBlock]
  split
  · rfl
  · split <;> rfl

/-- Neither a template nor a block that is recorded touches the payout queue. -/
theorem storeRecordTemplate_queue (retentionDays : Int) (t : Template) (db : Db) :
    (storeRecordTemplate retentionDays t db).pplnsFractions = db.pplnsFractions ∧
      (storeRecordTemplate retentionDays t db).pendingFractions = db.pendingFractions := by
  rw [storeRecordTemplate]
  split
  · split <;> exact ⟨rfl, rfl⟩
  · exact ⟨rfl, rfl⟩

theorem storeRecordBlock_queue (height : Int) (hash : String) (rewardSats feeSats : Int)
    (status : BlockStatus) (window : ℚ)
    (db : Db) : (storeRecordBlock height hash rewardSats feeSats status window db).pplnsFractions =
      db.pplnsFractions ∧
      (storeRecordBlock height hash rewardSats feeSats status window db).pendingFractions =
        db.pendingFractions := by
  rw [storeRecordBlock]
  split
  · exact ⟨rfl, rfl⟩
  · dsimp only
    split <;> exact ⟨rfl, rfl⟩

/-- A candidate is appended once, under a hash no row has. -/
theorem storeRecordBlock_rows (height : Int) (hash : String) (rewardSats feeSats : Int)
    (status : BlockStatus) (window : ℚ) (db : Db) :
    let after := storeRecordBlock height hash rewardSats feeSats status window db
    after.blocksFound.rows = db.blocksFound.rows ∧
        (height ≤ 0 ∨ buffer hashStrMax hash ∈ db.blocksFound.rows.map BlockFound.hash) ∨
      ∃ row, after.blocksFound.rows = db.blocksFound.rows ++ [row] ∧ 0 < height ∧
      row.height = height ∧
        row.hash = buffer hashStrMax hash ∧ row.hash ∉ db.blocksFound.rows.map BlockFound.hash ∧
        row.status = status ∧ row.confirmations = 0 := by
  simp only [storeRecordBlock]
  split
  next low => exact Or.inl ⟨rfl, Or.inl low⟩
  next positive =>
    split
    next taken =>
      obtain ⟨old, member, same⟩ := List.any_eq_true.mp taken
      exact Or.inl ⟨rfl, Or.inr (List.mem_map.mpr ⟨old, member, by simpa using same⟩)⟩
    next fresh =>
      refine Or.inr ⟨_, rfl, not_le.mp positive, rfl, rfl, ?_, rfl, rfl⟩
      rw [List.mem_map]
      rintro ⟨old, member, same⟩
      exact fresh (List.any_eq_true.mpr ⟨old, member, by simpa using same⟩)

/-- The columns of a row that was not there before. -/
theorem storeRecordBlock_added {height rewardSats feeSats : Int} {hash : String}
    {status : BlockStatus} {window : ℚ} {db : Db}
    (member : row ∈
      (storeRecordBlock height hash rewardSats feeSats status window db).blocksFound.rows)
    (fresh : row ∉ db.blocksFound.rows) :
    row.rewardSats = (if 0 < rewardSats then some rewardSats else none) ∧
      row.feeSats = (if 0 < feeSats then some feeSats else none) ∧
      row.pplnsWindowDiff = window := by
  rw [storeRecordBlock] at member
  split at member
  next => exact absurd member fresh
  next =>
    dsimp only at member
    split at member
    next => exact absurd member fresh
    next =>
      rcases List.mem_append.mp member with old | new
      · exact absurd old fresh
      · obtain rfl := List.mem_singleton.mp new
        exact ⟨rfl, rfl, rfl⟩

end SimplePool.Store
