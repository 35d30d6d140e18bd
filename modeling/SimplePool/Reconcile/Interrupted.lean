import SimplePool.Reconcile.Verdicts

/-! The pass with every query answered on its own, so that a failure or a reorganisation may
come between two of them, and with any limit on a batch. -/
namespace SimplePool.Reconcile
open Store

/-- The loop from its query number `i`. -/
def checkCandidatesAt (node : Nat → Int → BlockHashReply) (tipHeight : Int) :
    Nat → Checked → Connection → List BlockCandidate → Checked × Connection
  | _, checked, c, [] => (checked, c)
  | i, checked, c, candidate :: rest =>
    match node i candidate.height with
    | .unsupported => ({ checked with gbh := .unsupported }, c)
    | .failed => ({ checked with settled := true }, c)
    | .ok have_ =>
      let standing := sameHash (buffer 80 have_) candidate.hash
      let c :=
        c.write (storeSetBlockStatus candidate.hash (if standing then .confirmed else .orphaned)
        (if standing then tipHeight - candidate.height + 1 else 0) (some .node))
      checkCandidatesAt node tipHeight (i + 1)
        { checked with gbh := .serves, checkedViaNode := checked.checkedViaNode + 1 } c rest

def settleStatusesAt (node : Nat → Int → BlockHashReply) (cap : Nat) (tipHeight : Int)
    (gbh : GbhState) (c : Connection) : Checked × Connection :=
  let (checked, c) :=
    if gbh = .unsupported then (⟨false, gbh, 0⟩, c)
    else
      let (checked, c) := checkCandidatesAt node tipHeight 0 ⟨false, gbh, 0⟩ c
        (storeListUnresolvedBlocks tipHeight blockFinalDepth cap c.db)
      (if checked.gbh = .serves then { checked with settled := true } else checked, c)
  (checked, if checked.settled then c
    else c.write (fun db => (storeReconcileBlocksFromTemplates tipHeight db).2))

def reconcileBlocksPassAt (cfg : PassConfig) (oracle : Oracle) (node : Nat → Int → BlockHashReply)
    (cap : Nat) (tipHeight : Int) (gbh : GbhState) (c : Connection) : GbhState × Connection :=
  if tipHeight ≤ 0 then (gbh, c)
  else
    let (checked, c) := settleStatusesAt node cap tipHeight gbh c
    (checked.gbh, (creditSettled cfg oracle c).2.2)

theorem checkCandidatesAt_steady (getBlockHash : Int → BlockHashReply) (tipHeight : Int) (i : Nat)
    (checked : Checked) (c : Connection) (cands : List BlockCandidate) :
    checkCandidatesAt (fun _ => getBlockHash) tipHeight i checked c cands =
      checkCandidates getBlockHash tipHeight checked c cands := by
  induction cands generalizing i checked c with
  | nil => rfl
  | cons candidate rest ih =>
    rw [checkCandidatesAt, checkCandidates]
    cases getBlockHash candidate.height with
    | unsupported => rfl
    | failed => rfl
    | ok have_ => exact ih _ _ _

/-- The pass of the source has one answer for each height and the limit of the source. -/
theorem reconcileBlocksPassAt_steady (cfg : PassConfig) (oracle : Oracle)
    (getBlockHash : Int → BlockHashReply) (tipHeight : Int) (gbh : GbhState) (c : Connection) :
    reconcileBlocksPassAt cfg oracle (fun _ => getBlockHash) reconcileMaxPerTick tipHeight gbh c =
      (reconcileBlocksPass cfg oracle getBlockHash tipHeight gbh c).2 := by
  by_cases tip : 0 < tipHeight
  · rw [reconcileBlocksPass_halves cfg oracle getBlockHash gbh c tip, reconcileBlocksPassAt,
      if_neg (not_le.mpr tip), settleStatusesAt, settleStatuses]
    simp only [checkCandidatesAt_steady]
  · rw [reconcileBlocksPassAt, reconcileBlocksPass, if_pos (not_lt.mp tip), if_pos (not_lt.mp tip)]

def cappedBatch (cap : Nat) (tipHeight : Int) (db : Db) : List BlockFound :=
  ((db.blocksFound.rows.filter (unresolved tipHeight blockFinalDepth)).insertionSort
    newerFirst).take cap

/-- The blocks with their answers, up to the first that is not a hash. -/
def answersFrom (node : Nat → Int → BlockHashReply) :
    Nat → List BlockFound → List (BlockFound × String)
  | _, [] => []
  | i, row :: rest =>
    match node i row.height with
    | .ok hash => (row, hash) :: answersFrom node (i + 1) rest
    | _ => []

/-- The first answer that is not a hash. -/
def loopEnd (node : Nat → Int → BlockHashReply) : Nat → List BlockFound → Option BlockHashReply
  | _, [] => none
  | i, row :: rest =>
    match node i row.height with
    | .ok _ => loopEnd node (i + 1) rest
    | reply => some reply

/-- The pass goes by the templates: the node does not serve the query, or never was asked. -/
def goesByTemplates (node : Nat → Int → BlockHashReply) (cap : Nat) (tipHeight : Int)
    (gbh : GbhState) (db : Db) : Bool :=
  gbh = .unsupported || loopEnd node 0 (cappedBatch cap tipHeight db) = some .unsupported ||
    (gbh = .notAsked && cappedBatch cap tipHeight db = [])

/-- The answers that a pass gets. -/
def answersOf (node : Nat → Int → BlockHashReply) (cap : Nat) (tipHeight : Int) (gbh : GbhState)
    (db : Db) :
    List (BlockFound × String) :=
  if gbh = .unsupported then [] else answersFrom node 0 (cappedBatch cap tipHeight db)

/-- The answer is the hash of the block it was about. -/
def own (reply : BlockFound × String) : Bool := sameHash (buffer 80 reply.2) reply.1.hash

/-- The UPDATE that follows an answer, as seen by one row. -/
def judgeBy (tipHeight : Int) (row : BlockFound) (reply : BlockFound × String) : BlockFound :=
  if row.hash = reply.1.hash then
    { row with
      status := if own reply then .confirmed else .orphaned
      confirmations := max 0 (if own reply then tipHeight - reply.1.height + 1 else 0)
      checkedVia := some .node }
  else row

section Answers

variable {node : Nat → Int → BlockHashReply} {tipHeight : Int}
  {replies : List (BlockFound × String)}

theorem answersFrom_sublist (node : Nat → Int → BlockHashReply) (i : Nat) (rows : List BlockFound) :
    ((answersFrom node i rows).map Prod.fst).Sublist rows := by
  induction rows generalizing i with
  | nil => exact List.Sublist.refl _
  | cons row rest ih =>
    rw [answersFrom]
    split
    · exact (ih (i + 1)).cons_cons row
    · exact List.nil_sublist _

theorem loopEnd_ne_ok (node : Nat → Int → BlockHashReply) (i : Nat) (rows : List BlockFound)
    (hash : String) :
    loopEnd node i rows ≠ some (.ok hash) := by
  induction rows generalizing i with
  | nil => exact nofun
  | cons row rest ih =>
    rw [loopEnd]
    cases node i row.height with
    | ok _ => exact ih (i + 1)
    | unsupported => exact nofun
    | failed => exact nofun

/-- A loop that ends with its list has every answer. -/
theorem answersFrom_whole {i : Nat} {rows : List BlockFound} (whole : loopEnd node i rows = none) :
    (answersFrom node i rows).map Prod.fst = rows := by
  induction rows generalizing i with
  | nil => rfl
  | cons row rest ih =>
    rw [loopEnd] at whole
    rw [answersFrom]
    cases reply : node i row.height with
    | ok hash =>
      rw [reply] at whole
      dsimp only
      rw [List.map_cons, ih whole]
    | unsupported =>
      rw [reply] at whole
      contradiction
    | failed =>
      rw [reply] at whole
      contradiction

theorem judgeBy_names (tipHeight : Int) (row : BlockFound) (reply : BlockFound × String) :
    (judgeBy tipHeight row reply).hash = row.hash ∧
    (judgeBy tipHeight row reply).height = row.height ∧
      (judgeBy tipHeight row reply).id = row.id := by
  rw [judgeBy]
  split <;> exact ⟨rfl, rfl, rfl⟩

theorem foldl_judgeBy_names (tipHeight : Int) (replies : List (BlockFound × String))
    (row : BlockFound) :
    (replies.foldl (judgeBy tipHeight) row).hash = row.hash ∧
    (replies.foldl (judgeBy tipHeight) row).height = row.height ∧
      (replies.foldl (judgeBy tipHeight) row).id = row.id := by
  induction replies generalizing row with
  | nil => exact ⟨rfl, rfl, rfl⟩
  | cons reply rest ih =>
    obtain ⟨hash, height, id⟩ := judgeBy_names tipHeight row reply
    obtain ⟨hash', height', id'⟩ := ih (judgeBy tipHeight row reply)
    exact ⟨hash'.trans hash, height'.trans height, id'.trans id⟩

theorem foldl_judgeBy_unanswered (apart : row.hash ∉ replies.map fun reply => reply.1.hash) :
    replies.foldl (judgeBy tipHeight) row = row := by
  induction replies with
  | nil => rfl
  | cons reply rest ih =>
    rw [List.map_cons, List.mem_cons, not_or] at apart
    rw [List.foldl_cons, judgeBy, if_neg apart.1]
    exact ih apart.2

/-- A block that the node answered about has the status of that answer. -/
theorem foldl_judgeBy_answered {reply : BlockFound × String}
    (distinct : (replies.map fun reply => reply.1.hash).Nodup)
    (member : reply ∈ replies) (same : row.hash = reply.1.hash) :
    (replies.foldl (judgeBy tipHeight) row).status = if own reply then .confirmed
      else .orphaned := by
  induction replies generalizing row with
  | nil => cases member
  | cons first rest ih =>
    obtain ⟨apart, distinct⟩ := List.nodup_cons.mp distinct
    rw [List.foldl_cons]
    rcases List.mem_cons.mp member with rfl | later
    · rw [foldl_judgeBy_unanswered, judgeBy, if_pos same]
      rw [(judgeBy_names tipHeight row reply).1, same]
      exact apart
    · exact ih distinct later ((judgeBy_names tipHeight row first).1.trans same)

end Answers

/-- The loop makes the UPDATE of every answer and nothing else. -/
theorem checkCandidatesAt_rows (node : Nat → Int → BlockHashReply) (tipHeight : Int)
    (top : List BlockFound) (sized : ∀ row ∈ top, row.hash.toList.length ≤ hashDigits) :
    ∀ (i : Nat) (checked : Checked) (c : Connection), c.working = none →
      ∃ after c', checkCandidatesAt node tipHeight i checked c
          (top.map fun row => ⟨buffer blockCandidateHashSize row.hash, row.height⟩) = (after, c') ∧
        (after.settled = true ↔ checked.settled = true ∨ loopEnd node i top = some .failed) ∧
        after.gbh = (if loopEnd node i top = some .unsupported then .unsupported
          else if answersFrom node i top = [] then checked.gbh else .serves) ∧
        c'.working = none ∧ { c'.committed with blocksFound := c.committed.blocksFound } =
          c.committed ∧
        c'.committed.blocksFound.rows = c.committed.blocksFound.rows.map
          ((answersFrom node i top).foldl (judgeBy tipHeight)) := by
  induction top with
  | nil => exact fun i checked c closed => ⟨checked, c,
    rfl, by simp [loopEnd], by simp [loopEnd, answersFrom], closed, rfl, by simp [answersFrom]⟩
  | cons row rest ih =>
    intro i checked c closed
    have whole : buffer blockCandidateHashSize row.hash = row.hash :=
      buffer_eq (lt_of_le_of_lt (sized row List.mem_cons_self) (by decide))
    rw [List.map_cons, checkCandidatesAt, answersFrom, loopEnd, whole]
    cases node i row.height with
    | unsupported => exact ⟨_, c, rfl, by simp, by simp, closed, rfl, by simp⟩
    | failed => exact ⟨_, c, rfl, by simp, by simp, closed, rfl, by simp⟩
    | ok hash =>
      let written :=
        c.write (storeSetBlockStatus row.hash (if own (row, hash) then .confirmed else .orphaned)
        (if own (row, hash) then tipHeight - row.height + 1 else 0) (some .node))
      have still : written.working = none := by simp only [written, Connection.write, closed]
      have frame :
          { written.committed with blocksFound := c.committed.blocksFound } = c.committed := by
        simp only [written, Connection.write, closed, storeSetBlockStatus]
      have rows : written.committed.blocksFound.rows =
          c.committed.blocksFound.rows.map (fun other => judgeBy tipHeight other (row, hash)) := by
        simp only [written, Connection.write, closed, storeSetBlockStatus, BlockTable.update]
        rfl
      obtain ⟨after, c', looped, settled, gbh, still', frame', rows'⟩ :=
        ih (fun other member => sized other (List.mem_cons_of_mem _ member)) (i + 1)
          { checked with gbh := .serves, checkedViaNode := checked.checkedViaNode + 1 } written
            still
      refine ⟨after, c', looped, settled, ?_, still', ?_, ?_⟩
      · rw [gbh]
        simp
      · rw [← frame, ← frame']
      · rw [rows', rows, List.map_map]
        rfl

/-- The statuses are those of the answers, and then what the templates make of them if the
pass goes by the templates. -/
theorem settleStatusesAt_rows {c : Connection} (stored : Stored c)
    (node : Nat → Int → BlockHashReply) (cap : Nat)
    (tipHeight : Int) (gbh : GbhState) : ∃ mid : Connection, mid.working = none ∧
      { mid.committed with blocksFound := c.committed.blocksFound } = c.committed ∧
      mid.committed.blocksFound.rows = c.committed.blocksFound.rows.map
        ((answersOf node cap tipHeight gbh c.committed).foldl (judgeBy tipHeight)) ∧
      (settleStatusesAt node cap tipHeight gbh c).2 =
        if goesByTemplates node cap tipHeight gbh c.committed then
        mid.write fun db => (storeReconcileBlocksFromTemplates tipHeight db).2 else mid := by
  rw [settleStatusesAt]
  by_cases refused : gbh = .unsupported
  · rw [if_pos refused, answersOf, if_pos refused]
    refine ⟨c, stored.closed, rfl, by simp, ?_⟩
    rw [goesByTemplates, decide_eq_true refused]
    rfl
  · have sized :
        ∀ row ∈ cappedBatch cap tipHeight c.committed, row.hash.toList.length ≤ hashDigits := by
      intro row member
      have inside := List.mem_of_mem_take member
      rw [List.mem_insertionSort] at inside
      exact stored.sized row (List.mem_filter.mp inside).1
    have cands : storeListUnresolvedBlocks tipHeight blockFinalDepth cap c.db =
        (cappedBatch cap tipHeight c.committed).map
          (fun row => ⟨buffer blockCandidateHashSize row.hash, row.height⟩) := by
      rw [stored.db]
      rfl
    obtain ⟨after, mid, looped, settled, state, still, frame, rows⟩ :=
      checkCandidatesAt_rows node tipHeight _ sized 0 ⟨false, gbh, 0⟩ c stored.closed
    rw [if_neg refused, answersOf, if_neg refused, cands, looped]
    refine ⟨mid, still, frame, rows, ?_⟩
    have unlatched : decide (gbh = GbhState.unsupported) = false := decide_eq_false refused
    rw [goesByTemplates, unlatched, Bool.false_or]
    cases ended : loopEnd node 0 (cappedBatch cap tipHeight c.committed) with
    | none =>
      have whole := answersFrom_whole ended
      have none_iff : answersFrom node 0 (cappedBatch cap tipHeight c.committed) = [] ↔
          cappedBatch cap tipHeight c.committed = [] := by
        rw [← List.map_eq_nil_iff, whole]
      by_cases empty : cappedBatch cap tipHeight c.committed = []
      · cases gbh <;> simp_all
      · have serving : after.gbh = .serves := by
          rw [state, ended, if_neg nofun, if_neg (mt none_iff.mp empty)]
        simp [serving, empty]
    | some reply =>
      cases reply with
      | ok hash => exact absurd ended (loopEnd_ne_ok _ _ _ _)
      | unsupported =>
        have given : after.gbh = .unsupported := by rw [state, ended, if_pos rfl]
        have unsettled : after.settled = false := by
          rw [ended] at settled
          simpa using settled
        simp [given, unsettled]
      | failed =>
        have done : after.settled = true := settled.mpr (.inr ended)
        have nonempty : cappedBatch cap tipHeight c.committed ≠ [] := by
          intro empty
          rw [empty] at ended
          contradiction
        simp only [nonempty]
        split <;> simp

theorem labels_answers {db after : Db} {replies : List (BlockFound × String)}
    (rows : after.blocksFound.rows = db.blocksFound.rows.map (replies.foldl (judgeBy tipHeight))) :
    labels after = labels db := by
  rw [labels, labels, rows, List.map_map]
  apply List.map_congr_left
  intro row _
  obtain ⟨hash, height, _⟩ := foldl_judgeBy_names tipHeight replies row
  exact Prod.ext hash height

theorem answersOf_known (node : Nat → Int → BlockHashReply) (cap : Nat) (tipHeight : Int)
    (gbh : GbhState) {db : Db} (distinct : (db.blocksFound.rows.map BlockFound.hash).Nodup) :
    (∀ reply ∈ answersOf node cap tipHeight gbh db, reply.1 ∈ db.blocksFound.rows) ∧
      ((answersOf node cap tipHeight gbh db).map fun reply => reply.1.hash).Nodup := by
  rw [answersOf]
  split
  · exact ⟨List.forall_mem_nil _, List.nodup_nil⟩
  · have front := answersFrom_sublist node 0 (cappedBatch cap tipHeight db)
    constructor
    · intro reply member
      have inside := List.mem_of_mem_take (front.mem (List.mem_map_of_mem member))
      rw [List.mem_insertionSort] at inside
      exact (List.mem_filter.mp inside).1
    · have short := (front.trans (List.take_sublist _ _)).map BlockFound.hash
      rw [List.map_map] at short
      apply short.nodup
      refine ((List.perm_insertionSort newerFirst _).map BlockFound.hash).nodup_iff.mpr ?_
      exact (List.filter_sublist.map BlockFound.hash).nodup distinct

end SimplePool.Reconcile
