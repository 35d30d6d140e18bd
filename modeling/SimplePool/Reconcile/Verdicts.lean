import SimplePool.Reconcile.Pass
import SimplePool.Store.DistributeOnce

/-! What one confirmation pass makes of every row, with a node that answers every query:
the verdicts of the node where it is asked, and those of the templates otherwise. -/
namespace SimplePool.Reconcile
open Store

/-- The node's chain, the database, and whether the node is known to answer. -/
structure PassState where
  chain : Chain
  conn : Connection
  gbh : GbhState

/-- A node that answers every query correctly. -/
def answer (chain : Chain) (height : Int) : BlockHashReply :=
  if height < 0 then .failed
  else match chain.blocks[height.toNat]? with
    | some hash => .ok hash
    | none => .failed

/-- The node's hash at the row's height is the row's, in upper or lower case. -/
def onChain (chain : Chain) (row : BlockFound) : Bool :=
  match answer chain row.height with
  | .ok hash => sameHash hash row.hash
  | _ => false

/-- The row's depth in the chain. -/
def depth (chain : Chain) (row : BlockFound) : Int := chain.tipHeight - row.height + 1

/-- The rows a pass asks the node about. -/
def batch (tipHeight : Int) (db : Db) : List BlockFound :=
  ((db.blocksFound.rows.filter (unresolved tipHeight blockFinalDepth)).insertionSort
    newerFirst).take
    reconcileMaxPerTick

section Batch

variable {tipHeight : Int} {db : Db} {row : BlockFound}

theorem batch_sublist (member : row ∈ batch tipHeight db) :
    row ∈ db.blocksFound.rows ∧ unresolved tipHeight blockFinalDepth row = true := by
  have sorted := List.mem_of_mem_take member
  rw [List.mem_insertionSort] at sorted
  exact List.mem_filter.mp sorted

end Batch

/-- What the node's answer makes of a row. -/
def verdict (chain : Chain) (row : BlockFound) : BlockFound :=
  { row with
    status := if onChain chain row then .confirmed else .orphaned
    confirmations := if onChain chain row then depth chain row else 0
    checkedVia := some .node }

/-- The UPDATE made for `asked`, as seen by one row of the table. -/
def judge (chain : Chain) (row asked : BlockFound) : BlockFound :=
  if row.hash = asked.hash then
    { row with
      status := (verdict chain asked).status
      confirmations := (verdict chain asked).confirmations
      checkedVia := some .node }
  else row

section Judged

variable {chain : Chain} {row asked : BlockFound} {rows : List BlockFound}

@[simp] theorem judge_hash : (judge chain row asked).hash = row.hash := by
  simp only [judge]
  split <;> rfl

theorem foldl_judge_of_not_mem (apart : row.hash ∉ rows.map BlockFound.hash) :
    rows.foldl (judge chain) row = row := by
  induction rows with
  | nil => rfl
  | cons first rest ih =>
    rw [List.map_cons, List.mem_cons, not_or] at apart
    rw [List.foldl_cons, judge, if_neg apart.1]
    exact ih apart.2

theorem foldl_judge_of_mem (distinct : (rows.map BlockFound.hash).Nodup) (member : row ∈ rows) :
    rows.foldl (judge chain) row = verdict chain row := by
  induction rows with
  | nil => cases member
  | cons first rest ih =>
    obtain ⟨apart, distinct⟩ := List.nodup_cons.mp distinct
    rw [List.foldl_cons]
    rcases List.mem_cons.mp member with rfl | later
    · have judged : judge chain row row = verdict chain row := by simp [judge, verdict]
      rw [judged]
      exact foldl_judge_of_not_mem apart
    · have other : row.hash ≠ first.hash := fun same => apart (same ▸ List.mem_map_of_mem later)
      rw [judge, if_neg other]
      exact ih distinct later

theorem Chain.answer_of_range (chain : Chain) {height : Int} (positive : 0 < height)
    (below : height ≤ chain.tipHeight) : ∃ hash, answer chain height = .ok hash ∧
      hash.toList.length ≤ hashDigits := by
  have bound : height.toNat < chain.blocks.length := by
    simp only [Chain.tipHeight] at below
    omega
  refine ⟨chain.blocks[height.toNat], ?_, chain.sized _ (List.getElem_mem bound)⟩
  rw [answer, if_neg (by omega), List.getElem?_eq_getElem bound]

/-- With a node that answers, the loop applies the verdict of every candidate. -/
theorem checkCandidates_spec (top : List BlockFound) (asked : ∀ row ∈ top, 0 < row.height ∧
      row.height ≤ chain.tipHeight ∧ row.hash.toList.length ≤ hashDigits) :
    ∀ (checked : Checked) (c : Connection), c.working = none →
    ∃ after c', checkCandidates (answer chain) chain.tipHeight checked c
        (top.map fun row => ⟨buffer blockCandidateHashSize row.hash, row.height⟩) = (after, c') ∧
      after.settled = checked.settled ∧ after.gbh = (if top = [] then checked.gbh else .serves) ∧
      c'.working = none ∧ (top = [] → c' = c) ∧
      c'.committed.blocksFound.rows =
        c.committed.blocksFound.rows.map (fun row => top.foldl (judge chain) row) := by
  induction top with
  | nil => exact fun checked c closed => ⟨checked, c, rfl, rfl, rfl, closed, fun _ => rfl, by simp⟩
  | cons first rest ih =>
    intro checked c closed
    obtain ⟨positive, below, digits⟩ := asked first (by simp)
    obtain ⟨hash, answered, sized⟩ := chain.answer_of_range positive below
    have own : buffer blockCandidateHashSize first.hash = first.hash :=
      buffer_eq (lt_of_le_of_lt digits (by decide))
    have node : buffer 80 hash = hash := buffer_eq (lt_of_le_of_lt sized (by decide))
    have standing : onChain chain first = sameHash hash first.hash := by rw [onChain, answered]
    have deep : max 0 (chain.tipHeight - first.height + 1) = depth chain first := by
      rw [depth]
      omega
    let written := c.write (storeSetBlockStatus first.hash (verdict chain first).status
      (if onChain chain first then chain.tipHeight - first.height + 1 else 0) (some .node))
    have still : written.working = none := by simp only [written, Connection.write, closed]
    have rows : written.committed.blocksFound.rows =
        c.committed.blocksFound.rows.map (fun row => judge chain row first) := by
      simp only [written, Connection.write, closed, storeSetBlockStatus, BlockTable.update]
      congr 1
      funext row
      simp only [judge, verdict]
      split
      · split
        · rw [deep]
        · simp
      · rfl
    obtain ⟨after, c', looped, settled, gbh, closed', _, rows'⟩ :=
      ih (fun row member => asked row (by simp [member]))
        { checked with gbh := .serves, checkedViaNode := checked.checkedViaNode + 1 } written still
    refine ⟨after, c', ?_, settled, ?_, closed', fun empty => absurd empty (List.cons_ne_nil _ _),
      ?_⟩
    · rw [List.map_cons, checkCandidates, answered]
      simp only [own, node, ← standing]
      exact looped
    · rw [gbh]
      split <;> simp
    · rw [rows', rows, List.map_map]
      rfl

end Judged

theorem batch_eq_nil_iff {tipHeight : Int} {db : Db} :
    batch tipHeight db = [] ↔ ∀ row ∈ db.blocksFound.rows,
    unresolved tipHeight blockFinalDepth row = false := by
  have size : reconcileMaxPerTick ≠ 0 := by decide
  rw [batch, List.take_eq_nil_iff, or_iff_right size, ← List.length_eq_zero_iff,
    List.length_insertionSort, List.length_eq_zero_iff, List.filter_eq_nil_iff]
  simp only [Bool.not_eq_true]

/-- The pass takes its statuses from the node: it has answered before, or is asked now. -/
def asksNode (gbh : GbhState) (tipHeight : Int) (db : Db) : Bool :=
  gbh = .serves || gbh = .notAsked && batch tipHeight db ≠ []

/-- What a pass makes of a row. -/
def judged (chain : Chain) (gbh : GbhState) (db : Db) (row : BlockFound) : BlockFound :=
  if asksNode gbh chain.tipHeight db then (batch chain.tipHeight db).foldl (judge chain) row
  else impossible chain.tipHeight (resolve db.templates chain.tipHeight row)

theorem foldl_judge_names (chain : Chain) (rows : List BlockFound) (row : BlockFound) :
    (rows.foldl (judge chain) row).hash = row.hash ∧
    (rows.foldl (judge chain) row).height = row.height := by
  induction rows generalizing row with
  | nil => exact ⟨rfl, rfl⟩
  | cons first rest ih =>
    have one :
        (judge chain row first).hash = row.hash ∧ (judge chain row first).height = row.height := by
      simp only [judge]
      split <;> exact ⟨rfl, rfl⟩
    exact ⟨(ih _).1.trans one.1, (ih _).2.trans one.2⟩

theorem impossible_names (tipHeight : Int) (row : BlockFound) :
    (impossible tipHeight row).hash = row.hash ∧
    (impossible tipHeight row).height = row.height := by
  simp only [impossible]
  split <;> exact ⟨rfl, rfl⟩

theorem judged_names (chain : Chain) (gbh : GbhState) (db : Db) (row : BlockFound) :
    (judged chain gbh db row).hash = row.hash ∧ (judged chain gbh db row).height = row.height := by
  rw [judged]
  split_ifs
  · exact foldl_judge_names chain _ row
  · obtain ⟨hash, height⟩ :=
      impossible_names chain.tipHeight (resolve db.templates chain.tipHeight row)
    obtain ⟨height', hash'⟩ := resolve_names db.templates chain.tipHeight row
    exact ⟨hash.trans hash', height.trans height'⟩

theorem batch_nodup {tipHeight : Int} {db : Db}
    (distinct : (db.blocksFound.rows.map BlockFound.hash).Nodup) :
    ((batch tipHeight db).map BlockFound.hash).Nodup := by
  have front : ((batch tipHeight db).map BlockFound.hash).Sublist _ :=
    (List.take_sublist _ _).map BlockFound.hash
  apply front.nodup
  refine ((List.perm_insertionSort newerFirst _).map BlockFound.hash).nodup_iff.mpr ?_
  exact (List.filter_sublist.map BlockFound.hash).nodup distinct

/-- A row that is not in the batch keeps what it had, if the node was asked. -/
theorem foldl_judge_outside {chain : Chain} {db : Db}
    (distinct : (db.blocksFound.rows.map BlockFound.hash).Nodup)
    (member : row ∈ db.blocksFound.rows) (outside : row ∉ batch chain.tipHeight db) :
    (batch chain.tipHeight db).foldl (judge chain) row = row := by
  apply foldl_judge_of_not_mem
  intro same
  obtain ⟨other, inside, hash⟩ := List.mem_map.mp same
  have eq : other = row := List.inj_on_of_nodup_map distinct (batch_sublist inside).1 member hash
  exact outside (eq ▸ inside)

/-- What holds of the database between the passes. -/
structure Stored (c : Connection) : Prop where
  closed : c.working = none
  distinct : (c.committed.blocksFound.rows.map BlockFound.hash).Nodup
  sized : ∀ row ∈ c.committed.blocksFound.rows, row.hash.toList.length ≤ hashDigits
  positive : ∀ row ∈ c.committed.blocksFound.rows, 0 < row.height

theorem Stored.db {c : Connection} (stored : Stored c) : c.db = c.committed := by
  rw [Connection.db, stored.closed, Option.getD_none]

theorem settleStatuses_rows {chain : Chain} {c : Connection} (stored : Stored c)
    (tip : 0 < chain.tipHeight)
    (ran : settleStatuses (answer chain) chain.tipHeight gbh c = (checked, after)) :
    after.working = none ∧
    checked.gbh = (if asksNode gbh chain.tipHeight c.committed then .serves else gbh) ∧
      after.committed.blocksFound.rows =
        c.committed.blocksFound.rows.map (judged chain gbh c.committed) := by
  have templates : ∀ before : Connection, before.working = none → before.committed = c.committed →
      asksNode gbh chain.tipHeight c.committed = false →
      (before.write fun db => (storeReconcileBlocksFromTemplates chain.tipHeight db).2).working =
        none ∧
      (before.write fun db =>
        (storeReconcileBlocksFromTemplates chain.tipHeight db).2).committed.blocksFound.rows =
        c.committed.blocksFound.rows.map (judged chain gbh c.committed) := by
    intro before closed same unasked
    refine ⟨by simp only [Connection.write, closed], ?_⟩
    simp only [Connection.write, closed, same, storeReconcileBlocksFromTemplates, if_pos tip,
      BlockTable.update, List.map_map, Function.comp_def]
    congr 1
    funext row
    rw [judged, unasked, if_neg Bool.false_ne_true]
  by_cases refused : gbh = .unsupported
  · subst refused
    rw [settleStatuses, if_pos rfl] at ran
    simp only [Bool.false_eq_true, if_false, Prod.mk.injEq] at ran
    obtain ⟨rfl, rfl⟩ := ran
    obtain ⟨closed, rows⟩ := templates c stored.closed rfl rfl
    exact ⟨closed, rfl, rows⟩
  · have range :
      ∀ row ∈ batch chain.tipHeight c.committed, 0 < row.height ∧ row.height ≤ chain.tipHeight ∧
        row.hash.toList.length ≤ hashDigits := by
      intro row inside
      obtain ⟨member, unsettled⟩ := batch_sublist inside
      simp only [unresolved, Bool.and_eq_true, decide_eq_true_eq] at unsettled
      exact ⟨stored.positive row member, unsettled.2, stored.sized row member⟩
    have cands :
      storeListUnresolvedBlocks chain.tipHeight blockFinalDepth reconcileMaxPerTick c.db =
        (batch chain.tipHeight c.committed).map (fun row =>
          ⟨buffer blockCandidateHashSize row.hash, row.height⟩) := by
      rw [stored.db]
      rfl
    obtain ⟨looked, c', looped, settled, state, closed', same, rows⟩ :=
      checkCandidates_spec _ range ⟨false, gbh, 0⟩ c stored.closed
    rw [settleStatuses, if_neg refused, cands, looped] at ran
    have asks : asksNode gbh chain.tipHeight c.committed = decide (looked.gbh = .serves) := by
      rw [state, asksNode]
      by_cases none : batch chain.tipHeight c.committed = []
      · simp [none]
      · cases gbh <;> simp_all
    by_cases serving : looked.gbh = .serves
    · simp only [serving, if_true, Prod.mk.injEq] at ran
      obtain ⟨rfl, rfl⟩ := ran
      rw [asks, decide_eq_true serving, if_pos rfl]
      refine ⟨closed', rfl, rows.trans ?_⟩
      congr 1
      funext row
      rw [judged, asks, decide_eq_true serving, if_pos rfl]
    · have none : batch chain.tipHeight c.committed = [] := by
        by_contra some
        rw [if_neg some] at state
        exact serving state
      obtain rfl := same none
      simp only [serving, if_false, settled, Bool.false_eq_true, Prod.mk.injEq] at ran
      obtain ⟨rfl, rfl⟩ := ran
      rw [none, if_pos rfl] at state
      have unasked : asksNode gbh chain.tipHeight c'.committed = false := by
        rw [asks, decide_eq_false serving]
      obtain ⟨closed, rows⟩ := templates c' closed' rfl unasked
      refine ⟨closed, ?_, rows⟩
      rw [unasked, if_neg Bool.false_ne_true, state]

/-- A row without its latch, the one column the distributor writes. -/
def unlatch (row : BlockFound) : BlockFound := { row with pplnsDistributed := false }

def unlatched (db : Db) : List BlockFound := db.blocksFound.rows.map unlatch

/-- The second half of the pass: the payout queue and the distribution. -/
def creditSettled (cfg : PassConfig) (oracle : Oracle) (c : Connection) :
    FractionTotals × Option Distribution × Connection :=
  let (fractions, c) := storeSettleBlockFractions oracle c
  let fractions := fractions.getD ⟨0, 0⟩
  if cfg.pplns then
    let (distribution, c) := storePplnsDistribute oracle pplnsMaturityConfs cfg.feeBps c
    (fractions, some distribution, c)
  else (fractions, none, c)

/-- It writes no column of a block but the latch. -/
theorem creditSettled_keeps {α : Type} {f : Db → α}
    (blocks : ∀ db db' : Db, db.blocksFound = db'.blocksFound → f db = f db')
    (latch : ∀ blockId db, f (markDistributed blockId db) = f db) (cfg : PassConfig)
    (oracle : Oracle) {c : Connection}
    (closed : c.working = none) : (creditSettled cfg oracle c).2.2.working = none ∧
      f (creditSettled cfg oracle c).2.2.committed = f c.committed := by
  have whole : c.Keeps Db.blocksFound c.committed.blocksFound :=
    ⟨rfl, fun db opened => by rw [closed] at opened; cases opened⟩
  cases settled : storeSettleBlockFractions oracle c with
  | mk totals queued =>
    obtain ⟨still, kept⟩ := storeSettleBlockFractions_keeps closed whole settled
    have view : queued.Keeps f (f c.committed) :=
      ⟨blocks _ _ kept.1, fun db opened => by rw [still] at opened; cases opened⟩
    simp only [creditSettled, settled]
    split
    · cases distributed : storePplnsDistribute oracle pplnsMaturityConfs cfg.feeBps queued with
      | mk distribution final =>
        obtain ⟨still, kept⟩ :=
          storePplnsDistribute_keeps (fun _ _ => blocks _ _ rfl) latch still view distributed
        exact ⟨still, kept.1⟩
    · exact ⟨still, view.1⟩

theorem reconcileBlocksPass_halves (cfg : PassConfig) (oracle : Oracle)
    (getBlockHash : Int → BlockHashReply) (gbh : GbhState) (c : Connection) (tip : 0 < tipHeight) :
    (reconcileBlocksPass cfg oracle getBlockHash tipHeight gbh c).2 =
      ((settleStatuses getBlockHash tipHeight gbh c).1.gbh,
        (creditSettled cfg oracle (settleStatuses getBlockHash tipHeight gbh c).2).2.2) := by
  rw [reconcileBlocksPass, if_neg (not_le.mpr tip)]
  simp only [creditSettled]
  split <;> rfl

theorem unlatched_markDistributed (blockId : Nat) (db : Db) :
    unlatched (markDistributed blockId db) = unlatched db := by
  simp only [unlatched, markDistributed, BlockTable.update, List.map_map]
  congr 1
  funext row
  simp only [Function.comp, unlatch]
  split <;> rfl

theorem unlatched_congr {db db' : Db} (same : db.blocksFound = db'.blocksFound) :
    unlatched db = unlatched db' := by
  rw [unlatched, unlatched, same]

theorem reconcileBlocksPass_rows {chain : Chain} {c after : Connection} (stored : Stored c)
    (tip : 0 < chain.tipHeight)
    (ran : reconcileBlocksPass cfg oracle (answer chain) chain.tipHeight gbh c =
      (result, gbh', after)) :
    after.working = none ∧
    gbh' = (if asksNode gbh chain.tipHeight c.committed then .serves else gbh) ∧
      unlatched after.committed =
        (c.committed.blocksFound.rows.map (judged chain gbh c.committed)).map unlatch := by
  have halves := reconcileBlocksPass_halves cfg oracle (answer chain) gbh c tip
  rw [ran, Prod.mk.injEq] at halves
  obtain ⟨rfl, rfl⟩ := halves
  cases statuses : settleStatuses (answer chain) chain.tipHeight gbh c with
  | mk checked settled =>
    obtain ⟨still, serving, rows⟩ := settleStatuses_rows stored tip statuses
    obtain ⟨closed, kept⟩ :=
      creditSettled_keeps (fun _ _ => unlatched_congr) unlatched_markDistributed cfg oracle still
    refine ⟨closed, serving, ?_⟩
    rw [kept, unlatched, rows]

/-- The rows after a pass, up to their latch. -/
theorem mem_of_unlatched {rows : List BlockFound} (same : unlatched db = rows.map unlatch) :
    (∀ row ∈ db.blocksFound.rows, ∃ seen ∈ rows, unlatch seen = unlatch row) ∧
      ∀ seen ∈ rows, ∃ row ∈ db.blocksFound.rows, unlatch row = unlatch seen := by
  constructor
  · intro row member
    have shown : unlatch row ∈ rows.map unlatch := same ▸ List.mem_map_of_mem member
    simpa only [List.mem_map] using shown
  · intro seen member
    have shown : unlatch seen ∈ unlatched db := same ▸ List.mem_map_of_mem member
    simpa only [unlatched, List.mem_map] using shown

theorem onChain_unlatch (same : unlatch row = unlatch other) :
    row.status = other.status ∧ row.confirmations = other.confirmations ∧ row.hash = other.hash ∧
      row.height = other.height ∧ ∀ chain, onChain chain row = onChain chain other := by
  simp only [unlatch, BlockFound.mk.injEq] at same
  obtain ⟨_, height, hash, _, _, status, confirmations, _⟩ := same
  exact ⟨status, confirmations, hash, height, fun chain => by rw [onChain, onChain, height, hash]⟩

theorem Stored.found {c : Connection} {hash : String} (stored : Stored c)
    (digits : hash.toList.length ≤ hashDigits)
    (position rewardSats feeSats : Int) (status : BlockStatus) (window : ℚ) :
    Stored (c.write (storeRecordBlock position hash rewardSats feeSats status window)) := by
  have whole : buffer hashStrMax hash = hash := buffer_eq (lt_of_le_of_lt digits (by decide))
  simp only [Connection.write, stored.closed]
  rcases storeRecordBlock_rows position hash rewardSats feeSats status window c.committed with
    ⟨same, _⟩ | ⟨row, rows, positive, height, named, fresh, _⟩
  · constructor
    · rfl
    · rw [same]
      exact stored.distinct
    · rw [same]
      exact stored.sized
    · rw [same]
      exact stored.positive
  · constructor
    · rfl
    · rw [rows, List.map_append, List.map_singleton]
      exact List.nodup_append.mpr ⟨stored.distinct, List.nodup_singleton _, fun a old b new => by
        obtain rfl := List.mem_singleton.mp new
        exact fun same => fresh (same ▸ old)⟩
    · rw [rows]
      intro known member
      rcases List.mem_append.mp member with old | new
      · exact stored.sized known old
      · obtain rfl := List.mem_singleton.mp new
        rwa [named, whole]
    · rw [rows]
      intro known member
      rcases List.mem_append.mp member with old | new
      · exact stored.positive known old
      · obtain rfl := List.mem_singleton.mp new
        rwa [height]

theorem Stored.template {c : Connection} (stored : Stored c) (retentionDays : Int) (t : Template) :
    Stored (c.write (storeRecordTemplate retentionDays t)) := by
  simp only [Connection.write, stored.closed]
  constructor
  · rfl
  · simpa only [storeRecordTemplate_blocksFound] using stored.distinct
  · simpa only [storeRecordTemplate_blocksFound] using stored.sized
  · simpa only [storeRecordTemplate_blocksFound] using stored.positive

/-- What a row is about: no pass changes it. -/
def labels (db : Db) : List (String × Int) :=
  db.blocksFound.rows.map fun row => (row.hash, row.height)

theorem labels_unlatched {db : Db} {rows : List BlockFound}
    (same : unlatched db = rows.map unlatch) :
    labels db = rows.map fun row => (row.hash, row.height) := by
  have shown := congrArg (List.map fun row : BlockFound => (row.hash, row.height)) same
  simpa only [labels, unlatched, List.map_map, Function.comp_def, unlatch] using shown

theorem Stored.of_labels {c after : Connection} (stored : Stored c) (closed : after.working = none)
    (same : labels after.committed = labels c.committed) : Stored after := by
  have hashes := congrArg (List.map Prod.fst) same
  simp only [labels, List.map_map, Function.comp_def] at hashes
  have origin : ∀ row ∈ after.committed.blocksFound.rows,
      ∃ old ∈ c.committed.blocksFound.rows, old.hash = row.hash ∧ old.height = row.height := by
    intro row member
    have shown : (row.hash, row.height) ∈ labels c.committed := by
      rw [← same]
      exact List.mem_map_of_mem member
    obtain ⟨old, known, equal⟩ := List.mem_map.mp shown
    exact ⟨old, known, Prod.mk.inj equal⟩
  constructor
  · exact closed
  · exact hashes ▸ stored.distinct
  · intro row member
    obtain ⟨old, known, hash, _⟩ := origin row member
    exact hash ▸ stored.sized old known
  · intro row member
    obtain ⟨old, known, _, height⟩ := origin row member
    exact height ▸ stored.positive old known

/-- A pass keeps the names of the rows. -/
theorem Stored.pass {c after : Connection} {chain : Chain} (stored : Stored c)
    (closed : after.working = none)
    (rows : unlatched after.committed =
      (c.committed.blocksFound.rows.map (judged chain gbh c.committed)).map unlatch) :
    Stored after := by
  refine stored.of_labels closed ((labels_unlatched rows).trans ?_)
  rw [labels, List.map_map]
  apply List.map_congr_left
  intro row _
  obtain ⟨hash, height⟩ := judged_names chain gbh c.committed row
  exact Prod.ext hash height

end SimplePool.Reconcile
