import SimplePool.Lib.Transition
import SimplePool.Reconcile.Verdicts

/-! When a node that answers every query keeps every block of the pool on its way to
maturity. A pass looks at the newest sixteen unresolved rows only, so a row is served
exactly when fewer than sixteen unresolved rows are newer. -/
namespace SimplePool.Reconcile
open Store Transition

inductive PassEvent where
  | found (height : Int) (hash : String) (rewardSats feeSats : Int) (refused : Bool)
    (pplnsWindowDiff : ℚ)
  | template (t : Template)
  /-- The chain grows by one block, and a pass is made. -/
  | tip (hash : String)

section Run

variable (cfg : PassConfig) (oracle : Oracle) (retentionDays : Int)

def passStep (s : PassState) : PassEvent → Option PassState
  | .found height hash rewardSats feeSats refused pplnsWindowDiff =>
    if hash.toList.length ≤ hashDigits then
      let status := if refused then BlockStatus.rejected else .pending
      let record := storeRecordBlock height hash rewardSats feeSats status pplnsWindowDiff
      some { s with conn := s.conn.write record }
    else none
  | .template t => some { s with conn := s.conn.write (storeRecordTemplate retentionDays t) }
  | .tip hash =>
    if digits : hash.toList.length ≤ hashDigits then
      let chain := s.chain.extend hash digits
      let (_, gbh, conn) :=
        reconcileBlocksPass cfg oracle (answer chain) chain.tipHeight s.gbh s.conn
      some ⟨chain, conn, gbh⟩
    else none

end Run

/-- Every row in play whose block is twice as deep as maturity asks for is recorded as
mature. -/
def NotStarved (s : PassState) : Prop :=
  ∀ row ∈ s.conn.db.blocksFound.rows, row.status = .pending ∨ row.status = .confirmed →
    onChain s.chain row = true → 2 * pplnsMaturityConfs ≤ depth s.chain row →
    pplnsMaturityConfs ≤ row.confirmations

/-- `row` comes before `other` in the batch of a pass. -/
def newer (row other : BlockFound) : Bool :=
  other.height < row.height || row.height = other.height && other.id < row.id

/-- The unresolved rows that come before `row`. -/
def ahead (tipHeight : Int) (db : Db) (row : BlockFound) : Nat :=
  db.blocksFound.rows.countP
    (fun other => unresolved tipHeight blockFinalDepth other && newer other row)

/-- No unresolved row that is twice as deep as maturity asks for has a full batch ahead
of it. -/
def Served (chain : Chain) (db : Db) : Prop :=
  ∀ row ∈ db.blocksFound.rows, unresolved chain.tipHeight blockFinalDepth row = true →
    onChain chain row = true → 2 * pplnsMaturityConfs ≤ depth chain row →
    ahead chain.tipHeight db row < reconcileMaxPerTick

/-- What holds between the events of a run. -/
structure Orderly (s : PassState) : Prop where
  closed : s.conn.working = none
  distinct : (s.conn.committed.blocksFound.rows.map BlockFound.hash).Nodup
  sized : ∀ row ∈ s.conn.committed.blocksFound.rows, row.hash.toList.length ≤ hashDigits
  positive : ∀ row ∈ s.conn.committed.blocksFound.rows, 0 < row.height
  asked : s.gbh ≠ .unsupported

/-- In a strictly sorted list, the front part holds what has few elements before it. -/
theorem mem_take_iff_countP {α : Type} {before : α → α → Bool} {l : List α}
    (sorted : l.Pairwise (fun a b => before a b = true)) (irrefl : ∀ a, before a a = false)
    (asymm : ∀ a b, before a b = true → before b a = false) (k : Nat) {a : α} (member : a ∈ l) :
    a ∈ l.take k ↔ l.countP (fun b => before b a) < k := by
  induction l generalizing k with
  | nil => cases member
  | cons first rest ih =>
    obtain ⟨ahead, sorted⟩ := List.pairwise_cons.mp sorted
    cases k with
    | zero => simp
    | succ k =>
      rw [List.take_succ_cons, List.mem_cons, List.countP_cons]
      rcases List.mem_cons.mp member with rfl | later
      · have none : rest.countP (fun b => before b a) = 0 := by
          rw [List.countP_eq_zero]
          intro b hb
          simp [asymm _ _ (ahead b hb)]
        simp [none, irrefl]
      · rw [ih sorted k later]
        have first_before := ahead a later
        have apart : a ≠ first := by
          rintro rfl
          simp [irrefl] at first_before
        simp [apart, first_before]

section Batch

variable {tipHeight : Int} {db : Db} {row : BlockFound}

instance : Std.Total newerFirst where
  total a b := by
    simp only [newerFirst]
    omega

instance : IsTrans BlockFound newerFirst where
  trans a b c := by
    simp only [newerFirst]
    omega

/-- A row is in the batch exactly when it is unresolved and fewer rows than the batch
holds are ahead of it. -/
theorem mem_batch_iff (member : row ∈ db.blocksFound.rows) :
    row ∈ batch tipHeight db ↔
      unresolved tipHeight blockFinalDepth row = true ∧
      ahead tipHeight db row < reconcileMaxPerTick := by
  let open_ := db.blocksFound.rows.filter (unresolved tipHeight blockFinalDepth)
  have perm : (open_.insertionSort newerFirst).Perm open_ := List.perm_insertionSort _ _
  have ids : (open_.insertionSort newerFirst).Pairwise (fun a b => a.id ≠ b.id) := by
    have keyed : (open_.map BlockFound.id).Nodup :=
      (List.filter_sublist.map BlockFound.id).nodup db.blocksFound.keyed
    exact List.pairwise_map.mp ((perm.map BlockFound.id).nodup_iff.mpr keyed)
  have sorted : (open_.insertionSort newerFirst).Pairwise (fun a b => newer a b = true) := by
    refine ((List.pairwise_insertionSort newerFirst open_).and ids).imp ?_
    rintro a b ⟨order, apart⟩
    simp only [newerFirst, newer, Bool.or_eq_true, Bool.and_eq_true, decide_eq_true_eq] at *
    omega
  have irrefl : ∀ a, newer a a = false := by simp [newer]
  have asymm : ∀ a b, newer a b = true → newer b a = false := by
    intro a b
    simp only [newer, Bool.or_eq_true, Bool.and_eq_true, decide_eq_true_eq, Bool.or_eq_false_iff,
      Bool.and_eq_false_iff, decide_eq_false_iff_not]
    omega
  have count : (open_.insertionSort newerFirst).countP (fun other => newer other row) =
      ahead tipHeight db row := by
    rw [perm.countP_eq, List.countP_filter, ahead]
    congr 1
    funext other
    exact Bool.and_comm _ _
  constructor
  · intro inside
    obtain ⟨_, unsettled⟩ := batch_sublist inside
    refine ⟨unsettled, ?_⟩
    rw [← count]
    exact (mem_take_iff_countP sorted irrefl asymm _ (List.mem_of_mem_take inside)).mp inside
  · rintro ⟨unsettled, few⟩
    have known : row ∈ open_.insertionSort newerFirst :=
      perm.mem_iff.mpr (List.mem_filter.mpr ⟨member, unsettled⟩)
    rw [← count] at few
    exact (mem_take_iff_countP sorted irrefl asymm _ known).mpr few

end Batch

/-- What a pass makes of each row: the batch gets the node's verdict, and the rest is
left alone. Only a pass with an empty batch may have gone to the templates. -/
structure Judges (chain : Chain) (db : Db) (g : BlockFound → BlockFound) : Prop where
  hash : ∀ row, (g row).hash = row.hash
  height : ∀ row, (g row).height = row.height
  asked : ∀ row ∈ db.blocksFound.rows, row ∈ batch chain.tipHeight db → g row = verdict chain row
  left : ∀ row ∈ db.blocksFound.rows, row ∉ batch chain.tipHeight db → g row = row ∨
    batch chain.tipHeight db = [] ∧
      ((g row).status = .orphaned ∨ (g row).confirmations = max 0 (depth chain row))

theorem judges_judged {chain : Chain} {db : Db}
    (distinct : (db.blocksFound.rows.map BlockFound.hash).Nodup)
    (asked : gbh ≠ .unsupported) : Judges chain db (judged chain gbh db) := by
  refine ⟨fun row => (judged_names ..).1, fun row => (judged_names ..).2, fun row _ inside => ?_,
    fun row member outside => ?_⟩
  · have asks : asksNode gbh chain.tipHeight db = true := by
      have some : batch chain.tipHeight db ≠ [] := List.ne_nil_of_mem inside
      cases gbh <;> simp_all [asksNode]
    rw [judged, asks, if_pos rfl]
    exact foldl_judge_of_mem (batch_nodup distinct) inside
  · rw [judged]
    split_ifs with asks
    · exact Or.inl (foldl_judge_outside distinct member outside)
    · have none : batch chain.tipHeight db = [] := by
        by_contra some
        cases gbh <;> simp_all [asksNode]
      simp only [impossible]
      split
      · exact Or.inr ⟨none, Or.inl rfl⟩
      · simp only [resolve]
        split
        · exact Or.inl rfl
        · split
          · exact Or.inl rfl
          · split
            · exact Or.inr ⟨none, Or.inr rfl⟩
            · exact Or.inr ⟨none, Or.inl rfl⟩

theorem Orderly.stored (orderly : Orderly s) : Stored s.conn :=
  ⟨orderly.closed, orderly.distinct, orderly.sized, orderly.positive⟩

theorem Stored.orderly (stored : Stored s.conn) (asked : s.gbh ≠ .unsupported) : Orderly s :=
  ⟨stored.closed, stored.distinct, stored.sized, stored.positive, asked⟩

/-- A pass with a node that was not given up. -/
theorem reconcileBlocksPass_spec {chain : Chain} {c after : Connection} (stored : Stored c)
    (asked : gbh ≠ .unsupported) (tip : 0 < chain.tipHeight)
    (ran : reconcileBlocksPass cfg oracle (answer chain) chain.tipHeight gbh c =
      (result, gbh', after)) :
    Orderly ⟨chain, after, gbh'⟩ ∧ ∃ g, Judges chain c.committed g ∧
      unlatched after.committed = (c.committed.blocksFound.rows.map g).map unlatch := by
  obtain ⟨closed, state, rows⟩ := reconcileBlocksPass_rows stored tip ran
  refine ⟨(stored.pass closed rows).orderly ?_, _, judges_judged stored.distinct asked, rows⟩
  rw [state]
  split_ifs
  · exact nofun
  · exact asked

/-- One pass: nobody is starved after it exactly when the batch limit cut nobody off. -/
theorem notStarved_iff_served {chain : Chain} {before after : Db} (judges : Judges chain before g)
    (rows : unlatched after = (before.blocksFound.rows.map g).map unlatch) (conn : Connection)
    (view : conn.db = after) (gbh : GbhState) :
    NotStarved ⟨chain, conn, gbh⟩ ↔ Served chain before := by
  have names : ∀ row, onChain chain (g row) = onChain chain row := by
    intro row
    rw [onChain, onChain, judges.height, judges.hash]
  obtain ⟨down, up⟩ := mem_of_unlatched rows
  constructor
  · intro notStarved row member unsettled standing deep
    by_contra cut
    have outside : row ∉ batch chain.tipHeight before :=
      fun inside => cut ((mem_batch_iff member).mp inside).2
    have kept : g row = row := by
      rcases judges.left row member outside with same | ⟨none, _⟩
      · exact same
      · rw [batch_eq_nil_iff.mp none row member] at unsettled
        cases unsettled
    obtain ⟨final, shown, same⟩ := up (g row) (List.mem_map_of_mem member)
    rw [kept] at same
    obtain ⟨status, confirmations, _, height, chained⟩ := onChain_unlatch same
    simp only [unresolved, Bool.and_eq_true, Bool.or_eq_true, decide_eq_true_eq] at unsettled
    have mature := notStarved final (view ▸ shown) (by rw [status]; exact unsettled.1.1)
      ((chained chain).trans standing) (by rw [depth, height]; exact deep)
    rw [confirmations] at mature
    simp only [pplnsMaturityConfs, blockFinalDepth] at *
    omega
  · intro served final shown inPlay standing deep
    rw [view] at shown
    obtain ⟨seen, seenMember, same⟩ := down final shown
    obtain ⟨row, member, rfl⟩ := List.mem_map.mp seenMember
    obtain ⟨status, confirmations, _, height, chained⟩ := onChain_unlatch same
    rw [← status] at inPlay
    rw [← confirmations]
    have standing : onChain chain row = true :=
      (names row).symm.trans ((chained chain).trans standing)
    have deep : 2 * pplnsMaturityConfs ≤ depth chain row := by
      rw [depth, ← judges.height, height]
      exact deep
    by_cases inside : row ∈ batch chain.tipHeight before
    · rw [judges.asked row member inside]
      simp only [verdict, standing, if_true]
      simp only [pplnsMaturityConfs] at *
      omega
    · rcases judges.left row member inside with kept | ⟨_, settled⟩
      · rw [kept] at inPlay ⊢
        by_contra young
        have unsettled : unresolved chain.tipHeight blockFinalDepth row = true := by
          simp only [unresolved, Bool.and_eq_true, Bool.or_eq_true, decide_eq_true_eq]
          simp only [pplnsMaturityConfs, blockFinalDepth, depth] at *
          exact ⟨⟨inPlay, by omega⟩, by omega⟩
        exact inside ((mem_batch_iff member).mpr ⟨unsettled,
            served row member unsettled standing deep⟩)
      · rcases settled with orphaned | counted
        · rw [orphaned] at inPlay
          simp at inPlay
        · rw [counted]
          simp only [pplnsMaturityConfs] at *
          omega

def PassEvent.isPass : PassEvent → Bool
  | .tip _ => true
  | _ => false

section Runs

variable {cfg : PassConfig} {oracle : Oracle} {retentionDays : Int}

theorem passStep_spec (orderly : Orderly s)
    (stepped : passStep cfg oracle retentionDays s event = some t) :
    Orderly t ∧ ((event.isPass = true → NotStarved t) ↔
      (event.isPass = true → Served t.chain s.conn.db)) := by
  cases event with
  | found height hash rewardSats feeSats refused window =>
    simp only [passStep, Option.ite_none_right_eq_some, Option.some.injEq] at stepped
    obtain ⟨digits, rfl⟩ := stepped
    exact ⟨(orderly.stored.found digits _ _ _ _ _).orderly orderly.asked, by
      simp [PassEvent.isPass]⟩
  | template row =>
    simp only [passStep, Option.some.injEq] at stepped
    subst stepped
    exact ⟨(orderly.stored.template retentionDays row).orderly orderly.asked, by
      simp [PassEvent.isPass]⟩
  | tip hash =>
    simp only [passStep] at stepped
    split at stepped
    next digits =>
      have tip : 0 < (s.chain.extend hash digits).tipHeight := by
        have some := List.length_pos_of_ne_nil s.chain.nonempty
        simp only [Chain.tipHeight, Chain.extend, List.length_append, List.length_singleton]
        omega
      cases ran : reconcileBlocksPass cfg oracle (answer (s.chain.extend hash digits))
          (s.chain.extend hash digits).tipHeight s.gbh s.conn with
      | mk result rest =>
        obtain ⟨gbh, after⟩ := rest
        obtain ⟨kept, g, judges, rows⟩ :=
          reconcileBlocksPass_spec orderly.stored orderly.asked tip ran
        rw [ran] at stepped
        cases stepped
        refine ⟨kept, ?_⟩
        simp only [PassEvent.isPass, forall_const, orderly.stored.db]
        exact notStarved_iff_served judges rows after kept.stored.db gbh
    · cases stepped

end Runs

/-- In every run, all rows twice as deep as maturity asks for are recorded as mature
after every pass exactly when, at every pass, no such row that is still unresolved
has sixteen unresolved rows ahead of it. -/
theorem maturity_reached_iff (cfg : PassConfig) (oracle : Oracle) (retentionDays : Int)
    (chain : Chain) (db : Db) (fresh : db.blocksFound.rows = []) (events : List PassEvent) :
    Along (passStep cfg oracle retentionDays) (fun _ event t => event.isPass = true → NotStarved t)
        ⟨chain, ⟨db, none, 0⟩, .notAsked⟩ events ↔
      Along (passStep cfg oracle retentionDays) (fun s event t => event.isPass = true →
        Served t.chain s.conn.db)
        ⟨chain, ⟨db, none, 0⟩, .notAsked⟩ events := by
  have initial : Orderly ⟨chain, ⟨db, none, 0⟩, .notAsked⟩ := by
    constructor
    · rfl
    · simp [fresh]
    · simp [fresh]
    · simp [fresh]
    · nofun
  apply along_iff_of_invariant ?_ initial
  intro s event t orderly stepped
  exact passStep_spec orderly stepped

section Busy

/-- A 64-digit name for the block at a height. -/
def blockName (height : Nat) : String :=
  String.ofList ((List.range hashDigits).map fun i => if height.testBit i then '1' else '0')

theorem blockName_digits (height : Nat) : (blockName height).toList.length = hashDigits := by
  simp [blockName]

theorem blockName_inj {a b : Nat} (small : a < 2 ^ 64) (small' : b < 2 ^ 64)
    (same : blockName a = blockName b) : a = b := by
  have digits := List.map_inj_left.mp (String.ofList_injective same)
  apply Nat.eq_of_testBit_eq
  intro i
  by_cases low : i < hashDigits
  · have digit := digits i (List.mem_range.mpr low)
    cases ha : a.testBit i <;> cases hb : b.testBit i <;> simp [ha, hb] at digit ⊢
  · have high : 2 ^ 64 ≤ 2 ^ i := Nat.pow_le_pow_right (by decide) (by simpa [hashDigits] using low)
    rw [Nat.testBit_lt_two_pow (small.trans_le high), Nat.testBit_lt_two_pow (small'.trans_le high)]

def genesis : Chain :=
  ⟨[blockName 0], by simp, by simp [blockName_digits]⟩

/-- A pool that finds every block of the chain, `n` times in a row. -/
def busyEvents : Nat → List PassEvent
  | 0 => []
  | n + 1 => busyEvents n ++
    [.found (n + 1 : Nat) (blockName (n + 1)) 5000000000 0 false 1, .tip (blockName (n + 1))]

/-- The row of every height up to `n` is in play, and none is recorded deeper than a
batch; the chain reaches up to `tip`. -/
structure Busy (n tip : Nat) (s : PassState) : Prop where
  orderly : Orderly s
  blocks : s.chain.blocks = (List.range (tip + 1)).map blockName
  heights : s.conn.committed.blocksFound.rows.map BlockFound.height =
    (List.range n).map (fun i => ((i + 1 : Nat) : Int))
  named : ∀ row ∈ s.conn.committed.blocksFound.rows, row.hash = blockName row.height.toNat
  shallow : ∀ row ∈ s.conn.committed.blocksFound.rows,
    (row.status = .pending ∨ row.status = .confirmed) ∧ row.confirmations ≤ 16

theorem Busy.height_le (busy : Busy n tip s) (member : row ∈ s.conn.committed.blocksFound.rows) :
    0 < row.height ∧ row.height ≤ n := by
  have known : row.height ∈ (List.range n).map (fun i => ((i + 1 : Nat) : Int)) :=
    busy.heights ▸ List.mem_map_of_mem member
  obtain ⟨i, range, height⟩ := List.mem_map.mp known
  rw [List.mem_range] at range
  omega

variable {cfg : PassConfig} {oracle : Oracle} {retentionDays : Int}

theorem answer_busy {chain : Chain} {height : Int}
    (blocks : chain.blocks = (List.range (n + 1)).map blockName)
    (low : 0 ≤ height) (high : height ≤ n) :
    answer chain height = .ok (blockName height.toNat) := by
  have bound : height.toNat < n + 1 := by omega
  rw [answer, if_neg (not_lt.mpr low), blocks, List.getElem?_map, List.getElem?_range bound]
  rfl

/-- The listing takes every row in. -/
theorem Busy.listed {tipHeight : Int} (busy : Busy n tip s) (reached : n ≤ tipHeight)
    (member : row ∈ s.conn.committed.blocksFound.rows) :
    unresolved tipHeight blockFinalDepth row = true := by
  obtain ⟨inPlay, confirmations⟩ := busy.shallow row member
  have young : row.confirmations < blockFinalDepth := lt_of_le_of_lt confirmations (by decide)
  simp only [unresolved, Bool.and_eq_true, Bool.or_eq_true, decide_eq_true_eq]
  exact ⟨⟨inPlay, young⟩, (busy.height_le member).2.trans reached⟩

theorem sub_le_countP_above {height : Int} (nonneg : 0 ≤ height) (n : Nat) :
    n - height ≤ ((List.range n).map (fun i => ((i + 1 : Nat) : Int))).countP
      (fun other => decide (height < other)) := by
  induction n with
  | zero => simpa using nonneg
  | succ n ih =>
    rw [List.range_succ, List.map_append, List.countP_append, List.map_singleton,
      List.countP_singleton]
    split <;> simp_all <;> omega

/-- Every row above `row` is ahead of it. -/
theorem Busy.le_ahead (busy : Busy n tip s) (member : row ∈ s.conn.committed.blocksFound.rows) :
    (n : Int) - row.height ≤ ahead n s.conn.committed row := by
  have above :
    s.conn.committed.blocksFound.rows.countP (fun other => decide (row.height < other.height)) ≤
      ahead n s.conn.committed row := by
    apply List.countP_mono_left
    intro other member higher
    rw [busy.listed le_rfl member, Bool.true_and, newer, Bool.or_eq_true]
    exact Or.inl higher
  have total := sub_le_countP_above (busy.height_le member).1.le n
  rw [← busy.heights, List.countP_map] at total
  simp only [Function.comp_def] at total
  omega

/-- The candidate goes in, under a hash no earlier row has. -/
theorem busy_found (busy : Busy n n s) (small : n + 1 < 2 ^ 64) :
    ∃ t, passStep cfg oracle retentionDays s
      (.found (n + 1 : Nat) (blockName (n + 1)) 5000000000 0 false 1) = some t ∧
      Busy (n + 1) n t := by
  have digits : (blockName (n + 1)).toList.length ≤ hashDigits := (blockName_digits _).le
  have whole : buffer hashStrMax (blockName (n + 1)) = blockName (n + 1) :=
    buffer_eq (lt_of_le_of_lt digits (by decide))
  let found :=
    s.conn.write (storeRecordBlock (n + 1 : Nat) (blockName (n + 1)) 5000000000 0 .pending 1)
  have written :
    found.committed = storeRecordBlock (n + 1 : Nat) (blockName (n + 1)) 5000000000 0 .pending 1
      s.conn.committed := by
    simp only [found, Connection.write, busy.orderly.closed]
  obtain ⟨row, rows, height, named, status, confirmations⟩ :
      ∃ row, found.committed.blocksFound.rows = s.conn.committed.blocksFound.rows ++ [row] ∧
        row.height = ((n + 1 : Nat) : Int) ∧ row.hash = blockName (n + 1) ∧ row.status = .pending ∧
        row.confirmations = 0 := by
    rw [written]
    rcases storeRecordBlock_rows (n + 1 : Nat) (blockName (n + 1)) 5000000000 0 .pending 1
      s.conn.committed with ⟨_, low | taken⟩ | ⟨row, rows, _, height, named, _, status,
        confirmations⟩
    · omega
    · obtain ⟨old, member, same⟩ := List.mem_map.mp taken
      rw [whole, busy.named old member] at same
      obtain ⟨low, high⟩ := busy.height_le member
      have index := blockName_inj (by omega) small same
      omega
    · exact ⟨row, rows, height, named.trans whole, status, confirmations⟩
  refine ⟨{ s with conn := found }, ?_, ?_⟩
  · simp only [passStep, digits, if_true, Bool.false_eq_true, if_false, found]
  · constructor
    · exact (busy.orderly.stored.found digits _ _ _ _ _).orderly busy.orderly.asked
    · exact busy.blocks
    · rw [rows, List.map_append, busy.heights, List.map_singleton, height, List.range_succ,
        List.map_append, List.map_singleton]
    · intro known member
      rw [rows] at member
      rcases List.mem_append.mp member with old | new
      · exact busy.named known old
      · obtain rfl := List.mem_singleton.mp new
        rw [named, height, Int.toNat_natCast]
    · intro known member
      rw [rows] at member
      rcases List.mem_append.mp member with old | new
      · exact busy.shallow known old
      · obtain rfl := List.mem_singleton.mp new
        exact ⟨Or.inl status, by omega⟩

/-- The pass reaches the newest sixteen rows and records their depth, sixteen at most. -/
theorem busy_tip (busy : Busy (n + 1) n s) :
    ∃ t, passStep cfg oracle retentionDays s (.tip (blockName (n + 1))) = some t ∧
    Busy (n + 1) (n + 1) t := by
  have digits : (blockName (n + 1)).toList.length ≤ hashDigits := (blockName_digits _).le
  let chain := s.chain.extend (blockName (n + 1)) digits
  have blocks : chain.blocks = (List.range (n + 1 + 1)).map blockName := by
    rw [List.range_succ, List.map_append, ← busy.blocks]
    rfl
  have tip : chain.tipHeight = (n + 1 : Nat) := by simp [Chain.tipHeight, blocks]
  cases ran : reconcileBlocksPass cfg oracle (answer chain) chain.tipHeight s.gbh s.conn with
  | mk result rest =>
    obtain ⟨gbh, after⟩ := rest
    obtain ⟨kept, g, judges, rows⟩ :=
      reconcileBlocksPass_spec busy.orderly.stored busy.orderly.asked (by omega) ran
    have judged : ∀ row ∈ s.conn.committed.blocksFound.rows,
        ((g row).status = .pending ∨ (g row).status = .confirmed) ∧ (g row).confirmations ≤ 16 := by
      intro row member
      obtain ⟨low, high⟩ := busy.height_le member
      by_cases inside : row ∈ batch chain.tipHeight s.conn.committed
      · have standing : onChain chain row = true := by
          rw [onChain, answer_busy blocks low.le high, busy.named row member]
          simp [sameHash]
        have few := ((mem_batch_iff member).mp inside).2
        have many := busy.le_ahead member
        rw [judges.asked row member inside]
        simp only [verdict, standing, if_true, depth, tip, reconcileMaxPerTick] at few ⊢
        exact ⟨Or.inr trivial, by omega⟩
      · rcases judges.left row member inside with same | ⟨none, _⟩
        · rw [same]
          exact busy.shallow row member
        · have unsettled := batch_eq_nil_iff.mp none row member
          rw [busy.listed tip.ge member] at unsettled
          cases unsettled
    have origin : ∀ row ∈ after.committed.blocksFound.rows,
        ∃ old ∈ s.conn.committed.blocksFound.rows, unlatch (g old) = unlatch row := by
      intro row member
      obtain ⟨seen, seenMember, same⟩ := (mem_of_unlatched rows).1 row member
      obtain ⟨old, known, rfl⟩ := List.mem_map.mp seenMember
      exact ⟨old, known, same⟩
    refine ⟨⟨chain, after, gbh⟩, ?_, ?_⟩
    · simp only [passStep, digits, dite_true]
      rw [show reconcileBlocksPass cfg oracle (answer (s.chain.extend (blockName (n + 1)) digits))
        (s.chain.extend (blockName (n + 1)) digits).tipHeight s.gbh s.conn =
          (result, gbh, after) from ran]
    · constructor
      · exact kept
      · exact blocks
      · have shown := congrArg (List.map BlockFound.height) rows
        rw [← busy.heights]
        simpa only [unlatched, List.map_map, Function.comp_def, unlatch, judges.height] using shown
      · intro row member
        obtain ⟨old, known, same⟩ := origin row member
        obtain ⟨_, _, hash, height, _⟩ := onChain_unlatch same
        rw [← hash, ← height, judges.hash, judges.height]
        exact busy.named old known
      · intro row member
        obtain ⟨old, known, same⟩ := origin row member
        obtain ⟨status, confirmations, _⟩ := onChain_unlatch same
        rw [← status, ← confirmations]
        exact judged old known

theorem orderly_empty (chain : Chain) : Orderly ⟨chain, ⟨.empty, none, 0⟩, .notAsked⟩ where
  closed := rfl
  distinct := List.nodup_nil
  sized := List.forall_mem_nil _
  positive := List.forall_mem_nil _
  asked := nofun

theorem busy_start {chain : Chain} (blocks : chain.blocks = [blockName 0]) :
    Busy 0 0 ⟨chain, ⟨.empty, none, 0⟩, .notAsked⟩ where
  orderly := orderly_empty chain
  blocks := blocks
  heights := rfl
  named := List.forall_mem_nil _
  shallow := List.forall_mem_nil _

theorem busy_run (n : Nat) (small : n < 2 ^ 64) :
    ∃ t, run (passStep cfg oracle retentionDays) ⟨genesis, ⟨.empty, none, 0⟩, .notAsked⟩
      (busyEvents n) = some t ∧ Busy n n t := by
  induction n with
  | zero => exact ⟨_, rfl, busy_start rfl⟩
  | succ n ih =>
    obtain ⟨s, reached, busy⟩ := ih (by omega)
    obtain ⟨mid, found, busy⟩ := busy_found busy small
    obtain ⟨t, stepped, busy⟩ := busy_tip busy
    refine ⟨t, ?_, busy⟩
    rw [busyEvents, run_append, reached, Option.bind_some, run, found, Option.bind_some, run,
      stepped, Option.bind_some, run]

instance (chain : Chain) (db : Db) : Decidable (Served chain db) :=
  inferInstanceAs (Decidable (∀ row ∈ _, _ → _ → _ → _))

/-- The pool finds the first block, and the chain grows on without it. -/
def quietEvents (n : Nat) : List PassEvent :=
  .found 1 "1" 5000000000 0 false 1 :: (List.range' 1 n).map fun height => .tip (toString height)

/-- The only block in play matures, and is then twice as deep as that asks for. -/
theorem maturity_reached_quiet :
    Along (passStep ⟨true, 100⟩ .served 30) (fun _ event t => event.isPass = true → NotStarved t)
      ⟨genesis, ⟨.empty, none, 0⟩, .notAsked⟩ (quietEvents 201) ∧
    ∃ t ∈ run (passStep ⟨true, 100⟩ .served 30)
      ⟨genesis, ⟨.empty, none, 0⟩, .notAsked⟩ (quietEvents 201),
      ∃ row ∈ t.conn.committed.blocksFound.rows, row.status = .confirmed ∧
      onChain t.chain row = true ∧
        2 * pplnsMaturityConfs ≤ depth t.chain row ∧ row.confirmations = 100 := by
  rw [maturity_reached_iff ⟨true, 100⟩ .served 30 genesis .empty rfl]
  exact ⟨by decide +kernel, by decide +kernel⟩

/-- After two hundred such blocks the first is twice as deep as maturity asks for, and
no pass has looked at it since it was sixteen deep. -/
theorem maturity_starved : ∃ t, run (passStep ⟨true, 100⟩ .served 30)
    ⟨genesis, ⟨.empty, none, 0⟩, .notAsked⟩ (busyEvents 200) = some t ∧ ¬ NotStarved t := by
  obtain ⟨t, reached, busy⟩ := busy_run 200 (by norm_num)
  refine ⟨t, reached, fun notStarved => ?_⟩
  have first : (1 : Int) ∈ t.conn.committed.blocksFound.rows.map BlockFound.height := by
    rw [busy.heights]
    exact List.mem_map.mpr ⟨0, by simp, by simp⟩
  obtain ⟨row, member, height⟩ := List.mem_map.mp first
  obtain ⟨inPlay, shallow⟩ := busy.shallow row member
  have standing : onChain t.chain row = true := by
    rw [onChain, answer_busy busy.blocks (by omega) (by omega), busy.named row member]
    simp [sameHash]
  have view : t.conn.db = t.conn.committed := by
    rw [Connection.db, busy.orderly.closed, Option.getD_none]
  have deep : 2 * pplnsMaturityConfs ≤ depth t.chain row := by
    simp [depth, Chain.tipHeight, busy.blocks, height, pplnsMaturityConfs]
  have mature := notStarved row (view ▸ member) inPlay standing deep
  simp only [pplnsMaturityConfs] at mature
  omega

end Busy

end SimplePool.Reconcile
