import SimplePool.Lib.Proportion
import SimplePool.Store.DistributeOnce

/-! What the credits of a distributed block add up to. Rounding keeps a few satoshis
back; a block whose own share never reached the table keeps everything back. -/
namespace SimplePool.Store
open RunningWindow Proportion

/-- Some work at or before the block's own share. -/
def Worked (shares : ShareTable) (hash : String) : Prop :=
  ∃ own ∈ shares.rows, own.blockHash = some hash ∧ ∃ row ∈ shares.rows, row.id ≤ own.id ∧
  0 < row.difficulty

def workers (shares : ShareTable) : List Nat := (shares.rows.map Share.workerId).dedup

theorem running_positive (acc : ℚ) {items : List Share} (nonneg : ∀ row ∈ items, 0 ≤ row.difficulty)
    (worked : ∃ row ∈ items, 0 < row.difficulty) (open_ : acc < window) :
    ∃ entry ∈ running Share.difficulty acc items, entry.2 - entry.1.difficulty < window ∧
    0 < entry.1.difficulty := by
  induction items with
  | nil =>
    obtain ⟨row, member, _⟩ := worked
    cases member
  | cons first rest ih =>
    by_cases here : 0 < first.difficulty
    · refine ⟨(first, acc + first.difficulty), List.mem_cons_self, ?_, here⟩
      dsimp only
      linarith
    · have idle : first.difficulty = 0 :=
        le_antisymm (not_lt.mp here) (nonneg first List.mem_cons_self)
      have later : ∃ row ∈ rest, 0 < row.difficulty := by
        obtain ⟨row, member, positive⟩ := worked
        rcases List.mem_cons.mp member with rfl | inside
        · exact absurd positive here
        · exact ⟨row, inside, positive⟩
      obtain ⟨entry, member, found⟩ :=
        ih (fun row member => nonneg row (List.mem_cons_of_mem _ member)) later
      refine ⟨entry, ?_, found⟩
      rw [running, idle, add_zero]
      exact List.mem_cons_of_mem _ member

theorem mem_anchoredRows {hash : String} (member : row ∈ anchoredRows shares hash window) :
    row ∈ shares.rows ∧ ∃ own ∈ shares.rows, own.blockHash = some hash ∧ row.id ≤ own.id := by
  rw [anchoredRows] at member
  cases anchor : anchorId shares hash with
  | none =>
    rw [anchor] at member
    cases member
  | some top =>
    rw [anchor] at member
    obtain ⟨entry, inside, rfl⟩ := List.mem_map.mp member
    have listed : entry.1 ∈ (running Share.difficulty 0
          (shares.newest.filter fun row => row.id ≤ top)).map Prod.fst :=
      List.mem_map_of_mem (List.mem_of_mem_filter inside)
    rw [map_fst_running, List.mem_filter, decide_eq_true_eq, ShareTable.newest,
      List.mem_reverse] at listed
    obtain ⟨top_mem, _⟩ := List.max?_eq_some_iff.mp anchor
    obtain ⟨own, found, same⟩ := List.mem_map.mp top_mem
    obtain ⟨known, named⟩ := List.mem_filter.mp found
    exact ⟨listed.1, own, known, of_decide_eq_true named, same ▸ listed.2⟩

/-- The window holds work exactly when there was some to hold. -/
theorem anchoredRows_worked {hash : String} (nonneg : ∀ row ∈ shares.rows, 0 ≤ row.difficulty)
    (open_ : 0 < window) :
    (∃ row ∈ anchoredRows shares hash window, 0 < row.difficulty) ↔ Worked shares hash := by
  constructor
  · rintro ⟨row, member, positive⟩
    obtain ⟨known, own, there, named, before⟩ := mem_anchoredRows member
    exact ⟨own, there, named, row, known, before, positive⟩
  · rintro ⟨own, there, named, row, known, before, positive⟩
    have anchored :
        own.id ∈ (shares.rows.filter fun row => row.blockHash = some hash).map Share.id :=
      List.mem_map_of_mem (List.mem_filter.mpr ⟨there, decide_eq_true named⟩)
    cases anchor : anchorId shares hash with
    | none =>
      rw [anchorId, List.max?_eq_none_iff] at anchor
      rw [anchor] at anchored
      cases anchored
    | some top =>
      have highest := (List.max?_eq_some_iff.mp anchor).2 own.id anchored
      have below : row ∈ shares.newest.filter fun row => row.id ≤ top := by
        rw [List.mem_filter, decide_eq_true_eq, ShareTable.newest, List.mem_reverse]
        exact ⟨known, before.trans highest⟩
      obtain ⟨entry, member, inside, work⟩ := running_positive 0
        (fun row member => nonneg row (List.mem_reverse.mp (List.mem_of_mem_filter member)))
          ⟨row, below, positive⟩ open_
      refine ⟨entry.1, ?_, work⟩
      rw [anchoredRows, anchor]
      exact List.mem_map_of_mem (List.mem_filter.mpr ⟨member, decide_eq_true inside⟩)

def totalSats (credits : List Credit) : Int := (credits.map Credit.sats).sum

/-- A row without work, or whose share rounds to nothing, is not credited. -/
theorem creditOf_sats (blockId : Nat) (amount : Int) (nonneg : 0 ≤ row.wd)
    (positive : 0 < row.total) (amount_nonneg : 0 ≤ amount) :
    ((creditOf blockId amount row).map Credit.sats).getD 0 =
      share (amount : ℚ) row.total row.wd := by
  have share_nonneg : 0 ≤ share (amount : ℚ) row.total row.wd :=
    share_nonneg (by exact_mod_cast amount_nonneg) positive.le nonneg
  by_cases idle : 0 < row.wd
  · rw [creditOf, if_neg (by simp [idle, positive])]
    dsimp only
    rw [← share]
    split
    next nothing => exact le_antisymm share_nonneg nothing
    next => rfl
  · have none : row.wd = 0 := le_antisymm (not_lt.mp idle) nonneg
    rw [creditOf, if_pos (.inr idle), share, none]
    simp

theorem totalSats_filterMap {rows : List WindowRow} (blockId : Nat) (amount : Int)
    (f : WindowRow → Int)
    (each : ∀ row ∈ rows, ((creditOf blockId amount row).map Credit.sats).getD 0 = f row) :
    totalSats (rows.filterMap (creditOf blockId amount)) = (rows.map f).sum := by
  induction rows with
  | nil => rfl
  | cons row rest ih =>
    have here := each row List.mem_cons_self
    have later := ih fun other member => each other (List.mem_cons_of_mem _ member)
    rw [totalSats] at later ⊢
    rw [List.filterMap_cons, List.map_cons, List.sum_cons, ← here]
    cases creditOf blockId amount row with
    | none => simpa using later
    | some credit => simpa using later

theorem difficultySum_nonneg {rows : List Share} (nonneg : ∀ row ∈ rows, 0 ≤ row.difficulty) :
    0 ≤ difficultySum rows := by
  apply List.sum_nonneg
  intro x member
  obtain ⟨row, inside, rfl⟩ := List.mem_map.mp member
  exact nonneg row inside

theorem difficultySum_pos {rows : List Share} (nonneg : ∀ row ∈ rows, 0 ≤ row.difficulty) :
    0 < difficultySum rows ↔ ∃ row ∈ rows, 0 < row.difficulty := by
  constructor
  · intro positive
    by_contra idle
    have zero : difficultySum rows = 0 := by
      apply List.sum_eq_zero
      intro x member
      obtain ⟨row, inside, rfl⟩ := List.mem_map.mp member
      exact le_antisymm (not_lt.mp fun work => idle ⟨row, inside, work⟩) (nonneg row inside)
    exact positive.ne' zero
  · rintro ⟨row, member, positive⟩
    have single : row.difficulty ≤ difficultySum rows := by
      apply List.single_le_sum
      · intro x inside
        obtain ⟨other, there, rfl⟩ := List.mem_map.mp inside
        exact nonneg other there
      · exact List.mem_map_of_mem member
    exact lt_of_lt_of_le positive single

/-- With work in the window, the groups share the whole amount. -/
theorem window_shares {rows : List Share} (blockId : Nat) {amount : Int}
    (amount_nonneg : 0 ≤ amount)
    (nonneg : ∀ row ∈ rows, 0 ≤ row.difficulty) (worked : ∃ row ∈ rows, 0 < row.difficulty) :
    totalSats ((groupByWorker rows).filterMap (creditOf blockId amount)) ≤ amount ∧
      amount < totalSats ((groupByWorker rows).filterMap (creditOf blockId amount)) +
        (rows.map Share.workerId).dedup.length := by
  have positive := (difficultySum_pos nonneg).mpr worked
  have weights : ((rows.map Share.workerId).dedup.map fun workerId =>
      difficultySum (rows.filter fun row => row.workerId = workerId)).sum = difficultySum rows :=
    sum_groups (List.nodup_dedup _) fun row member =>
      List.mem_dedup.mpr (List.mem_map_of_mem member)
  have sum : totalSats ((groupByWorker rows).filterMap (creditOf blockId amount)) =
      (((rows.map Share.workerId).dedup.map fun workerId =>
        difficultySum (rows.filter fun row => row.workerId = workerId)).map
          (share (amount : ℚ) (difficultySum rows))).sum := by
    rw [totalSats_filterMap blockId amount (fun row => share (amount : ℚ) row.total row.wd),
      groupByWorker, List.map_map, List.map_map]
    · rfl
    · intro row member
      obtain ⟨workerId, _, rfl⟩ := List.mem_map.mp member
      exact creditOf_sats blockId amount (difficultySum_nonneg fun other inside =>
        nonneg other (List.mem_of_mem_filter inside))
        positive amount_nonneg
  have someone : ((rows.map Share.workerId).dedup.map fun workerId =>
      difficultySum (rows.filter fun row => row.workerId = workerId)) ≠ [] := by
    obtain ⟨row, member, _⟩ := worked
    have here : row.workerId ∈ (rows.map Share.workerId).dedup :=
      List.mem_dedup.mpr (List.mem_map_of_mem member)
    intro empty
    rw [List.map_eq_nil_iff] at empty
    rw [empty] at here
    cases here
  obtain ⟨below, above⟩ := sum_share (amount : ℚ) someone (by rw [weights]; exact positive.ne')
  rw [weights, ← sum] at below above
  rw [List.length_map] at above
  exact ⟨by exact_mod_cast below, by exact_mod_cast above⟩

/-- Without work in the window nobody is credited. -/
theorem window_idle {rows : List Share} (blockId : Nat) (amount : Int)
    (nonneg : ∀ row ∈ rows, 0 ≤ row.difficulty) (idle : ¬∃ row ∈ rows, 0 < row.difficulty) :
    (groupByWorker rows).filterMap (creditOf blockId amount) = [] := by
  rw [List.filterMap_eq_nil_iff]
  intro row member
  obtain ⟨workerId, _, rfl⟩ := List.mem_map.mp member
  rw [creditOf, if_pos (.inl fun positive => idle ((difficultySum_pos nonneg).mp positive))]

/-- A positive reward is shared out to the last few satoshis, exactly when there was work
to share it by, or it is smaller than the number of workers anyway. -/
theorem split_conserves_iff {row : BlockFound}
    (nonneg : ∀ share ∈ shares.rows, 0 ≤ share.difficulty)
    (open_ : 0 < row.pplnsWindowDiff) (positive : 0 < payable (gross row) feeBps) :
    (totalSats (split shares row feeBps) ≤ payable (gross row) feeBps ∧
        payable (gross row) feeBps - (workers shares).length <
          totalSats (split shares row feeBps)) ↔
      Worked shares (buffer hashStrMax row.hash) ∨
      payable (gross row) feeBps < (workers shares).length := by
  have window_nonneg :
      ∀ share ∈ anchoredRows shares (buffer hashStrMax row.hash) row.pplnsWindowDiff,
      0 ≤ share.difficulty :=
    fun share member => nonneg share (mem_anchoredRows member).1
  rw [← anchoredRows_worked nonneg open_, split, if_neg (not_le.mpr positive), windowQuery]
  by_cases worked : ∃ share ∈ anchoredRows shares (buffer hashStrMax row.hash) row.pplnsWindowDiff,
    0 < share.difficulty
  · obtain ⟨below, above⟩ := window_shares row.id positive.le window_nonneg worked
    have fewer : ((anchoredRows shares (buffer hashStrMax row.hash) row.pplnsWindowDiff).map
      Share.workerId).dedup.length ≤
        (workers shares).length := by
      apply (List.nodup_dedup _).length_le_of_subset
      intro workerId member
      obtain ⟨share, inside, rfl⟩ := List.mem_map.mp (List.mem_dedup.mp member)
      exact List.mem_dedup.mpr (List.mem_map_of_mem (mem_anchoredRows inside).1)
    exact iff_of_true ⟨below, by omega⟩ (.inl worked)
  · rw [window_idle row.id _ window_nonneg worked]
    simp only [totalSats, List.map_nil, List.sum_nil, worked, false_or]
    omega

/-- The effect of distributing these blocks. -/
def settleAll (feeBps : Int) (rows : List BlockFound) (db : Db) : Db :=
  rows.foldl (fun db row => settle row feeBps db) db

section Pass

variable {oracle : Oracle} (reads : ∀ position, oracle (.step .window) position = .served)
include reads

/-- The loop distributes some of the due blocks, in their order. -/
theorem distributeLoop_settles (closed : c.working = none)
    (looped : distributeLoop oracle feeBps c out rows = (result, after)) :
    ∃ done, done.Sublist rows ∧ after.committed = settleAll feeBps done c.committed := by
  induction rows generalizing c out with
  | nil =>
    rw [distributeLoop] at looped
    cases asked : c.ask oracle (.step .due) with
    | mk outcome mid =>
      rw [asked] at looped
      cases looped
      exact ⟨[], List.Sublist.refl _, ask_committed asked⟩
  | cons row rest ih =>
    rw [distributeLoop] at looped
    split at looped
    next mid stepped =>
      obtain ⟨committed, working⟩ := ask_served stepped
      cases ran : distributeBlock oracle feeBps row mid with
      | mk block final =>
        obtain ⟨still, outcome⟩ := distributeBlock_spec reads (working.trans closed) ran
        rw [committed] at outcome
        have extend :
          ∀ done, done.Sublist rest → after.committed = settleAll feeBps done final.committed →
            ∃ done, done.Sublist (row :: rest) ∧
            after.committed = settleAll feeBps done c.committed := by
          intro done part effect
          rcases outcome with same | settled
          · exact ⟨done, part.cons _, by rw [effect, same]⟩
          · exact ⟨row :: done, part.cons_cons _, by rw [effect, settled]; rfl⟩
        rw [ran] at looped
        cases block with
        | nothingToShare =>
          obtain ⟨done, part, effect⟩ := ih still looped
          exact extend done part effect
        | distributed workers =>
          obtain ⟨done, part, effect⟩ := ih still looped
          exact extend done part effect
        | failed =>
          cases looped
          exact extend [] (List.nil_sublist _) rfl
    next mid stepped =>
      cases looped
      exact ⟨[], List.nil_sublist _, ask_committed stepped⟩

theorem storePplnsDistribute_settles (closed : c.working = none)
    (ran : storePplnsDistribute oracle maturityConfs feeBps c = (result, after)) :
    ∃ done, done.Sublist (dueQuery c.committed (max maturityConfs 0)) ∧
    after.committed = settleAll feeBps done c.committed := by
  rw [storePplnsDistribute] at ran
  split at ran
  next mid prepared =>
    obtain ⟨committed, working⟩ := ask_served prepared
    have view : mid.db = mid.committed := by
      simp only [Connection.db, working, closed, Option.getD_none]
    rw [view, committed] at ran
    obtain ⟨done, part, effect⟩ := distributeLoop_settles reads (working.trans closed) ran
    exact ⟨done, part, committed ▸ effect⟩
  next mid prepared =>
    cases ran
    exact ⟨[], List.nil_sublist _, ask_committed prepared⟩

end Pass

/-- Each block is credited its own split, once. -/
theorem settleAll_creditsOf {rows : List BlockFound} (distinct : (rows.map BlockFound.id).Nodup)
    (blockId : Nat) (db : Db) :
    (∀ row ∈ rows, row.id = blockId →
      creditsOf (settleAll feeBps rows db) blockId = creditsOf db blockId ++
        split db.shares row feeBps) ∧
    ((∀ row ∈ rows, row.id ≠ blockId) → creditsOf (settleAll feeBps rows db) blockId =
      creditsOf db blockId) := by
  induction rows generalizing db with
  | nil => exact ⟨by simp, fun _ => rfl⟩
  | cons first rest ih =>
    obtain ⟨apart, distinct⟩ := List.nodup_cons.mp distinct
    obtain ⟨one, none⟩ := ih distinct (settle first feeBps db)
    have step := creditsOf_settle db first feeBps blockId
    rw [settle_shares] at one
    constructor
    · intro row member same
      rcases List.mem_cons.mp member with rfl | later
      · rw [if_pos same.symm] at step
        rw [← step]
        apply none
        rintro other inside rfl
        exact apart (same ▸ List.mem_map_of_mem inside)
      · have other : blockId ≠ first.id := by
          rintro rfl
          exact apart (same ▸ List.mem_map_of_mem later)
        rw [if_neg other, List.append_nil] at step
        rw [← step]
        exact one row later same
    · intro away
      rw [if_neg (away first List.mem_cons_self).symm, List.append_nil] at step
      rw [← step]
      exact none fun row member => away row (List.mem_cons_of_mem _ member)

/-- A block that is not among them keeps its row. -/
theorem settleAll_mem (feeBps : Int) {rows : List BlockFound} {row : BlockFound}
    (known : row ∈ db.blocksFound.rows) (away : ∀ other ∈ rows, other.id ≠ row.id) :
    row ∈ (settleAll feeBps rows db).blocksFound.rows := by
  induction rows generalizing db with
  | nil => exact known
  | cons first rest ih =>
    refine ih ?_ fun other member => away other (List.mem_cons_of_mem _ member)
    exact (mem_settle_iff db first feeBps row).mpr ⟨row, known,
      if_neg (away first List.mem_cons_self).symm⟩

/-- When a pass latches a row with something to pay, the credits it wrote for it conserve
the reward exactly when there was work at or before the block's own share, or fewer
satoshis than workers. Any call but a step of the window query may fail. -/
theorem latched_conserves_iff {oracle : Oracle}
    (reads : ∀ position, oracle (.step .window) position = .served)
    {row : BlockFound} (closed : c.working = none)
    (nonneg : ∀ share ∈ c.committed.shares.rows, 0 ≤ share.difficulty)
    (ran : storePplnsDistribute oracle maturityConfs feeBps c = (result, after))
    (known : row ∈ c.committed.blocksFound.rows) (clear : row.pplnsDistributed = false)
    (latched : ∃ other ∈ after.committed.blocksFound.rows, other.id = row.id ∧
      other.pplnsDistributed = true)
    (positive : 0 < payable (gross row) feeBps) :
    ∃ written, creditsOf after.committed row.id = creditsOf c.committed row.id ++ written ∧
      ((totalSats written ≤ payable (gross row) feeBps ∧
          payable (gross row) feeBps - (workers c.committed.shares).length < totalSats written) ↔
        Worked c.committed.shares (buffer hashStrMax row.hash) ∨
          payable (gross row) feeBps < (workers c.committed.shares).length) := by
  obtain ⟨done, part, effect⟩ := storePplnsDistribute_settles reads closed ran
  obtain ⟨due_distinct, due_known⟩ := dueQuery_due c.committed (max maturityConfs 0)
  have distinct : (done.map BlockFound.id).Nodup := (part.map BlockFound.id).nodup due_distinct
  have settled : row ∈ done := by
    by_contra missing
    have away : ∀ other ∈ done, other.id ≠ row.id := by
      intro other member same
      have one :=
        c.committed.blocksFound.eq_of_id (due_known other (part.subset member)).1 known same
      exact missing (one ▸ member)
    obtain ⟨other, there, same, set⟩ := latched
    have kept := settleAll_mem feeBps known away
    rw [← effect] at kept
    rw [after.committed.blocksFound.eq_of_id there kept same, clear] at set
    contradiction
  have open_ : 0 < row.pplnsWindowDiff := by
    have due := (List.mem_insertionSort _).mp (part.subset settled)
    obtain ⟨_, asked⟩ := List.mem_filter.mp due
    exact (of_decide_eq_true asked).2.2.2
  refine ⟨split c.committed.shares row feeBps, ?_, split_conserves_iff nonneg open_ positive⟩
  rw [effect]
  exact (settleAll_creditsOf distinct row.id c.committed).1 row settled rfl

def maturedRow : BlockFound :=
  ⟨1, 10, "00ab", some 1000, none, .confirmed, 100, 2, false, some .node⟩

/-- Two equal workers share 1000 sats. -/
theorem latched_conserves_matured : ∃ result after,
    storePplnsDistribute .served 100 0 ⟨maturedDb, none, 0⟩ = (result, after) ∧ ∃ written,
      creditsOf after.committed 1 = creditsOf maturedDb 1 ++ written ∧ totalSats written ≤ 1000 ∧
      1000 - 2 < totalSats written := by
  cases ran : storePplnsDistribute .served 100 0 ⟨maturedDb, none, 0⟩ with
  | mk result after =>
    have latched : ∃ other ∈ after.committed.blocksFound.rows, other.id = maturedRow.id ∧
        other.pplnsDistributed = true := by
      have pass : ∃ other ∈
          (storePplnsDistribute .served 100 0 ⟨maturedDb, none, 0⟩).2.committed.blocksFound.rows,
          other.id = maturedRow.id ∧ other.pplnsDistributed = true := by
        decide +kernel
      rwa [ran] at pass
    have worked : Worked maturedDb.shares (buffer hashStrMax maturedRow.hash) :=
      ⟨⟨2, 2, 1, some "00ab"⟩, by simp [maturedDb], by decide +kernel,
        ⟨2, 2, 1, some "00ab"⟩, by simp [maturedDb], le_rfl, by decide +kernel⟩
    have served : ∀ position, Oracle.served (.step .window) position = .served := fun _ => rfl
    obtain ⟨written, credits, conserves⟩ := latched_conserves_iff served rfl (by decide +kernel) ran
      (show maturedRow ∈ maturedDb.blocksFound.rows by decide +kernel) rfl latched
        (by decide +kernel)
    obtain ⟨below, above⟩ := conserves.mpr (.inl worked)
    exact ⟨_, _, rfl, written, credits, below, above⟩

/-- The same table without the block's own share, which the ring had no room for. -/
def unanchoredDb : Db :=
  { maturedDb with
    shares :=
      { rows := [⟨1, 1, 1, none⟩, ⟨2, 2, 1, none⟩]
        ascending := by decide
        ranged := by decide
        sized := by decide } }

/-- The block is latched, and nobody is credited. -/
theorem unanchored_forfeits : ∃ result after,
    storePplnsDistribute .served 100 0 ⟨unanchoredDb, none, 0⟩ = (result, after) ∧
    (∃ other ∈ after.committed.blocksFound.rows, other.id = 1 ∧ other.pplnsDistributed = true) ∧
    creditsOf unanchoredDb 1 = [] ∧
    ¬(totalSats (creditsOf after.committed 1) ≤ 1000 ∧
      1000 - ((workers unanchoredDb.shares).length : Int) <
        totalSats (creditsOf after.committed 1)) := by
  refine ⟨_, _, rfl, ?_⟩
  decide +kernel

end SimplePool.Store
