import Mathlib.Data.List.Sort
import Mathlib.Data.List.Dedup
import SimplePool.Lib.RunningWindow
import SimplePool.Store.Connection

/-! The share window of store.c, in both forms the pool uses it: the windowed sum
of the distributor, anchored at a block's own share, and the batched walk of
`store_pplns_window`, anchored at the newest share. -/
namespace SimplePool.Store
open RunningWindow

/-- `SUM(difficulty) OVER (ORDER BY id DESC ROWS UNBOUNDED PRECEDING)`, cut at
`running - difficulty < window`. The rows come newest first. -/
def inWindow (window : ℚ) (rows : List Share) : List (Share × ℚ) :=
  (running Share.difficulty 0 rows).filter (fun row => row.2 - row.1.difficulty < window)

/-- One row of `Q_WINDOW`. -/
structure WindowRow where
  workerId : Nat
  wd : ℚ
  total : ℚ
deriving DecidableEq, Repr

def difficultySum (rows : List Share) : ℚ := (rows.map Share.difficulty).sum

/-- `(SELECT MAX(id) FROM shares WHERE block_hash = ?)`, NULL when there is none. -/
def anchorId (shares : ShareTable) (hash : String) : Option Nat :=
  ((shares.rows.filter (fun row => row.blockHash = some hash)).map Share.id).max?

/-- The rows `Q_WINDOW` sums over. A comparison with NULL selects nothing. -/
def anchoredRows (shares : ShareTable) (hash : String) (window : ℚ) : List Share :=
  match anchorId shares hash with
  | none => []
  | some top => (inWindow window (shares.newest.filter (fun row => row.id ≤ top))).map Prod.fst

/-- `GROUP BY worker_id`; the order of the groups is not specified by the query. -/
def groupByWorker (rows : List Share) : List WindowRow :=
  (rows.map Share.workerId).dedup.map fun workerId =>
    { workerId
      wd := difficultySum (rows.filter (fun row => row.workerId = workerId))
      total := difficultySum rows }

/-- `Q_WINDOW` of the distributor. -/
def windowQuery (shares : ShareTable) (hash : String) (window : ℚ) : List WindowRow :=
  groupByWorker (anchoredRows shares hash window)

/-- The one row of `QB`. The aggregates of an empty set are NULL, and a NULL column
is read as 0. -/
structure Boundary where
  minId : Nat
  covered : ℚ
  got : Nat
  maxId : Nat
deriving DecidableEq, Repr

def boundaryQuery (shares : ShareTable) (batch : Nat) (window : ℚ) : Boundary :=
  let rows := inWindow window (shares.newest.take batch)
  let ids := rows.map (fun row => row.1.id)
  { minId := ids.min?.getD 0
    covered := (rows.map Prod.snd).max?.getD 0
    got := rows.length
    maxId := ids.max?.getD 0 }

inductive WindowError where
  | badArg
  | windowNotPositive
  | sqlite
  /-- "pplns window walk did not cover …", with the id it stopped at. -/
  | notCovered (cutoffId : Nat) (batchLimit : Bool)
deriving DecidableEq, Repr

/-- The ids the boundary search settled on. -/
structure Walk where
  cutoffId : Nat
  topId : Nat
deriving DecidableEq, Repr

/-- The loop over batches, growing by four. Running out of fuel is `none`; the
number of the next sqlite call comes back with the answer. -/
def boundaryWalk (oracle : Oracle) (shares : ShareTable) (window : ℚ) :
    Nat → Nat → Nat → Walk → Option (Except WindowError Walk × Nat)
  | 0, _, _, _ => none
  | fuel + 1, calls, batch, walk =>
    if oracle (.step .boundary) calls ≠ .served then
      some (.error (.notCovered walk.cutoffId false), calls + 1)
    else
      let row := boundaryQuery shares batch window
      if row.got = 0 then some (.ok walk, calls + 1)
      else
        let walk : Walk := ⟨row.minId, row.maxId⟩
        if window ≤ row.covered then some (.ok walk, calls + 1)
        else if row.got < batch then some (.ok walk, calls + 1)
        else if int64Max / 4 < batch then some (.error (.notCovered walk.cutoffId true), calls + 1)
        else boundaryWalk oracle shares window fuel (calls + 1) (batch * 4) walk

def boundaryBatch : Nat := 4096

def Walk.start : Walk := ⟨0, int64Max⟩

/-- `sh.id >= ? AND sh.id <= ?`. -/
def Walk.rows (walk : Walk) (shares : ShareTable) : List Share :=
  shares.newest.filter (fun row => walk.cutoffId ≤ row.id ∧ row.id ≤ walk.topId)

/-- `store_window_entry_t`. -/
structure WindowEntry where
  workerId : Nat
  payoutAddress : String
  difficulty : ℚ
  owedFraction : ℚ
deriving DecidableEq, Repr

/-- `payout_address IS NOT NULL AND payout_address <> ''`. -/
def Worker.payable (w : Worker) : Prop := w.payoutAddress ≠ none ∧ w.payoutAddress ≠ some ""

instance (w : Worker) : Decidable w.payable := inferInstanceAs (Decidable (_ ∧ _))

/-- `sizeof out[n].payout_address`. -/
def payoutAddressSize : Nat := 128

def windowEntry (db : Db) (rows : List Share) (w : Worker) : WindowEntry :=
  { workerId := w.id
    payoutAddress := buffer payoutAddressSize (w.payoutAddress.getD "")
    difficulty := difficultySum (rows.filter (fun row => row.workerId = w.id))
    owedFraction := ((db.pplnsFractions.find? (fun f => f.workerId = w.id)).map
      PplnsFraction.owedFraction).getD 0 }

/-- A group exists only for a worker with a share; `HAVING wd > 0`. -/
def windowGroup (db : Db) (rows : List Share) (w : Worker) : Option WindowEntry :=
  if w.payable ∧ (∃ row ∈ rows, row.workerId = w.id) ∧ 0 < (windowEntry db rows w).difficulty then
    some (windowEntry db rows w)
  else none

/-- `ORDER BY wd DESC, w.id ASC`. -/
def WindowEntry.before (a b : WindowEntry) : Prop :=
  b.difficulty < a.difficulty ∨ a.difficulty = b.difficulty ∧ a.workerId ≤ b.workerId

instance (a b : WindowEntry) : Decidable (a.before b) := inferInstanceAs (Decidable (_ ∨ _))

def payeesQuery (db : Db) (walk : Walk) : List WindowEntry :=
  (db.workers.filterMap (windowGroup db (walk.rows db.shares))).insertionSort WindowEntry.before

structure PplnsWindow where
  entries : List WindowEntry
  totalDiff : ℚ
  truncated : Bool
deriving DecidableEq, Repr

/-- The loop over the result rows. A step that is not a row ends it, whatever the
reason. -/
def takeEntries (oracle : Oracle) (cap : Nat) : Nat → List WindowEntry → List WindowEntry →
    List WindowEntry × Bool
  | _, out, [] => (out, false)
  | calls, out, entry :: rest =>
    if oracle (.step .payees) calls ≠ .served then (out, false)
    else if cap ≤ out.length then (out, true)
    else takeEntries oracle cap (calls + 1) (out ++ [entry]) rest

def storePplnsWindow (oracle : Oracle) (fuel : Nat) (db : Db) (window : ℚ) (cap : Nat) :
    Option (Except WindowError PplnsWindow) :=
  if cap = 0 then some (.error .badArg)
  else if ¬ 0 < window then some (.error .windowNotPositive)
  else if oracle (.prepare .boundary) 0 ≠ .served then some (.error .sqlite)
  else
    match boundaryWalk oracle db.shares window fuel 1 boundaryBatch Walk.start with
    | none => none
    | some (.error e, _) => some (.error e)
    | some (.ok walk, calls) =>
      if oracle (.prepare .payees) calls ≠ .served then some (.error .sqlite)
      else
        let (entries, truncated) := takeEntries oracle cap (calls + 1) [] (payeesQuery db walk)
        some (.ok ⟨entries, (entries.map WindowEntry.difficulty).sum, truncated⟩)

theorem ShareTable.mem_newest (shares : ShareTable) : row ∈ shares.newest ↔ row ∈ shares.rows :=
  List.mem_reverse

theorem ShareTable.newest_descending (shares : ShareTable) :
    shares.newest.Pairwise (fun a b => b.id < a.id) :=
  List.pairwise_reverse.mpr shares.ascending

theorem inWindow_eq (positive : ∀ row ∈ rows, 0 < row.difficulty) (window : ℚ) :
    inWindow window rows = running Share.difficulty 0 (select Share.difficulty window rows) := by
  simpa only [inWindow, sub_zero] using filter_running positive 0 window

/-- A front part of a descending list is cut out by its smallest and largest id. -/
theorem filter_between_front {chosen rows : List Share} (front : chosen <+: rows)
    (descending : rows.Pairwise (fun a b => b.id < a.id))
    (low : (chosen.map Share.id).min? = some a) (high : (chosen.map Share.id).max? = some b) :
    rows.filter (fun row => a ≤ row.id ∧ row.id ≤ b) = chosen := by
  obtain ⟨rest, rfl⟩ := front
  obtain ⟨lowMember, least⟩ := List.min?_eq_some_iff.mp low
  obtain ⟨highMember, greatest⟩ := List.max?_eq_some_iff.mp high
  obtain ⟨last, lastMember, rfl⟩ := List.mem_map.mp lowMember
  have apart := (List.pairwise_append.mp descending).2.2
  have inside : chosen.filter (fun row => last.id ≤ row.id ∧ row.id ≤ b) = chosen := by
    rw [List.filter_eq_self]
    intro row member
    have id : row.id ∈ chosen.map Share.id := List.mem_map_of_mem member
    simpa only [decide_eq_true_eq] using And.intro (least _ id) (greatest _ id)
  have outside : rest.filter (fun row => last.id ≤ row.id ∧ row.id ≤ b) = [] := by
    rw [List.filter_eq_nil_iff]
    intro row member
    have below := apart last lastMember row member
    simp only [decide_eq_true_eq, not_and]
    exact fun above => absurd above (not_le.mpr below)
  rw [List.filter_append, inside, outside, List.append_nil]

section Walk

variable {shares : ShareTable} {window : ℚ} (positive : ∀ row ∈ shares.rows, 0 < row.difficulty)
include positive

theorem newest_positive : ∀ row ∈ shares.newest, 0 < row.difficulty :=
  fun row member => positive row (shares.mem_newest.mp member)

theorem taken_positive (batch : Nat) : ∀ row ∈ shares.newest.take batch, 0 < row.difficulty :=
  fun row member => newest_positive positive row (List.mem_of_mem_take member)

theorem boundaryQuery_got (batch : Nat) :
    (boundaryQuery shares batch window).got =
      (select Share.difficulty window (shares.newest.take batch)).length := by
  have rows := congrArg (List.map Prod.fst) (inWindow_eq (taken_positive positive batch) window)
  rw [map_fst_running] at rows
  simpa only [boundaryQuery, List.length_map] using congrArg List.length rows

theorem boundaryQuery_covered (batch : Nat)
    (some : select Share.difficulty window (shares.newest.take batch) = first :: rest) :
    (boundaryQuery shares batch window).covered = difficultySum (first :: rest) := by
  have nonneg : ∀ row ∈ first :: rest, 0 ≤ row.difficulty := by
    intro row member
    rw [← some] at member
    exact (taken_positive positive batch row ((select_front _ _).subset member)).le
  have largest : ((running Share.difficulty 0 (first :: rest)).map Prod.snd).max? =
      Option.some (difficultySum (first :: rest)) := by
    rw [List.max?_eq_some_iff]
    constructor
    · have last : (0 : ℚ) + _ ∈ (running Share.difficulty 0 (first :: rest)).map Prod.snd :=
        total_mem_running 0 first rest
      simpa only [difficultySum, zero_add] using last
    · intro total member
      obtain ⟨entry, entryMember, rfl⟩ := List.mem_map.mp member
      simpa only [difficultySum, zero_add] using running_upper nonneg 0 entry entryMember
  simp only [boundaryQuery, inWindow_eq (taken_positive positive batch), some, largest,
    Option.getD_some]

/-- The id range of a batch cuts exactly the window of that batch out of the table. -/
theorem boundaryQuery_rows (batch : Nat)
    (some : select Share.difficulty window (shares.newest.take batch) = first :: rest) :
    Walk.rows ⟨(boundaryQuery shares batch window).minId,
      (boundaryQuery shares batch window).maxId⟩ shares =
      first :: rest := by
  have ids : (inWindow window (shares.newest.take batch)).map (fun row => row.1.id) =
      (first :: rest).map Share.id := by
    have fsts : (running Share.difficulty 0 (first :: rest)).map Prod.fst = first :: rest :=
      map_fst_running _ _
    rw [inWindow_eq (taken_positive positive batch), some]
    simpa only [List.map_map, Function.comp_def] using congrArg (List.map Share.id) fsts
  have front : first :: rest <+: shares.newest := by
    rw [← some]
    exact (select_front _ _).trans (List.take_prefix _ _)
  obtain ⟨low, lowEq⟩ : ∃ low, ((first :: rest).map Share.id).min? = Option.some low := by
    simp [List.min?_cons]
  obtain ⟨high, highEq⟩ : ∃ high, ((first :: rest).map Share.id).max? = Option.some high := by
    simp [List.max?_cons]
  have cut := filter_between_front front shares.newest_descending lowEq highEq
  simpa only [Walk.rows, boundaryQuery, ids, lowEq, highEq, Option.getD_some] using cut

/-- Twenty batches reach past any table. A search that settles has found the window, and
only a failed step keeps it from settling. -/
theorem boundaryWalk_settles (oracle : Oracle) (opened : 0 < window) (fuel : Nat) :
    ∀ (calls batch : Nat) (walk : Walk),
    0 < batch → batch ≤ 2 ^ 50 → 2 ^ 50 < batch * 4 ^ fuel →
    ∃ answer after, boundaryWalk oracle shares window fuel calls batch walk = some (answer, after) ∧
      (∀ settled, answer = .ok settled →
        settled.rows shares = select Share.difficulty window shares.newest) ∧
      ((∀ call, oracle (.step .boundary) call = .served) → ∃ settled, answer = .ok settled) := by
  induction fuel with
  | zero =>
    intro calls batch walk _ small large
    omega
  | succ fuel ih =>
    intro calls batch walk nonempty small large
    have got : (boundaryQuery shares batch window).got = _ := boundaryQuery_got positive batch
    rw [boundaryWalk]
    split
    next failed => exact ⟨_, _, rfl, nofun, fun served => absurd (served calls) failed⟩
    next =>
    cases chosen : select Share.difficulty window (shares.newest.take batch) with
    | nil =>
      have none : shares.newest = [] := by
        cases table : shares.newest with
        | nil => rfl
        | cons row rows =>
          obtain ⟨n, rfl⟩ := Nat.exists_eq_add_of_lt nonempty
          simp [table, select, opened] at chosen
      rw [chosen, List.length_nil] at got
      refine ⟨.ok walk, calls + 1, by simp only [got, if_true], ?_, fun _ => ⟨walk, rfl⟩⟩
      rintro settled ⟨⟩
      simp only [Walk.rows, none, List.filter_nil, select]
    | cons first rest =>
      have covered := boundaryQuery_covered positive batch chosen
      have rows := boundaryQuery_rows positive batch chosen
      rw [chosen] at got
      have some : (boundaryQuery shares batch window).got ≠ 0 := by simp [got]
      simp only [some, if_false]
      split
      next reached =>
        refine ⟨_, _, rfl, ?_, fun _ => ⟨_, rfl⟩⟩
        rintro settled ⟨⟩
        rw [rows, ← chosen]
        apply select_take_of_covered
        rwa [chosen, ← difficultySum, ← covered]
      next =>
        split
        next short =>
          refine ⟨_, _, rfl, ?_, fun _ => ⟨_, rfl⟩⟩
          rintro settled ⟨⟩
          rw [rows, ← chosen]
          apply select_take_of_short
          rwa [chosen, ← got]
        next full =>
          -- a batch that came back full fits into the table
          have fits : batch ≤ 2 ^ 48 := by
            have front : first :: rest <+: shares.newest.take batch := chosen ▸ select_front _ _
            have front := front.length_le
            rw [← got, List.length_take, ShareTable.newest, List.length_reverse] at front
            have sized := shares.sized
            omega
          have limit : ¬ int64Max / 4 < batch := by
            simp only [int64Max]
            omega
          rw [if_neg limit]
          apply ih
          · omega
          · omega
          · rw [pow_succ] at large
            rw [mul_assoc, mul_comm 4]
            exact large

/-- The search as `store_pplns_window` starts it. -/
theorem boundaryWalk_start (oracle : Oracle) (opened : 0 < window) (enough : 20 ≤ fuel) :
    ∃ answer after, boundaryWalk oracle shares window fuel 1 boundaryBatch .start =
      some (answer, after) ∧ (∀ settled, answer = .ok settled →
        settled.rows shares = select Share.difficulty window shares.newest) ∧
      ((∀ call, oracle (.step .boundary) call = .served) → ∃ settled, answer = .ok settled) := by
  have reach : 2 ^ 50 < boundaryBatch * 4 ^ fuel := by
    have grow : 4 ^ 20 ≤ 4 ^ fuel := Nat.pow_le_pow_right (by decide) enough
    simp only [boundaryBatch]
    omega
  exact boundaryWalk_settles positive oracle opened fuel 1 boundaryBatch .start (by decide)
    (by decide) reach

/-- Anchored at the newest share, the distributor reads the same rows. -/
theorem anchoredRows_eq {hash : String}
    (anchored : ∀ row, shares.newest.head? = some row → row.blockHash = some hash) :
    anchoredRows shares hash window = select Share.difficulty window shares.newest := by
  cases table : shares.newest with
  | nil =>
    have empty : shares.rows = [] := by
      simpa only [ShareTable.newest, List.reverse_eq_nil_iff] using table
    simp [anchoredRows, anchorId, empty, select]
  | cons top rest =>
    have descending := table ▸ shares.newest_descending
    have named : top.blockHash = some hash := anchored top (by simp [table])
    have below : ∀ row ∈ shares.newest, row.id ≤ top.id := by
      intro row member
      rw [table, List.mem_cons] at member
      rcases member with rfl | member
      · exact le_refl _
      · exact (List.rel_of_pairwise_cons descending member).le
    have anchor : anchorId shares hash = some top.id := by
      simp only [anchorId, List.max?_eq_some_iff, List.mem_map, List.mem_filter, decide_eq_true_eq]
      refine ⟨⟨top, ⟨shares.mem_newest.mp (by simp [table]), named⟩, rfl⟩, ?_⟩
      rintro id ⟨row, ⟨member, _⟩, rfl⟩
      exact below row (shares.mem_newest.mpr member)
    have all : shares.newest.filter (fun row => row.id ≤ top.id) = shares.newest := by
      rw [List.filter_eq_self]
      simpa only [decide_eq_true_eq] using below
    rw [anchoredRows, anchor]
    simp only [all, inWindow_eq (newest_positive positive), map_fst_running]
    rw [table]

theorem mem_window_iff (member : row ∈ shares.rows) :
    row ∈ select Share.difficulty window shares.newest ↔
      difficultySum (shares.rows.filter (fun newer => row.id < newer.id)) < window := by
  rw [mem_select_iff (newest_positive positive) shares.newest_descending]
  have sum : ((shares.newest.filter (fun newer => row.id < newer.id)).map Share.difficulty).sum =
      difficultySum (shares.rows.filter (fun newer => row.id < newer.id)) := by
    rw [ShareTable.newest, List.filter_reverse, List.map_reverse, List.sum_reverse, difficultySum]
  rw [sum, and_iff_right (shares.mem_newest.mpr member)]

end Walk

theorem takeEntries_served (cap calls : Nat) (out rest : List WindowEntry)
    (room : out.length ≤ cap) :
    takeEntries .served cap calls out rest =
      ((out ++ rest).take cap, decide (cap < out.length + rest.length)) := by
  induction rest generalizing calls out with
  | nil =>
    simpa [takeEntries, List.take_of_length_le room] using room
  | cons entry rest ih =>
    rw [takeEntries, if_neg (by simp)]
    split
    next full =>
      have same : out.length = cap := le_antisymm room full
      simp [← same]
    next unfilled =>
      rw [ih _ _ (by simpa using Nat.succ_le_of_lt (Nat.lt_of_not_le unfilled))]
      simp only [List.append_assoc, List.cons_append, List.nil_append, List.length_append,
        List.length_cons, List.length_nil, Prod.mk.injEq, true_and, decide_eq_decide]
      omega

/-- Both queries group the same rows to the same sums. -/
theorem payees_iff_groups {hash : String} (db : Db) (walk : Walk)
    (rows : walk.rows db.shares = anchoredRows db.shares hash window)
    (positive : ∀ row ∈ db.shares.rows, 0 < row.difficulty) (member : w ∈ db.workers)
    (payable : w.payable) (sum : ℚ) :
    (∃ entry ∈ payeesQuery db walk, entry.workerId = w.id ∧ entry.difficulty = sum) ↔
      ∃ group ∈ windowQuery db.shares hash window, group.workerId = w.id ∧ group.wd = sum := by
  simp only [payeesQuery, windowQuery, List.mem_insertionSort, List.mem_filterMap, rows,
    groupByWorker, List.mem_map, List.mem_dedup, windowGroup]
  constructor
  · rintro ⟨entry, ⟨other, _, found⟩, id, rfl⟩
    split at found
    next shown =>
      cases found
      obtain ⟨row, rowMember, rowId⟩ := shown.2.1
      refine ⟨_, ⟨w.id, ⟨row, rowMember, rowId.trans id⟩, rfl⟩, rfl, ?_⟩
      rw [← show other.id = w.id from id]
      rfl
    next => cases found
  · rintro ⟨group, ⟨id, ⟨row, rowMember, rowId⟩, rfl⟩, rfl, rfl⟩
    refine ⟨windowEntry db (anchoredRows db.shares hash window) w, ⟨w, member, ?_⟩, rfl, rfl⟩
    rw [if_pos]
    refine ⟨payable, ⟨row, rowMember, rowId⟩, ?_⟩
    apply List.sum_pos
    · intro difficulty shown
      obtain ⟨other, otherMember, rfl⟩ := List.mem_map.mp shown
      have inside : other ∈ walk.rows db.shares := by
        rw [rows]
        exact List.mem_of_mem_filter otherMember
      exact positive other (db.shares.mem_newest.mp (List.mem_of_mem_filter inside))
    · intro nothing
      rw [List.map_eq_nil_iff, List.filter_eq_nil_iff] at nothing
      exact nothing row rowMember (by simpa using rowId)

/-- The coinbase builder's window is the distributor's. On every share table the
walk settles, on exactly the rows behind which less than a window of newer work
lies; a distributor anchored at the newest share selects the same rows, and as
long as the cap leaves nobody out both give every payable worker the same sum. -/
theorem storePplnsWindow_agrees (db : Db) (window : ℚ) (cap fuel : Nat) (hash : String)
    (positive : ∀ row ∈ db.shares.rows, 0 < row.difficulty) (opened : 0 < window) (room : 0 < cap)
    (enough : 20 ≤ fuel)
    (anchored : ∀ row, db.shares.newest.head? = some row → row.blockHash = some hash) :
    ∃ walk calls result,
      boundaryWalk .served db.shares window fuel 1 boundaryBatch .start = some (.ok walk, calls) ∧
      (∀ row ∈ db.shares.rows, row ∈ walk.rows db.shares ↔
        difficultySum (db.shares.rows.filter (fun newer => row.id < newer.id)) < window) ∧
      anchoredRows db.shares hash window = walk.rows db.shares ∧
      storePplnsWindow .served fuel db window cap = some (.ok result) ∧
      (result.truncated = true ↔ cap < (payeesQuery db walk).length) ∧
      (result.truncated = false → ∀ w ∈ db.workers, w.payable → ∀ sum : ℚ,
        ((∃ entry ∈ result.entries, entry.workerId = w.id ∧ entry.difficulty = sum) ↔
          ∃ group ∈ windowQuery db.shares hash window, group.workerId = w.id ∧
          group.wd = sum)) := by
  obtain ⟨answer, calls, settled, found, ends⟩ := boundaryWalk_start positive .served opened enough
  obtain ⟨walk, rfl⟩ := ends (fun _ => rfl)
  have rows := found walk rfl
  have same : anchoredRows db.shares hash window = walk.rows db.shares :=
    (anchoredRows_eq positive anchored).trans rows.symm
  have taken := takeEntries_served cap (calls + 1) [] (payeesQuery db walk) (Nat.zero_le _)
  rw [List.nil_append, List.length_nil, Nat.zero_add] at taken
  let shown := (payeesQuery db walk).take cap
  refine ⟨walk, calls,
    ⟨shown, (shown.map WindowEntry.difficulty).sum, decide (cap < (payeesQuery db walk).length)⟩,
    settled, ?_, same, ?_, ?_, ?_⟩
  · intro row member
    rw [rows]
    exact mem_window_iff positive member
  · rw [storePplnsWindow, if_neg (Nat.ne_of_gt room), if_neg (not_not_intro opened),
      if_neg (by simp), settled]
    simp only [Oracle.served_apply, ne_eq, not_true, if_false, taken, shown]
  · simp only [decide_eq_true_eq]
  · intro whole w member payable sum
    simp only [decide_eq_false_iff_not, not_lt] at whole
    simp only [shown, List.take_of_length_le whole]
    exact payees_iff_groups db walk same.symm positive member payable sum

/-- Two workers, the older share of difficulty 4 crossing a window of 5. -/
def crossingDb : Db where
  workers := [⟨1, some "bc1qold"⟩, ⟨2, some "bc1qnew"⟩]
  shares :=
    { rows := [⟨1, 1, 9, none⟩, ⟨2, 1, 4, none⟩, ⟨3, 2, 3, some "00ab"⟩]
      ascending := by decide
      ranged := by decide
      sized := by decide }
  blocksFound := ⟨[], List.nodup_nil⟩
  templates := []
  ppsCredits := []
  pplnsFractions := []
  pendingFractions := []
  credited := []

theorem storePplnsWindow_agrees_crossing : ∃ walk calls,
    boundaryWalk .served crossingDb.shares 5 20 1 boundaryBatch .start = some (.ok walk, calls) ∧
    (walk.rows crossingDb.shares).map Share.id = [3, 2] := by
  obtain ⟨walk, calls, _, settled, _, same, _⟩ :=
    storePplnsWindow_agrees crossingDb 5 2 20 "00ab" (by decide +kernel) (by norm_num) (by decide)
      (by decide)
      (by decide +kernel)
  refine ⟨walk, calls, settled, ?_⟩
  rw [← same]
  decide +kernel

end SimplePool.Store
