import SimplePool.Store.PplnsWindow

/-! When the window that `store_pplns_window` reports as whole is whole. The boundary
search tells a failed step from the end of its rows; the query for the payees does not. -/
namespace SimplePool.Store
open RunningWindow

/-- The shares with less than a window of newer work before them. -/
def windowRows (shares : ShareTable) (window : ℚ) : List Share :=
  shares.newest.filter
    (fun row => difficultySum (shares.rows.filter (fun newer => row.id < newer.id)) < window)

/-- Every payable worker of the window with the whole of its sum. -/
def completeWindow (db : Db) (window : ℚ) : List WindowEntry :=
  (db.workers.filterMap (windowGroup db (windowRows db.shares window))).insertionSort
    WindowEntry.before

/-- An answer that is an error, or says that it was cut, or is the whole window. -/
def NeverShort (db : Db) (window : ℚ) (answer : Except WindowError PplnsWindow) : Prop :=
  ∀ result, answer = .ok result → result.truncated = false →
    result.entries = completeWindow db window ∧
      result.totalDiff = ((completeWindow db window).map WindowEntry.difficulty).sum

/-- Once the boundary search has settled and the query for the payees is prepared, every
step of it that has a row to return is served, up to the one past the capacity. -/
def PayeesServed (oracle : Oracle) (fuel : Nat) (db : Db) (window : ℚ) (cap : Nat) : Prop :=
  0 < cap → 0 < window → oracle (.prepare .boundary) 0 = .served →
    ∀ walk calls, boundaryWalk oracle db.shares window fuel 1 boundaryBatch .start =
      some (.ok walk, calls) →
      oracle (.prepare .payees) calls = .served →
        ∀ step, step < (completeWindow db window).length → step ≤ cap →
          oracle (.step .payees) (calls + 1 + step) = .served

theorem windowRows_eq_select {shares : ShareTable}
    (positive : ∀ row ∈ shares.rows, 0 < row.difficulty) (window : ℚ) :
    windowRows shares window = select Share.difficulty window shares.newest := by
  have descending := shares.newest_descending
  have left : (windowRows shares window).Pairwise (fun a b => b.id < a.id) :=
    descending.sublist List.filter_sublist
  have front : select Share.difficulty window shares.newest <+: shares.newest := select_front _ _
  have right := descending.sublist front.sublist
  apply List.Perm.eq_of_pairwise _ left right
  · rw [List.perm_ext_iff_of_nodup (left.imp fun h => by rintro rfl; exact lt_irrefl _ h)
      (right.imp fun h => by rintro rfl; exact lt_irrefl _ h)]
    intro row
    rw [windowRows, List.mem_filter, decide_eq_true_eq]
    constructor
    · rintro ⟨member, inside⟩
      exact (mem_window_iff positive (shares.mem_newest.mp member)).mpr inside
    · intro chosen
      have member := front.subset chosen
      exact ⟨member, (mem_window_iff positive (shares.mem_newest.mp member)).mp chosen⟩
  · intro a b _ _ below above
    exact absurd below (lt_asymm above)

theorem payeesQuery_eq_completeWindow {db : Db}
    (positive : ∀ row ∈ db.shares.rows, 0 < row.difficulty)
    (rows : walk.rows db.shares = select Share.difficulty window db.shares.newest) :
    payeesQuery db walk = completeWindow db window := by
  rw [payeesQuery, completeWindow, rows, windowRows_eq_select positive]

/-- A loop that does not report a cut has read everything exactly when each step it took
was served. -/
theorem takeEntries_whole_iff (oracle : Oracle) (cap calls : Nat) (out rest : List WindowEntry)
    (room : out.length ≤ cap) :
    ((takeEntries oracle cap calls out rest).2 = false → (takeEntries oracle cap calls out rest).1 =
      out ++ rest) ↔
      ∀ step, step < rest.length → out.length + step ≤ cap → oracle (.step .payees) (calls + step) =
        .served := by
  induction rest generalizing calls out with
  | nil => simp [takeEntries]
  | cons entry rest ih =>
    rw [takeEntries]
    split
    next failed =>
      constructor
      · intro whole
        exact absurd (whole rfl) (by simp)
      · intro served
        exact absurd (served 0 (by simp) (by simpa using room)) failed
    next served =>
      rw [not_not] at served
      split
      next full =>
        constructor
        · intro _ step inside past
          obtain rfl : step = 0 := by omega
          exact served
        · intro _ cut
          contradiction
      next unfilled =>
        have later := ih (calls + 1) (out ++ [entry])
          (by simpa using Nat.succ_le_of_lt (Nat.lt_of_not_le unfilled))
        rw [List.append_assoc, List.singleton_append] at later
        rw [later, List.length_append, List.length_singleton]
        constructor
        · intro rest step inside past
          cases step with
          | zero => exact served
          | succ step =>
            have there := rest step (by simpa using inside) (by omega)
            rwa [Nat.add_assoc, Nat.add_comm 1 step] at there
        · intro all step inside past
          have there := all (step + 1) (by simpa using inside) (by omega)
          rwa [← Nat.add_assoc, Nat.add_right_comm] at there

/-- The window is reported short exactly when a step of the payees query fails while it
has a row to return: that step ends the loop as the end of the rows would. -/
theorem storePplnsWindow_neverShort_iff (oracle : Oracle) (db : Db) (window : ℚ) (cap fuel : Nat)
    (positive : ∀ row ∈ db.shares.rows, 0 < row.difficulty) (enough : 20 ≤ fuel) :
    ∃ answer, storePplnsWindow oracle fuel db window cap = some answer ∧
      (NeverShort db window answer ↔ PayeesServed oracle fuel db window cap) := by
  rw [storePplnsWindow]
  split
  next none => exact ⟨_, rfl, ⟨fun _ room => absurd none room.ne', fun _ _ same => by cases same⟩⟩
  next room =>
  split
  next shut => exact ⟨_, rfl, ⟨fun _ _ opened => absurd opened shut, fun _ _ same => by cases same⟩⟩
  next opened =>
  split
  next failed =>
    exact ⟨_, rfl, ⟨fun _ _ _ prepared => absurd prepared failed, fun _ _ same => by cases same⟩⟩
  next prepared =>
  rw [not_not] at opened prepared
  obtain ⟨answer, calls, searched, found, -⟩ := boundaryWalk_start positive oracle opened enough
  rw [searched]
  cases answer with
  | error e =>
    refine ⟨.error e, rfl, ⟨fun _ _ _ _ walk after other => ?_, fun _ _ same => by cases same⟩⟩
    rw [searched] at other
    cases other
  | ok walk =>
    dsimp only
    split
    next failed =>
      refine ⟨_, rfl, ⟨fun _ _ _ _ other after same served => ?_, fun _ _ same => by cases same⟩⟩
      rw [searched] at same
      cases same
      exact absurd served failed
    next served =>
    rw [not_not] at served
    refine ⟨_, rfl, ?_⟩
    rw [payeesQuery_eq_completeWindow positive (found walk rfl)]
    have whole :=
      takeEntries_whole_iff oracle cap (calls + 1) [] (completeWindow db window) (Nat.zero_le _)
    rw [List.nil_append] at whole
    constructor
    · intro short _ _ _ other after same _ step inside past
      rw [searched] at same
      cases same
      exact whole.mp (fun uncut => (short _ rfl uncut).1) step inside (by simpa using past)
    · intro all result same uncut
      cases same
      have read := whole.mpr (fun step inside past =>
        all (Nat.pos_of_ne_zero room) opened prepared walk calls searched served step inside
          (by simpa using past)) uncut
      exact ⟨read, congrArg (fun entries => (entries.map WindowEntry.difficulty).sum) read⟩

/-- With every call served the capacity is the only thing that keeps a worker out. -/
theorem storePplnsWindow_neverShort_crossing : ∃ answer,
    storePplnsWindow .served 20 crossingDb 5 2 = some answer ∧ NeverShort crossingDb 5 answer := by
  obtain ⟨answer, returned, same⟩ :=
    storePplnsWindow_neverShort_iff .served crossingDb 5 2 20 (by decide +kernel) (by decide)
  exact ⟨answer, returned, same.mpr (fun _ _ _ _ _ _ _ _ _ _ => rfl)⟩

/-- The second step of the payees query fails. -/
def payeesError : Oracle :=
  fun call position => if call = .step .payees ∧ position = 4 then .error else .served

theorem storePplnsWindow_short : ∃ answer,
    storePplnsWindow payeesError 20 crossingDb 5 2 = some answer ∧
    ¬ NeverShort crossingDb 5 answer := by
  have short : storePplnsWindow payeesError 20 crossingDb 5 2 =
        some (.ok ⟨[⟨1, "bc1qold", 4, 0⟩], 4, false⟩) := by
    decide +kernel
  refine ⟨_, short, fun never => ?_⟩
  have whole := (never _ rfl rfl).1
  revert whole
  decide +kernel

end SimplePool.Store
