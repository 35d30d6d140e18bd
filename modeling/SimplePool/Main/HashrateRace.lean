import SimplePool.Main.RateLog

/-! The hashrate window while it is shared: connections add to it, a load and a store each, and
the tip watcher closes it. Every atomic access is a step. -/
namespace SimplePool.Main
open Transition
open Stratum (Fpu)

/-- Where a connection is in the accumulator part of `on_share_cb`. -/
inductive CallbackPhase
  | idle
  | loaded (prev difficulty : ℚ)
deriving DecidableEq

/-- Where the tip watcher is in `observed_diff_per_sec`, with what it has read. -/
inductive WatchPhase
  | idle
  | opening (nowMs : UInt64)
  | closing (nowMs openedMs : UInt64)
  | taken (nowMs openedMs : UInt64) (accum : ℚ)
  | measured (perSec : ℚ)
  | reading
deriving DecidableEq

/-- The three atomics, the threads that use them, and a record of what they have done: the
shares whose callbacks have completed and the difficulty of each window that was closed. -/
structure Hashrate where
  window : HashrateWindow
  callback : Nat → CallbackPhase
  watcher : WatchPhase
  completed : List ℚ
  closed : List ℚ

/-- A new process. -/
def Hashrate.boot : Hashrate := ⟨⟨0, 0, 0⟩, fun _ => .idle, .idle, [], []⟩

inductive HashrateStep
  /-- A callback on a connection loads `diff_accum`. -/
  | load (conn : Nat) (difficulty : ℚ)
  /-- It stores the sum. -/
  | store (conn : Nat)
  /-- The tip watcher makes its next access; the clock is read before the first one. -/
  | watch (nowMs : UInt64)
deriving DecidableEq

section Race

variable (fp : Fpu)

/-- The next access of `observed_diff_per_sec`. -/
def Hashrate.watch (s : Hashrate) (nowMs : UInt64) : Hashrate :=
  match s.watcher with
  | .idle =>
    if s.window.openedMs = 0 then { s with watcher := .opening nowMs }
    else if hashrateWindowMs ≤ nowMs - s.window.openedMs then
      { s with watcher := .closing nowMs s.window.openedMs }
    else { s with watcher := .reading }
  | .opening nowMs => { s with window := { s.window with openedMs := nowMs }, watcher := .idle }
  -- the exchange
  | .closing nowMs openedMs =>
    { s with
      window := { s.window with accum := 0 }, watcher := .taken nowMs openedMs s.window.accum,
             closed := s.window.accum :: s.closed }
  | .taken nowMs openedMs accum =>
    let secs := fp.round (fp.round (nowMs - openedMs).toNat / 1000)
    { s with window := { s.window with openedMs := nowMs },
             watcher := if 0 < secs then .measured (fp.round (accum / secs)) else .reading }
  | .measured perSec => { s with window := { s.window with perSec := perSec }, watcher := .reading }
  | .reading => { s with watcher := .idle }

def Hashrate.step (s : Hashrate) : HashrateStep → Option Hashrate
  | .load conn difficulty =>
    match s.callback conn with
    | .idle => some { s with
      callback := Function.update s.callback conn (.loaded s.window.accum difficulty) }
    | .loaded .. => none
  | .store conn =>
    match s.callback conn with
    | .idle => none
    | .loaded prev difficulty =>
      some { s with window := { s.window with accum := fp.round (prev + difficulty) },
                    callback := Function.update s.callback conn .idle, completed :=
                      difficulty :: s.completed }
  | .watch nowMs => some (s.watch fp nowMs)

/-- The difficulty of the closed windows and of the open one is that of the shares. -/
def Hashrate.Accounts (s : Hashrate) : Prop := s.closed.sum + s.window.accum = s.completed.sum

instance (s : Hashrate) : Decidable s.Accounts := inferInstanceAs (Decidable (_ = _))

/-- The accumulator is as the callback loaded it, and its sum is a double. -/
def CallbackPhase.Undisturbed (accum : ℚ) : CallbackPhase → Prop
  | .idle => True
  | .loaded prev difficulty => accum = prev ∧ fp.round (prev + difficulty) = prev + difficulty

instance (accum : ℚ) : (phase : CallbackPhase) → Decidable (phase.Undisturbed fp accum)
  | .idle => .isTrue trivial
  | .loaded .. => inferInstanceAs (Decidable (_ ∧ _))

/-- Every store is undisturbed. -/
def Undisturbed (s : Hashrate) : HashrateStep → Prop
  | .store conn => (s.callback conn).Undisturbed fp s.window.accum
  | .load .. | .watch _ => True

instance (s : Hashrate) : (event : HashrateStep) → Decidable (Undisturbed fp s event)
  | .store conn => inferInstanceAs (Decidable ((s.callback conn).Undisturbed fp s.window.accum))
  | .load .. | .watch _ => .isTrue trivial

variable {fp}

theorem Hashrate.watch_accounts {s : Hashrate} (accounts : s.Accounts) (nowMs : UInt64) :
    (s.watch fp nowMs).Accounts := by
  rw [Hashrate.Accounts] at accounts ⊢
  rw [Hashrate.watch]
  cases s.watcher with
  | idle =>
    dsimp only
    split_ifs <;> exact accounts
  | closing nowMs openedMs =>
    rw [List.sum_cons, add_zero, add_comm, accounts]
  | opening | taken | measured | reading => exact accounts

/-- The step of a store, and what the others leave alone. -/
theorem Hashrate.step_accounts {s t : Hashrate} {event : HashrateStep} (accounts : s.Accounts)
    (stepped : s.step fp event = some t) :
    (∃ conn prev difficulty, event = .store conn ∧ s.callback conn = .loaded prev difficulty ∧
      (t.Accounts ↔ fp.round (prev + difficulty) = s.window.accum + difficulty)) ∨
    (∀ conn, event ≠ .store conn) ∧ t.Accounts := by
  cases event with
  | load conn difficulty =>
    rw [Hashrate.step] at stepped
    split at stepped
    · obtain rfl := Option.some.inj stepped
      exact .inr ⟨nofun, accounts⟩
    · contradiction
  | store conn =>
    rw [Hashrate.step] at stepped
    split at stepped
    · contradiction
    next prev difficulty here =>
      obtain rfl := Option.some.inj stepped
      refine .inl ⟨conn, prev, difficulty, rfl, here, ?_⟩
      rw [Hashrate.Accounts] at accounts ⊢
      rw [List.sum_cons, ← accounts, add_comm difficulty, add_assoc]
      exact add_right_inj _
  | watch nowMs =>
    obtain rfl := Option.some.inj stepped
    exact .inr ⟨nofun, watch_accounts accounts nowMs⟩

/-- A connection alone adds its share. -/
theorem Hashrate.share_alone {s : Hashrate} (free : s.callback conn = .idle) (difficulty : ℚ) :
    run (step fp) s [.load conn difficulty, .store conn] =
      some { s with
        window := s.window.add fp difficulty, completed := difficulty :: s.completed } := by
  simp only [run, step, free, Option.bind_some, Function.update_self, Function.update_idem,
    HashrateWindow.add]
  rw [← free, Function.update_eq_self]

/-- The tip watcher alone observes the window, in at most five accesses. -/
theorem Hashrate.watch_alone {s : Hashrate} (free : s.watcher = .idle) (nowMs : UInt64) :
    ∃ n t, run (step fp) s (List.replicate n (.watch nowMs)) = some t ∧ t.watcher = .idle ∧ n ≤ 5 ∧
      t.window = (s.window.observed fp nowMs).2 := by
  obtain ⟨window, callback, watcher, completed, closed⟩ := s
  obtain rfl : watcher = .idle := free
  rw [HashrateWindow.observed]
  by_cases first : window.openedMs = 0
  · refine ⟨2, ⟨{ window with openedMs := nowMs }, callback, .idle, completed, closed⟩, ?_,
      rfl, by omega, ?_⟩
    · simp only [List.replicate, run, step, watch, if_pos first, Option.bind_some]
    · rw [if_pos first]
  by_cases due : hashrateWindowMs ≤ nowMs - window.openedMs
  · by_cases passed : 0 < fp.round (fp.round (nowMs - window.openedMs).toNat / 1000)
    · refine ⟨5, ⟨⟨0, nowMs, fp.round
          (window.accum / fp.round (fp.round (nowMs - window.openedMs).toNat / 1000))⟩, callback,
        .idle, completed, window.accum :: closed⟩, ?_, rfl, by omega, ?_⟩
      · simp only [List.replicate, run, step, watch, if_neg first, if_pos due, if_pos passed,
          Option.bind_some]
      · simp only [if_neg first, if_pos due, if_pos passed]
    · refine ⟨4, ⟨⟨0, nowMs, window.perSec⟩, callback, .idle, completed, window.accum :: closed⟩,
        ?_, rfl, by omega, ?_⟩
      · simp only [List.replicate, run, step, watch, if_neg first, if_pos due, if_neg passed,
          Option.bind_some]
      · simp only [if_neg first, if_pos due, if_neg passed]
  · refine ⟨2, ⟨window, callback, .idle, completed, closed⟩, ?_, rfl, by omega, ?_⟩
    · simp only [List.replicate, run, step, watch, if_neg first, if_neg due, Option.bind_some]
    · rw [if_neg first, if_neg due]

theorem Hashrate.boot_accounts : boot.Accounts := add_zero 0

theorem Hashrate.step_undisturbed {s t : Hashrate} (accounts : s.Accounts)
    (stepped : s.step fp event = some t) (undisturbed : Undisturbed fp s event) : t.Accounts := by
  rcases step_accounts accounts stepped with ⟨conn, prev, difficulty, same, here, exactly⟩ | ⟨_,
    after⟩
  · rw [same, Undisturbed, here, CallbackPhase.Undisturbed] at undisturbed
    rw [exactly, undisturbed.2, undisturbed.1]
  · exact after

theorem Hashrate.undisturbed_of_accounts (exact : ∀ q, fp.round q = q) {s t : Hashrate}
    (accounts : s.Accounts)
    (stepped : s.step fp event = some t) (after : t.Accounts) : Undisturbed fp s event := by
  rcases step_accounts accounts stepped with ⟨conn, prev, difficulty, rfl, here, exactly⟩ | ⟨other,
    _⟩
  · have sum := exactly.mp after
    rw [exact] at sum
    rw [Undisturbed, here]
    exact ⟨(add_right_cancel sum).symm, exact _⟩
  · cases event with
    | store conn => exact absurd rfl (other conn)
    | load | watch => trivial

/-- While every store finds the accumulator as it was loaded, every state of the run accounts
for all shares; and while doubles are exact, in no other run. -/
theorem hashrate_accounts_iff (fp : Fpu) (events : List HashrateStep) :
    (Along (Hashrate.step fp) (fun s e _ => Undisturbed fp s e) .boot events →
      Along (Hashrate.step fp) (fun _ _ t => t.Accounts) .boot events) ∧
    ((∀ q, fp.round q = q) → Along (Hashrate.step fp) (fun _ _ t => t.Accounts) .boot events →
      Along (Hashrate.step fp) (fun s e _ => Undisturbed fp s e) .boot events) := by
  constructor
  · refine Along.of_invariant (fun s e t accounts undisturbed stepped => ?_) Hashrate.boot_accounts
    have after := Hashrate.step_undisturbed accounts stepped undisturbed
    exact ⟨after, after⟩
  · intro exact along
    have preserved :
        ∀ s e t, s.Accounts → t.Accounts → s.step fp e = some t → t.Accounts ∧ Undisturbed fp s e :=
      fun s e t accounts after stepped => ⟨after,
        Hashrate.undisturbed_of_accounts exact accounts stepped after⟩
    exact Along.of_invariant preserved Hashrate.boot_accounts along

end Race

/-- One callback after the other, and a window that is closed between two shares. -/
def quietShares : List HashrateStep :=
  [.watch 1, .watch 1, .load 0 1, .store 0, .watch 60001, .watch 60001, .load 1 2, .watch 60001,
    .store 1]

theorem hashrate_accounts_quiet :
    Along (Hashrate.step .exact) (fun _ _ t => t.Accounts) .boot quietShares :=
  (hashrate_accounts_iff .exact quietShares).1 (by decide +kernel)

/-- The second callback stores what it loaded before the first one stored: a share is lost. -/
def lostShare : List HashrateStep := [.load 0 1, .load 1 1, .store 0, .store 1]

/-- The window is closed between a load and its store: what it held is reported, and kept as
well. -/
def keptShare : List HashrateStep :=
  [.watch 1, .watch 1, .load 0 1, .store 0, .load 1 2, .watch 60001, .watch 60001, .store 1]

theorem hashrate_unaccounted :
    ¬Along (Hashrate.step .exact) (fun _ _ t => t.Accounts) .boot lostShare ∧
    ¬Along (Hashrate.step .exact) (fun _ _ t => t.Accounts) .boot keptShare := by
  decide +kernel

end SimplePool.Main
