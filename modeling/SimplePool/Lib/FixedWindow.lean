import Mathlib.Data.List.Count
import Mathlib.Data.Nat.Basic
import Mathlib.Order.Basic
import Mathlib.Tactic.SplitIfs

/-! A limiter that counts in fixed windows. A window starts with the first event after the
one before it has run its period, and lets through as many events as the limit. -/
namespace FixedWindow

variable {period limit now t : Nat}

/-- The open window: its start, and what it has let through. -/
structure Window where
  start : Nat
  count : Nat

/-- The window at a time: a new one, once the period is over. -/
def Window.roll (period : Nat) (w : Window) (t : Nat) : Window :=
  if w.start + period ≤ t then ⟨t, 0⟩ else w

/-- The window with the event let through, if it is. -/
def letThrough (period limit : Nat) (w : Window) (t : Nat) : Option Window :=
  if (w.roll period t).count < limit then
    some ⟨(w.roll period t).start, (w.roll period t).count + 1⟩
  else none

/-- How many periods it takes to cover a length of time. -/
def periods (period length : Nat) : Nat := (length + period - 1) / period

theorem periods_mono (le : length ≤ length') : periods period length ≤ periods period length' :=
  Nat.div_le_div_right (by omega)

theorem periods_add (positive : 0 < period) (length : Nat) :
    periods period (length + period) = periods period length + 1 := by
  have shift : length + period + period - 1 = length + period - 1 + period := by omega
  rw [periods, periods, shift, Nat.add_div_right _ positive]

theorem periods_pos (positive : 0 < period) (some : 0 < length) : 0 < periods period length :=
  Nat.div_pos (by omega) positive

/-- What is known of the events let through so far, newest first, and of the open window. -/
structure Log (period limit : Nat) (w : Window) (passed : List Nat) (now : Nat) : Prop where
  started : w.start ≤ now
  past : ∀ t ∈ passed, t ≤ now
  inside : ∀ t ∈ passed, t < w.start + period
  few : w.count ≤ limit
  current : w.count ≤ passed.countP fun t => w.start ≤ t
  since : ∀ a, (passed.countP fun t => a ≤ t) ≤ limit * periods period (w.start - a) + w.count
  interval : ∀ a length,
  (passed.countP fun t => a ≤ t ∧ t < a + length) ≤ limit * (periods period length + 1)

theorem Log.start (period limit now : Nat) : Log period limit ⟨0, 0⟩ [] now where
  started := Nat.zero_le _
  past := by simp
  inside := by simp
  few := Nat.zero_le _
  current := Nat.zero_le _
  since _ := Nat.zero_le _
  interval _ _ := Nat.zero_le _

variable {w w' : Window} {passed : List Nat}

/-- Time passes, and what is refused changes nothing. -/
theorem Log.wait (log : Log period limit w passed now) (later : now ≤ t) :
    Log period limit w passed t where
  started := log.started.trans later
  past s member := (log.past s member).trans later
  inside := log.inside
  few := log.few
  current := log.current
  since := log.since
  interval := log.interval

/-- Nothing was let through after the last time that is known. -/
theorem Log.none_since (log : Log period limit w passed now) (later : now < a) :
    (passed.countP fun t => a ≤ t) = 0 := by
  rw [List.countP_eq_zero]
  intro s member after
  have before := log.past s member
  have := of_decide_eq_true after
  omega

/-- The event that starts a window, or joins the open one. -/
theorem letThrough_cases (admitted : letThrough period limit w t = some w') :
    (w.start + period ≤ t ∧ w' = ⟨t, 1⟩ ∧ 0 < limit) ∨
    (t < w.start + period ∧ w' = ⟨w.start, w.count + 1⟩ ∧ w.count < limit) := by
  rw [letThrough, Window.roll] at admitted
  split_ifs at admitted with past room room
  · exact .inl ⟨past, (Option.some.inj admitted).symm, room⟩
  · exact .inr ⟨not_le.mp past, (Option.some.inj admitted).symm, room⟩

theorem Log.since_pass (positive : 0 < period) (log : Log period limit w passed now)
    (later : now ≤ t) (admitted : letThrough period limit w t = some w') (a : Nat) :
    ((t :: passed).countP fun s => a ≤ s) ≤ limit * periods period (w'.start - a) + w'.count := by
  by_cases before : a ≤ t
  · rw [List.countP_cons, if_pos (decide_eq_true before)]
    rcases letThrough_cases admitted with ⟨past, rfl, _⟩ | ⟨_, rfl, _⟩
    · dsimp only
      by_cases closed : w.start + period ≤ a
      · -- nothing of the old window is that late
        have none : (passed.countP fun s => a ≤ s) = 0 := by
          rw [List.countP_eq_zero]
          intro s member after
          have early := log.inside s member
          have := of_decide_eq_true after
          omega
        rw [none]
        exact Nat.add_le_add_right (Nat.zero_le _) 1
      · have more : periods period (w.start - a) + 1 ≤ periods period (t - a) := by
          by_cases reached : a ≤ w.start
          · rw [← periods_add positive]
            exact periods_mono (by omega)
          · have none : periods period (w.start - a) = 0 := by
              have past : w.start - a = 0 := by omega
              rw [periods, past, Nat.zero_add]
              exact Nat.div_eq_of_lt (Nat.sub_lt positive Nat.one_pos)
            rw [none]
            exact periods_pos positive (by omega)
        have counted : (passed.countP fun s => a ≤ s) ≤ limit * periods period (t - a) :=
          calc (passed.countP fun s => a ≤ s) ≤ limit * periods period (w.start - a) + w.count :=
            log.since a
            _ ≤ limit * periods period (w.start - a) + limit := Nat.add_le_add_left log.few _
            _ = limit * (periods period (w.start - a) + 1) := (Nat.mul_succ ..).symm
            _ ≤ limit * periods period (t - a) := Nat.mul_le_mul_left _ more
        exact Nat.add_le_add_right counted 1
    · exact Nat.add_le_add_right (log.since a) 1
  · rw [List.countP_cons_of_neg (by simpa using before),
      log.none_since (lt_of_le_of_lt later (not_le.mp before))]
    exact Nat.zero_le _

/-- An event is let through. -/
theorem Log.pass (positive : 0 < period) (log : Log period limit w passed now) (later : now ≤ t)
    (admitted : letThrough period limit w t = some w') : Log period limit w' (t :: passed) t := by
  have since := log.since_pass positive later admitted
  have bounds : w'.start ≤ t ∧ t < w'.start + period ∧ w'.count ≤ limit ∧ w.start ≤ w'.start := by
    have started := log.started
    rcases letThrough_cases admitted with ⟨past, rfl, room⟩ | ⟨open', rfl, room⟩ <;> dsimp only <;>
      omega
  refine ⟨bounds.1, ?_, ?_, bounds.2.2.1, ?_, since, ?_⟩
  · intro s member
    rcases List.mem_cons.mp member with rfl | before
    · exact le_rfl
    · exact (log.past s before).trans later
  · intro s member
    rcases List.mem_cons.mp member with rfl | before
    · exact bounds.2.1
    · have early := log.inside s before
      omega
  · rw [List.countP_cons, if_pos (decide_eq_true bounds.1)]
    rcases letThrough_cases admitted with ⟨_, rfl, _⟩ | ⟨_, rfl, _⟩
    · exact Nat.le_add_left ..
    · exact Nat.add_le_add_right log.current 1
  · intro a length
    by_cases here : a ≤ t ∧ t < a + length
    · have sooner : w'.start - a ≤ length := by omega
      calc ((t :: passed).countP fun s => a ≤ s ∧ s < a + length)
          ≤ (t :: passed).countP fun s => a ≤ s := List.countP_mono_left (by simp +contextual)
        _ ≤ limit * periods period (w'.start - a) + w'.count := since a
        _ ≤ limit * periods period length + limit :=
          Nat.add_le_add (Nat.mul_le_mul_left _ (periods_mono sooner)) bounds.2.2.1
        _ = limit * (periods period length + 1) := (Nat.mul_succ ..).symm
    · rw [List.countP_cons_of_neg (by simpa using here)]
      exact log.interval a length

/-- An event is refused only if the limit was let through within the period before it. -/
theorem Log.refused (log : Log period limit w passed now) (later : now ≤ t) (given : 0 < limit)
    (refused : letThrough period limit w t = none) :
    limit ≤ passed.countP fun s => s ≤ t ∧ t < s + period := by
  rw [letThrough, Window.roll] at refused
  split_ifs at refused with past full
  have counted : limit ≤ passed.countP fun s => w.start ≤ s := (not_lt.mp full).trans log.current
  refine counted.trans (List.countP_mono_left ?_)
  intro s member after
  have := of_decide_eq_true after
  have before := log.past s member
  exact decide_eq_true (by omega)

end FixedWindow
