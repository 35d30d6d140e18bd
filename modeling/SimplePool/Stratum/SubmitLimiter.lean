import SimplePool.Lib.FixedWindow
import SimplePool.Stratum.Server

/-! The submit limiter over the life of a connection: what it lets through, what it refuses,
and what it reports of that, up to the report that is forced out when the connection goes. -/
namespace SimplePool.Stratum
open Wire Coinbase FixedWindow

/-- The count a report carries, when there is one. -/
def reportedCounts (c : Conn) (mono : UInt64) : List Nat :=
  if c.rlLimited = 0 then []
  else if c.rlReportedMs ≠ 0 ∧ mono - c.rlReportedMs < rlReportIntervalMs then []
  else [c.rlLimited.toNat]

/-- A report with its count. -/
def rateReject (cfg : Cfg) (c : Conn) (env : Env) (count : Nat) : Observed :=
  .reject c.workerName env.now ("submitting too fast: " ++ toString count ++ " refused at over " ++
    toString cfg.maxSubmitsPerSec ++ "/s (" ++ toString c.rlLimitedTotal.toNat ++ " total)")

theorem submitRateReport_counts (cfg : Cfg) (c : Conn) (env : Env) :
    (submitRateReport cfg c env).2 = (reportedCounts c env.mono).map (rateReject cfg c env) := by
  rw [submitRateReport, reportedCounts]
  split_ifs <;> rfl

/-- What `stratum_conn_free_for_test` reports. -/
def connFree (cfg : Cfg) (c : Conn) (env : Env) : List Observed :=
  if 0 < c.rlLimited then (submitRateReport cfg { c with rlReportedMs := 0 } env).2 else []

def freedCounts (c : Conn) : List Nat := if 0 < c.rlLimited then [c.rlLimited.toNat] else []

theorem connFree_counts (cfg : Cfg) (c : Conn) (env : Env) :
    connFree cfg c env = (freedCounts c).map (rateReject cfg c env) := by
  rw [connFree, freedCounts]
  split_ifs with some
  · rw [submitRateReport, if_neg (UInt32.pos_iff_ne_zero.mp some), if_neg (fun both => both.1 rfl)]
    rfl
  · rfl

/-- A connection, the times of the submits that passed, how many were refused, and the
counts that were reported, newest first. -/
structure PacedLife where
  conn : Conn
  passed : List UInt64
  refused : Nat
  reported : List Nat

/-- A submit at the limiter. -/
def PacedLife.submit (cfg : Cfg) (l : PacedLife) (env : Env) : PacedLife :=
  match submitRateExceeded cfg l.conn env.mono with
  | (false, c) => { l with conn := c, passed := env.mono :: l.passed }
  | (true, c) => ⟨(submitRateReport cfg c env).1, l.passed, l.refused + 1,
    reportedCounts c env.mono ++ l.reported⟩

def PacedLife.run (cfg : Cfg) (l : PacedLife) (submits : List Env) : PacedLife :=
  submits.foldl (PacedLife.submit cfg) l

/-- An accepted connection. -/
def PacedLife.start (cfg : Cfg) (peerIp : Bytes) (pol : Listener) : PacedLife :=
  ⟨(Conn.new cfg peerIp).applyListener pol, [], 0, []⟩

/-- A refused submit is answered, reported as here, and goes no further. -/
theorem handleSubmit_limited (fp : Fpu) {env : Env} {s : Server} {c : Conn}
    (authorized : c.authorized = true)
    (limited : (submitRateExceeded s.cfg c env.mono).1 = true) (params : Json) :
    handleSubmit fp env s c params =
      ⟨s, (submitRateReport s.cfg (submitRateExceeded s.cfg c env.mono).2 env).1,
      [.error 20 "submitting too fast"],
      (reportedCounts (submitRateExceeded s.cfg c env.mono).2 env.mono).map
        (rateReject s.cfg (submitRateExceeded s.cfg c env.mono).2 env), false⟩ := by
  rw [handleSubmit, authorized, Bool.not_true, if_neg Bool.false_ne_true, ← submitRateReport_counts]
  cases verdict : submitRateExceeded s.cfg c env.mono with
  | mk refused c' =>
    rw [verdict] at limited
    dsimp only at limited
    rw [limited]

def Conn.rateWindow (c : Conn) : Window := ⟨c.rlWindowStartMs.toNat, c.rlWindowCount.toNat⟩

def submitLimit (cfg : Cfg) : Nat := cfg.maxSubmitsPerSec.toNat

section Verdicts

variable {cfg : Cfg} {c : Conn} {mono : UInt64}

theorem rollRateWindow_window (started : c.rlWindowStartMs ≤ mono) :
    (c.rollRateWindow mono).rateWindow = c.rateWindow.roll 1000 mono.toNat := by
  have elapsed : (mono - c.rlWindowStartMs).toNat = mono.toNat - c.rlWindowStartMs.toNat :=
    UInt64.toNat_sub_of_le _ _ started
  have le := UInt64.le_iff_toNat_le.mp started
  have rolled : 1000 ≤ mono - c.rlWindowStartMs ↔ c.rateWindow.start + 1000 ≤ mono.toNat := by
    rw [UInt64.le_iff_toNat_le, elapsed, Conn.rateWindow]
    dsimp only
    change 1000 ≤ _ ↔ _
    omega
  rw [Conn.rollRateWindow, Window.roll]
  by_cases past : 1000 ≤ mono - c.rlWindowStartMs
  · rw [if_pos past, if_pos (rolled.mp past)]
    rfl
  · rw [if_neg past, if_neg (past ∘ rolled.mpr)]

theorem rollRateWindow_kept (c : Conn) (mono : UInt64) :
    (c.rollRateWindow mono).rlLimited = c.rlLimited ∧
    (c.rollRateWindow mono).rlReportedMs = c.rlReportedMs := by
  rw [Conn.rollRateWindow]
  split_ifs <;> exact ⟨rfl, rfl⟩

/-- The limiter lets through what the window admits. -/
theorem submitRateExceeded_letThrough (bounded : cfg.maxSubmitsPerSec < 2 ^ 31)
    (started : c.rlWindowStartMs ≤ mono)
    (admitted : letThrough 1000 (submitLimit cfg) c.rateWindow mono.toNat = some w) :
    (submitRateExceeded cfg c mono).1 = false ∧ (submitRateExceeded cfg c mono).2.rateWindow = w ∧
      (submitRateExceeded cfg c mono).2.rlLimited = c.rlLimited ∧
      (submitRateExceeded cfg c mono).2.rlReportedMs = c.rlReportedMs := by
  obtain ⟨limited, reported⟩ := rollRateWindow_kept c mono
  rw [letThrough, ← rollRateWindow_window started] at admitted
  split_ifs at admitted with room
  obtain rfl := Option.some.inj admitted
  rw [Conn.rateWindow] at room
  dsimp only at room
  rw [submitLimit] at room
  have enabled : ¬cfg.maxSubmitsPerSec ≤ 0 := by omega
  rw [submitRateExceeded, if_neg enabled]
  dsimp only
  rw [if_pos (by omega)]
  refine ⟨rfl, ?_, limited, reported⟩
  have next : ((c.rollRateWindow mono).rlWindowCount + 1).toNat =
        (c.rollRateWindow mono).rlWindowCount.toNat + 1 := by
    rw [UInt32.toNat_add]
    exact Nat.mod_eq_of_lt (by simp; omega)
  rw [Conn.rateWindow, Conn.rateWindow]
  dsimp only
  rw [next]

/-- And counts what it does not. -/
theorem submitRateExceeded_refuse (enabled : 0 < cfg.maxSubmitsPerSec)
    (started : c.rlWindowStartMs ≤ mono)
    (refused : letThrough 1000 (submitLimit cfg) c.rateWindow mono.toNat = none) :
    submitRateExceeded cfg c mono =
      (true, { c with rlLimited := c.rlLimited + 1, rlLimitedTotal := c.rlLimitedTotal + 1 }) := by
  rw [letThrough, ← rollRateWindow_window started] at refused
  split_ifs at refused with full
  rw [Conn.rateWindow] at full
  dsimp only at full
  rw [submitLimit] at full
  have open' : c.rollRateWindow mono = c := by
    rw [Conn.rollRateWindow]
    split_ifs with later
    · rw [Conn.rollRateWindow, if_pos later] at full
      change ¬0 < cfg.maxSubmitsPerSec.toNat at full
      omega
    · rfl
  rw [open'] at full
  rw [submitRateExceeded, if_neg (not_le.mpr enabled)]
  dsimp only
  rw [open', if_neg (by omega)]

end Verdicts

/-- The window is the limiter's own, and its record is in order. -/
structure PacedLife.Paced (cfg : Cfg) (l : PacedLife) (now : UInt64) : Prop where
  started : l.conn.rlWindowStartMs ≤ now
  log : Log 1000 (submitLimit cfg) l.conn.rateWindow (l.passed.map UInt64.toNat) now.toNat

theorem PacedLife.start_paced (cfg : Cfg) (peerIp : Bytes) (pol : Listener) :
    (PacedLife.start cfg peerIp pol).Paced cfg 0 where
  started := UInt64.le_refl _
  log := .start 1000 (submitLimit cfg) 0

/-- A refused submit moves the count into a report, or holds it back. -/
theorem submitRateReport_fields (cfg : Cfg) (c : Conn) (env : Env) :
    (submitRateReport cfg c env).1.rateWindow = c.rateWindow ∧
    (submitRateReport cfg c env).1.rlWindowStartMs = c.rlWindowStartMs := by
  rw [submitRateReport]
  split_ifs <;> exact ⟨rfl, rfl⟩

section Lives

variable {cfg : Cfg} {l : PacedLife} {now : UInt64}

theorem PacedLife.submit_letThrough (bounded : cfg.maxSubmitsPerSec < 2 ^ 31) (env : Env)
    (started : l.conn.rlWindowStartMs ≤ env.mono)
    (admitted : letThrough 1000 (submitLimit cfg) l.conn.rateWindow env.mono.toNat = some w) :
    (l.submit cfg env).passed = env.mono :: l.passed ∧ (l.submit cfg env).refused = l.refused ∧
      (l.submit cfg env).reported = l.reported ∧ (l.submit cfg env).conn.rateWindow = w ∧
      (l.submit cfg env).conn.rlLimited = l.conn.rlLimited ∧
      (l.submit cfg env).conn.rlReportedMs = l.conn.rlReportedMs := by
  obtain ⟨verdict, window, limited, reported⟩ :=
    submitRateExceeded_letThrough bounded started admitted
  rw [PacedLife.submit]
  cases answer : submitRateExceeded cfg l.conn env.mono with
  | mk refused c =>
    rw [answer] at verdict window limited reported
    dsimp only at verdict window limited reported
    obtain rfl := verdict
    exact ⟨rfl, rfl, rfl, window, limited, reported⟩

theorem PacedLife.submit_refuse (enabled : 0 < cfg.maxSubmitsPerSec) (env : Env)
    (started : l.conn.rlWindowStartMs ≤ env.mono)
    (refused : letThrough 1000 (submitLimit cfg) l.conn.rateWindow env.mono.toNat = none) :
    let counted :=
  { l.conn with rlLimited := l.conn.rlLimited + 1, rlLimitedTotal := l.conn.rlLimitedTotal + 1 }
    l.submit cfg env = ⟨(submitRateReport cfg counted env).1, l.passed, l.refused + 1,
      reportedCounts counted env.mono ++ l.reported⟩ := by
  intro counted
  rw [PacedLife.submit, submitRateExceeded_refuse enabled started refused]

theorem PacedLife.Paced.submit (enabled : 0 < cfg.maxSubmitsPerSec)
    (bounded : cfg.maxSubmitsPerSec < 2 ^ 31)
    (paced : l.Paced cfg now) {env : Env} (later : now ≤ env.mono) :
    (l.submit cfg env).Paced cfg env.mono := by
  have started := UInt64.le_trans paced.started later
  have later' := UInt64.le_iff_toNat_le.mp later
  cases verdict : letThrough 1000 (submitLimit cfg) l.conn.rateWindow env.mono.toNat with
  | some w =>
    obtain ⟨passed, _, _, window, _⟩ := submit_letThrough bounded env started verdict
    have log := paced.log.pass (by decide) later' verdict
    refine ⟨UInt64.le_iff_toNat_le.mpr ?_, by rw [passed, window]; exact log⟩
    have first : (l.submit cfg env).conn.rlWindowStartMs.toNat = w.start :=
      congrArg Window.start window
    rw [first]
    exact log.started
  | none =>
    have answer := submit_refuse enabled env started verdict
    dsimp only at answer
    rw [answer]
    obtain ⟨window, first⟩ := submitRateReport_fields cfg
      { l.conn with rlLimited := l.conn.rlLimited + 1, rlLimitedTotal := l.conn.rlLimitedTotal + 1 }
        env
    refine ⟨?_, ?_⟩
    · dsimp only
      rw [first]
      exact started
    · dsimp only
      rw [window]
      exact paced.log.wait later'

/-- At every submit of a life, in the order of the clock. -/
def PacedLife.Each (cfg : Cfg) (P : PacedLife → Env → Prop) : PacedLife → List Env → Prop
  | _, [] => True
  | l, env :: rest => P l env ∧ Each cfg P (l.submit cfg env) rest

theorem PacedLife.Paced.each {P : PacedLife → Env → Prop} (enabled : 0 < cfg.maxSubmitsPerSec)
    (bounded : cfg.maxSubmitsPerSec < 2 ^ 31)
    (holds : ∀ l now env, PacedLife.Paced cfg l now → now ≤ env.mono → P l env)
    (paced : l.Paced cfg now) {submits : List Env} (later : ∀ env ∈ submits, now ≤ env.mono)
    (ordered : submits.Pairwise fun env env' => env.mono ≤ env'.mono) :
    PacedLife.Each cfg P l submits ∧ ∃ last, (l.run cfg submits).Paced cfg last := by
  induction submits generalizing l now with
  | nil => exact ⟨trivial, now, paced⟩
  | cons env rest ih =>
    obtain ⟨first, ordered⟩ := List.pairwise_cons.mp ordered
    have here := later env List.mem_cons_self
    obtain ⟨each, ended⟩ := ih (paced.submit enabled bounded here) first ordered
    exact ⟨⟨holds l now env paced here, each⟩, ended⟩

end Lives

/-- The refused submits that no report speaks of, and when the last report was made. -/
structure Backlog where
  unreported : Nat
  reportedAt : UInt64

/-- One more, which a report takes along when the last one is long enough ago. -/
def Backlog.refuse (b : Backlog) (mono : UInt64) : Backlog :=
  if b.reportedAt ≠ 0 ∧ mono - b.reportedAt < rlReportIntervalMs then
    ⟨b.unreported + 1, b.reportedAt⟩
  else ⟨0, mono⟩

/-- No submit is refused while 2^32 - 1 of them are unreported. -/
def FitsCounter (limit : Nat) : Window → Backlog → List UInt64 → Prop
  | _, _, [] => True
  | w, b, mono :: rest =>
    match letThrough 1000 limit w mono.toNat with
    | some w => FitsCounter limit w b rest
    | none => b.unreported + 1 < 2 ^ 32 ∧ FitsCounter limit w (b.refuse mono) rest

/-- What was reported, and what the counter still holds. -/
def PacedLife.counted (l : PacedLife) : Nat := l.reported.sum + l.conn.rlLimited.toNat

theorem freedCounts_sum (c : Conn) : (freedCounts c).sum = c.rlLimited.toNat := by
  rw [freedCounts]
  split_ifs with some
  · rw [List.sum_singleton]
  · have zero : c.rlLimited = 0 := by simpa using some
    rw [zero]
    rfl

/-- A report takes along what the counter holds. -/
theorem submitRateReport_keeps (cfg : Cfg) (c : Conn) (env : Env) :
    (reportedCounts c env.mono).sum + (submitRateReport cfg c env).1.rlLimited.toNat =
      c.rlLimited.toNat := by
  rw [reportedCounts, submitRateReport]
  split_ifs <;> simp

section Counts

variable {cfg : Cfg} {l : PacedLife} {now : UInt64}

/-- Nothing that was lost comes back. -/
theorem PacedLife.run_short (enabled : 0 < cfg.maxSubmitsPerSec)
    (bounded : cfg.maxSubmitsPerSec < 2 ^ 31)
    (paced : l.Paced cfg now) (short : l.counted < l.refused) {submits : List Env}
    (later : ∀ env ∈ submits, now ≤ env.mono)
    (ordered : submits.Pairwise fun env env' => env.mono ≤ env'.mono) :
    (l.run cfg submits).counted < (l.run cfg submits).refused := by
  induction submits generalizing l now with
  | nil => exact short
  | cons env rest ih =>
    obtain ⟨first, ordered⟩ := List.pairwise_cons.mp ordered
    have here := later env List.mem_cons_self
    have started := UInt64.le_trans paced.started here
    refine ih (paced.submit enabled bounded here) ?_ first ordered
    cases verdict : letThrough 1000 (submitLimit cfg) l.conn.rateWindow env.mono.toNat with
    | some w =>
      obtain ⟨_, refused, reported, _, limited, _⟩ :=
        PacedLife.submit_letThrough bounded env started verdict
      rw [counted, refused, reported, limited]
      exact short
    | none =>
      have answer := PacedLife.submit_refuse enabled env started verdict
      dsimp only at answer
      rw [answer, counted]
      dsimp only
      have keeps := submitRateReport_keeps cfg
        { l.conn with
          rlLimited := l.conn.rlLimited + 1, rlLimitedTotal := l.conn.rlLimitedTotal + 1 } env
      have most : (l.conn.rlLimited + 1).toNat ≤ l.conn.rlLimited.toNat + 1 := by
        rw [UInt32.toNat_add]
        exact Nat.mod_le ..
      rw [List.sum_append]
      rw [counted] at short
      dsimp only at keeps
      omega

/-- The connection owes what the backlog says, and nothing was lost. -/
structure PacedLife.Owes (l : PacedLife) (b : Backlog) : Prop where
  limited : l.conn.rlLimited.toNat = b.unreported
  reportedAt : l.conn.rlReportedMs = b.reportedAt
  counted : l.counted = l.refused

theorem PacedLife.Owes.submit (enabled : 0 < cfg.maxSubmitsPerSec) (owes : l.Owes b) {env : Env}
    (started : l.conn.rlWindowStartMs ≤ env.mono)
    (refused : letThrough 1000 (submitLimit cfg) l.conn.rateWindow env.mono.toNat = none)
    (fits : b.unreported + 1 < 2 ^ 32) :
    (l.submit cfg env).Owes (b.refuse env.mono) := by
  have answer := PacedLife.submit_refuse enabled env started refused
  have next : (l.conn.rlLimited + 1).toNat = b.unreported + 1 := by
    rw [UInt32.toNat_add, owes.limited]
    exact Nat.mod_eq_of_lt fits
  have nonzero : l.conn.rlLimited + 1 ≠ 0 := by
    intro zero
    rw [zero] at next
    exact absurd next (Nat.succ_ne_zero _).symm
  have total := owes.counted
  rw [PacedLife.counted, owes.limited] at total
  dsimp only at answer
  rw [answer, Backlog.refuse, ← owes.reportedAt, submitRateReport, reportedCounts]
  dsimp only
  rw [if_neg nonzero, if_neg nonzero]
  split_ifs with soon
  · refine ⟨next, rfl, ?_⟩
    rw [PacedLife.counted]
    dsimp only
    rw [next, List.nil_append]
    omega
  · refine ⟨rfl, rfl, ?_⟩
    rw [PacedLife.counted]
    dsimp only
    rw [List.sum_append, List.sum_singleton, next]
    change _ + 0 = _
    omega

/-- The counts are exact for those lives in which the counter never overflows. -/
theorem PacedLife.Owes.exact_iff (enabled : 0 < cfg.maxSubmitsPerSec)
    (bounded : cfg.maxSubmitsPerSec < 2 ^ 31)
    (owes : l.Owes b) (paced : l.Paced cfg now) {submits : List Env}
    (later : ∀ env ∈ submits, now ≤ env.mono)
    (ordered : submits.Pairwise fun env env' => env.mono ≤ env'.mono) :
    FitsCounter (submitLimit cfg) l.conn.rateWindow b (submits.map Env.mono) ↔
      (l.run cfg submits).counted = (l.run cfg submits).refused := by
  induction submits generalizing l now b with
  | nil => exact iff_of_true trivial owes.counted
  | cons env rest ih =>
    obtain ⟨first, ordered⟩ := List.pairwise_cons.mp ordered
    have here := later env List.mem_cons_self
    have started := UInt64.le_trans paced.started here
    have next := paced.submit enabled bounded here
    have split : l.run cfg (env :: rest) = (l.submit cfg env).run cfg rest := rfl
    rw [split, List.map_cons, FitsCounter]
    cases verdict : letThrough 1000 (submitLimit cfg) l.conn.rateWindow env.mono.toNat with
    | some w =>
      obtain ⟨_, refused, reported, window, limited, at'⟩ :=
        PacedLife.submit_letThrough bounded env started verdict
      have still : (l.submit cfg env).Owes b := by
        refine ⟨by rw [limited]; exact owes.limited, by rw [at']; exact owes.reportedAt, ?_⟩
        rw [PacedLife.counted, refused, reported, limited]
        exact owes.counted
      rw [← ih still next first ordered, window]
    | none =>
      dsimp only
      by_cases fits : b.unreported + 1 < 2 ^ 32
      · have answer := PacedLife.submit_refuse enabled env started verdict
        have window : (l.submit cfg env).conn.rateWindow = l.conn.rateWindow := by
          dsimp only at answer
          rw [answer]
          exact (submitRateReport_fields cfg _ env).1
        rw [← ih (owes.submit enabled started verdict fits) next first ordered, window]
        exact and_iff_right fits
      · -- the counter starts again from nothing
        have answer := PacedLife.submit_refuse enabled env started verdict
        have lost : (l.submit cfg env).counted < (l.submit cfg env).refused := by
          dsimp only at answer
          rw [answer, PacedLife.counted]
          dsimp only
          have keeps := submitRateReport_keeps cfg
            { l.conn with
              rlLimited := l.conn.rlLimited + 1, rlLimitedTotal := l.conn.rlLimitedTotal + 1 } env
          have full : l.conn.rlLimited.toNat + 1 = 2 ^ 32 := by
            have most := l.conn.rlLimited.toNat_lt
            rw [owes.limited] at most ⊢
            omega
          have wrapped : (l.conn.rlLimited + 1).toNat = 0 := by
            rw [UInt32.toNat_add]
            change (l.conn.rlLimited.toNat + 1) % 2 ^ 32 = 0
            rw [full, Nat.mod_self]
          have total := owes.counted
          rw [PacedLife.counted] at total
          rw [List.sum_append]
          dsimp only at keeps
          omega
        have short := run_short enabled bounded next lost first ordered
        exact iff_of_false (fun both => fits both.1) short.ne

end Counts

/-- Bursts are bounded, every refusal follows on as many submits as are allowed in a second,
and every refusal is reported in the end. -/
structure LimiterKeeps (cfg : Cfg) (l : PacedLife) (submits : List Env) : Prop where
  burst : ∀ a length,
  (((l.run cfg submits).passed.map UInt64.toNat).countP fun t => a ≤ t ∧ t < a + length) ≤
    submitLimit cfg * (periods 1000 length + 1)
  earned : l.Each cfg (fun l env => (submitRateExceeded cfg l.conn env.mono).1 = true →
    submitLimit cfg ≤ (l.passed.map UInt64.toNat).countP fun t => t ≤ env.mono.toNat ∧
    env.mono.toNat < t + 1000) submits
  exact : (freedCounts (l.run cfg submits).conn ++ (l.run cfg submits).reported).sum =
      (l.run cfg submits).refused

theorem PacedLife.Paced.earned {l : PacedLife} (enabled : 0 < cfg.maxSubmitsPerSec)
    (bounded : cfg.maxSubmitsPerSec < 2 ^ 31)
    (paced : l.Paced cfg now) {env : Env} (later : now ≤ env.mono)
    (refused : (submitRateExceeded cfg l.conn env.mono).1 = true) :
    submitLimit cfg ≤ (l.passed.map UInt64.toNat).countP fun t => t ≤ env.mono.toNat ∧
    env.mono.toNat < t + 1000 := by
  have started := UInt64.le_trans paced.started later
  have given : 0 < submitLimit cfg := by
    rw [submitLimit]
    omega
  cases verdict : letThrough 1000 (submitLimit cfg) l.conn.rateWindow env.mono.toNat with
  | some w =>
    rw [(submitRateExceeded_letThrough bounded started verdict).1] at refused
    contradiction
  | none => exact paced.log.refused (UInt64.le_iff_toNat_le.mp later) given verdict

/-- The counts of a fresh connection, where nothing is owed yet. -/
theorem reported_exact_iff (cfg : Cfg) (enabled : 0 < cfg.maxSubmitsPerSec)
    (bounded : cfg.maxSubmitsPerSec < 2 ^ 31) (peerIp : Bytes) (pol : Listener) (submits : List Env)
    (ordered : submits.Pairwise fun env env' => env.mono ≤ env'.mono) :
    FitsCounter (submitLimit cfg) ⟨0, 0⟩ ⟨0, 0⟩ (submits.map Env.mono) ↔
      (freedCounts ((PacedLife.start cfg peerIp pol).run cfg submits).conn ++
        ((PacedLife.start cfg peerIp pol).run cfg submits).reported).sum =
          ((PacedLife.start cfg peerIp pol).run cfg submits).refused := by
  have owes : (PacedLife.start cfg peerIp pol).Owes ⟨0, 0⟩ := ⟨rfl, rfl, rfl⟩
  rw [List.sum_append, freedCounts_sum, Nat.add_comm]
  exact owes.exact_iff enabled bounded (PacedLife.start_paced cfg peerIp pol)
    (fun _ _ => UInt64.zero_le) ordered

/-- The limiter does what it says for exactly those lives in which the counter of unreported
refusals does not overflow. The limit is an `int`. -/
theorem limiter_keeps_iff (cfg : Cfg) (enabled : 0 < cfg.maxSubmitsPerSec)
    (bounded : cfg.maxSubmitsPerSec < 2 ^ 31) (peerIp : Bytes) (pol : Listener) (submits : List Env)
    (ordered : submits.Pairwise fun env env' => env.mono ≤ env'.mono) :
    LimiterKeeps cfg (PacedLife.start cfg peerIp pol) submits ↔
      FitsCounter (submitLimit cfg) ⟨0, 0⟩ ⟨0, 0⟩ (submits.map Env.mono) := by
  rw [reported_exact_iff cfg enabled bounded peerIp pol submits ordered]
  constructor
  · exact LimiterKeeps.exact
  · intro exact
    obtain ⟨earned, _, ended⟩ := (PacedLife.start_paced cfg peerIp pol).each enabled bounded
      (fun _ _ _ paced later => paced.earned enabled bounded later) (fun _ _ => UInt64.zero_le)
        ordered
    exact ⟨ended.log.interval, earned, exact⟩

def pacedCfg : Cfg := { soloCfg with maxSubmitsPerSec := 1 }

def pacedAt (mono : UInt64) : Env := { soloEnv with mono := mono }

def pacedStart : PacedLife := PacedLife.start pacedCfg [] ⟨0, 0, 0, 0, 0⟩

theorem limiter_keeps_slow :
    LimiterKeeps pacedCfg pacedStart [pacedAt 1000, pacedAt 1500, pacedAt 2000] := by
  refine (limiter_keeps_iff pacedCfg (by decide) (by decide) _ _ _ (by decide)).mpr ?_
  exact ⟨by decide, trivial⟩

/-- One submit passes, one is refused and reported, and the others follow within the second. -/
def flooded (n : Nat) : List Env := pacedAt 1000 :: pacedAt 1000 :: List.replicate n (pacedAt 1000)

/-- A flood that nothing is reported of. -/
theorem fitsCounter_flood (full : letThrough 1000 limit w mono.toNat = none)
    (reported : b.reportedAt ≠ 0) (soon : mono - b.reportedAt < rlReportIntervalMs) (some : 0 < n)
    (fits : FitsCounter limit w b (List.replicate n mono)) :
    b.unreported + n < 2 ^ 32 := by
  induction n generalizing b with
  | zero => contradiction
  | succ n ih =>
    rw [List.replicate_succ, FitsCounter, full] at fits
    obtain ⟨fits, later⟩ := fits
    rcases Nat.eq_zero_or_pos n with rfl | more
    · exact fits
    · have held : b.refuse mono = ⟨b.unreported + 1, b.reportedAt⟩ := if_pos ⟨reported, soon⟩
      rw [held] at later
      have bound := ih (b := ⟨b.unreported + 1, b.reportedAt⟩) reported soon more later
      dsimp only at bound
      omega

theorem flooded_ordered (n : Nat) : (flooded n).Pairwise fun env env' => env.mono ≤ env'.mono := by
  have same : ∀ env ∈ flooded n, env = pacedAt 1000 := by
    intro env member
    rcases List.mem_cons.mp member with rfl | member
    · rfl
    · rcases List.mem_cons.mp member with rfl | member
      · rfl
      · exact List.eq_of_mem_replicate member
  refine List.Pairwise.imp_of_mem ?_ (List.pairwise_of_forall fun _ _ => trivial)
  intro env env' member member' _
  rw [same env member, same env' member']
  exact UInt64.le_refl _

theorem flooded_fits (some : 0 < n)
    (fits : FitsCounter (submitLimit pacedCfg) ⟨0, 0⟩ ⟨0, 0⟩ ((flooded n).map Env.mono)) :
    n < 2 ^ 32 := by
  have rest : (flooded n).map Env.mono = 1000 :: 1000 :: List.replicate n 1000 := by
    rw [flooded, List.map_cons, List.map_cons, List.map_replicate]
    rfl
  rw [rest] at fits
  have held : FitsCounter (submitLimit pacedCfg) ⟨1000, 1⟩ ⟨0, 1000⟩ (List.replicate n 1000) :=
    fits.2
  have bound := fitsCounter_flood (b := ⟨0, 1000⟩) (by decide) (by decide) (by decide) some held
  dsimp only at bound
  omega

/-- Of 2^32 + 1 refusals one is reported. -/
theorem limiter_loses_flood : ¬LimiterKeeps pacedCfg pacedStart (flooded (2 ^ 32)) := by
  intro keeps
  have fits := (reported_exact_iff pacedCfg (by decide) (by decide) [] ⟨0, 0, 0, 0, 0⟩ _
    (flooded_ordered (2 ^ 32))).mpr keeps.exact
  exact lt_irrefl _ (flooded_fits (Nat.two_pow_pos 32) fits)

end SimplePool.Stratum
