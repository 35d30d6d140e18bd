import SimplePool.Stratum.NetworkCeiling

/-! The difficulty a port assigns. Authorize, a request and a retarget each have their own
bounds, and the port's floor and the chain's difficulty bind all three. -/
namespace SimplePool.Stratum
open Transition Wire Coinbase

/-- What vardiff reads of a connection. -/
structure Pace where
  difficulty : ℚ
  requestedMinDiff : ℚ
  polVardiffMin : ℚ
  polVardiffMax : ℚ
  polMinDiff : ℚ
  vdWindowStartMs : UInt64
  vdWindowShares : UInt32
  vdWindowMinAchieved : WithTop ℚ
  vdWindowMaxAssigned : ℚ

def Conn.pace (c : Conn) : Pace where
  difficulty := c.difficulty
  requestedMinDiff := c.requestedMinDiff
  polVardiffMin := c.polVardiffMin
  polVardiffMax := c.polVardiffMax
  polMinDiff := c.polMinDiff
  vdWindowStartMs := c.vdWindowStartMs
  vdWindowShares := c.vdWindowShares
  vdWindowMinAchieved := c.vdWindowMinAchieved
  vdWindowMaxAssigned := c.vdWindowMaxAssigned

/-- The window has run its time, and longer where it holds too few shares. -/
def closesWindow (cfg : Cfg) (c : Conn) (now : UInt64) : Prop :=
  let elapsedMs := now - c.vdWindowStartMs
  let windowMs := UInt64.ofNat cfg.vardiffWindowSec * 1000
  let mult := if 0 < cfg.vardiffMaxWindowMult then cfg.vardiffMaxWindowMult else 8
  cfg.vardiffEnabled = true ∧ c.vdWindowStartMs ≠ 0 ∧ windowMs ≤ elapsedMs ∧
    (underSampled cfg c = true → windowMs * UInt64.ofNat mult.toNat ≤ elapsedMs)

/-- What the window proposes. -/
def proposal (fp : Fpu) (cfg : Cfg) (c : Conn) (now : UInt64) : ℚ :=
  let rate := rateProposal fp cfg c (now - c.vdWindowStartMs)
  match floorProposal fp c with
  | some floor => if rate < floor then floor else rate
  | none => rate

/-- The difficulty a closed window leads to. -/
def retarget (fp : Fpu) (cfg : Cfg) (jobs : Jobs) (c : Conn) (now : UInt64) : ℚ :=
  clampAssignedDifficulty fp jobs c (boundProposal c (proposal fp cfg c now))

theorem vardiffMaybeRetarget_closed {fp : Fpu} {cfg : Cfg} {jobs : Jobs} {c : Conn} {now : UInt64}
    (closes : closesWindow cfg c now) :
    (vardiffMaybeRetarget fp cfg jobs c now).1.difficulty = retarget fp cfg jobs c now ∧
      ∀ d, Line.setDifficulty d ∈ (vardiffMaybeRetarget fp cfg jobs c now).2 →
      d = retarget fp cfg jobs c now := by
  obtain ⟨enabled, armed, elapsed, sampled⟩ := closes
  have early : ¬now - c.vdWindowStartMs < UInt64.ofNat cfg.vardiffWindowSec * 1000 :=
    UInt64.not_lt.mpr elapsed
  have extended : ¬(underSampled cfg c && decide (now - c.vdWindowStartMs <
      UInt64.ofNat cfg.vardiffWindowSec * 1000 *
      UInt64.ofNat (if 0 < cfg.vardiffMaxWindowMult then cfg.vardiffMaxWindowMult else 8).toNat)) =
        true := by
    rw [Bool.and_eq_true, not_and, decide_eq_true_eq, UInt64.not_lt]
    exact sampled
  rw [vardiffMaybeRetarget]
  simp only [enabled, Bool.not_true, Bool.false_eq_true, if_false, armed, early, extended]
  change (if retarget fp cfg jobs c now ≠ c.difficulty then _
    else _ : Conn × List Line).1.difficulty = _ ∧
    ∀ d, _ ∈ (if retarget fp cfg jobs c now ≠ c.difficulty then _ else _ : Conn × List Line).2 → _
  split_ifs with moved
  · refine ⟨rfl, ?_⟩
    intro d told
    exact Line.setDifficulty.inj (List.mem_singleton.mp told)
  · exact ⟨(not_not.mp moved).symm, by simp⟩

theorem vardiffMaybeRetarget_open {fp : Fpu} {cfg : Cfg} {jobs : Jobs} {c : Conn} {now : UInt64}
    (still : ¬closesWindow cfg c now) :
    (vardiffMaybeRetarget fp cfg jobs c now).1.difficulty = c.difficulty ∧
      (vardiffMaybeRetarget fp cfg jobs c now).2 = [] := by
  rw [vardiffMaybeRetarget]
  extract_lets elapsedMs windowMs mult
  split_ifs with disabled unarmed early extended
  · exact ⟨rfl, rfl⟩
  · exact ⟨rfl, rfl⟩
  · exact ⟨rfl, rfl⟩
  · exact ⟨rfl, rfl⟩
  all_goals
    refine absurd ⟨by simpa using disabled, unarmed, UInt64.not_lt.mp early, ?_⟩ still
    intro few
    exact UInt64.not_lt.mp fun short =>
      extended (by rw [few, Bool.true_and]; exact decide_eq_true short)

section Pace

variable {fp : Fpu} {cfg : Cfg} {jobs : Jobs} {c c' : Conn}

/-- Vardiff makes the same of connections that it reads the same of. -/
theorem retarget_congr (same : c'.pace = c.pace) (now : UInt64) :
    retarget fp cfg jobs c' now = retarget fp cfg jobs c now ∧
    (closesWindow cfg c' now ↔ closesWindow cfg c now) := by
  cases c
  cases c'
  simp only [Conn.pace, Pace.mk.injEq] at same
  obtain ⟨rfl, rfl, rfl, rfl, rfl, rfl, rfl, rfl, rfl⟩ := same
  exact ⟨rfl, Iff.rfl⟩

theorem submitRateExceeded_pace (mono : UInt64) :
    (submitRateExceeded cfg c mono).2.pace = c.pace := by
  simp only [submitRateExceeded, Conn.rollRateWindow]
  split_ifs <;> rfl

theorem dedupeCheckAndAdd_pace (h : UInt64) : (dedupeCheckAndAdd c h).2.pace = c.pace := by
  rw [dedupeCheckAndAdd]
  split_ifs <;> rfl

theorem connRenderCoinbase_pace (rendered : connRenderCoinbase fp cfg c job = some r) :
    r.pace = c.pace := by
  rw [connRenderCoinbase_eq rendered]
  rfl

theorem countShare_pace (same : c'.pace = c.pace)
    (assigned : assignedDiff c' job = assignedDiff c job) (hash : Bytes) :
    (c'.countShare fp job hash).pace = (c.countShare fp job hash).pace := by
  simp only [Conn.countShare, assigned]
  cases c
  cases c'
  simp only [Conn.pace, Pace.mk.injEq] at same ⊢
  obtain ⟨rfl, rfl, rfl, rfl, rfl, rfl, rfl, rfl, rfl⟩ := same
  trivial

end Pace

/-- A submit that reaches a hash is hashed on its connection as the limiter, the filter and
the renderer leave it. -/
theorem Reaches.hashed (reaches : Reaches fp env s c params w) :
    ∃ r, c.Rendered r w.job w.parts ∧ r.pace = c.pace ∧
      handleSubmit fp env s c params =
        submitHash fp env s r w.job w.en2 w.version w.ntime w.nonce := by
  have paced := submitRateExceeded_sameWork s.cfg c env.mono
  have ring := submitRateExceeded_dedupe s.cfg c env.mono
  have pace : (submitRateExceeded s.cfg c env.mono).2.pace = c.pace :=
    submitRateExceeded_pace env.mono
  have passed := reaches.paced
  rw [handleSubmit, reaches.authorized, Bool.not_true, if_neg Bool.false_ne_true]
  cases limited : submitRateExceeded s.cfg c env.mono with
  | mk verdict c' =>
    rw [limited] at paced ring pace passed
    dsimp only at paced ring pace passed ⊢
    obtain rfl := passed
    dsimp only
    rw [reaches.submission, reaches.ungated]
    dsimp only
    rw [if_neg Bool.false_ne_true, reaches.job]
    dsimp only
    rw [submitWithJob, paced.submitVersion, reaches.version]
    dsimp only
    have unseen := dedupeCheckAndAdd_fst c' (submitKey w.job.jobId w.sub w.version)
    rw [Conn.remembers_congr ring, reaches.unseen] at unseen
    have filtered :=
      paced.trans (dedupeCheckAndAdd_sameWork c' (submitKey w.job.jobId w.sub w.version))
    have pace' : (dedupeCheckAndAdd c' (submitKey w.job.jobId w.sub w.version)).2.pace = c.pace :=
      (dedupeCheckAndAdd_pace _).trans pace
    cases added : dedupeCheckAndAdd c' (submitKey w.job.jobId w.sub w.version) with
    | mk dup c'' =>
      rw [added] at unseen filtered pace'
      dsimp only at unseen filtered pace' ⊢
      obtain rfl := unseen
      dsimp only
      rw [reaches.ntime, reaches.nonce]
      dsimp only
      rw [reaches.inRange, Bool.not_true, if_neg Bool.false_ne_true, reaches.en2]
      dsimp only
      rw [if_neg (not_not.mpr reaches.en2Size)]
      have found := filtered.coinbaseFor fp s.cfg w.job
      rw [reaches.parts, coinbaseFor] at found
      obtain ⟨r, rendered, same⟩ := Option.map_eq_some_iff.mp found
      rw [rendered]
      refine ⟨r, ?_, (connRenderCoinbase_pace rendered).trans pace', rfl⟩
      rw [← same]
      exact filtered.rendered rendered

/-- The share is credited: it is new, and proves a difficulty that counts. -/
structure Credits (fp : Fpu) (env : Env) (s : Server) (c : Conn) (params : Json) (w : Work) :
    Prop where
  reaches : Reaches fp env s c params w
  unseen : dedupeKey (fnv1a (w.hash c)) ∉ s.shareDedupe.recent
  judged : (judge fp c w.job (w.hash c)).isSome = true

/-- The connection a retarget judges, with the share counted in. -/
def Work.counted (w : Work) (fp : Fpu) (c : Conn) : Conn := c.countShare fp w.job (w.hash c)

/-- A credited share that closes its window retargets. -/
theorem Credits.retargets (credits : Credits fp env s c params w)
    (closes : closesWindow s.cfg (w.counted fp c) env.now) :
    (handleSubmit fp env s c params).conn.difficulty =
      retarget fp s.cfg s.jobs (w.counted fp c) env.now ∧
      ∀ d, Line.setDifficulty d ∈ (handleSubmit fp env s c params).lines →
        d = retarget fp s.cfg s.jobs (w.counted fp c) env.now := by
  obtain ⟨r, rendered, pace, hashed⟩ := credits.reaches.hashed
  rw [hashed]
  rcases submitHash_cases rendered fp env s with ⟨seen, _⟩ | ⟨_, ⟨low, _⟩ | ⟨verdict, _, out⟩⟩
  · exact absurd seen credits.unseen
  · have judged := credits.judged
    rw [low] at judged
    contradiction
  · have counted : (r.countShare fp w.job (w.hash c)).pace = (w.counted fp c).pace :=
      countShare_pace pace (assignedDiff_congr rendered.difficulty rendered.jobDiffs w.job)
        (w.hash c)
    obtain ⟨same, closed⟩ := @retarget_congr fp s.cfg s.jobs _ _ counted env.now
    obtain ⟨difficulty, told⟩ :=
      @vardiffMaybeRetarget_closed fp s.cfg s.jobs _ _ (closed.mpr closes)
    rw [same] at difficulty told
    rw [out]
    refine ⟨difficulty, ?_⟩
    intro d sent
    rcases List.mem_append.mp sent with first | last
    · exact told d first
    · exact absurd (List.mem_singleton.mp last) Line.noConfusion

/-- Any other submit leaves the difficulty as it is, and says nothing about it. -/
theorem handleSubmit_retarget (fp : Fpu) (env : Env) (s : Server) (c : Conn) (params : Json) :
    (∃ w, Credits fp env s c params w ∧ closesWindow s.cfg (w.counted fp c) env.now) ∨
      ((handleSubmit fp env s c params).conn.difficulty = c.difficulty ∧
        ∀ d, Line.setDifficulty d ∉ (handleSubmit fp env s c params).lines) := by
  rcases handleSubmit_cases fp env s c params with ⟨w, _, reaches, _, _⟩ | ⟨_, unhashed⟩
  · obtain ⟨r, rendered, pace, hashed⟩ := reaches.hashed
    rw [hashed]
    rcases submitHash_cases rendered fp env s with
      ⟨_, out⟩ | ⟨unseen, ⟨_, out⟩ | ⟨verdict, judged, out⟩⟩
    · rw [out]
      exact .inr ⟨rendered.difficulty, by simp [refuseObserved]⟩
    · rw [out]
      exact .inr ⟨rendered.difficulty, by simp [refuseObserved]⟩
    · by_cases closes : closesWindow s.cfg (w.counted fp c) env.now
      · exact .inl ⟨w, ⟨reaches, unseen, by rw [judged]; rfl⟩, closes⟩
      · have counted : (r.countShare fp w.job (w.hash c)).pace = (w.counted fp c).pace :=
          countShare_pace pace (assignedDiff_congr rendered.difficulty rendered.jobDiffs w.job)
            (w.hash c)
        obtain ⟨_, closed⟩ := @retarget_congr fp s.cfg s.jobs _ _ counted env.now
        obtain ⟨difficulty, told⟩ :=
          @vardiffMaybeRetarget_open fp s.cfg s.jobs _ _ (closes ∘ closed.mp)
        rw [out]
        refine .inr ⟨difficulty.trans rendered.difficulty, ?_⟩
        simp only [credit, Server.recordHash, told, List.nil_append, List.mem_singleton,
          reduceCtorEq, not_false_eq_true, implies_true]
  · obtain ⟨code, message, lines⟩ := unhashed.refused
    exact .inr ⟨unhashed.conn.difficulty, by simp [lines]⟩

theorem underCeiling_eq (positive : 0 < ceiling fp jobs) (diff : ℚ) :
    (underCeiling (currentNetDiff fp jobs) diff : WithTop ℚ) =
      min (diff : WithTop ℚ) (ceiling fp jobs) := by
  cases current : jobs.current with
  | none =>
    simp only [currentNetDiff, ceiling, current, min_top_right]
    change ((if (0 : ℚ) < 0 ∧ 0 < diff then 0 else diff : ℚ) : WithTop ℚ) = diff
    rw [if_neg (fun lower => lt_irrefl _ lower.1)]
  | some job =>
    have net : currentNetDiff fp jobs = ceiling fp jobs := by rw [currentNetDiff, ceiling, current]
    rw [net]
    cases bound : ceiling fp jobs with
    | top => rw [min_top_right]; rfl
    | coe net =>
      rw [bound] at positive
      change ((if 0 < net ∧ net < diff then net else diff : ℚ) : WithTop ℚ) = _
      split_ifs with lower
      · rw [min_eq_right (WithTop.coe_le_coe.mpr lower.2.le)]
      · have least : diff ≤ net := not_lt.mp fun less => lower ⟨WithTop.coe_pos.mp positive, less⟩
        rw [min_eq_left (WithTop.coe_le_coe.mpr least)]

/-- The ceiling first, and the floor wins. -/
theorem clampAssignedDifficulty_eq {diff : ℚ} (positive : 0 < ceiling fp jobs) (given : 0 < diff) :
    (clampAssignedDifficulty fp jobs c diff : WithTop ℚ) =
      max (c.polMinDiff : WithTop ℚ) (min (diff : WithTop ℚ) (ceiling fp jobs)) := by
  have under := underCeiling_pos given (currentNetDiff fp jobs)
  rw [← underCeiling_eq positive, clampAssignedDifficulty]
  generalize underCeiling (currentNetDiff fp jobs) diff = u at under ⊢
  rw [← WithTop.coe_max]
  split_ifs with promised none none
  · exact absurd promised.1 (not_lt.mpr none)
  · rw [max_eq_left promised.2.le]
  · exact absurd under (not_lt.mpr none)
  · have below : c.polMinDiff ≤ u := by
      by_contra above
      exact promised ⟨under.trans (not_le.mp above), not_le.mp above⟩
    rw [max_eq_right below]

/-- What a port may tell its miner: its own floor, and the chain where that is higher. -/
structure Conn.Allows (c : Conn) (fp : Fpu) (jobs : Jobs) (d : ℚ) : Prop where
  positive : 0 < d
  floor : c.polMinDiff ≤ d
  ceiling : (d : WithTop ℚ) ≤ max (c.polMinDiff : WithTop ℚ) (ceiling fp jobs)

theorem Conn.allows_clamped {c : Conn} {diff : ℚ} (positive : 0 < ceiling fp jobs)
    (given : 0 < diff) :
    c.Allows fp jobs (clampAssignedDifficulty fp jobs c diff) where
  positive := clampAssignedDifficulty_pos ..
  floor := by
    rw [← WithTop.coe_le_coe, clampAssignedDifficulty_eq positive given]
    exact le_max_left ..
  ceiling := by
    rw [clampAssignedDifficulty_eq positive given]
    exact max_le_max le_rfl (min_le_right ..)

theorem boundProposal_keeps {diff : ℚ} (given : 0 < diff) : 0 < boundProposal c diff := by
  unfold boundProposal
  extract_lets asked least
  have raised : 0 < least := by
    unfold least asked
    split_ifs <;> linarith
  split_ifs with capped
  · exact capped.1
  · exact raised

/-- A proposal is raised to the request and the port's minimum, and to nothing else. -/
theorem boundProposal_le (c : Conn) (diff : ℚ) :
    boundProposal c diff ≤ max diff (max c.requestedMinDiff c.polVardiffMin) := by
  unfold boundProposal
  extract_lets asked least
  have raised : asked ≤ max diff c.requestedMinDiff := by
    unfold asked
    split_ifs
    · exact le_max_right ..
    · exact le_max_left ..
  have most : least ≤ max diff (max c.requestedMinDiff c.polVardiffMin) := by
    rw [← max_assoc]
    unfold least
    split_ifs
    · exact le_max_right ..
    · exact raised.trans (le_max_left ..)
  split_ifs with capped
  · exact capped.2.le.trans most
  · exact most

/-- The smallest of the miner's request, the port's maximum and the chain, as far as they
are set. -/
def lowestLimit (fp : Fpu) (jobs : Jobs) (c : Conn) : WithTop ℚ :=
  min (min (if 0 < c.requestedMinDiff then (c.requestedMinDiff : WithTop ℚ) else ⊤)
    (if 0 < c.polVardiffMax then (c.polVardiffMax : WithTop ℚ) else ⊤)) (ceiling fp jobs)

/-- A miner that asked for a difficulty is served it, up to the port's maximum. -/
theorem le_boundProposal (asked : 0 < c.requestedMinDiff) (diff : ℚ) :
    min (c.requestedMinDiff : WithTop ℚ) (if 0 < c.polVardiffMax then (c.polVardiffMax : WithTop ℚ)
      else ⊤) ≤
      (boundProposal c diff : WithTop ℚ) := by
  unfold boundProposal
  extract_lets raised least
  have served : c.requestedMinDiff ≤ least := by
    have first : c.requestedMinDiff ≤ raised := by
      unfold raised
      split_ifs with below
      · exact le_rfl
      · exact not_lt.mp fun less => below ⟨asked, less⟩
    unfold least
    split_ifs with below
    · exact first.trans below.le
    · exact first
  split_ifs with limited capped capped
  · exact min_le_right ..
  · exact (min_le_left ..).trans (WithTop.coe_le_coe.mpr served)
  · exact absurd capped.1 limited
  · exact (min_le_left ..).trans (WithTop.coe_le_coe.mpr served)

theorem Fpu.ieee_of_exact {fp : Fpu} (exact : ∀ q, fp.round q = q) : fp.Ieee where
  monotone a b le := by rw [exact, exact]; exact le
  twice q := by rw [exact]
  zero := exact 0
  power k _ _ := exact _

theorem one_lt_maxStep (cfg : Cfg) (c : Conn) : 1 < maxStep cfg c := by
  rw [maxStep]
  split_ifs with _ idle
  · exact idle
  · norm_num
  · norm_num

/-- One step of the rate loop, in either direction. -/
theorem rateProposal_step {fp : Fpu} (exact : ∀ q, fp.round q = q) (cfg : Cfg) {c : Conn}
    (positive : 0 < c.difficulty)
    (elapsedMs : UInt64) : c.difficulty / maxStep cfg c ≤ rateProposal fp cfg c elapsedMs ∧
      rateProposal fp cfg c elapsedMs ≤ c.difficulty * maxStep cfg c := by
  have step := one_lt_maxStep cfg c
  have down : c.difficulty / maxStep cfg c ≤ c.difficulty := div_le_self positive.le step.le
  have up : c.difficulty ≤ c.difficulty * maxStep cfg c :=
    le_mul_of_one_le_right positive.le step.le
  simp only [rateProposal, Fpu.mul, Fpu.div, exact]
  split
  next => rw [if_neg (not_lt.mpr (down.trans up))]; exact ⟨down.trans up, le_rfl⟩
  next ratio _ =>
    split_ifs with moved above below below
    · exact absurd below (not_lt.mpr (down.trans up))
    · exact ⟨down.trans up, le_rfl⟩
    · exact ⟨le_rfl, down.trans up⟩
    · exact ⟨not_lt.mp below, not_lt.mp above⟩
    · exact ⟨down, up⟩

theorem proposal_le {fp : Fpu} (exact : ∀ q, fp.round q = q) (cfg : Cfg) (c : Conn) (now : UInt64) :
    proposal fp cfg c now ≤ rateProposal fp cfg c (now - c.vdWindowStartMs) ∨
      ∃ achieved :
      ℚ, c.vdWindowMinAchieved = achieved ∧ proposal fp cfg c now ≤ 19 / 20 * achieved := by
  rw [proposal]
  split
  next floor proposed =>
    split_ifs
    · rw [floorProposal] at proposed
      split at proposed
      next => contradiction
      next achieved smallest =>
        split_ifs at proposed
        obtain rfl := Option.some.inj proposed
        refine .inr ⟨achieved, smallest, ?_⟩
        rw [Fpu.mul, exact, exact, mul_comm]
    · exact .inl le_rfl
  next => exact .inl le_rfl

theorem proposal_pos {fp : Fpu} (exact : ∀ q, fp.round q = q) (cfg : Cfg) {c : Conn}
    (positive : 0 < c.difficulty) (now : UInt64) : 0 < proposal fp cfg c now := by
  have rate : 0 < rateProposal fp cfg c (now - c.vdWindowStartMs) :=
    lt_of_lt_of_le (div_pos positive (one_pos.trans (one_lt_maxStep cfg c)))
      (rateProposal_step exact cfg positive _).1
  rw [proposal]
  split
  next =>
    split_ifs with raised
    · exact rate.trans raised
    · exact rate
  next => exact rate

/-- Where a retarget leaves the difficulty: no lower than a request that the port and the
chain have room for, and no higher than something asks for. -/
structure Conn.Retargeted (c : Conn) (fp : Fpu) (cfg : Cfg) (jobs : Jobs) (now : UInt64) (d : ℚ) :
    Prop where
  lower : 0 < c.requestedMinDiff → lowestLimit fp jobs c ≤ d
  step : rateProposal fp cfg c (now - c.vdWindowStartMs) ≤ c.difficulty * maxStep cfg c
  upper : d ≤ max (rateProposal fp cfg c (now - c.vdWindowStartMs))
    (max c.requestedMinDiff (max c.polVardiffMin c.polMinDiff)) ∨
    ∃ achieved : ℚ, c.vdWindowMinAchieved = achieved ∧ d ≤ 19 / 20 * achieved

theorem Conn.retargeted {fp : Fpu} (exact : ∀ q, fp.round q = q) (cfg : Cfg) (jobs : Jobs)
    {c : Conn} (positive : 0 < c.difficulty) (now : UInt64) :
    c.Retargeted fp cfg jobs now (retarget fp cfg jobs c now) := by
  have proposed := proposal_pos exact cfg positive now
  have bounded := boundProposal_keeps (c := c) proposed
  have clamped :=
    clampAssignedDifficulty_eq (c := c) ((Fpu.ieee_of_exact exact).ceiling_pos jobs) bounded
  rw [← retarget] at clamped
  refine ⟨?_, (rateProposal_step exact cfg positive _).2, ?_⟩
  · intro asked
    rw [clamped, lowestLimit, if_pos asked]
    exact (min_le_min_right _ (le_boundProposal asked _)).trans (le_max_right ..)
  · have most : retarget fp cfg jobs c now ≤
          max c.polMinDiff (boundProposal c (proposal fp cfg c now)) := by
      rw [← WithTop.coe_le_coe, clamped, WithTop.coe_max]
      exact max_le_max le_rfl (min_le_left ..)
    have raised := most.trans (max_le_max le_rfl (boundProposal_le c _))
    have minima : max c.requestedMinDiff c.polVardiffMin ≤
        max (rateProposal fp cfg c (now - c.vdWindowStartMs))
          (max c.requestedMinDiff (max c.polVardiffMin c.polMinDiff)) :=
      le_max_of_le_right (max_le_max le_rfl (le_max_left ..))
    have promised : c.polMinDiff ≤
        max (rateProposal fp cfg c (now - c.vdWindowStartMs))
          (max c.requestedMinDiff (max c.polVardiffMin c.polMinDiff)) :=
      le_max_of_le_right (le_max_of_le_right (le_max_right ..))
    rcases le_max_iff.mp raised with floor | other
    · exact .inl (floor.trans promised)
    · rcases le_max_iff.mp other with window | port
      · rcases proposal_le exact cfg c now with rate | ⟨achieved, smallest, just⟩
        · exact .inl (window.trans (rate.trans (le_max_left ..)))
        · exact .inr ⟨achieved, smallest, window.trans just⟩
      · exact .inl (port.trans minima)

/-- A connection has a difficulty from the start, and once it is authorized the floor is kept. -/
structure Conn.Served (c : Conn) : Prop where
  difficulty : 0 < c.difficulty
  floor : c.authorized = true → c.polMinDiff ≤ c.difficulty

theorem Conn.Served.of_same {c c' : Conn} (served : c.Served)
    (authorized : c'.authorized = c.authorized)
    (difficulty : c'.difficulty = c.difficulty) (floor : c'.polMinDiff = c.polMinDiff) :
    c'.Served where
  difficulty := by rw [difficulty]; exact served.difficulty
  floor := by rw [authorized, difficulty, floor]; exact served.floor

theorem Conn.Served.of_sameTerms {c c' : Conn} (served : c.Served) (same : c.SameTerms c') :
    c'.Served :=
  served.of_same same.authorized same.difficulty same.polMinDiff

theorem Conn.Served.of_allows {c c' : Conn} {d : ℚ} (allows : c.Allows fp jobs d)
    (difficulty : c'.difficulty = d) (floor : c'.polMinDiff = c.polMinDiff) : c'.Served where
  difficulty := by rw [difficulty]; exact allows.positive
  floor _ := by rw [difficulty, floor]; exact allows.floor

section Requests

variable {fp : Fpu} {env : Env} {s : Server} {c : Conn}

theorem Conn.Served.suggest (served : c.Served) (positive : 0 < ceiling fp s.jobs) (hasId : Bool)
    (params : Json) :
    (handleSuggestDifficulty fp s c hasId params).conn.Served ∧
      ∀ d, Line.setDifficulty d ∈ (handleSuggestDifficulty fp s c hasId params).lines →
      c.Allows fp s.jobs d := by
  simp only [handleSuggestDifficulty]
  by_cases asked : 0 < (params.items[0]?.bind Json.valuedouble).getD 0
  · rw [if_neg (not_not.mpr asked)]
    generalize (params.items[0]?.bind Json.valuedouble).getD 0 = req
    obtain ⟨authorized, raised, assigned⟩ := applyRequestedDiff_cases fp s.cfg s.jobs c req
    have floor : (applyRequestedDiff fp s.cfg s.jobs c req).polMinDiff = c.polMinDiff :=
      (applyRequestedDiff_sameSession req).polMinDiff
    refine ⟨⟨served.difficulty.trans_le raised, ?_⟩, ?_⟩
    · rw [authorized, floor]
      exact fun known => (served.floor known).trans raised
    · intro d sent
      rcases List.mem_append.mp sent with told | answered
      · split_ifs at told with moved
        · obtain ⟨known, moved⟩ := Bool.and_eq_true_iff.mp moved
          obtain rfl := Line.setDifficulty.inj (List.mem_singleton.mp told)
          rcases assigned with same | ⟨diff, given, below⟩
          · exact absurd same (of_decide_eq_true moved)
          · exact ⟨served.difficulty.trans_le raised, (served.floor known).trans raised,
              (WithTop.coe_le_coe.mpr below).trans (c.allows_clamped positive given).ceiling⟩
        · contradiction
      · split_ifs at answered <;> simp at answered
  · rw [if_pos asked]
    exact ⟨served, by simp [refuse]⟩

/-- Whom the server authorizes it assigns a difficulty that the port allows. -/
theorem Conn.Served.authorize_allows (served : c.Served) (positive : 0 < ceiling fp s.jobs)
    (worker : Bytes)
    (pwDiff : WithTop ℚ) : c.Allows fp s.jobs (c.authorize fp s env worker pwDiff).difficulty := by
  unfold Conn.authorize
  extract_lets named req asked
  have raised : 0 < asked.difficulty ∧ asked.polMinDiff = c.polMinDiff := by
    have kept : named.difficulty = c.difficulty := if_neg (not_le.mpr served.difficulty)
    unfold asked
    split_ifs
    · have most := (applyRequestedDiff_cases fp s.cfg s.jobs named req).2.1
      rw [kept] at most
      exact ⟨served.difficulty.trans_le most, (applyRequestedDiff_sameSession req).polMinDiff⟩
    · rw [kept]
      exact ⟨served.difficulty, rfl⟩
  have allowed := asked.allows_clamped positive raised.1
  exact ⟨allowed.positive, raised.2 ▸ allowed.floor, raised.2 ▸ allowed.ceiling⟩

theorem sendCurrentNotify_untold (fp : Fpu) (cfg : Cfg) (jobs : Jobs) (c : Conn) (clean : Bool)
    (d : ℚ) :
    Line.setDifficulty d ∉ (sendCurrentNotify fp cfg jobs c clean).2 := by
  rw [sendCurrentNotify]
  split
  next => simp
  next => split <;> simp

theorem Conn.Served.authorize (served : c.Served) (positive : 0 < ceiling fp s.jobs)
    (params : Json) :
    (handleAuthorize fp env s c params).conn.Served ∧
      ∀ d, Line.setDifficulty d ∈ (handleAuthorize fp env s c params).lines →
      c.Allows fp s.jobs d := by
  cases handleAuthorize_answer fp env s c params with
  | granted s' c' worker pwDiff counted server conn lines =>
    have jobs : s'.jobs = s.jobs := by rw [counted.server]; rfl
    have ready : c'.Served := by rw [counted.conn]; exact served.of_same rfl rfl rfl
    have floor : c'.polMinDiff = c.polMinDiff := counted.sameSession.polMinDiff
    have allows : c'.Allows fp s'.jobs (c'.authorize fp s' env worker pwDiff).difficulty :=
      ready.authorize_allows (jobs ▸ positive) worker pwDiff
    rw [jobs] at allows
    constructor
    · rw [conn]
      refine .of_sameTerms ?_ (sendCurrentNotify_sameTerms true)
      exact .of_allows allows rfl (Conn.authorize_sameSession worker pwDiff).polMinDiff
    · intro d sent
      rw [lines] at sent
      rcases List.mem_append.mp sent with first | rest
      · have told : d = (c'.authorize fp s' env worker pwDiff).difficulty := by simpa using first
        rw [told]
        exact ⟨allows.positive, floor ▸ allows.floor, floor ▸ allows.ceiling⟩
      · exact absurd rest (sendCurrentNotify_untold _ _ _ _ _ d)
  | refused code message lines counted =>
    constructor
    · rw [counted.conn, Conn.refused]
      split_ifs <;> exact served.of_same rfl rfl rfl
    · intro d sent
      simp [lines] at sent

theorem Work.counted_allows (exact : ∀ q, fp.round q = q) (served : c.Served) (w : Work) :
    c.Allows fp s.jobs (retarget fp s.cfg s.jobs (w.counted fp c) env.now) := by
  have proposed := proposal_pos exact s.cfg (c := w.counted fp c) served.difficulty env.now
  have allowed := (w.counted fp c).allows_clamped ((Fpu.ieee_of_exact exact).ceiling_pos s.jobs)
    (boundProposal_keeps (c := w.counted fp c) proposed)
  exact ⟨allowed.positive, allowed.floor, allowed.ceiling⟩

theorem Conn.Served.submit (exact : ∀ q, fp.round q = q) (served : c.Served) (params : Json) :
    (handleSubmit fp env s c params).conn.Served ∧
      ∀ d, Line.setDifficulty d ∈ (handleSubmit fp env s c params).lines →
      c.Allows fp s.jobs d := by
  have floor : (handleSubmit fp env s c params).conn.polMinDiff = c.polMinDiff :=
    (handleSubmit_sameSession params).polMinDiff
  rcases handleSubmit_retarget fp env s c params with ⟨w, credits, closes⟩ | ⟨same, untold⟩
  · have allows : c.Allows fp s.jobs (retarget fp s.cfg s.jobs (w.counted fp c) env.now) :=
      w.counted_allows exact served
    obtain ⟨difficulty, told⟩ := credits.retargets closes
    refine ⟨.of_allows allows difficulty floor, ?_⟩
    intro d sent
    rw [told d sent]
    exact allows
  · refine ⟨?_, fun d sent => absurd sent (untold d)⟩
    cases known : c.authorized with
    | true =>
      exact ⟨by rw [same]; exact served.difficulty,
        fun _ => by rw [same, floor]; exact served.floor known⟩
    | false =>
      have refused : handleSubmit fp env s c params = refuse s c 24 "unauthorized" := by
        rw [handleSubmit, known, Bool.not_false, if_pos rfl]
      rw [refused]
      exact served

end Requests

/-- What `stratum_server_start` makes of its settings. -/
def Cfg.started (cfg : Cfg) : Cfg :=
  { cfg with initialDiff := if cfg.initialDiff ≤ 0 then 1 else cfg.initialDiff }

theorem Cfg.started_initialDiff (cfg : Cfg) : 0 < cfg.started.initialDiff := by
  rw [Cfg.started]
  split_ifs with unset
  · exact one_pos
  · exact not_le.mp unset

/-- Every difficulty a connection is told in this step is one that its port allows, and a
retarget leaves it within bounds. -/
structure PolicyKept (fp : Fpu) (p : Pool) (event : Event) (after : Pool) : Prop where
  told : ∀ i c d, p.conns i = some c → Line.setDifficulty d ∈ linesTo fp p i event →
    c.Allows fp p.server.jobs d
  retargeted : ∀ i env request c c' w, event = .message i env request →
    methodOf request.method = .submit →
    p.conns i = some c → after.conns i = some c' → Credits fp env p.server c request.params w →
    closesWindow p.server.cfg (w.counted fp c) env.now →
    (w.counted fp c).Retargeted fp p.server.cfg p.server.jobs env.now c'.difficulty

/-- Every connection is served a difficulty that its port allows. -/
structure Pool.Served (p : Pool) : Prop where
  initial : 0 < p.server.cfg.initialDiff
  conns : ∀ i c, p.conns i = some c → c.Served

theorem Conn.Served.message {fp : Fpu} {s : Server} {c : Conn} (exact : ∀ q, fp.round q = q)
    (served : c.Served) (env : Env)
    (request : Request) : (handleMessage fp env s c request).conn.Served ∧
      ∀ d, Line.setDifficulty d ∈ (handleMessage fp env s c request).lines →
      c.Allows fp s.jobs d := by
  have positive := (Fpu.ieee_of_exact exact).ceiling_pos s.jobs
  rw [handleMessage]
  cases methodOf request.method with
  | configure =>
    simp only [handleConfigure]
    split_ifs
    · exact ⟨served.of_same rfl rfl rfl, by simp⟩
    · exact ⟨served, by simp⟩
  | subscribe => exact ⟨served.of_same rfl rfl rfl, by simp [handleSubscribe]⟩
  | suggestDifficulty => exact served.suggest positive request.hasId request.params
  | authorize => exact served.authorize positive request.params
  | submit => exact served.submit exact request.params
  | unknown => exact ⟨served, by simp [refuse]⟩

theorem Conn.new_served {cfg : Cfg} (initial : 0 < cfg.initialDiff) (peerIp : Bytes)
    (pol : Listener) :
    ((Conn.new cfg peerIp).applyListener pol).Served where
  difficulty := by
    simp only [Conn.applyListener, Conn.new]
    split_ifs with given
    · exact given
    · exact initial
  floor authorized := by contradiction

theorem Pool.Served.step {fp : Fpu} {p after : Pool} (exact : ∀ q, fp.round q = q)
    (served : p.Served)
    (stepped : p.step fp event = some after) : after.Served ∧ PolicyKept fp p event after := by
  cases event with
  | connect i peerIp pol =>
    rw [Pool.step] at stepped
    split at stepped
    next => contradiction
    next =>
      obtain rfl := Option.some.inj stepped
      refine ⟨⟨served.initial, ?_⟩,
        ⟨fun _ _ _ _ sent => (by cases sent), fun _ _ _ _ _ _ same => by cases same⟩⟩
      intro j c here
      rcases conns_update here with ⟨_, new⟩ | ⟨_, old⟩
      · obtain rfl := Option.some.inj new
        exact Conn.new_served served.initial peerIp pol
      · exact served.conns j c old
  | disconnect i =>
    obtain rfl := Option.some.inj stepped
    refine ⟨⟨served.initial, ?_⟩,
      ⟨fun _ _ _ _ sent => (by cases sent), fun _ _ _ _ _ _ same => by cases same⟩⟩
    intro j c here
    rcases conns_update here with ⟨_, gone⟩ | ⟨_, old⟩
    · contradiction
    · exact served.conns j c old
  | message i env request =>
    rw [Pool.step] at stepped
    split at stepped
    next => contradiction
    next c here =>
      obtain rfl := Option.some.inj stepped
      obtain ⟨kept, told⟩ := (served.conns i c here).message (s := p.server) exact env request
      constructor
      · refine ⟨?_, ?_⟩
        · dsimp only [Pool.handled]
          rw [(handleMessage_jobs fp env p.server c request).1]
          exact served.initial
        · intro j d there
          rcases conns_update there with ⟨_, new⟩ | ⟨_, old⟩
          · split_ifs at new
            obtain rfl := Option.some.inj new
            exact kept
          · exact served.conns j d old
      · constructor
        · intro j d diff there sent
          simp only [linesTo, there] at sent
          split_ifs at sent with same
          · obtain rfl := Option.some.inj (here.symm.trans (same ▸ there))
            exact told diff sent
          · contradiction
        · intro j env' request' d d' w same called there later credits closes
          obtain ⟨rfl, rfl, rfl⟩ := Event.message.inj same
          obtain rfl := Option.some.inj (here.symm.trans there)
          have answered : handleMessage fp env p.server c request =
                handleSubmit fp env p.server c request.params := by
            rw [handleMessage, called]
          rcases conns_update later with ⟨_, new⟩ | ⟨other, _⟩
          · split_ifs at new
            obtain rfl := Option.some.inj new
            rw [answered, (credits.retargets closes).1]
            exact (w.counted fp c).retargeted exact _ _ (served.conns i c here).difficulty env.now
          · contradiction
  | setJob mono job clean =>
    obtain rfl := Option.some.inj stepped
    refine ⟨⟨served.initial, ?_⟩, ⟨?_, fun _ _ _ _ _ _ same => by cases same⟩⟩
    · intro i c here
      obtain ⟨before, was, rfl⟩ := Option.map_eq_some_iff.mp here
      exact (served.conns i before was).of_sameTerms (notifyConn_sameTerms clean)
    · intro i c d here sent
      simp only [linesTo, here] at sent
      split_ifs at sent
      · exact absurd sent (sendCurrentNotify_untold _ _ _ _ _ d)
      · contradiction

/-- In every run, a miner is only told difficulties that its port allows, and a retarget keeps
to what the miner asked for, to the rate loop's step, and to what the window proves. -/
theorem difficulties_keep_policy (fp : Fpu) (exact : ∀ q, fp.round q = q) (cfg : Cfg)
    (seed : UInt32) (events : List Event) :
    Along (Pool.step fp) (PolicyKept fp) (.start cfg.started seed) events :=
  .always (I := Pool.Served) (fun _ _ _ served stepped => served.step exact stepped)
    ⟨cfg.started_initialDiff, fun _ _ here => nomatch here⟩

/-- Counting a share moves no limit. -/
theorem lowestLimit_counted (fp : Fpu) (jobs : Jobs) (w : Work) (c : Conn) :
    lowestLimit fp jobs (w.counted fp c) = lowestLimit fp jobs c := rfl

/-- No retarget of this step leaves the difficulty below every limit that is set. -/
def NotBelowLimits (fp : Fpu) (p : Pool) (event : Event) (after : Pool) : Prop :=
  ∀ i env request c c' w, event = .message i env request → methodOf request.method = .submit →
    p.conns i = some c → after.conns i = some c' → Credits fp env p.server c request.params w →
    closesWindow p.server.cfg (w.counted fp c) env.now →
      lowestLimit fp p.server.jobs (w.counted fp c) ≠ ⊤ →
    lowestLimit fp p.server.jobs (w.counted fp c) ≤ c'.difficulty

def slowCfg : Cfg :=
  { soloCfg with
    initialDiff := 1 / 2 ^ 40, vardiffEnabled := true, vardiffTargetSpm := 12, vardiffMax := 1
    vardiffWindowSec := 1 }

def slowArrives : List Event :=
  [.setJob 0 regtestJob true, .connect 0 [] ⟨0, 0, 0, 0, 0⟩, soloMessage "mining.subscribe" [],
    .message 0 { soloEnv with now := 1 } (soloRequest "mining.authorize" [firstAddress])]

def slowEnv : Env := { soloEnv with now := 60001 }

def slowShare : Request := soloRequest "mining.submit" (soloSubmit "0000000a")

def slowPool : Pool :=
  (run (Pool.step .exact) (.start slowCfg.started 0) slowArrives).getD (.start slowCfg 0)

def slowConn : Conn := (slowPool.conns 0).getD (Conn.new slowCfg [])

theorem slow_facts : (run (Pool.step .exact) (.start slowCfg.started 0) slowArrives).isSome = true ∧
    (slowPool.conns 0).isSome = true ∧ slowConn.requestedMinDiff = 0 ∧ slowConn.polVardiffMax = 1 ∧
    slowConn.difficulty = 1 / 2 ^ 40 ∧ ceiling .exact slowPool.server.jobs < 1 ∧
    ((1 / 2 ^ 42 : ℚ) : WithTop ℚ) < ceiling .exact slowPool.server.jobs ∧
    ((handleMessage .exact slowEnv slowPool.server slowConn slowShare).lines,
      (handleMessage .exact slowEnv slowPool.server slowConn slowShare).conn.difficulty,
      (handleMessage .exact slowEnv slowPool.server slowConn slowShare).close) =
        ([.setDifficulty (1 / 2 ^ 42), .accepted], 1 / 2 ^ 42, false) := by
  decide +kernel

theorem slow_run : run (Pool.step .exact) (.start slowCfg.started 0) slowArrives = some slowPool :=
  eq_some_getD slow_facts.1 _

theorem slow_here : slowPool.conns 0 = some slowConn := eq_some_getD slow_facts.2.1 _

/-- Its window closes under the chain and under the port's maximum. -/
theorem retarget_below_limits :
    ¬Along (Pool.step .exact) (NotBelowLimits .exact) (.start slowCfg.started 0)
    (slowArrives ++ [.message 0 slowEnv slowShare]) := by
  intro along
  obtain ⟨_, _, unasked, most, before, easy, above, answer⟩ := slow_facts
  obtain ⟨_, difficulty, stays⟩ : _ ∧ _ ∧ _ := by simpa only [Prod.mk.injEq] using answer
  have stepped : slowPool.step .exact (.message 0 slowEnv slowShare) =
      some
        (slowPool.handled 0 (handleMessage .exact slowEnv slowPool.server slowConn slowShare)) := by
    rw [Pool.step, slow_here]
  have here := (along.after slow_run _ stepped).1
  have called : methodOf slowShare.method = .submit := by decide
  have answered : handleMessage .exact slowEnv slowPool.server slowConn slowShare =
      handleSubmit .exact slowEnv slowPool.server slowConn slowShare.params := by
    rw [handleMessage, called]
  have later :
    (slowPool.handled 0 (handleMessage .exact slowEnv slowPool.server slowConn slowShare)).conns 0 =
      some (handleMessage .exact slowEnv slowPool.server slowConn slowShare).conn := by
    rw [Pool.handled]
    dsimp only
    rw [Function.update_self, stays, if_neg Bool.false_ne_true]
  rcases handleSubmit_retarget .exact slowEnv slowPool.server slowConn slowShare.params with
    ⟨w, credits, closes⟩ | ⟨same, _⟩
  · have limit : lowestLimit .exact slowPool.server.jobs (w.counted .exact slowConn) =
          ceiling .exact slowPool.server.jobs := by
      rw [lowestLimit_counted, lowestLimit, unasked, most, if_neg (lt_irrefl _), if_pos one_pos,
        min_top_left, WithTop.coe_one]
      generalize ceiling .exact slowPool.server.jobs = net at easy ⊢
      exact min_eq_right easy.le
    have kept := here 0 slowEnv slowShare slowConn _ w rfl called slow_here later credits closes
    rw [limit, difficulty] at kept
    exact absurd (kept (easy.trans (WithTop.coe_lt_top 1)).ne) (not_le.mpr above)
  · rw [← answered, difficulty, before] at same
    norm_num at same

/-- It is told the difficulty, and the port allows it. -/
theorem difficulties_keep_policy_slow :
    (handleMessage .exact slowEnv slowPool.server slowConn slowShare).lines =
      [.setDifficulty (1 / 2 ^ 42), .accepted] ∧
    Along (Pool.step .exact) (PolicyKept .exact) (.start slowCfg.started 0)
      (slowArrives ++ [.message 0 slowEnv slowShare]) := by
  obtain ⟨_, _, _, _, _, _, _, answer⟩ := slow_facts
  exact ⟨(Prod.mk.inj answer).1, difficulties_keep_policy .exact (fun _ => rfl) slowCfg 0 _⟩

end SimplePool.Stratum
