import SimplePool.Stratum.Extranonce
import SimplePool.Stratum.WindowFractions

/-! The network difficulty as a ceiling. A miner filters at the difficulty it was assigned,
so an assignment above the network's makes it throw blocks away. The ceiling is applied
when a difficulty is assigned, and a published job is paired with the one that stands. -/
namespace SimplePool.Stratum
open Transition Wire Coinbase

/-- The difficulty of the chain, unbounded while no job says what it is. -/
def ceiling (fp : Fpu) (jobs : Jobs) : WithTop ℚ :=
  match jobs.current with
  | none => ⊤
  | some job => targetToDiff fp job.networkTarget

/-- Every connection without a promised floor that is sent a job in this step has a
difficulty on record for it that is no harder than the chain. -/
def NotHarder (fp : Fpu) (p : Pool) (event : Event) (after : Pool) : Prop :=
  ∀ i c n, after.conns i = some c → c.polMinDiff = 0 → .notify n ∈ linesTo fp p i event →
    ∃ job, after.server.jobs.current = some job ∧ n.jobId = job.jobId ∧
      (connJobDifficulty c n.jobId : WithTop ℚ) ≤ targetToDiff fp job.networkTarget

/-- No job is published on an easier chain than the one before it while a miner without a
floor is authorized, nor the first one. Where the chain is easier than 1, the difficulties
that are configured are positive, so that none is replaced by 1. -/
def Backed (fp : Fpu) (p : Pool) : Event → Prop
  | .setJob _ job _ => ∀ i c, p.conns i = some c → c.authorized = true → c.polMinDiff = 0 →
      ceiling fp p.server.jobs ≤ targetToDiff fp job.networkTarget
  | .message i _ _ => ∀ c, p.conns i = some c → c.polMinDiff = 0 →
      1 ≤ ceiling fp p.server.jobs ∨ (0 < c.polInitialDiff ∧ 0 < c.polVardiffMin)
  | _ => True

theorem Fpu.Ieee.targetToDiff_pos {fp : Fpu} (ieee : fp.Ieee) (target : Bytes) :
    0 < targetToDiff fp target := by
  simp only [targetToDiff]
  split_ifs with easiest
  · exact WithTop.coe_lt_top 0
  · have small : be16ToU128 target < 2 ^ 128 :=
      calc be16ToU128 target < 256 ^ (target.take 16).length := beValue_lt _
        _ ≤ 256 ^ 16 := Nat.pow_le_pow_right (by decide) (List.length_take_le ..)
        _ = 2 ^ 128 := by norm_num
    have most := ieee.power 128 (by decide) (by decide)
    have least := ieee.power (-128) (by decide) (by decide)
    have below : fp.round (be16ToU128 target) ≤ 2 ^ (128 : ℤ) := by
      rw [← most]
      exact ieee.monotone (by exact_mod_cast small.le)
    have above : 1 ≤ fp.round (be16ToU128 target) := ieee.one_le (n := be16ToU128 target) (by omega)
    have unit : 1 ≤ fp.round diff1Hi := ieee.one_le (n := diff1Hi) (by decide)
    have quotient : (2 : ℚ) ^ (-128 : ℤ) ≤ fp.round diff1Hi / fp.round (be16ToU128 target) := by
      rw [le_div_iff₀ (by linarith)]
      calc (2 : ℚ) ^ (-128 : ℤ) * fp.round (be16ToU128 target) ≤
          2 ^ (-128 : ℤ) * 2 ^ (128 : ℤ) := by gcongr
        _ = 1 := by norm_num
        _ ≤ fp.round diff1Hi := unit
    apply WithTop.coe_pos.mpr
    calc (0 : ℚ) < 2 ^ (-128 : ℤ) := by positivity
      _ = fp.round (2 ^ (-128 : ℤ)) := least.symm
      _ ≤ fp.round (fp.round diff1Hi / fp.round (be16ToU128 target)) := ieee.monotone quotient

theorem Fpu.Ieee.ceiling_pos {fp : Fpu} (ieee : fp.Ieee) (jobs : Jobs) : 0 < ceiling fp jobs := by
  rw [ceiling]
  split
  · exact WithTop.coe_lt_top 0
  · exact ieee.targetToDiff_pos _

theorem underCeiling_le (positive : 0 < net) (diff : ℚ) : underCeiling (net : ℚ) diff ≤ net := by
  change (if 0 < net ∧ net < diff then net else diff) ≤ net
  split_ifs with above
  · exact le_rfl
  · exact not_lt.mp fun harder => above ⟨positive, harder⟩

theorem underCeiling_pos (positive : 0 < diff) (net : WithTop ℚ) : 0 < underCeiling net diff := by
  cases net with
  | top => exact positive
  | coe net =>
    change 0 < if 0 < net ∧ net < diff then net else diff
    split_ifs with above
    · exact above.1
    · exact positive

/-- Without a floor, the clamp keeps to the ceiling unless it has to make up a difficulty. -/
theorem clampAssignedDifficulty_le {fp : Fpu} {jobs : Jobs} {c : Conn} {diff : ℚ}
    (positive : 0 < ceiling fp jobs)
    (floorless : c.polMinDiff = 0) (backed : 1 ≤ ceiling fp jobs ∨ 0 < diff) :
    (clampAssignedDifficulty fp jobs c diff : WithTop ℚ) ≤ ceiling fp jobs := by
  simp only [clampAssignedDifficulty, floorless, lt_irrefl, false_and, if_false]
  cases here : jobs.current with
  | none =>
    rw [ceiling, here]
    exact le_top
  | some job =>
    have net : currentNetDiff fp jobs = ceiling fp jobs := by rw [currentNetDiff, ceiling, here]
    rw [net]
    split_ifs with made
    · rcases backed with hard | given
      · exact_mod_cast hard
      · exact absurd made (not_le.mpr (underCeiling_pos given _))
    · cases bound : ceiling fp jobs with
      | top => exact le_top
      | coe net =>
        rw [bound] at positive
        exact WithTop.coe_le_coe.mpr (underCeiling_le (WithTop.coe_pos.mp positive) diff)

/-- An authorized connection has a difficulty, and without a floor it is under the ceiling. -/
def Conn.Under (net : WithTop ℚ) (c : Conn) : Prop :=
  c.authorized = true → 0 < c.difficulty ∧ (c.polMinDiff = 0 → (c.difficulty : WithTop ℚ) ≤ net)

theorem Conn.Under.of_same {net : WithTop ℚ} {c c' : Conn} (under : c.Under net)
    (authorized : c'.authorized = c.authorized)
    (difficulty : c'.difficulty = c.difficulty) (floor : c'.polMinDiff = c.polMinDiff) :
    c'.Under net := by
  rw [Conn.Under, authorized, difficulty, floor]
  exact under

theorem Conn.Under.of_sameTerms {net : WithTop ℚ} {c c' : Conn} (under : c.Under net)
    (same : c.SameTerms c') : c'.Under net :=
  under.of_same same.authorized same.difficulty same.polMinDiff

theorem Conn.Under.clamped {fp : Fpu} {jobs : Jobs} {c : Conn} {diff : ℚ}
    (positive : 0 < ceiling fp jobs)
    (backed : c.polMinDiff = 0 → 1 ≤ ceiling fp jobs ∨ 0 < diff) {c' : Conn}
    (difficulty : c'.difficulty = clampAssignedDifficulty fp jobs c diff)
    (floor : c'.polMinDiff = c.polMinDiff) :
    c'.Under (ceiling fp jobs) := by
  intro _
  rw [difficulty, floor]
  refine ⟨clampAssignedDifficulty_pos .., ?_⟩
  intro floorless
  exact clampAssignedDifficulty_le positive floorless (backed floorless)

section Requests

variable {fp : Fpu} {env : Env} {s : Server} {c : Conn}

theorem boundProposal_pos (floor : 0 < c.polVardiffMin) (diff : ℚ) : 0 < boundProposal c diff := by
  simp only [boundProposal]
  split_ifs <;> first | (rename_i capped; exact capped.1) | exact floor | skip
  all_goals linarith

/-- A retarget assigns the clamped proposal, or changes nothing but the window. -/
theorem vardiffMaybeRetarget_cases (fp : Fpu) (cfg : Cfg) (jobs : Jobs) (c : Conn) (now : UInt64) :
    c.SameTerms (vardiffMaybeRetarget fp cfg jobs c now).1 ∨
      ∃ diff, (vardiffMaybeRetarget fp cfg jobs c now).1.difficulty =
        clampAssignedDifficulty fp jobs c (boundProposal c diff) := by
  simp only [vardiffMaybeRetarget]
  split_ifs
  all_goals first | exact .inl ⟨⟨rfl, rfl, rfl⟩, rfl, rfl, rfl⟩ | exact .inr ⟨_, rfl⟩

theorem Conn.Under.retarget {w : Conn} (under : w.Under (ceiling fp s.jobs))
    (positive : 0 < ceiling fp s.jobs)
    (backed : w.polMinDiff = 0 → 1 ≤ ceiling fp s.jobs ∨ 0 < w.polVardiffMin) (now : UInt64) :
    (vardiffMaybeRetarget fp s.cfg s.jobs w now).1.Under (ceiling fp s.jobs) := by
  rcases vardiffMaybeRetarget_cases fp s.cfg s.jobs w now with same | ⟨diff, assigned⟩
  · exact under.of_sameTerms same
  · refine .clamped positive ?_ assigned (vardiffMaybeRetarget_sameSession now).polMinDiff
    intro floorless
    exact (backed floorless).imp_right fun least => boundProposal_pos least diff

theorem Conn.Under.submit (under : c.Under (ceiling fp s.jobs)) (positive : 0 < ceiling fp s.jobs)
    (backed : c.polMinDiff = 0 → 1 ≤ ceiling fp s.jobs ∨ 0 < c.polVardiffMin) (params : Json) :
    (handleSubmit fp env s c params).conn.Under (ceiling fp s.jobs) := by
  cases handleSubmit_worked fp env s c params with
  | kept same => exact under.of_sameTerms same
  | retargeted w same conn =>
    rw [conn]
    refine (under.of_sameTerms same).retarget positive ?_ env.now
    rw [same.polMinDiff, same.polVardiffMin]
    exact backed

/-- A request raises the difficulty to the clamped request at most. -/
theorem applyRequestedDiff_cases (fp : Fpu) (cfg : Cfg) (jobs : Jobs) (c : Conn) (req : WithTop ℚ) :
    (applyRequestedDiff fp cfg jobs c req).authorized = c.authorized ∧
      c.difficulty ≤ (applyRequestedDiff fp cfg jobs c req).difficulty ∧
      ((applyRequestedDiff fp cfg jobs c req).difficulty = c.difficulty ∨
        ∃ diff, 0 < diff ∧ (applyRequestedDiff fp cfg jobs c req).difficulty ≤
          clampAssignedDifficulty fp jobs c diff) := by
  unfold applyRequestedDiff
  split_ifs with refused
  · exact ⟨rfl, le_rfl, .inl rfl⟩
  · extract_lets capped clamped floor
    obtain ⟨asked, allowed⟩ := not_or.mp refused
    have given : 0 < capped := by
      unfold capped
      cases req with
      | top => exact not_le.mp allowed
      | coe req =>
        dsimp only
        split_ifs
        · exact not_le.mp allowed
        · exact WithTop.coe_pos.mp (not_not.mp asked)
    have below : floor ≤ clamped := by
      unfold floor
      split_ifs with most
      · exact most.2.le
      · exact le_rfl
    refine ⟨rfl, ?_, ?_⟩
    · dsimp only
      split_ifs with raised
      · exact raised.le
      · exact le_rfl
    · dsimp only
      split_ifs
      · exact .inr ⟨capped, given, below⟩
      · exact .inl rfl

theorem Conn.Under.request (under : c.Under (ceiling fp s.jobs)) (positive : 0 < ceiling fp s.jobs)
    (req : WithTop ℚ) :
    (applyRequestedDiff fp s.cfg s.jobs c req).Under (ceiling fp s.jobs) := by
  obtain ⟨authorized, raised, assigned⟩ := applyRequestedDiff_cases fp s.cfg s.jobs c req
  rw [Conn.Under, authorized, (applyRequestedDiff_sameSession req).polMinDiff]
  intro known
  obtain ⟨given, bounded⟩ := under known
  refine ⟨lt_of_lt_of_le given raised, ?_⟩
  intro floorless
  rcases assigned with same | ⟨diff, asked, below⟩
  · rw [same]
    exact bounded floorless
  · exact (WithTop.coe_le_coe.mpr below).trans
      (clampAssignedDifficulty_le positive floorless (.inr asked))

theorem Conn.Under.suggest (under : c.Under (ceiling fp s.jobs)) (positive : 0 < ceiling fp s.jobs)
    (hasId : Bool) (params : Json) :
    (handleSuggestDifficulty fp s c hasId params).conn.Under (ceiling fp s.jobs) := by
  dsimp only [handleSuggestDifficulty]
  by_cases asked : 0 < (params.items[0]?.bind Json.valuedouble).getD 0
  · rw [if_neg (not_not.mpr asked)]
    exact under.request positive _
  · rw [if_pos asked]
    exact under

/-- Whom the server authorizes it assigns a difficulty under the ceiling. -/
theorem Conn.authorize_under (positive : 0 < ceiling fp s.jobs)
    (backed : c.polMinDiff = 0 → 1 ≤ ceiling fp s.jobs ∨ 0 < c.polInitialDiff) (worker : Bytes)
    (pwDiff : WithTop ℚ) :
    (c.authorize fp s env worker pwDiff).Under (ceiling fp s.jobs) := by
  unfold Conn.authorize
  extract_lets named req asked
  have raised : named.difficulty ≤ asked.difficulty ∧ asked.polMinDiff = c.polMinDiff := by
    unfold asked
    split_ifs
    · exact ⟨(applyRequestedDiff_cases ..).2.1, (applyRequestedDiff_sameSession req).polMinDiff⟩
    · exact ⟨le_rfl, rfl⟩
  refine .clamped (c := asked) positive ?_ rfl rfl
  rw [raised.2]
  intro floorless
  refine (backed floorless).imp_right fun initial => lt_of_lt_of_le ?_ raised.1
  dsimp only [named]
  split_ifs with unset
  · exact initial
  · exact not_le.mp unset

theorem Counted.authorize_under {s s' : Server} {c c' : Conn} (counted : Counted s c s' c')
    (positive : 0 < ceiling fp s.jobs)
    (backed : c.polMinDiff = 0 → 1 ≤ ceiling fp s.jobs ∨ 0 < c.polInitialDiff) (worker : Bytes)
    (pwDiff : WithTop ℚ) :
    (c'.authorize fp s' env worker pwDiff).Under (ceiling fp s.jobs) := by
  have jobs : s'.jobs = s.jobs := by rw [counted.server]; rfl
  rw [← jobs] at positive backed ⊢
  apply Conn.authorize_under positive
  rw [counted.conn]
  exact backed

theorem Conn.Under.authorize (under : c.Under (ceiling fp s.jobs))
    (positive : 0 < ceiling fp s.jobs)
    (backed : c.polMinDiff = 0 → 1 ≤ ceiling fp s.jobs ∨ 0 < c.polInitialDiff) (params : Json) :
    (handleAuthorize fp env s c params).conn.Under (ceiling fp s.jobs) := by
  cases handleAuthorize_answer fp env s c params with
  | granted s' c' worker pwDiff counted server conn lines =>
    rw [conn]
    exact (counted.authorize_under positive backed worker pwDiff).of_sameTerms
      (sendCurrentNotify_sameTerms true)
  | refused code message lines counted =>
    rw [counted.conn, Conn.refused]
    split_ifs <;> exact under.of_same rfl rfl rfl

theorem Conn.Under.message (under : c.Under (ceiling fp s.jobs)) (positive : 0 < ceiling fp s.jobs)
    (backed : c.polMinDiff = 0 → 1 ≤ ceiling fp s.jobs ∨
      (0 < c.polInitialDiff ∧ 0 < c.polVardiffMin)) (request : Request) :
    (handleMessage fp env s c request).conn.Under (ceiling fp s.jobs) := by
  rw [handleMessage]
  cases methodOf request.method with
  | configure =>
    simp only [handleConfigure]
    split_ifs <;> exact under.of_same rfl rfl rfl
  | subscribe => exact under.of_same rfl rfl rfl
  | suggestDifficulty => exact under.suggest positive request.hasId request.params
  | authorize => exact under.authorize positive (fun floorless =>
    (backed floorless).imp_right And.left) request.params
  | submit => exact under.submit positive (fun floorless =>
    (backed floorless).imp_right And.right) request.params
  | unknown => exact under

end Requests

/-- Looking a job up finds what was put on record for it, or nothing. -/
theorem connJobDifficulty_record_le (c : Conn) (jobId : Bytes) {difficulty : ℚ}
    (positive : 0 < difficulty) :
    connJobDifficulty (connRecordJobDifficulty c jobId difficulty) jobId ≤ difficulty := by
  rw [connJobDifficulty]
  split_ifs with unnamed
  · exact positive.le
  · split
    next i found =>
      rw [connRecordJobDifficulty, if_neg (not_or.mpr ⟨unnamed, not_le.mpr positive⟩)] at found ⊢
      cases search : (List.range jobDiffRing).find? fun i => (c.jobDiffs i).jobId = jobId with
      | some k =>
        rw [search] at found
        have ids : ∀ i, (Function.update c.jobDiffs k ⟨(c.jobDiffs k).jobId, difficulty⟩ i).jobId =
              (c.jobDiffs i).jobId := by
          intro i
          rw [Function.update_apply]
          split_ifs with same
          · rw [same]
          · rfl
        simp only [ids] at found
        obtain rfl := Option.some.inj (search.symm.trans found)
        dsimp only
        rw [Function.update_self]
      | none =>
        rw [search] at found
        dsimp only at found ⊢
        by_cases same : i = c.jobDiffsHead
        · rw [same, Function.update_self]
        · have known : (Function.update c.jobDiffs c.jobDiffsHead
                ⟨snprintf jobIdCap jobId, difficulty⟩ i).jobId = jobId := by
            simpa using List.find?_some found
          rw [Function.update_of_ne same] at known
          exact absurd (decide_eq_true known)
            (List.find?_eq_none.mp search i (List.mem_of_find?_eq_some found))
    next => exact positive.le

theorem sendCurrentNotify_notHarder {c : Conn} (under : c.Under (ceiling fp jobs))
    (floorless : c.polMinDiff = 0)
    (sent : Line.notify n ∈ (sendCurrentNotify fp cfg jobs c clean).2) :
    ∃ job, jobs.current = some job ∧ n.jobId = job.jobId ∧
      (connJobDifficulty (sendCurrentNotify fp cfg jobs c clean).1 n.jobId : WithTop ℚ) ≤
        targetToDiff fp job.networkTarget := by
  rw [ceiling] at under
  rw [sendCurrentNotify] at sent ⊢
  cases current : jobs.current with
  | none =>
    rw [current] at sent
    contradiction
  | some job =>
    rw [current] at sent under
    dsimp only at sent under ⊢
    cases rendered : connRenderCoinbase fp cfg c job with
    | none =>
      rw [rendered] at sent
      contradiction
    | some r =>
      rw [rendered] at sent
      obtain rfl := Line.notify.inj (List.mem_singleton.mp sent)
      have same := connRenderCoinbase_sameTerms rendered
      have authorized : c.authorized = true := by
        by_contra unknown
        simp [connRenderCoinbase, unknown] at rendered
      obtain ⟨given, bounded⟩ := under authorized
      rw [← same.difficulty] at given bounded
      exact ⟨job, rfl, rfl, (WithTop.coe_le_coe.mpr
          (connJobDifficulty_record_le r job.jobId given)).trans (bounded floorless)⟩

theorem vardiffMaybeRetarget_unnotified (fp : Fpu) (cfg : Cfg) (jobs : Jobs) (c : Conn)
    (now : UInt64) (n : Notify) :
    Line.notify n ∉ (vardiffMaybeRetarget fp cfg jobs c now).2 := by
  rcases vardiffMaybeRetarget_told fp cfg jobs c now with ⟨_, none⟩ | ⟨c', moved, _⟩
  · simp [none]
  · simp [moved]

theorem handleSubmit_unnotified (fp : Fpu) (env : Env) (s : Server) (c : Conn) (params : Json)
    (n : Notify) :
    Line.notify n ∉ (handleSubmit fp env s c params).lines := by
  rcases handleSubmit_cases fp env s c params with ⟨w, r, _, _, hashed⟩ | ⟨_, unhashed⟩
  · rw [hashed]
    simp only [submitHash]
    split_ifs
    · simp [refuseObserved]
    · split
      next => simp [refuseObserved]
      next => simp [credit, vardiffMaybeRetarget_unnotified]
  · obtain ⟨code, message, told⟩ := unhashed.refused
    simp [told]

/-- A notify that answers a request is the one of a granted authorize. -/
theorem handleMessage_notHarder {s : Server} {c : Conn} (positive : 0 < ceiling fp s.jobs)
    (backed : c.polMinDiff = 0 → 1 ≤ ceiling fp s.jobs ∨
      (0 < c.polInitialDiff ∧ 0 < c.polVardiffMin)) (request : Request)
    (floorless : (handleMessage fp env s c request).conn.polMinDiff = 0)
    (sent : Line.notify n ∈ (handleMessage fp env s c request).lines) :
    ∃ job, s.jobs.current = some job ∧ n.jobId = job.jobId ∧
      (connJobDifficulty (handleMessage fp env s c request).conn n.jobId : WithTop ℚ) ≤
        targetToDiff fp job.networkTarget := by
  rw [handleMessage] at floorless sent ⊢
  cases called : methodOf request.method with
  | configure =>
    simp only [called, handleConfigure] at sent
    split_ifs at sent <;> simp at sent
  | subscribe => simp [called, handleSubscribe] at sent
  | suggestDifficulty =>
    simp only [called, handleSuggestDifficulty] at sent
    split_ifs at sent <;> simp [refuse] at sent
  | authorize =>
    rw [called] at floorless sent
    dsimp only at floorless sent ⊢
    cases handleAuthorize_answer fp env s c request.params with
    | granted s' c' worker pwDiff counted server conn lines =>
      have ready : (c'.authorize fp s' env worker pwDiff).Under (ceiling fp s.jobs) :=
        counted.authorize_under positive (fun floorless => (backed floorless).imp_right And.left)
          worker pwDiff
      rw [conn, (sendCurrentNotify_sameTerms true).polMinDiff] at floorless
      rw [conn]
      apply sendCurrentNotify_notHarder ready floorless
      simpa [lines] using sent
    | refused code message lines counted => simp [lines] at sent
  | submit =>
    rw [called] at sent
    exact absurd sent (handleSubmit_unnotified fp env s c request.params n)
  | unknown => simp [called, refuse] at sent

/-- Every connection is under the ceiling of the current job. -/
def Pool.Under (fp : Fpu) (p : Pool) : Prop :=
  ∀ i c, p.conns i = some c → c.Under (ceiling fp p.server.jobs)

theorem ceiling_publish (fp : Fpu) (jobs : Jobs) (mono : UInt64) (job : Job) :
    ceiling fp (jobs.publish mono job) = targetToDiff fp job.networkTarget := by
  rw [Jobs.publish, ceiling]
  cases jobs.current with
  | none => rfl
  | some old => rfl

theorem Pool.Under.step {p after : Pool} (ieee : fp.Ieee) (under : p.Under fp)
    (backed : Backed fp p event)
    (stepped : p.step fp event = some after) : after.Under fp ∧ NotHarder fp p event after := by
  cases event with
  | connect i peerIp pol =>
    rw [Pool.step] at stepped
    split at stepped
    next => contradiction
    next =>
      obtain rfl := Option.some.inj stepped
      refine ⟨?_, fun _ _ _ _ _ sent => by cases sent⟩
      intro j c here
      rcases conns_update here with ⟨rfl, new⟩ | ⟨_, old⟩
      · obtain rfl := Option.some.inj new
        intro authorized
        contradiction
      · exact under j c old
  | disconnect i =>
    obtain rfl := Option.some.inj stepped
    refine ⟨?_, fun _ _ _ _ _ sent => by cases sent⟩
    intro j c here
    rcases conns_update here with ⟨_, gone⟩ | ⟨_, old⟩
    · contradiction
    · exact under j c old
  | message i env request =>
    rw [Pool.step] at stepped
    split at stepped
    next => contradiction
    next c here =>
      obtain rfl := Option.some.inj stepped
      have jobs := (handleMessage_jobs fp env p.server c request).2
      have positive := ieee.ceiling_pos p.server.jobs
      constructor
      · intro j d there
        dsimp only [Pool.handled]
        rw [jobs]
        rcases conns_update there with ⟨rfl, new⟩ | ⟨_, old⟩
        · split_ifs at new
          obtain rfl := Option.some.inj new
          exact (under j c here).message positive (backed c here) request
        · exact under j d old
      · intro j d n there floorless sent
        dsimp only [Pool.handled]
        rw [jobs]
        rcases conns_update there with ⟨rfl, new⟩ | ⟨other, old⟩
        · split_ifs at new
          obtain rfl := Option.some.inj new
          simp only [linesTo, here, if_true] at sent
          exact handleMessage_notHarder positive (backed c here) request floorless sent
        · simp [linesTo, old, other] at sent
  | setJob mono job clean =>
    obtain rfl := Option.some.inj stepped
    -- the standing difficulty is under the old ceiling, which is under the new one
    have raised :
        ∀ i c, p.conns i = some c → c.Under (ceiling fp (p.server.jobs.publish mono job)) := by
      intro i c here authorized
      obtain ⟨given, bounded⟩ := under i c here authorized
      refine ⟨given, ?_⟩
      intro floorless
      rw [ceiling_publish]
      exact (bounded floorless).trans (backed i c here authorized floorless)
    constructor
    · intro i c here
      obtain ⟨before, was, rfl⟩ := Option.map_eq_some_iff.mp here
      exact (raised i before was).of_sameTerms (notifyConn_sameTerms clean)
    · intro i c n here floorless sent
      obtain ⟨before, was, rfl⟩ := Option.map_eq_some_iff.mp here
      rw [(notifyConn_sameTerms clean).polMinDiff] at floorless
      simp only [linesTo, was] at sent
      split_ifs at sent with told
      · rw [notifyConn, if_pos told]
        exact sendCurrentNotify_notHarder (raised i before was) floorless sent
      · contradiction

/-- In every run in which the chain gets no easier under a miner without a floor, no such
miner is sent a job that is harder than the chain. -/
theorem jobs_not_harder_than_chain (fp : Fpu) (ieee : fp.Ieee) (cfg : Cfg) (seed : UInt32)
    (events : List Event)
    (backed : Along (Pool.step fp) (fun p event _ => Backed fp p event) (.start cfg seed) events) :
    Along (Pool.step fp) (NotHarder fp) (.start cfg seed) events := by
  refine Along.of_invariant (I := Pool.Under fp) ?_ (fun _ _ here => nomatch here) backed
  intro p event after under backed stepped
  exact under.step ieee backed stepped

def hardTarget : Bytes32 := ⟨[0, 0, 0, 0, 0x7f, 0xff, 0x80] ++ List.replicate 25 0, by decide⟩

def hardJob (jobId : String) : Job :=
  .new (ascii jobId) 0x20000000 zeros32 5000000000 none extranonce1Size extranonce2Size []
    0x1c7fff80 0x65000000 hardTarget 1 [] none false 0

/-- The pool once the first job is published, before anybody connects. -/
def hardPool : Pool :=
  ((Pool.start soloCfg 0).step .exact (.setJob 0 (hardJob "0") true)).getD (Pool.start soloCfg 0)

/-- A miner arrives and is authorized at difficulty 1. -/
def arrives : List Event :=
  [.connect 0 [] ⟨0, 0, 0, 0, 0⟩, soloMessage "mining.subscribe" [],
    soloMessage "mining.authorize" [firstAddress]]

/-- Enough for a step to be backed, whoever is connected. -/
def backedStep (fp : Fpu) (p : Pool) : Event → Bool
  | .setJob _ job _ => ceiling fp p.server.jobs ≤ targetToDiff fp job.networkTarget
  | .message _ _ _ => 1 ≤ ceiling fp p.server.jobs
  | _ => true

theorem Backed.of_decided {p : Pool} {event : Event} (decided : backedStep fp p event = true) :
    Backed fp p event := by
  cases event with
  | setJob mono job clean => exact fun _ _ _ _ _ => of_decide_eq_true decided
  | message i env request => exact fun _ _ _ => .inl (of_decide_eq_true decided)
  | connect | disconnect => trivial

theorem jobs_not_harder_as_hard_again :
    (((run (Pool.step .exact) hardPool (arrives ++ [.setJob 0 (hardJob "1") true])).bind fun p =>
      p.conns 0).map fun c => connJobDifficulty c (ascii "1")) = some 1 ∧
    Along (Pool.step .exact) (NotHarder .exact) (.start soloCfg 0)
      (.setJob 0 (hardJob "0") true :: arrives ++ [.setJob 0 (hardJob "1") true]) := by
  have facts : (((run (Pool.step .exact) hardPool (arrives ++ [.setJob 0 (hardJob "1") true])).bind
      fun p => p.conns 0).map fun c => connJobDifficulty c (ascii "1")) = some 1 ∧
      Along (Pool.step .exact) (fun p event _ => backedStep .exact p event = true) hardPool
        (arrives ++ [.setJob 0 (hardJob "1") true]) := by
    decide +kernel
  refine ⟨facts.1, jobs_not_harder_than_chain .exact .exact soloCfg 0 _ ?_⟩
  intro p stepped
  obtain rfl := Option.some.inj stepped
  exact ⟨(fun _ _ here => nomatch here), facts.2.imp fun _ _ _ _ decided => .of_decided decided⟩

def hardMined : Pool := (run (Pool.step .exact) hardPool arrives).getD hardPool

def easyPool : Pool := (hardMined.step .exact (.setJob 0 regtestJob true)).getD hardMined

def Line.notifiedJob : Line → Option Bytes
  | .notify n => some n.jobId
  | _ => none

/-- The chain falls back to regtest's difficulty, and the miner goes on at 1. -/
theorem job_harder_than_chain : ¬Along (Pool.step .exact) (NotHarder .exact) (.start soloCfg 0)
    (.setJob 0 (hardJob "0") true :: arrives ++ [.setJob 0 regtestJob true]) := by
  intro along
  have facts : (run (Pool.step .exact) hardPool arrives).isSome ∧
      ((easyPool.conns 0).map fun c => (c.polMinDiff, connJobDifficulty c (ascii "1"))) =
        some (0, 1) ∧
      ((linesTo .exact hardMined 0 (.setJob 0 regtestJob true)).filterMap Line.notifiedJob) =
        [ascii "1"] ∧
      ceiling .exact easyPool.server.jobs < 1 := by
    decide +kernel
  obtain ⟨ends, recorded, sent, easy⟩ := facts
  have ran : run (Pool.step .exact) hardPool arrives = some hardMined := eq_some_getD ends _
  have last := (along hardPool rfl).2.after ran
  have here := (last easyPool rfl).1
  obtain ⟨c, there, sees⟩ := Option.map_eq_some_iff.mp recorded
  obtain ⟨floorless, one⟩ := Prod.mk.inj sees
  obtain ⟨line, member, named⟩ := List.mem_filterMap.mp (sent ▸ List.mem_singleton_self (ascii "1"))
  cases line with
  | notify n =>
    obtain ⟨job, current, _, bounded⟩ := here 0 c n there floorless member
    rw [Option.some.inj named, one] at bounded
    rw [ceiling, current] at easy
    exact absurd bounded (not_le.mpr easy)
  | accepted | error | subscribed | configured | setDifficulty =>
    exact absurd named.symm (Option.some_ne_none _)

end SimplePool.Stratum
