import SimplePool.Stratum.JobDifficulty

/-! A mining.authorize that is answered with an error, and what it does to the miner that
was already working on the connection. -/
namespace SimplePool.Stratum
open Transition Wire Coinbase

/-- What counts the calls and the failures of a connection. -/
structure Counters where
  failures : UInt32
  windowMs : UInt64
  calls : UInt32

def Conn.counters (c : Conn) : Counters := ⟨c.authFailures, c.authCallWindowMs, c.authCallsInWindow⟩

def Conn.withCounters (c : Conn) (k : Counters) : Conn :=
  { c with
    authFailures := k.failures, authCallWindowMs := k.windowMs, authCallsInWindow := k.calls }

def Server.withAuthFail (s : Server) (table : Nat → AuthFailEntry) : Server :=
  { s with authFail := table }

/-- The same outcome with other counters. -/
def Outcome.withCounters (o : Outcome) (table : Nat → AuthFailEntry) (k : Counters) : Outcome :=
  { o with server := o.server.withAuthFail table, conn := o.conn.withCounters k }

@[simp] theorem Conn.withCounters_difficulty (c : Conn) (k : Counters) :
    (c.withCounters k).difficulty = c.difficulty := rfl

@[simp] theorem Conn.withCounters_authorized (c : Conn) (k : Counters) :
    (c.withCounters k).authorized = c.authorized := rfl

section Counters

variable {fp : Fpu} {cfg : Cfg} {jobs : Jobs} {env : Env} {s : Server} {c : Conn}
  {table : Nat → AuthFailEntry} {k : Counters}

theorem rollRateWindow_withCounters (mono : UInt64) :
    (c.withCounters k).rollRateWindow mono = (c.rollRateWindow mono).withCounters k := by
  have start : (c.withCounters k).rlWindowStartMs = c.rlWindowStartMs := rfl
  rw [Conn.rollRateWindow, Conn.rollRateWindow, start]
  split_ifs <;> rfl

theorem submitRateExceeded_withCounters (mono : UInt64) :
    submitRateExceeded cfg (c.withCounters k) mono =
    ((submitRateExceeded cfg c mono).1, (submitRateExceeded cfg c mono).2.withCounters k) := by
  rw [submitRateExceeded, submitRateExceeded, rollRateWindow_withCounters]
  have count : ((c.rollRateWindow mono).withCounters k).rlWindowCount =
        (c.rollRateWindow mono).rlWindowCount := rfl
  dsimp only
  rw [count]
  split_ifs <;> rfl

theorem submitRateReport_withCounters : submitRateReport cfg (c.withCounters k) env =
    ((submitRateReport cfg c env).1.withCounters k, (submitRateReport cfg c env).2) := by
  have limited : (c.withCounters k).rlLimited = c.rlLimited := rfl
  have reported : (c.withCounters k).rlReportedMs = c.rlReportedMs := rfl
  rw [submitRateReport, submitRateReport, limited, reported]
  split_ifs <;> rfl

theorem dedupeCheckAndAdd_withCounters (h : UInt64) : dedupeCheckAndAdd (c.withCounters k) h =
    ((dedupeCheckAndAdd c h).1, (dedupeCheckAndAdd c h).2.withCounters k) := by
  have known : (c.withCounters k).remembers h = c.remembers h := rfl
  rw [dedupeCheckAndAdd, dedupeCheckAndAdd, known]
  split_ifs <;> rfl

theorem connRenderCoinbase_withCounters (job : Job) :
    connRenderCoinbase fp cfg (c.withCounters k) job =
    (connRenderCoinbase fp cfg c job).map (·.withCounters k) := by
  have denied : (!(c.withCounters k).authorized || (c.withCounters k).payoutAddress.isEmpty) =
    (!c.authorized || c.payoutAddress.isEmpty) := rfl
  have cached : (c.withCounters k).cached job = c.cached job := rfl
  have fresh : renderFresh fp cfg (c.withCounters k) job = renderFresh fp cfg c job := rfl
  rw [connRenderCoinbase, connRenderCoinbase, denied, cached, fresh]
  split_ifs
  · rfl
  · rfl
  · cases renderFresh fp cfg c job with
    | ok parts => rfl
    | error failure => rfl

theorem connRecordJobDifficulty_withCounters (jobId : Bytes) (difficulty : ℚ) :
    connRecordJobDifficulty (c.withCounters k) jobId difficulty =
      (connRecordJobDifficulty c jobId difficulty).withCounters k := by
  have ring : (c.withCounters k).jobDiffs = c.jobDiffs := rfl
  rw [connRecordJobDifficulty, connRecordJobDifficulty, ring]
  split_ifs
  · rfl
  · split <;> rfl

theorem sendCurrentNotify_withCounters (clean : Bool) :
    sendCurrentNotify fp cfg jobs (c.withCounters k) clean =
    ((sendCurrentNotify fp cfg jobs c clean).1.withCounters k,
      (sendCurrentNotify fp cfg jobs c clean).2) := by
  simp only [sendCurrentNotify]
  cases jobs.current with
  | none => rfl
  | some job =>
    dsimp only
    rw [connRenderCoinbase_withCounters]
    cases connRenderCoinbase fp cfg c job with
    | none => rfl
    | some r => exact Prod.ext (connRecordJobDifficulty_withCounters job.jobId r.difficulty) rfl

theorem vardiffMaybeRetarget_withCounters (now : UInt64) :
    vardiffMaybeRetarget fp cfg jobs (c.withCounters k) now =
    ((vardiffMaybeRetarget fp cfg jobs c now).1.withCounters k,
      (vardiffMaybeRetarget fp cfg jobs c now).2) := by
  have start : (c.withCounters k).vdWindowStartMs = c.vdWindowStartMs := rfl
  have few : underSampled cfg (c.withCounters k) = underSampled cfg c := rfl
  have rate :
      ∀ elapsed, rateProposal fp cfg (c.withCounters k) elapsed = rateProposal fp cfg c elapsed :=
    fun _ => rfl
  have floor : floorProposal fp (c.withCounters k) = floorProposal fp c := rfl
  have bound : ∀ diff, boundProposal (c.withCounters k) diff = boundProposal c diff := fun _ => rfl
  have clamp : ∀ diff, clampAssignedDifficulty fp jobs (c.withCounters k) diff =
        clampAssignedDifficulty fp jobs c diff :=
    fun _ => rfl
  simp only [vardiffMaybeRetarget, start, few, rate, floor, bound, clamp,
    Conn.withCounters_difficulty]
  split_ifs <;> rfl

theorem credit_withCounters (job : Job) (coinbase header hash : Bytes) (verdict : Verdict) :
    credit fp env (s.withAuthFail table) (c.withCounters k) job coinbase header hash verdict =
      (credit fp env s c job coinbase header hash verdict).withCounters table k := by
  have counted :
      (c.withCounters k).countShare fp job hash = (c.countShare fp job hash).withCounters k := rfl
  simp only [credit]
  rw [counted, vardiffMaybeRetarget_withCounters]
  rfl

theorem submitHash_withCounters (job : Job) (en2 : Bytes) (version ntime nonce : UInt32) :
    submitHash fp env (s.withAuthFail table) (c.withCounters k) job en2 version ntime nonce =
      (submitHash fp env s c job en2 version ntime nonce).withCounters table k := by
  have coinbase : submitCoinbase (c.withCounters k) en2 = submitCoinbase c en2 := rfl
  have filter : (s.withAuthFail table).shareDedupe = s.shareDedupe := rfl
  have judged : ∀ hash, judge fp (c.withCounters k) job hash = judge fp c job hash := fun _ => rfl
  simp only [submitHash, coinbase, filter, judged]
  split_ifs
  · rfl
  · split
    next => rfl
    next verdict _ => exact credit_withCounters (s := { s with shareDedupe := _ }) job _ _ _ verdict

theorem submitWithJob_withCounters (sub : Submission) (job : Job) :
    submitWithJob fp env (s.withAuthFail table) (c.withCounters k) sub job =
      (submitWithJob fp env s c sub job).withCounters table k := by
  have version : submitVersion (c.withCounters k) job sub = submitVersion c job sub := rfl
  have settings : (s.withAuthFail table).cfg = s.cfg := rfl
  rw [submitWithJob, submitWithJob, version]
  cases submitVersion c job sub with
  | none => rfl
  | some version =>
    dsimp only
    rw [dedupeCheckAndAdd_withCounters]
    obtain ⟨seen, d⟩ := dedupeCheckAndAdd c (submitKey job.jobId sub version)
    cases seen with
    | true => rfl
    | false =>
      dsimp only
      split
      next ntime nonce _ _ =>
        split_ifs
        · rfl
        · split
          next => rfl
          next en2 _ =>
            split_ifs
            · rfl
            · rw [settings, connRenderCoinbase_withCounters]
              cases connRenderCoinbase fp s.cfg d job with
              | none => rfl
              | some r => exact submitHash_withCounters job en2 version ntime nonce
      next => rfl

theorem handleSubmit_withCounters (params : Json) :
    handleSubmit fp env (s.withAuthFail table) (c.withCounters k) params =
      (handleSubmit fp env s c params).withCounters table k := by
  have settings : (s.withAuthFail table).cfg = s.cfg := rfl
  have jobs : (s.withAuthFail table).jobs = s.jobs := rfl
  rw [handleSubmit, handleSubmit, Conn.withCounters_authorized, settings, jobs]
  by_cases unknown : (!c.authorized) = true
  · rw [if_pos unknown, if_pos unknown]
    rfl
  · rw [if_neg unknown, if_neg unknown, submitRateExceeded_withCounters]
    obtain ⟨fast, d⟩ := submitRateExceeded s.cfg c env.mono
    cases fast with
    | true =>
      dsimp only
      rw [submitRateReport_withCounters]
      rfl
    | false =>
      dsimp only
      split
      next => rfl
      next sub _ =>
        split_ifs
        · rfl
        · split
          next => rfl
          next job _ => exact submitWithJob_withCounters sub job

theorem applyRequestedDiff_withCounters (req : WithTop ℚ) :
    applyRequestedDiff fp cfg jobs (c.withCounters k) req =
      (applyRequestedDiff fp cfg jobs c req).withCounters k := by
  have clamp : ∀ diff, clampAssignedDifficulty fp jobs (c.withCounters k) diff =
        clampAssignedDifficulty fp jobs c diff :=
    fun _ => rfl
  have most : (c.withCounters k).polVardiffMax = c.polVardiffMax := rfl
  simp only [applyRequestedDiff, clamp, most, Conn.withCounters_difficulty]
  split_ifs <;> rfl

theorem handleSuggestDifficulty_withCounters (hasId : Bool) (params : Json) :
    handleSuggestDifficulty fp (s.withAuthFail table) (c.withCounters k) hasId params =
      (handleSuggestDifficulty fp s c hasId params).withCounters table k := by
  have settings : (s.withAuthFail table).cfg = s.cfg := rfl
  have jobs : (s.withAuthFail table).jobs = s.jobs := rfl
  simp only [handleSuggestDifficulty, settings, jobs, applyRequestedDiff_withCounters,
    Conn.withCounters_difficulty, Conn.withCounters_authorized]
  split_ifs <;> rfl

/-- Any other request is handled as if the counters were different ones. -/
theorem handleMessage_withCounters (request : Request)
    (other : methodOf request.method ≠ .authorize) :
    handleMessage fp env (s.withAuthFail table) (c.withCounters k) request =
      (handleMessage fp env s c request).withCounters table k := by
  rw [handleMessage, handleMessage]
  cases called : methodOf request.method with
  | configure =>
    simp only [handleConfigure]
    split_ifs <;> rfl
  | subscribe => rfl
  | suggestDifficulty => exact handleSuggestDifficulty_withCounters request.hasId request.params
  | authorize => contradiction
  | submit => exact handleSubmit_withCounters request.params
  | unknown => rfl

end Counters

def AlikeAt (c c' : Option Conn) : Prop := ∃ k, c' = c.map (·.withCounters k)

structure Pool.Alike (p p' : Pool) : Prop where
  server : ∃ table, p'.server = p.server.withAuthFail table
  conns : ∀ i, AlikeAt (p.conns i) (p'.conns i)

theorem AlikeAt.refl (c : Option Conn) : AlikeAt c c := by
  cases c with
  | none => exact ⟨⟨0, 0, 0⟩, rfl⟩
  | some c => exact ⟨c.counters, rfl⟩

theorem alikeAt_update {conns conns' : Nat → Option Conn}
    (alike : ∀ i, AlikeAt (conns i) (conns' i)) (new : AlikeAt c c') (i j : Nat) :
    AlikeAt (Function.update conns i c j) (Function.update conns' i c' j) := by
  rw [Function.update_apply, Function.update_apply]
  split_ifs
  · exact new
  · exact alike j

def Event.authorizes : Event → Bool
  | .message _ _ request => methodOf request.method = .authorize
  | _ => false

/-- What a step says to each connection, and what it reports. -/
def said (fp : Fpu) (p : Pool) (event : Event) : (Nat → List Line) × List Observed :=
  (fun i => linesTo fp p i event,
    match event with
    | .message i env request =>
      match p.conns i with
      | some c => (handleMessage fp env p.server c request).observed
      | none => []
    | _ => [])

theorem notifyConn_withCounters (fp : Fpu) (cfg : Cfg) (jobs : Jobs) (clean : Bool) (c : Conn)
    (k : Counters) :
    notifyConn fp cfg jobs clean (c.withCounters k) =
      (notifyConn fp cfg jobs clean c).withCounters k := by
  have subscribed : (c.withCounters k).subscribed = c.subscribed := rfl
  rw [notifyConn, notifyConn, subscribed, Conn.withCounters_authorized,
    sendCurrentNotify_withCounters]
  split_ifs <;> rfl

theorem Pool.Alike.said {p p' : Pool} {event : Event} (alike : p.Alike p')
    (other : event.authorizes = false) :
    said fp p' event = said fp p event := by
  obtain ⟨table, server⟩ := alike.server
  cases event with
  | connect i peerIp pol => rfl
  | disconnect i => rfl
  | message i env request =>
    have handled : ∀ c k, handleMessage fp env p'.server (c.withCounters k) request =
        (handleMessage fp env p.server c request).withCounters table k := by
      intro c k
      rw [server, handleMessage_withCounters request (of_decide_eq_false other)]
    refine Prod.ext (funext fun j => ?_) ?_
    · obtain ⟨k, same⟩ := alike.conns j
      simp only [Stratum.said, linesTo, same]
      cases p.conns j with
      | none => rfl
      | some c => simp only [Option.map_some, handled, Outcome.withCounters]
    · obtain ⟨k, same⟩ := alike.conns i
      simp only [Stratum.said, same]
      cases p.conns i with
      | none => rfl
      | some c => simp only [Option.map_some, handled, Outcome.withCounters]
  | setJob mono job clean =>
    refine Prod.ext (funext fun j => ?_) rfl
    obtain ⟨k, same⟩ := alike.conns j
    have settings : p'.server.cfg = p.server.cfg := by rw [server]; rfl
    have jobs : p'.server.jobs = p.server.jobs := by rw [server]; rfl
    simp only [Stratum.said, linesTo, same, settings, jobs]
    cases p.conns j with
    | none => rfl
    | some c =>
      have subscribed : (c.withCounters k).subscribed = c.subscribed := rfl
      simp only [Option.map_some, subscribed, Conn.withCounters_authorized,
        sendCurrentNotify_withCounters]

theorem Pool.Alike.step {p p' : Pool} {event : Event} (alike : p.Alike p')
    (other : event.authorizes = false) :
    Option.Rel Pool.Alike (p.step fp event) (p'.step fp event) := by
  obtain ⟨table, server⟩ := alike.server
  have settings : p'.server.cfg = p.server.cfg := by rw [server]; rfl
  cases event with
  | connect i peerIp pol =>
    obtain ⟨k, same⟩ := alike.conns i
    simp only [Pool.step, same, settings]
    cases p.conns i with
    | some c => exact .none
    | none => exact .some ⟨⟨table, server⟩, alikeAt_update alike.conns (.refl _) i⟩
  | disconnect i => exact .some ⟨⟨table, server⟩, alikeAt_update alike.conns (.refl none) i⟩
  | message i env request =>
    obtain ⟨k, same⟩ := alike.conns i
    simp only [Pool.step, same]
    cases p.conns i with
    | none => exact .none
    | some c =>
      refine .some ⟨⟨table, ?_⟩, ?_⟩
      · rw [Pool.handled, server, handleMessage_withCounters request (of_decide_eq_false other)]
        rfl
      · simp only [Pool.handled, server,
          handleMessage_withCounters request (of_decide_eq_false other)]
        apply alikeAt_update alike.conns
        refine ⟨k, ?_⟩
        rw [apply_ite (Option.map fun c : Conn => c.withCounters k)]
        rfl
  | setJob mono job clean =>
    have jobs : p'.server.jobs = p.server.jobs := by rw [server]; rfl
    simp only [Pool.step, settings, jobs]
    refine .some ⟨⟨table, by rw [server]; rfl⟩, ?_⟩
    intro i
    obtain ⟨k, same⟩ := alike.conns i
    refine ⟨k, ?_⟩
    dsimp only
    rw [same, Option.map_map, Option.map_map]
    congr 1
    funext c
    exact notifyConn_withCounters ..

/-- Until somebody authorizes, the counters make no difference. -/
theorem Pool.Alike.transcript {p p' : Pool} (alike : p.Alike p')
    (quiet : ∀ event ∈ events, event.authorizes = false) :
    transcript (Pool.step fp) (Stratum.said fp) p' events =
      transcript (Pool.step fp) (Stratum.said fp) p events :=
  transcript_eq_of_alike (fun _ _ event inside alike => ⟨alike.said (quiet event inside),
    alike.step (quiet event inside)⟩) alike

/-- The request gets as far as its address, and the address is refused. -/
def refusesAddress (fp : Fpu) (env : Env) (s : Server) (c : Conn) (params : Json) : Bool :=
  match (authGate s c env.mono).2.2, (params.credentials fp).1 with
  | .proceed false, some worker =>
    decide (¬((addressPart worker).length = 0 ∨ payoutAddressCap ≤ (addressPart worker).length)) &&
        !ppsGated s.cfg env &&
      (addressError s.cfg (addressPart worker)).isSome
  | _, _ => false

/-- The connection as it is left: the address it was to be paid to is gone if the new one
was refused. -/
def Conn.refused (c : Conn) (lost : Bool) : Conn :=
  if lost then { c with payoutAddress := [] } else c

/-- Nothing but the counters is different. -/
structure Counted (s : Server) (c : Conn) (s' : Server) (c' : Conn) : Prop where
  server : s' = s.withAuthFail s'.authFail
  conn : c' = c.withCounters c'.counters

theorem Counted.refl (s : Server) (c : Conn) : Counted s c s c := ⟨rfl, rfl⟩

theorem Counted.trans (first : Counted s c s' c') (second : Counted s' c' s'' c'') :
    Counted s c s'' c'' where
  server := by
    rw [second.server, first.server]
    rfl
  conn := by
    rw [second.conn, first.conn]
    rfl

theorem authLockout_counted (s : Server) (c : Conn) (mono : UInt64) :
    Counted s c (authLockout s c mono).1 c := by
  rw [authLockout]
  split_ifs
  · exact .refl s c
  · split
    next =>
      split_ifs
      · exact ⟨rfl, rfl⟩
      · exact ⟨rfl, rfl⟩
    next => exact ⟨rfl, rfl⟩

theorem authGate_counted (s : Server) (c : Conn) (mono : UInt64) :
    Counted s c (authGate s c mono).1 (authGate s c mono).2.1 := by
  rw [authGate]
  split_ifs
  · exact .refl s c
  · have kept := authLockout_counted s c mono
    split
    next locked => rwa [locked] at kept
    next passed =>
      rw [passed] at kept
      refine ⟨kept.server, ?_⟩
      simp only [Conn.rollAuthWindow]
      split_ifs <;> rfl

theorem Counted.failed (counted : Counted s c o.server o.conn) :
    Counted s c (authFailed env o).server (authFailed env o).conn := by
  refine counted.trans ?_
  rw [authFailed]
  split_ifs
  · exact .refl ..
  · refine ⟨?_, rfl⟩
    dsimp only
    split_ifs
    · rfl
    · split
      next => rfl
      next => rfl

/-- What becomes of an authorize. Granted, the worker is told so and gets the current job.
Otherwise it is told an error, the counters have changed, and the address is gone if it was
refused. -/
inductive Answer (fp : Fpu) (env : Env) (s : Server) (c : Conn) (params : Json) (o : Outcome) :
    Prop where
  | granted (s' : Server) (c' : Conn) (worker : Bytes) (pwDiff : WithTop ℚ)
    (counted : Counted s c s' c')
      (server : o.server = authSucceeded s' (c'.authorize fp s' env worker pwDiff) env.mono)
      (conn : o.conn =
        (sendCurrentNotify fp s.cfg s.jobs (c'.authorize fp s' env worker pwDiff) true).1)
      (lines : o.lines = [.accepted,
        .setDifficulty (c'.authorize fp s' env worker pwDiff).difficulty] ++
        (sendCurrentNotify fp s.cfg s.jobs (c'.authorize fp s' env worker pwDiff) true).2)
  | refused (code : Nat) (message : String) (lines : o.lines = [.error code message])
      (counted : Counted s (c.refused (refusesAddress fp env s c params)) o.server o.conn)

theorem Answer.failed (lines : o.lines = [.error code message])
    (counted : Counted s (c.refused (refusesAddress fp env s c params)) o.server o.conn) :
    Answer fp env s c params (authFailed env o) := by
  refine .refused code message ?_ counted.failed
  rw [authFailed]
  split_ifs <;> exact lines

theorem handleAuthorize_answer (fp : Fpu) (env : Env) (s : Server) (c : Conn) (params : Json) :
    Answer fp env s c params (handleAuthorize fp env s c params) := by
  have gate := authGate_counted s c env.mono
  have lost := refusesAddress.eq_def fp env s c params
  rw [handleAuthorize]
  cases passed : authGate s c env.mono with
  | mk s' rest =>
    obtain ⟨c', verdict⟩ := rest
    rw [passed] at gate lost
    dsimp only at gate lost ⊢
    cases verdict with
    | refused text => exact .refused 24 text rfl (by rw [lost]; exact gate)
    | proceed tooMany =>
      cases tooMany with
      | true => exact .failed rfl (by rw [lost]; exact gate)
      | false =>
        dsimp only at lost ⊢
        cases named : params.credentials fp with
        | mk worker pwDiff =>
          rw [named] at lost
          cases worker with
          | none => exact .failed rfl (by rw [lost]; exact gate)
          | some worker =>
            have settings : s'.cfg = s.cfg := by rw [gate.server]; rfl
            have jobs : s'.jobs = s.jobs := by rw [gate.server]; rfl
            dsimp only at lost ⊢
            rw [← settings] at lost
            split_ifs with size gated
            · refine .failed rfl ?_
              rw [lost, decide_eq_false (not_not.mpr size), Bool.false_and, Bool.false_and]
              exact gate
            · refine .refused 24 _ rfl ?_
              rw [lost, gated, Bool.not_true, Bool.and_false, Bool.false_and]
              exact gate
            · rw [decide_eq_true size, Bool.eq_false_iff.mpr gated, Bool.not_false, Bool.true_and,
                Bool.true_and] at lost
              rw [authorizeWorker]
              cases wrong : addressError s'.cfg (addressPart worker) with
              | none =>
                exact .granted s' c' worker pwDiff gate rfl (by rw [← settings, ← jobs])
                  (by rw [← settings, ← jobs])
              | some reason =>
                refine .failed rfl ⟨gate.server, ?_⟩
                rw [lost, wrong]
                have conn := gate.conn
                generalize c'.counters = k at conn
                subst conn
                rfl

theorem handleAuthorize_refused
    (failed : (handleAuthorize fp env s c params).lines = [.error code message]) :
    Counted s (c.refused (refusesAddress fp env s c params))
      (handleAuthorize fp env s c params).server
      (handleAuthorize fp env s c params).conn := by
  cases handleAuthorize_answer fp env s c params with
  | granted s' c' worker pwDiff counted server conn lines => simp [lines] at failed
  | refused code message lines counted => exact counted

/-- The connection works for whom it worked for, only the counters differ, and until
somebody authorizes again every request is answered and every share credited as if the
call had not been made. -/
structure Undisturbed (fp : Fpu) (p : Pool) (i : Nat) (c : Conn) (o : Outcome) : Prop where
  authorized : o.conn.authorized = c.authorized
  workerName : o.conn.workerName = c.workerName
  payoutAddress : o.conn.payoutAddress = c.payoutAddress
  difficulty : o.conn.difficulty = c.difficulty
  cb : o.conn.cb = c.cb
  cbForJobId : o.conn.cbForJobId = c.cbForJobId
  counted : Counted p.server c o.server o.conn
  later : o.close = false → ∀ events, (∀ event ∈ events, event.authorizes = false) →
    transcript (Pool.step fp) (said fp) (p.handled i o) events =
      transcript (Pool.step fp) (said fp) p events

theorem Counted.undisturbed {p : Pool} {o : Outcome} (counted : Counted p.server c o.server o.conn)
    (here : p.conns i = some c) : Undisturbed fp p i c o where
  authorized := by rw [counted.conn]; rfl
  workerName := by rw [counted.conn]; rfl
  payoutAddress := by rw [counted.conn]; rfl
  difficulty := by rw [counted.conn]; rfl
  cb := by rw [counted.conn]; rfl
  cbForJobId := by rw [counted.conn]; rfl
  counted := counted
  later := by
    intro stays events quiet
    apply Pool.Alike.transcript _ quiet
    refine ⟨⟨_, counted.server⟩, ?_⟩
    intro j
    dsimp only [Pool.handled]
    rw [Function.update_apply, stays, if_neg Bool.false_ne_true]
    split_ifs with same
    · rw [same, here]
      exact ⟨_, congrArg some counted.conn⟩
    · exact .refl _

/-- A failed authorize disturbs nobody, unless it names an address that is refused while
the connection already works for another. -/
theorem failed_authorize_undisturbed_iff (fp : Fpu) (env : Env) (p : Pool) (i : Nat) (c : Conn)
    (request : Request) (here : p.conns i = some c) (called : methodOf request.method = .authorize)
    (failed : ∃ code message, (handleMessage fp env p.server c request).lines =
      [.error code message]) :
    Undisturbed fp p i c (handleMessage fp env p.server c request) ↔
      (refusesAddress fp env p.server c request.params = true → c.payoutAddress = []) := by
  obtain ⟨code, message, failed⟩ := failed
  rw [handleMessage, called] at failed ⊢
  have left := handleAuthorize_refused failed
  constructor
  · intro same refused
    rw [refused] at left
    rw [← same.payoutAddress, left.conn]
    rfl
  · intro free
    have kept : c.refused (refusesAddress fp env p.server c request.params) = c := by
      rw [Conn.refused]
      split_ifs with refused
      · rw [← free refused]
      · rfl
    rw [kept] at left
    exact left.undisturbed here

/-- A miner at work authorizes again without a name. -/
def namelessRequest : Request := soloRequest "mining.authorize" []

/-- A miner at work authorizes again, with an address that is cut short. -/
def truncatedRequest : Request := soloRequest "mining.authorize" [ascii "tb1q"]

theorem failed_authorize_nameless : (soloConn authorizeOnce).authorized = true ∧
    Undisturbed .exact (soloPool authorizeOnce) 0 (soloConn authorizeOnce)
      (handleMessage .exact soloEnv (soloPool authorizeOnce).server (soloConn authorizeOnce)
        namelessRequest) := by
  have facts :
    ((soloPool authorizeOnce).conns 0).isSome = true ∧ (soloConn authorizeOnce).authorized = true ∧
      (handleMessage .exact soloEnv (soloPool authorizeOnce).server (soloConn authorizeOnce)
        namelessRequest).lines = [.error 24 "missing worker name"] ∧
      refusesAddress .exact soloEnv (soloPool authorizeOnce).server (soloConn authorizeOnce)
        namelessRequest.params = false := by
    decide +kernel
  obtain ⟨there, authorized, answer, named⟩ := facts
  refine ⟨authorized, (failed_authorize_undisturbed_iff _ _ _ 0 _ namelessRequest
      (soloConn_here there) rfl ⟨_, _, answer⟩).mpr ?_⟩
  intro refused
  exact absurd refused (Bool.eq_false_iff.mp named)

/-- The working miner has lost its address, and its next share is turned away. -/
theorem truncated_authorize_disturbs :
    let p := soloPool authorizeOnce
    let c := soloConn authorizeOnce
    let o := handleMessage .exact soloEnv p.server c truncatedRequest
    p.conns 0 = some c ∧ c.authorized = true ∧ c.payoutAddress = firstAddress ∧
    (∃ message, o.lines = [.error 24 message]) ∧
      o.close = false ∧ o.conn.payoutAddress = [] ∧
      (handleMessage .exact soloEnv o.server o.conn
        (soloRequest "mining.submit" (soloSubmit "00000000"))).lines =
        [.error 25 "coinbase render failed"] ∧
      ¬Undisturbed .exact p 0 c o := by
  intro p c o
  have facts :
    [] ≠ firstAddress ∧ ((soloPool authorizeOnce).conns 0).isSome = true ∧ c.authorized = true ∧
      c.payoutAddress = firstAddress ∧ o.lines =
        [.error 24 "invalid payout address in stratum username: bech32 decode failed for 'tb1q'"] ∧
      o.close = false ∧ o.conn.payoutAddress = [] ∧
      (handleMessage .exact soloEnv o.server o.conn
        (soloRequest "mining.submit" (soloSubmit "00000000"))).lines =
        [.error 25 "coinbase render failed"] := by
    decide +kernel
  obtain ⟨named, there, authorized, address, answer, stays, lost, turned⟩ := facts
  refine ⟨soloConn_here there, authorized, address, ⟨_, answer⟩, stays, lost, turned, ?_⟩
  intro same
  have kept := same.payoutAddress
  rw [lost, address] at kept
  exact named kept

end SimplePool.Stratum
