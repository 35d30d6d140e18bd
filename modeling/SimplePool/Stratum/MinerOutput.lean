import SimplePool.Coinbase.Payee
import SimplePool.Stratum.Acceptance
import SimplePool.Stratum.Server

/-! Solo mode: the coinbase that is hashed for a share pays the address the share is
recorded under. The rendered coinbase is kept under the id of its job alone, so this
rests on what a later mining.authorize does to it. -/
namespace SimplePool.Stratum
open Wire Coinbase Transition

/-- A job with the extranonce sizes that main.c publishes under, and a template that is
an object in memory. -/
structure Job.Sized (job : Job) : Prop where
  en1Size : job.en1Size = extranonce1Size
  en2Size : job.en2Size = extranonce2Size
  templateFits : ∀ hex, job.coinbasetxnHex = some hex → hex.length < 2 ^ 63

/-- The finder is paid in the coinbase itself. -/
structure Cfg.Solo (cfg : Cfg) : Prop where
  pool : cfg.coinbasePaysPool = false
  window : cfg.coinbasePaysWindow = false

/-- The halves are a coinbase of some job that was built for the address. -/
def RenderedFor (fp : Fpu) (cfg : Cfg) (parts : Parts) (address : Bytes) : Prop :=
  ∃ job : Job, job.Sized ∧ renderSingle fp cfg job address = .ok parts

theorem map_ok {x : Result α} {f : α → β} (done : x.map f = .ok b) : ∃ a, x = .ok a ∧ f a = b := by
  cases x with
  | ok a => exact ⟨a, rfl, Except.ok.inj done⟩
  | error => contradiction

theorem RenderedFor.pays {extranonce1 en2 : Bytes} (rendered : RenderedFor fp cfg parts address)
    (size1 : extranonce1.length = extranonce1Size) (size2 : en2.length = extranonce2Size) :
    Pays (parts.cb1 ++ extranonce1 ++ en2 ++ parts.cb2) address := by
  obtain ⟨job, sized, done⟩ := rendered
  have small1 : extranonce1.length < 2 ^ 61 := by rw [size1]; decide
  have small2 : en2.length < 2 ^ 61 := by rw [size2]; decide
  rw [renderSingle, sized.en1Size, sized.en2Size, ← size1, ← size2] at done
  cases source : job.coinbasetxnHex with
  | none =>
    rw [source] at done
    obtain ⟨result, built, rfl⟩ := map_ok done
    exact buildSplit_pays built (by omega) (by omega)
  | some hex =>
    rw [source] at done
    obtain ⟨⟨parts, hasWitness⟩, built, rfl⟩ := map_ok done
    exact buildFromTemplate_pays built (sized.templateFits hex source) small1 small2

/-- The coinbase in the cache, if there is one, is for the address of the connection. -/
structure Conn.Tied (fp : Fpu) (cfg : Cfg) (c : Conn) : Prop where
  extranonce1 : c.extranonce1.length = extranonce1Size
  rendered : c.cbForJobId ≠ [] → c.payoutAddress ≠ [] → RenderedFor fp cfg c.cb c.payoutAddress

theorem Conn.Tied.new (fp : Fpu) (cfg : Cfg) (peerIp : Bytes) (pol : Listener) :
    ((Conn.new cfg peerIp).applyListener pol).Tied fp cfg where
  extranonce1 := rfl
  rendered := fun cached => absurd rfl cached

theorem Conn.Tied.of_denied {c c' : Conn} (tied : c.Tied fp cfg) (denied : c.Denied c') :
    c'.Tied fp cfg where
  extranonce1 := by rw [denied.extranonce1, tied.extranonce1]
  rendered := by
    intro cached named
    rcases denied.payoutAddress with same | gone
    · rw [denied.cbForJobId] at cached
      rw [same] at named ⊢
      rw [denied.cb]
      exact tied.rendered cached named
    · contradiction

theorem Conn.Tied.of_same {c c' : Conn} (tied : c.Tied fp cfg) (same : c.SameCoinbase c') :
    c'.Tied fp cfg :=
  tied.of_denied same.denied

section
variable {fp : Fpu} {cfg : Cfg} (solo : cfg.Solo)
include solo

theorem renderFresh_solo (c : Conn) (job : Job) :
    renderFresh fp cfg c job = renderSingle fp cfg job c.payoutAddress := by
  rw [renderFresh, solo.pool, solo.window]
  rfl

/-- The halves a submit or a notify uses: the cached ones, or ones rendered now. -/
theorem coinbaseFor_renderedFor {c : Conn} (sized : job.Sized)
    (held : c.cached job = true → c.payoutAddress ≠ [] → RenderedFor fp cfg c.cb c.payoutAddress)
    (found : coinbaseFor fp cfg c job = some parts) : RenderedFor fp cfg parts c.payoutAddress := by
  rw [coinbaseFor_eq, renderFresh_solo solo] at found
  split_ifs at found with unnamed cached
  · obtain rfl := Option.some.inj found
    apply held cached
    intro empty
    simp [empty] at unnamed
  · cases fresh : renderSingle fp cfg job c.payoutAddress with
    | ok rendered =>
      rw [fresh] at found
      obtain rfl := Option.some.inj found
      exact ⟨job, sized, fresh⟩
    | error => rw [fresh] at found; contradiction

theorem Conn.Tied.coinbaseFor {c : Conn} (tied : c.Tied fp cfg) (sized : job.Sized)
    (found : Stratum.coinbaseFor fp cfg c job = some parts) :
    RenderedFor fp cfg parts c.payoutAddress := by
  apply coinbaseFor_renderedFor solo sized _ found
  intro cached
  rw [Conn.cached, Bool.and_eq_true, decide_eq_true_iff] at cached
  exact tied.rendered cached.1

/-- A submit leaves the connection with the coinbase it was hashed with, or as it was. -/
theorem handleSubmit_tied {s : Server} {c : Conn} (settings : s.cfg = cfg)
    (jobs : s.jobs.All Job.Sized) (tied : c.Tied fp cfg) (env : Env) (params : Json) :
    (handleSubmit fp env s c params).conn.Tied fp cfg := by
  rcases handleSubmit_cases fp env s c params with ⟨w, r, reaches, rendered, done⟩ | ⟨_, unhashed⟩
  · have now : r.Tied fp cfg := by
      constructor
      · rw [rendered.extranonce1, tied.extranonce1]
      · intro _ _
        rw [rendered.cb, rendered.payoutAddress]
        exact tied.coinbaseFor solo (jobs.find reaches.job) (settings ▸ reaches.parts)
    rw [done]
    rcases submitHash_cases rendered fp env s with ⟨_, out⟩ | ⟨_, ⟨_, out⟩ | ⟨verdict, _, out⟩⟩
    · rw [out]
      exact now
    · rw [out]
      exact now
    · rw [out]
      have counted : (r.countShare fp w.job (w.hash c)).Tied fp cfg :=
        now.of_same ⟨rfl, rfl, rfl, rfl⟩
      exact counted.of_same (vardiffMaybeRetarget_sameCoinbase ..)
  · have same := unhashed.conn
    exact tied.of_same ⟨same.extranonce1, same.payoutAddress, same.cb, same.cbForJobId⟩

/-- A notify ties the connection to its address if the cached coinbase, should the
current job's be that one, already is for it. -/
theorem sendCurrentNotify_tied {jobs : Jobs} {c : Conn} (sized : jobs.All Job.Sized)
    (extranonce1 : c.extranonce1.length = extranonce1Size)
    (follows : c.cbForJobId ≠ [] → c.payoutAddress ≠ [] → RenderedFor fp cfg c.cb c.payoutAddress ∨
      ∃ job, jobs.current = some job ∧ job.jobId ≠ c.cbForJobId ∧ (coinbaseFor fp cfg c job).isSome)
      (clean : Bool) :
    (sendCurrentNotify fp cfg jobs c clean).1.Tied fp cfg := by
  have unchanged (kept : ∀ job, jobs.current = some job → coinbaseFor fp cfg c job = none) :
      c.Tied fp cfg := by
    refine ⟨extranonce1, fun cached named => ?_⟩
    rcases follows cached named with held | ⟨job, current, _, renders⟩
    · exact held
    · rw [kept job current] at renders
      contradiction
  rw [sendCurrentNotify]
  cases current : jobs.current with
  | none => exact unchanged (by simp [current])
  | some job =>
    dsimp only
    cases rendered : connRenderCoinbase fp cfg c job with
    | none =>
      apply unchanged
      intro other same
      obtain rfl := Option.some.inj (current.symm.trans same)
      rw [coinbaseFor, rendered]
      rfl
    | some r =>
      have parts : coinbaseFor fp cfg c job = some r.cb := by rw [coinbaseFor, rendered]; rfl
      have kept := connRenderCoinbase_eq rendered
      have address : r.payoutAddress = c.payoutAddress := by rw [kept]
      have now : r.Tied fp cfg := by
        refine ⟨by rw [kept, extranonce1], fun _ _ => ?_⟩
        rw [address]
        apply coinbaseFor_renderedFor solo (sized.current job current) _ parts
        intro cached named
        rw [Conn.cached, Bool.and_eq_true, decide_eq_true_iff, decide_eq_true_iff] at cached
        rcases follows cached.1 named with held | ⟨other, same, differs, _⟩
        · exact held
        · obtain rfl := Option.some.inj (current.symm.trans same)
          exact absurd cached.2.symm differs
      exact now.of_same (connRecordJobDifficulty_sameCoinbase ..)

theorem Conn.Tied.notify {c : Conn} (tied : c.Tied fp cfg) {jobs : Jobs}
    (sized : jobs.All Job.Sized) (clean : Bool) :
    (notifyConn fp cfg jobs clean c).Tied fp cfg := by
  rw [notifyConn]
  split_ifs
  · exact sendCurrentNotify_tied solo sized tied.extranonce1 (fun cached named =>
      .inl (tied.rendered cached named)) clean
  · exact tied

end

/-- A newly accepted address finds nothing in the cache, a coinbase for that address, or
one that the notify it is sent next replaces. -/
def CacheFollows (fp : Fpu) (s : Server) (c : Conn) (address : Bytes) : Prop :=
  c.cbForJobId = [] ∨ RenderedFor fp s.cfg c.cb address ∨
    ∃ job parts, s.jobs.current = some job ∧ job.jobId ≠ c.cbForJobId ∧
    renderSingle fp s.cfg job address = .ok parts

/-- Every authorize that will be granted finds the cache so. -/
def Reauthorizes (fp : Fpu) (p : Pool) (e : Event) (_ : Pool) : Prop :=
  match e with
  | .message i env request =>
    methodOf request.method = .authorize → ∀ c address, p.conns i = some c →
      grantedAddress fp env p.server c request.params = some address →
        CacheFollows fp p.server c address
  | _ => True

/-- Every share that a request is recorded for stands under the connection's name and
address, and the coinbase hashed for it pays that address. -/
def PaysFinder (fp : Fpu) (p : Pool) (e : Event) (_ : Pool) : Prop :=
  match e with
  | .message i env request => ∀ c share, p.conns i = some c →
      Observed.share share ∈ (handleMessage fp env p.server c request).observed →
      ∃ w, Reaches fp env p.server c request.params w ∧ share.hash = hexEncode (w.hash c) ∧
        share.workerName = c.workerName ∧ share.payoutAddress = c.payoutAddress ∧
        Pays (w.coinbase c) share.payoutAddress
  | _ => True

structure Pool.Tied (fp : Fpu) (cfg : Cfg) (p : Pool) : Prop where
  settings : p.server.cfg = cfg
  jobs : p.server.jobs.All Job.Sized
  conns : ∀ i c, p.conns i = some c → c.Tied fp cfg

theorem Pool.Tied.start (fp : Fpu) (cfg : Cfg) (seed : UInt32) :
    (Pool.start cfg seed).Tied fp cfg where
  settings := rfl
  jobs := .empty _
  conns := fun _ _ none => nomatch none

section
variable {fp : Fpu} {cfg : Cfg} (solo : cfg.Solo)
include solo

theorem handleAuthorize_tied {s : Server} {c : Conn} (settings : s.cfg = cfg)
    (jobs : s.jobs.All Job.Sized) (tied : c.Tied fp cfg) (env : Env) (params : Json)
    (follows : ∀ address, grantedAddress fp env s c params = some address →
      CacheFollows fp s c address) :
    (handleAuthorize fp env s c params).conn.Tied fp cfg := by
  rcases (handleAuthorize_spec fp env s c params).conn with
    ⟨address, ready, granted, named, authorized, done⟩ | ⟨_, denied⟩
  · rw [done, settings]
    apply sendCurrentNotify_tied solo jobs (by rw [authorized.extranonce1, tied.extranonce1])
    intro cached _
    rw [authorized.cbForJobId] at cached
    rw [authorized.payoutAddress, authorized.cb, authorized.cbForJobId]
    rcases follows address granted with empty | held | ⟨job, parts, current, differs, renders⟩
    · contradiction
    · exact .inl (settings ▸ held)
    · refine .inr ⟨job, current, differs, ?_⟩
      have uncached : ready.cached job = false := by
        rw [Conn.cached, authorized.cbForJobId, decide_eq_false (Ne.symm differs), Bool.and_false]
      rw [settings] at renders
      rw [coinbaseFor_eq, renderFresh_solo solo, uncached, authorized.authorized,
        authorized.payoutAddress, renders]
      simp [named, Except.toOption]
  · exact tied.of_denied denied

theorem handleMessage_tied {p : Pool} (tied : p.Tied fp cfg) (here : p.conns i = some c)
    (follows : Reauthorizes fp p (.message i env request) t) :
    (handleMessage fp env p.server c request).conn.Tied fp cfg := by
  have held := tied.conns i c here
  rw [handleMessage]
  cases called : methodOf request.method with
  | configure => exact held.of_same (handleConfigure_sameCoinbase ..)
  | subscribe => exact ⟨rfl, held.rendered⟩
  | suggestDifficulty => exact held.of_same (handleSuggestDifficulty_sameCoinbase ..)
  | authorize =>
    exact handleAuthorize_tied solo tied.settings tied.jobs held env _
      (fun address => follows called c address here)
  | submit => exact handleSubmit_tied solo tied.settings tied.jobs held env _
  | unknown => exact held

theorem handleMessage_pays {p : Pool} (tied : p.Tied fp cfg) :
    PaysFinder fp p (.message i env request) t := by
  intro c share here credited
  have held := tied.conns i c here
  by_cases called : methodOf request.method = .submit
  · rw [handleMessage, called] at credited
    obtain ⟨w, reaches, _, worker, address, hash⟩ := handleSubmit_share credited
    refine ⟨w, reaches, hash, worker, address, ?_⟩
    have sized := tied.jobs.find reaches.job
    have rendered := held.coinbaseFor solo sized (tied.settings ▸ reaches.parts)
    rw [address]
    exact rendered.pays held.extranonce1 (by rw [reaches.en2Size, sized.en2Size])
  · exact absurd credited ((handleMessage_kept fp env p.server c request called).uncredited share)

/-- One step. -/
theorem step_tied {p t : Pool} (tied : p.Tied fp cfg)
    (sized : ∀ mono job clean, e = .setJob mono job clean → job.Sized)
    (follows : Reauthorizes fp p e t) (stepped : p.step fp e = some t) :
    t.Tied fp cfg ∧ PaysFinder fp p e t := by
  cases e with
  | connect i peerIp pol =>
    simp only [Pool.step] at stepped
    split at stepped
    next => contradiction
    next =>
      obtain rfl := Option.some.inj stepped
      refine ⟨⟨tied.settings, tied.jobs, ?_⟩, trivial⟩
      intro j c here
      rcases conns_update here with ⟨_, new⟩ | ⟨_, there⟩
      · obtain rfl := Option.some.inj new
        rw [← tied.settings]
        exact .new fp p.server.cfg peerIp pol
      · exact tied.conns j c there
  | disconnect i =>
    obtain rfl := Option.some.inj stepped
    refine ⟨⟨tied.settings, tied.jobs, ?_⟩, trivial⟩
    intro j c here
    rcases conns_update here with ⟨_, gone⟩ | ⟨_, there⟩
    · contradiction
    · exact tied.conns j c there
  | message i env request =>
    simp only [Pool.step] at stepped
    split at stepped
    next => contradiction
    next c here =>
      obtain rfl := Option.some.inj stepped
      obtain ⟨settings, jobs⟩ := handleMessage_jobs fp env p.server c request
      refine ⟨⟨settings.trans tied.settings, ?_, ?_⟩, handleMessage_pays solo tied⟩
      · rw [Pool.handled, jobs]
        exact tied.jobs
      · intro j c' there
        rcases conns_update there with ⟨_, new⟩ | ⟨_, there⟩
        · split_ifs at new
          obtain rfl := Option.some.inj new
          exact handleMessage_tied solo tied here follows
        · exact tied.conns j c' there
  | setJob mono job clean =>
    obtain rfl := Option.some.inj stepped
    have jobs : (p.server.jobs.publish mono job).All Job.Sized :=
      tied.jobs.publish (sized mono job clean rfl)
    refine ⟨⟨tied.settings, jobs, ?_⟩, trivial⟩
    intro i c here
    obtain ⟨before, there, rfl⟩ := Option.map_eq_some_iff.mp here
    rw [tied.settings]
    exact (tied.conns i before there).notify solo jobs clean

end

/-- In solo mode, over every run of connections, requests and published jobs in which a
newly accepted address never meets the coinbase of another one in the cache: a share is
recorded under the address that its coinbase pays. -/
theorem solo_shares_pay_finder (fp : Fpu) (cfg : Cfg) (solo : cfg.Solo) (seed : UInt32)
    (events : List Event)
    (sized : ∀ mono job clean, Event.setJob mono job clean ∈ events → job.Sized)
    (follows : Along (Pool.step fp) (Reauthorizes fp) (Pool.start cfg seed) events) :
    Along (Pool.step fp) (PaysFinder fp) (Pool.start cfg seed) events := by
  have conditions :
    Along (Pool.step fp) (fun p e t => (∀ mono job clean, e = .setJob mono job clean → job.Sized) ∧
      Reauthorizes fp p e t) (Pool.start cfg seed) events := by
    apply follows.imp
    intro p e t inside here
    exact ⟨fun mono job clean same => sized mono job clean (same ▸ inside), here⟩
  apply Along.of_invariant _ (Pool.Tied.start fp cfg seed) conditions
  intro p e t tied condition stepped
  exact step_tied solo tied condition.1 condition.2 stepped

def secondAddress : Bytes := ascii "tb1qrp33g0q5c5txsp9arysrx4k6zdkfs4nce4xj0gdcccefvpysxf3q0sl5k7"

def authorizeTwice : List Event := authorizeOnce ++ [soloMessage "mining.authorize" [secondAddress]]

theorem soloCfg_solo : soloCfg.Solo := ⟨rfl, rfl⟩

theorem regtestJob_sized : regtestJob.Sized := ⟨rfl, rfl, fun _ none => nomatch none⟩

/-- The coinbase of a submit that reaches its hash. -/
def hashedCoinbase (fp : Fpu) (s : Server) (c : Conn) (params : Json) : Option Bytes :=
  params.submission.bind fun sub => (findJob s.jobs sub.jobId).bind fun job =>
    (hexToBytesAlloc sub.en2).bind fun en2 => (coinbaseFor fp s.cfg c job).map fun parts =>
      parts.cb1 ++ c.extranonce1 ++ en2 ++ parts.cb2

theorem Reaches.hashedCoinbase (reaches : Reaches fp env s c params w) :
    Stratum.hashedCoinbase fp s c params = some (w.coinbase c) := by
  simp only [Stratum.hashedCoinbase, reaches.submission, reaches.job, reaches.en2, reaches.parts,
    Option.bind_some, Option.map_some, Work.coinbase]

/-- The script of the miner output. -/
def minerScript (coinbase : Bytes) : Option Bytes :=
  (Tx.read coinbase).bind fun tx => (tx.outputs.find? TxOut.spendable).map TxOut.script

theorem minerScript_of_pays (pays : Pays coinbase address) :
    minerScript coinbase = (addressToScript address spkCap).toOption := by
  obtain ⟨tx, out, read, found, script⟩ := pays
  rw [minerScript, read, Option.bind_some, found, script]
  rfl

theorem not_paysFinder (share : Share) (here : p.conns i = some c)
    (credited : Observed.share share ∈ (handleMessage fp env p.server c request).observed)
    (other : (hashedCoinbase fp p.server c request.params).bind minerScript ≠
      (addressToScript share.payoutAddress spkCap).toOption) :
      ¬PaysFinder fp p (.message i env request) t := by
  intro pays
  obtain ⟨w, reaches, _, _, _, paid⟩ := pays c share here credited
  apply other
  rw [reaches.hashedCoinbase, Option.bind_some]
  exact minerScript_of_pays paid

theorem soloJobs_sized (mono : UInt64) (job : Job) (clean : Bool) (params : List Bytes)
    (member : Event.setJob mono job clean ∈
      authorizeTwice ++ [soloMessage "mining.submit" params]) : job.Sized := by
  simp only [authorizeTwice, authorizeOnce, soloMessage, List.cons_append, List.nil_append,
    List.mem_cons, Event.setJob.injEq, reduceCtorEq, List.not_mem_nil, or_false] at member
  rw [member.2.1]
  exact regtestJob_sized

/-- The connection asks to be authorized only while it has nothing rendered. -/
def authorizesUnrendered (p : Pool) (e : Event) : Bool :=
  match e with
  | .message i _ request =>
    methodOf request.method ≠ .authorize || (p.conns i).all fun c => c.cbForJobId = []
  | _ => true

theorem reauthorizes_of_unrendered (fp : Fpu) (t : Pool)
    (unrendered : authorizesUnrendered p e = true) : Reauthorizes fp p e t := by
  cases e with
  | message i env request =>
    intro called c address here _
    simp only [authorizesUnrendered, called, here, ne_eq, not_true_eq_false, decide_false,
      Bool.false_or, Option.all_some, decide_eq_true_eq] at unrendered
    exact .inl unrendered
  | connect => trivial
  | disconnect => trivial
  | setJob => trivial

theorem solo_shares_pay_finder_once :
    (∀ mono job clean, Event.setJob mono job clean ∈
      authorizeOnce ++ [soloMessage "mining.submit" (soloSubmit "00000004")] →
      job.Sized) ∧
    Along (Pool.step .exact) (Reauthorizes .exact) (Pool.start soloCfg 0)
      (authorizeOnce ++ [soloMessage "mining.submit" (soloSubmit "00000004")]) ∧
    Along (Pool.step .exact) (PaysFinder .exact) (Pool.start soloCfg 0)
      (authorizeOnce ++ [soloMessage "mining.submit" (soloSubmit "00000004")]) := by
  have sized : ∀ mono job clean,
      Event.setJob mono job clean ∈
        authorizeOnce ++ [soloMessage "mining.submit" (soloSubmit "00000004")] → job.Sized := by
    intro mono job clean member
    apply soloJobs_sized mono job clean (soloSubmit "00000004")
    rw [authorizeTwice, List.append_assoc]
    rcases List.mem_append.mp member with first | last
    · exact List.mem_append_left _ first
    · exact List.mem_append_right _ (List.mem_append_right _ last)
  have once :
    Along (Pool.step .exact) (fun p e _ => authorizesUnrendered p e = true) (Pool.start soloCfg 0)
      (authorizeOnce ++ [soloMessage "mining.submit" (soloSubmit "00000004")]) := by
    decide +kernel
  have follows := once.imp fun p e t _ unrendered => reauthorizes_of_unrendered .exact t unrendered
  exact ⟨sized, follows, solo_shares_pay_finder .exact soloCfg soloCfg_solo 0 _ sized follows⟩

/-- The same job, after a second address was accepted: the share is the second's, and
the coinbase still pays the first. -/
theorem second_address_unpaid :
    soloCfg.Solo ∧
    (∀ mono job clean, Event.setJob mono job clean ∈
      authorizeTwice ++ [soloMessage "mining.submit" (soloSubmit "00000004")] →
      job.Sized) ∧
    ¬Along (Pool.step .exact) (PaysFinder .exact) (Pool.start soloCfg 0)
      (authorizeTwice ++ [soloMessage "mining.submit" (soloSubmit "00000004")]) := by
  refine ⟨soloCfg_solo, fun mono job clean => soloJobs_sized mono job clean _, fun along => ?_⟩
  have ended : (run (Pool.step .exact) (Pool.start soloCfg 0) authorizeTwice).isSome ∧
      ((soloPool authorizeTwice).conns 0).isSome ∧
      Observed.share ⟨secondAddress, secondAddress, 0, ((65535 / 140737471578112 : ℚ) : WithTop ℚ),
        true, ascii "4ba9c2402df9393dfd82b2f1d55d9bf8fc7797791b71f2fab28c7932fec44f68"⟩ ∈
          (handleMessage .exact soloEnv (soloPool authorizeTwice).server (soloConn authorizeTwice)
            (soloRequest "mining.submit" (soloSubmit "00000004"))).observed ∧
      (hashedCoinbase .exact (soloPool authorizeTwice).server (soloConn authorizeTwice)
        (soloRequest "mining.submit" (soloSubmit "00000004")).params).bind minerScript ≠
          (addressToScript secondAddress spkCap).toOption := by
    decide +kernel
  obtain ⟨runs, there, credited, other⟩ := ended
  have here := soloConn_here there
  have last := along.after (soloPool_run runs)
  obtain ⟨paid, _⟩ := last ((soloPool authorizeTwice).handled 0
    (handleMessage .exact soloEnv (soloPool authorizeTwice).server
    (soloConn authorizeTwice) (soloRequest "mining.submit" (soloSubmit "00000004"))))
      (by simp only [soloMessage, Pool.step, here])
  exact not_paysFinder _ here credited other paid

end SimplePool.Stratum
