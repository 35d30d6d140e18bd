import SimplePool.Stratum.Acceptance
import SimplePool.Stratum.MinerOutput

/-! Whom a share is credited to when several usernames are authorized on one connection.
The submit names its worker; the handler takes the connection's. -/
namespace SimplePool.Stratum
open Transition Wire Coinbase

/-- The worker that an authorize or a submit names. -/
def Request.worker (request : Request) : Option Bytes :=
  request.params.items[0]?.bind Json.valuestring

/-- The pool, and the usernames each connection was authorized for, the latest first. -/
structure AuthLog where
  pool : Pool
  usernames : Nat → List Bytes

def AuthLog.start (cfg : Cfg) (seed : UInt32) : AuthLog := ⟨Pool.start cfg seed, fun _ => []⟩

/-- An authorize that is answered with true. -/
def authorizes (fp : Fpu) (env : Env) (s : Server) (c : Conn) (request : Request) : Bool :=
  methodOf request.method = .authorize && .accepted ∈ (handleMessage fp env s c request).lines

def AuthLog.record (fp : Fpu) (l : AuthLog) : Event → Nat → List Bytes
  | .connect i _ _ => Function.update l.usernames i []
  | .message i env request =>
    match l.pool.conns i with
    | none => l.usernames
    | some c =>
      if authorizes fp env l.pool.server c request then
        Function.update l.usernames i (request.worker.toList ++ l.usernames i)
      else l.usernames
  | _ => l.usernames

def AuthLog.step (fp : Fpu) (l : AuthLog) (event : Event) : Option AuthLog :=
  (l.pool.step fp event).map fun pool => ⟨pool, l.record fp event⟩

/-- A share whose submit names a username authorized on its connection is credited to
that username and its address. -/
def CreditsNamed (fp : Fpu) (l : AuthLog) (event : Event) : Prop :=
  match event with
  | .message i env request =>
    methodOf request.method = .submit → ∀ c share worker, l.pool.conns i = some c →
      Observed.share share ∈ (handleMessage fp env l.pool.server c request).observed →
      request.worker = some worker → worker ∈ l.usernames i →
      share.workerName = sanitizeWorker worker ∧ share.payoutAddress = addressPart worker
  | _ => True

/-- A submit that will be credited and names an authorized username names the latest, as
far as its sanitized name and its address go. -/
def NamesLatest (fp : Fpu) (l : AuthLog) (event : Event) : Prop :=
  match event with
  | .message i env request =>
    methodOf request.method = .submit → ∀ c worker latest earlier, l.pool.conns i = some c →
      (∃ w, Acceptable fp env l.pool.server c request.params w ∧ MeetsTarget fp c w) →
      request.worker = some worker → worker ∈ l.usernames i → l.usernames i = latest :: earlier →
      sanitizeWorker worker = sanitizeWorker latest ∧ addressPart worker = addressPart latest
  | _ => True

structure Conn.SameIdentity (c c' : Conn) : Prop where
  authorized : c'.authorized = c.authorized
  workerName : c'.workerName = c.workerName
  payoutAddress : c'.payoutAddress = c.payoutAddress

theorem Conn.SameIdentity.refl (c : Conn) : c.SameIdentity c := ⟨rfl, rfl, rfl⟩

theorem Conn.SameIdentity.trans {c c' c'' : Conn} (first : c.SameIdentity c')
    (second : c'.SameIdentity c'') :
    c.SameIdentity c'' where
  authorized := second.authorized.trans first.authorized
  workerName := second.workerName.trans first.workerName
  payoutAddress := second.payoutAddress.trans first.payoutAddress

theorem applyRequestedDiff_sameIdentity (fp : Fpu) (cfg : Cfg) (jobs : Jobs) (c : Conn)
    (req : WithTop ℚ) :
    c.SameIdentity (applyRequestedDiff fp cfg jobs c req) := by
  simp only [applyRequestedDiff]
  split_ifs <;> exact ⟨rfl, rfl, rfl⟩

theorem connRecordJobDifficulty_sameIdentity (c : Conn) (jobId : Bytes) (difficulty : ℚ) :
    c.SameIdentity (connRecordJobDifficulty c jobId difficulty) := by
  rw [connRecordJobDifficulty]
  split_ifs
  · exact .refl c
  · split <;> exact ⟨rfl, rfl, rfl⟩

theorem sendCurrentNotify_sameIdentity (fp : Fpu) (cfg : Cfg) (jobs : Jobs) (c : Conn)
    (clean : Bool) :
    c.SameIdentity (sendCurrentNotify fp cfg jobs c clean).1 := by
  rw [sendCurrentNotify]
  split
  next => exact .refl c
  next job _ =>
    split
    next => exact .refl c
    next r rendered =>
      have kept := connRenderCoinbase_eq rendered
      have same : c.SameIdentity r := by
        rw [kept]
        exact ⟨rfl, rfl, rfl⟩
      exact same.trans (connRecordJobDifficulty_sameIdentity ..)

theorem vardiffMaybeRetarget_sameIdentity (fp : Fpu) (cfg : Cfg) (jobs : Jobs) (c : Conn)
    (now : UInt64) :
    c.SameIdentity (vardiffMaybeRetarget fp cfg jobs c now).1 := by
  simp only [vardiffMaybeRetarget]
  split_ifs <;> exact ⟨rfl, rfl, rfl⟩

theorem handleSubmit_sameIdentity (fp : Fpu) (env : Env) (s : Server) (c : Conn) (params : Json) :
    c.SameIdentity (handleSubmit fp env s c params).conn := by
  rcases handleSubmit_cases fp env s c params with ⟨w, r, reaches, rendered, done⟩ | ⟨_, unhashed⟩
  · have now : c.SameIdentity r :=
      ⟨rendered.authorized, rendered.workerName, rendered.payoutAddress⟩
    rw [done]
    rcases submitHash_cases rendered fp env s with ⟨_, out⟩ | ⟨_, ⟨_, out⟩ | ⟨verdict, _, out⟩⟩
    · rw [out]
      exact now
    · rw [out]
      exact now
    · rw [out]
      have counted : c.SameIdentity (r.countShare fp w.job (w.hash c)) := now.trans ⟨rfl, rfl, rfl⟩
      exact counted.trans (vardiffMaybeRetarget_sameIdentity ..)
  · have same := unhashed.conn
    exact ⟨same.authorized, same.workerName, same.payoutAddress⟩

/-- What an authorize makes of the connection's identity. -/
inductive Renamed (c : Conn) (worker : Option Bytes) (o : Outcome) : Prop where
  | granted (username : Bytes) (named : worker = some username) (told : Line.accepted ∈ o.lines)
      (workerName : o.conn.workerName = sanitizeWorker username)
      (payoutAddress : o.conn.payoutAddress = addressPart username)
  | refused (told : Line.accepted ∉ o.lines) (authorized : o.conn.authorized = c.authorized)
      (workerName : o.conn.workerName = c.workerName)
      (payoutAddress : o.conn.payoutAddress = c.payoutAddress ∨ o.conn.payoutAddress = [])

theorem Renamed.failed {c c' : Conn} (same : c.SameIdentity c') (env : Env) (conn : o.conn = c')
    (told : o.lines = [.error code message]) : Renamed c worker (authFailed env o) := by
  have lines : (authFailed env o).lines = o.lines := by
    rw [authFailed]
    split_ifs <;> rfl
  have kept : o.conn.SameIdentity (authFailed env o).conn := by
    rw [authFailed]
    split_ifs <;> exact ⟨rfl, rfl, rfl⟩
  have whole := same.trans (conn ▸ kept)
  exact .refused (by simp [lines, told]) whole.authorized whole.workerName
    (.inl whole.payoutAddress)

theorem authGate_sameIdentity (s : Server) (c : Conn) (mono : UInt64) :
    c.SameIdentity (authGate s c mono).2.1 := by
  rw [authGate]
  split_ifs
  · exact .refl c
  · split
    next => exact .refl c
    next =>
      simp only [Conn.rollAuthWindow]
      split_ifs <;> exact ⟨rfl, rfl, rfl⟩

theorem Conn.authorize_identity (fp : Fpu) (s : Server) (c : Conn) (env : Env) (worker : Bytes)
    (pwDiff : WithTop ℚ) :
    (c.authorize fp s env worker pwDiff).workerName = sanitizeWorker worker ∧
      (c.authorize fp s env worker pwDiff).payoutAddress = addressPart worker := by
  unfold Conn.authorize
  extract_lets named req asked
  have still : named.SameIdentity asked := by
    unfold asked
    split_ifs
    · exact applyRequestedDiff_sameIdentity ..
    · exact .refl named
  exact ⟨still.workerName, still.payoutAddress⟩

theorem authorizeWorker_renamed (fp : Fpu) (env : Env) (s : Server) (c : Conn) (username : Bytes)
    (pwDiff : WithTop ℚ) :
    Renamed c (some username) (authorizeWorker fp env s c username pwDiff) := by
  rw [authorizeWorker]
  split
  next reason message _ =>
    rw [authFailed]
    split_ifs
    · exact .refused (by simp [refuseObserved]) rfl rfl (.inr rfl)
    · exact .refused (by simp [refuseObserved]) rfl rfl (.inr rfl)
  next =>
    obtain ⟨workerName, payoutAddress⟩ := Conn.authorize_identity fp s c env username pwDiff
    have told :=
      sendCurrentNotify_sameIdentity fp s.cfg s.jobs (c.authorize fp s env username pwDiff) true
    exact .granted username rfl (by simp) (told.workerName.trans workerName)
      (told.payoutAddress.trans payoutAddress)

theorem Renamed.of_same {c c' : Conn} (same : c.SameIdentity c') (renamed : Renamed c' worker o) :
    Renamed c worker o := by
  cases renamed with
  | granted username named told workerName payoutAddress =>
    exact .granted username named told workerName payoutAddress
  | refused told authorized workerName payoutAddress =>
    exact .refused told (authorized.trans same.authorized) (workerName.trans same.workerName)
      (payoutAddress.imp (·.trans same.payoutAddress) id)

theorem handleAuthorize_renamed (fp : Fpu) (env : Env) (s : Server) (c : Conn) (params : Json) :
    Renamed c (params.credentials fp).1 (handleAuthorize fp env s c params) := by
  have kept := authGate_sameIdentity s c env.mono
  rw [handleAuthorize]
  split
  next gate =>
    rw [gate] at kept
    exact .refused (by simp) kept.authorized kept.workerName (.inl kept.payoutAddress)
  next gate =>
    rw [gate] at kept
    exact .failed kept env rfl rfl
  next gate =>
    rw [gate] at kept
    split
    next => exact .failed kept env rfl rfl
    next username pwDiff named =>
      rw [named]
      split_ifs
      · exact .failed kept env rfl rfl
      · exact .refused (by simp [refuseObserved]) kept.authorized kept.workerName
          (.inl kept.payoutAddress)
      · exact (authorizeWorker_renamed fp env _ _ username pwDiff).of_same kept

/-- An authorized connection goes by the username authorized last, unless a refused
authorize has taken its address away. -/
structure Conn.GoesBy (c : Conn) (usernames : List Bytes) : Prop where
  latest : c.authorized = true → ∃ latest earlier, usernames = latest :: earlier ∧
    c.workerName = sanitizeWorker latest ∧
    (c.payoutAddress = addressPart latest ∨ c.payoutAddress = [])

theorem Conn.GoesBy.of_same {c c' : Conn} (goes : c.GoesBy usernames) (same : c.SameIdentity c') :
    c'.GoesBy usernames := by
  constructor
  intro authorized
  rw [same.workerName, same.payoutAddress]
  exact goes.latest (same.authorized.symm.trans authorized)

def AuthLog.Named (l : AuthLog) : Prop := ∀ i c, l.pool.conns i = some c → c.GoesBy (l.usernames i)

theorem handleMessage_goesBy {c : Conn} (goes : c.GoesBy usernames) (fp : Fpu) (env : Env)
    (s : Server) (request : Request) :
    (handleMessage fp env s c request).conn.GoesBy
      (if authorizes fp env s c request then request.worker.toList ++ usernames
        else usernames) := by
  by_cases called : methodOf request.method = .authorize
  · have renamed := handleAuthorize_renamed fp env s c request.params
    simp only [authorizes, handleMessage, called, decide_true, Bool.true_and, decide_eq_true_eq]
    cases renamed with
    | granted username named told workerName payoutAddress =>
      have worker : request.worker = some username := named
      rw [if_pos told, worker]
      exact ⟨fun _ => ⟨username, usernames, rfl, workerName, .inl payoutAddress⟩⟩
    | refused told authorized workerName payoutAddress =>
      rw [if_neg told]
      constructor
      intro still
      obtain ⟨latest, earlier, listed, name, address⟩ := goes.latest (authorized.symm.trans still)
      refine ⟨latest, earlier, listed, workerName.trans name, ?_⟩
      rcases payoutAddress with same | gone
      · rw [same]
        exact address
      · exact .inr gone
  · rw [authorizes, decide_eq_false called, Bool.false_and, if_neg Bool.false_ne_true]
    apply goes.of_same
    rw [handleMessage]
    cases other : methodOf request.method with
    | configure =>
      simp only [handleConfigure]
      split_ifs <;> exact ⟨rfl, rfl, rfl⟩
    | subscribe => exact ⟨rfl, rfl, rfl⟩
    | suggestDifficulty =>
      dsimp only [handleSuggestDifficulty]
      by_cases asked : 0 < (request.params.items[0]?.bind Json.valuedouble).getD 0
      · rw [if_neg (not_not.mpr asked)]
        exact applyRequestedDiff_sameIdentity ..
      · rw [if_pos asked]
        exact .refl c
    | authorize => contradiction
    | submit => exact handleSubmit_sameIdentity ..
    | unknown => exact .refl c

/-- A credit goes to the username authorized last. -/
theorem handleSubmit_credits_latest {c : Conn} (goes : c.GoesBy usernames) (fp : Fpu) (env : Env)
    (s : Server) (params : Json)
    (credited : Observed.share share ∈ (handleSubmit fp env s c params).observed) :
    ∃ latest earlier, usernames = latest :: earlier ∧ share.workerName = sanitizeWorker latest ∧
      share.payoutAddress = addressPart latest := by
  obtain ⟨w, reaches, _, worker, address, _⟩ := handleSubmit_share credited
  obtain ⟨latest, earlier, listed, name, known⟩ := goes.latest reaches.authorized
  refine ⟨latest, earlier, listed, worker.trans name, address.trans ?_⟩
  rcases known with same | gone
  · exact same
  · -- without an address there is no coinbase to hash
    have rendered := reaches.parts
    rw [coinbaseFor_eq, reaches.authorized, gone] at rendered
    contradiction

theorem creditsNamed_iff {l : AuthLog} (named : l.Named) (event : Event) :
    CreditsNamed fp l event ↔ NamesLatest fp l event := by
  cases event with
  | connect => exact Iff.rfl
  | disconnect => exact Iff.rfl
  | setJob => exact Iff.rfl
  | message i env request =>
    simp only [CreditsNamed, NamesLatest]
    constructor
    · intro credits called c worker latest earlier here acceptable names listed usernames
      obtain ⟨share, credited⟩ :=
        (submit_credited_iff fp env l.pool.server c request.params).1.mpr acceptable
      obtain ⟨latest', _, same, name, address⟩ :=
        handleSubmit_credits_latest (named i c here) fp env _ _ credited
      obtain ⟨rfl, -⟩ := List.cons.inj (usernames.symm.trans same)
      have handled := credits called c share worker here
        (by rw [handleMessage, called]; exact credited) names listed
      exact ⟨handled.1.symm.trans name, handled.2.symm.trans address⟩
    · intro latest called c share worker here credited names listed
      rw [handleMessage, called] at credited
      obtain ⟨last, earlier, usernames, name, address⟩ :=
        handleSubmit_credits_latest (named i c here) fp env _ _ credited
      have acceptable :=
        (submit_credited_iff fp env l.pool.server c request.params).1.mp ⟨share, credited⟩
      obtain ⟨sameName, sameAddress⟩ :=
        latest called c worker last earlier here acceptable names listed usernames
      exact ⟨name.trans sameName.symm, address.trans sameAddress.symm⟩

theorem AuthLog.Named.step {l after : AuthLog} (named : l.Named)
    (stepped : l.step fp event = some after) : after.Named := by
  obtain ⟨pool, moved, rfl⟩ := Option.map_eq_some_iff.mp stepped
  cases event with
  | connect i peerIp pol =>
    rw [Pool.step] at moved
    split at moved
    next => contradiction
    next =>
      obtain rfl := Option.some.inj moved
      intro j c here
      dsimp only [AuthLog.record]
      rcases conns_update here with ⟨rfl, new⟩ | ⟨other, there⟩
      · obtain rfl := Option.some.inj new
        exact ⟨fun authorized => by cases authorized⟩
      · rw [Function.update_of_ne other]
        exact named j c there
  | disconnect i =>
    obtain rfl := Option.some.inj moved
    intro j c here
    rcases conns_update here with ⟨_, gone⟩ | ⟨_, there⟩
    · contradiction
    · exact named j c there
  | setJob mono job clean =>
    obtain rfl := Option.some.inj moved
    intro j c here
    obtain ⟨before, there, rfl⟩ := Option.map_eq_some_iff.mp here
    apply (named j before there).of_same
    rw [notifyConn]
    split_ifs
    · exact sendCurrentNotify_sameIdentity ..
    · exact .refl before
  | message i env request =>
    rw [Pool.step] at moved
    split at moved
    next => contradiction
    next c there =>
      obtain rfl := Option.some.inj moved
      intro j c' here
      have goes := handleMessage_goesBy (named i c there) fp env l.pool.server request
      simp only [AuthLog.record, there]
      rcases conns_update here with ⟨rfl, new⟩ | ⟨other, kept⟩
      · split_ifs at new
        obtain rfl := Option.some.inj new
        split_ifs at goes ⊢
        · rw [Function.update_self]
          exact goes
        · exact goes
      · split_ifs
        · rw [Function.update_of_ne other]
          exact named j c' kept
        · exact named j c' kept

/-- Over every run of connects, disconnects, requests and published jobs, shares are
credited to the authorized usernames that their submits name exactly as long as these
are the ones authorized last. -/
theorem shares_credited_to_named_iff (fp : Fpu) (cfg : Cfg) (seed : UInt32) (events : List Event) :
    Along (AuthLog.step fp) (fun l event _ => CreditsNamed fp l event) (.start cfg seed) events ↔
      Along (AuthLog.step fp) (fun l event _ => NamesLatest fp l event)
        (.start cfg seed) events := by
  refine along_iff_of_invariant (I := AuthLog.Named) ?_ (fun _ _ none => nomatch none)
  intro l event after named stepped
  exact ⟨named.step stepped, creditsNamed_iff named event⟩

theorem not_creditsNamed (called : methodOf request.method = .submit)
    (here : l.pool.conns i = some c)
    (credited : Observed.share share ∈ (handleMessage fp env l.pool.server c request).observed)
    (names : request.worker = some worker) (listed : worker ∈ l.usernames i)
    (other : share.workerName ≠ sanitizeWorker worker) :
    ¬CreditsNamed fp l (.message i env request) :=
  fun credits => other (credits called c share worker here credited names listed).1

/-- Two usernames are authorized, and a share comes in for the first. -/
def requestForFirst : Request :=
  soloRequest "mining.submit" (firstAddress :: (soloSubmit "00000004").tail)

/-- The log where the run ends. -/
def soloAuthLog (events : List Event) : AuthLog :=
  (run (AuthLog.step .exact) (AuthLog.start soloCfg 0) events).getD (AuthLog.start soloCfg 0)

def soloLogConn (events : List Event) : Conn :=
  ((soloAuthLog events).pool.conns 0).getD (Conn.new soloCfg [])

theorem soloAuthLog_run
    (ends : (run (AuthLog.step .exact) (AuthLog.start soloCfg 0) events).isSome) :
    run (AuthLog.step .exact) (AuthLog.start soloCfg 0) events = some (soloAuthLog events) :=
  eq_some_getD ends _

theorem soloLogConn_here (there : ((soloAuthLog events).pool.conns 0).isSome) :
    (soloAuthLog events).pool.conns 0 = some (soloLogConn events) :=
  eq_some_getD there _

/-- The share is credited to the second. -/
theorem first_username_uncredited :
    ¬Along (AuthLog.step .exact) (fun l event _ => CreditsNamed .exact l event)
    (AuthLog.start soloCfg 0) (authorizeTwice ++ [.message 0 soloEnv requestForFirst]) := by
  intro along
  have ended : (run (AuthLog.step .exact) (AuthLog.start soloCfg 0) authorizeTwice).isSome ∧
      ((soloAuthLog authorizeTwice).pool.conns 0).isSome ∧
      firstAddress ∈ (soloAuthLog authorizeTwice).usernames 0 ∧
      Observed.share ⟨secondAddress, secondAddress, 0, ((65535 / 140737471578112 : ℚ) : WithTop ℚ),
        true, ascii "4ba9c2402df9393dfd82b2f1d55d9bf8fc7797791b71f2fab28c7932fec44f68"⟩ ∈
          (handleMessage .exact soloEnv (soloAuthLog authorizeTwice).pool.server
            (soloLogConn authorizeTwice)
            requestForFirst).observed := by
    decide +kernel
  obtain ⟨runs, there, listed, credited⟩ := ended
  have here := soloLogConn_here there
  have last := along.after (soloAuthLog_run runs)
  have steps : ∃ after, (soloAuthLog authorizeTwice).step .exact
      (.message 0 soloEnv requestForFirst) = some after := by
    rw [AuthLog.step, Pool.step, here]
    exact ⟨_, rfl⟩
  obtain ⟨after, stepped⟩ := steps
  exact not_creditsNamed (by decide +kernel) here credited rfl listed (by decide +kernel)
    (last after stepped).1

end SimplePool.Stratum
