import SimplePool.Stratum.Attribution
import SimplePool.Stratum.JobDifficulty

/-! The header that a submit is hashed as, against the one the miner builds from what it
was told. The coinbase of a job that is not in the connection's cache is rendered anew at
the submit, under whatever address the connection has by then. -/
namespace SimplePool.Stratum
open Transition Wire Coinbase Crypto

/-- The version bits a submit carries. -/
def Submission.bits (sub : Submission) : Option UInt32 :=
  sub.version.bind fun v => parseU32Hex v.valuestring

/-- The notified version with the miner's bits inside the mask. -/
def rollVersion (mask version : UInt32) : Option UInt32 → UInt32
  | none => version
  | some bits => (version &&& ~~~mask) ||| (bits &&& mask)

/-- The header built from a notify: the words of the previous hash swapped back, the
coinbase hashed around the extranonces, and the branches folded in. -/
def minerHeader (mask : UInt32) (extranonce1 : Bytes) (notify : Notify) (en2 : Bytes)
    (bits : Option UInt32) (ntime nonce : UInt32) : Option Bytes := do
  let extranonce1 ← hexPairs extranonce1
  let prevHash ← hexPairs notify.prevHash
  let cb1 ← hexPairs notify.cb1
  let cb2 ← hexPairs notify.cb2
  let branches ← notify.merkleBranches.mapM hexPairs
  let version ← parseU32Hex (some notify.version)
  let nbits ← parseU32Hex (some notify.nbits)
  let root := branches.foldl (fun cur branch => dsha256 (cur ++ branch))
    (dsha256 (cb1 ++ extranonce1 ++ en2 ++ cb2))
  some (buildHeader (rollVersion mask version bits) (wordSwap prevHash) root ntime nbits nonce)

/-- What a connection was told: the extranonce1 of its last mining.subscribe and the
notifies since, newest first, each with the address its coinbase was rendered for. -/
structure Heard where
  extranonce1 : Option Bytes
  notifies : List (Bytes × Notify × Bytes)

def Heard.nothing : Heard := ⟨none, []⟩

def Heard.line (address : Bytes) (heard : Heard) : Line → Heard
  | .subscribed extranonce1 _ => ⟨some extranonce1, []⟩
  | .notify notify => { heard with notifies := (notify.jobId, notify, address) :: heard.notifies }
  | _ => heard

def Heard.lines (heard : Heard) (address : Bytes) (lines : List Line) : Heard :=
  lines.foldl (Heard.line address) heard

/-- The pool, the jobs it published, and for every connection what it was told and the
address its cached coinbase was rendered for. -/
structure MinerLog where
  pool : Pool
  published : List Job
  renderedFor : Nat → Bytes
  heard : Nat → Heard

def MinerLog.start (cfg : Cfg) (seed : UInt32) : MinerLog :=
  ⟨Pool.start cfg seed, [], fun _ => [], fun _ => .nothing⟩

/-- The address of the cached coinbase after a step: a cache under another job's id was
rendered in the step, for the address the connection has. -/
def cacheAddress (before after : Option Conn) (known : Bytes) : Bytes :=
  match before, after with
  | some c, some c' => if c'.cbForJobId = c.cbForJobId then known else c'.payoutAddress
  | _, _ => known

def MinerLog.step (fp : Fpu) (l : MinerLog) (event : Event) : Option MinerLog :=
  (l.pool.step fp event).map fun pool =>
    match event with
    | .connect i _ _ =>
      { l with
        pool := pool
        renderedFor := Function.update l.renderedFor i []
        heard := Function.update l.heard i .nothing }
    | _ =>
      let renderedFor := fun i => cacheAddress (l.pool.conns i) (pool.conns i) (l.renderedFor i)
      { pool
        published := match event with
          | .setJob _ job _ => job :: l.published
          | _ => l.published
        renderedFor
        heard := fun i => (l.heard i).lines (renderedFor i) (linesTo fp l.pool i event) }

/-- The header a submit is hashed as is the one built from the latest notify of its job. -/
def HeadersAgree (fp : Fpu) (l : MinerLog) (event : Event) : Prop :=
  match event with
  | .message i env request => methodOf request.method = .submit → ∀ c w extranonce1 notify address,
      l.pool.conns i = some c → Reaches fp env l.pool.server c request.params w →
      (l.heard i).extranonce1 = some extranonce1 → (l.heard i).notifies.lookup w.job.jobId =
        some (notify, address) →
      minerHeader c.versionMask extranonce1 notify w.en2 w.sub.bits w.ntime w.nonce =
        some (submitHeader w.job (w.coinbase c) w.version w.ntime w.nonce)
  | _ => True

/-- The coinbase of the job pays the connection's own address. -/
def paysFinder (cfg : Cfg) (job : Job) : Bool :=
  !(cfg.coinbasePaysWindow && !job.payees.isEmpty) && !cfg.coinbasePaysPool

/-- A job that is published has a name of its own; a submit that has to render the
coinbase of a notified job anew does so for the address it was notified with, unless it
pays somebody else; and version bits come only under a mask that was negotiated, or are
the job's. -/
structure Steady (l : MinerLog) (event : Event) : Prop where
  name : ∀ id, event.published = some id → id ≠ [] ∧ id ∉ l.published.map Job.jobId
  submit : ∀ i env request c sub job notify address, event = .message i env request →
    methodOf request.method = .submit →
    l.pool.conns i = some c → request.params.submission = some sub →
      findJob l.pool.server.jobs sub.jobId = some job →
    (l.heard i).notifies.lookup job.jobId = some (notify, address) →
    (c.cached job = false → paysFinder l.pool.server.cfg job = true → c.payoutAddress = address) ∧
      (c.versionMask = 0 → ∀ bits, sub.bits = some bits →
        bits &&& versionRollingMask = job.version &&& versionRollingMask)

theorem wordSwap_wordSwap : ∀ bytes : Bytes, wordSwap (wordSwap bytes) = bytes
  | a :: b :: c :: d :: rest => by rw [wordSwap, wordSwap, wordSwap_wordSwap rest]
  | [] => rfl
  | [_] => rfl
  | [_, _] => rfl
  | [_, _, _] => rfl

theorem mapM_hexPairs (texts : List Bytes) : (texts.map hexEncode).mapM hexPairs = some texts := by
  induction texts with
  | nil => rfl
  | cons first rest ih =>
    rw [List.map_cons, List.mapM_cons, hexPairs_hexEncode, ih]
    rfl

theorem makeNotifyParams_merkleBranches (job : Job) (parts : Parts) (clean : Bool) :
    (makeNotifyParams job parts clean).merkleBranches =
      (job.merkleBranches.map Subtype.val).map hexEncode := by
  rw [makeNotifyParams]
  induction job.merkleBranches with
  | nil => rfl
  | cons branch rest ih => exact congrArg (hexEncode branch :: ·) ih

theorem merkleRootFromBranches_map (leaf : Bytes) (branches : List Bytes32) :
    merkleRootFromBranches leaf branches =
    (branches.map Subtype.val).foldl (fun cur branch => dsha256 (cur ++ branch)) leaf := by
  induction branches generalizing leaf with
  | nil => rfl
  | cons branch rest ih =>
    rw [List.map_cons, List.foldl_cons, ← ih]
    rfl

theorem minerHeader_makeNotifyParams (mask : UInt32) (extranonce1 : Bytes) (job : Job)
    (parts : Parts) (clean : Bool) (en2 : Bytes) (bits : Option UInt32) (ntime nonce : UInt32) :
    minerHeader mask (hexEncode extranonce1) (makeNotifyParams job parts clean) en2 bits ntime
      nonce = some (submitHeader job (parts.cb1 ++ extranonce1 ++ en2 ++ parts.cb2)
        (rollVersion mask job.version bits) ntime nonce) := by
  rw [minerHeader, makeNotifyParams_merkleBranches]
  simp only [makeNotifyParams, hexPairs_hexEncode, mapM_hexPairs, parseU32Hex_hex8,
    wordSwap_wordSwap, Option.bind_eq_bind,
    Option.bind_some, submitHeader, merkleRootFromBranches_map]

theorem keep_or_take (version mask bits : UInt32) (agree : bits &&& mask = version &&& mask) :
    (version &&& ~~~mask) ||| (bits &&& mask) = version := by
  rw [agree]
  apply UInt32.eq_of_toBitVec_eq
  ext i inside
  simp only [UInt32.toBitVec_or, UInt32.toBitVec_and, UInt32.toBitVec_not, BitVec.getElem_or,
    BitVec.getElem_and, BitVec.getElem_not]
  cases version.toBitVec[i] <;> cases mask.toBitVec[i] <;> rfl

/-- The pool rolls the version as the miner does. -/
theorem submitVersion_rollVersion (read : submitVersion c job sub = some version)
    (negotiated : c.versionMask = 0 → ∀ bits, sub.bits = some bits →
      bits &&& versionRollingMask = job.version &&& versionRollingMask) :
    version = rollVersion c.versionMask job.version sub.bits := by
  rw [submitVersion] at read
  rw [Submission.bits] at negotiated ⊢
  cases given : sub.version with
  | none =>
    rw [given] at read
    exact (Option.some.inj read).symm
  | some v =>
    rw [given] at read negotiated
    obtain ⟨bits, spelled, rfl⟩ := Option.map_eq_some_iff.mp read
    simp only [Option.bind_some, spelled, rollVersion]
    by_cases unmasked : c.versionMask = 0
    · have agree := negotiated unmasked bits spelled
      rw [if_neg (not_not.mpr unmasked), keep_or_take job.version versionRollingMask bits agree,
        unmasked]
      simp
    · rw [if_pos unmasked]

/-- The coinbase the connection would render if it had the address. -/
def renderAs (fp : Fpu) (cfg : Cfg) (c : Conn) (address : Bytes) (job : Job) : Result Parts :=
  renderFresh fp cfg { c with payoutAddress := address } job

theorem renderAs_congr {c c' : Conn} (budget : c'.polMaxCoinbaseBytes = c.polMaxCoinbaseBytes)
    (fp : Fpu) (cfg : Cfg) (address : Bytes) (job : Job) :
    renderAs fp cfg c' address job = renderAs fp cfg c address job := by
  simp only [renderAs, renderFresh, renderWindowCoinbase, renderFinderCoinbase, connCoinbaseBudget,
    budget]

theorem renderAs_other (elsewhere : paysFinder cfg job = false) (fp : Fpu) (c : Conn)
    (address other : Bytes) :
    renderAs fp cfg c address job = renderAs fp cfg c other job := by
  simp only [paysFinder, Bool.and_eq_false_iff, Bool.not_eq_false'] at elsewhere
  simp only [renderAs, renderFresh]
  rcases elsewhere with window | pool
  · rw [if_pos window, if_pos window]
    rfl
  · split_ifs
    · rfl
    · rfl

/-- The connections agree on the rendered coinbase and on what it is rendered from, the
address apart. -/
structure Conn.SameCache (c c' : Conn) : Prop where
  extranonce1 : c'.extranonce1 = c.extranonce1
  cb : c'.cb = c.cb
  cbForJobId : c'.cbForJobId = c.cbForJobId
  budget : c'.polMaxCoinbaseBytes = c.polMaxCoinbaseBytes

theorem Conn.SameCache.refl (c : Conn) : c.SameCache c := ⟨rfl, rfl, rfl, rfl⟩

theorem Conn.SameCache.trans {c c' c'' : Conn} (first : c.SameCache c')
    (second : c'.SameCache c'') : c.SameCache c'' where
  extranonce1 := second.extranonce1.trans first.extranonce1
  cb := second.cb.trans first.cb
  cbForJobId := second.cbForJobId.trans first.cbForJobId
  budget := second.budget.trans first.budget

theorem applyRequestedDiff_sameCache (fp : Fpu) (cfg : Cfg) (jobs : Jobs) (c : Conn)
    (req : WithTop ℚ) :
    c.SameCache (applyRequestedDiff fp cfg jobs c req) := by
  simp only [applyRequestedDiff]
  split_ifs <;> exact ⟨rfl, rfl, rfl, rfl⟩

theorem connRecordJobDifficulty_sameCache (c : Conn) (jobId : Bytes) (difficulty : ℚ) :
    c.SameCache (connRecordJobDifficulty c jobId difficulty) := by
  rw [connRecordJobDifficulty]
  split_ifs
  · exact .refl c
  · split <;> exact ⟨rfl, rfl, rfl, rfl⟩

theorem vardiffMaybeRetarget_sameCache (fp : Fpu) (cfg : Cfg) (jobs : Jobs) (c : Conn)
    (now : UInt64) :
    c.SameCache (vardiffMaybeRetarget fp cfg jobs c now).1 := by
  simp only [vardiffMaybeRetarget]
  split_ifs <;> exact ⟨rfl, rfl, rfl, rfl⟩

theorem authGate_sameCache (s : Server) (c : Conn) (mono : UInt64) :
    c.SameCache (authGate s c mono).2.1 := by
  rw [authGate]
  split_ifs
  · exact .refl c
  · split
    next => exact .refl c
    next =>
      simp only [Conn.rollAuthWindow]
      split_ifs <;> exact ⟨rfl, rfl, rfl, rfl⟩

theorem Conn.authorize_sameCache (fp : Fpu) (s : Server) (c : Conn) (env : Env) (worker : Bytes)
    (pwDiff : WithTop ℚ) :
    c.SameCache (c.authorize fp s env worker pwDiff) := by
  unfold Conn.authorize
  extract_lets named req asked
  have fresh : c.SameCache named := ⟨rfl, rfl, rfl, rfl⟩
  have still : c.SameCache asked := by
    unfold asked
    split_ifs
    · exact fresh.trans (applyRequestedDiff_sameCache ..)
    · exact fresh
  exact still.trans ⟨rfl, rfl, rfl, rfl⟩

/-- A line that is neither a subscription nor a notify. -/
def Quiet (line : Line) : Prop := ∀ address (heard : Heard), heard.line address line = heard

theorem Heard.lines_quiet {lines : List Line} (quiet : ∀ line ∈ lines, Quiet line) (heard : Heard)
    (address : Bytes) :
    heard.lines address lines = heard := by
  induction lines with
  | nil => rfl
  | cons line rest ih =>
    rw [Heard.lines, List.foldl_cons, quiet line List.mem_cons_self]
    exact ih fun other member => quiet other (List.mem_cons_of_mem _ member)

theorem quiet_accepted : Quiet .accepted := fun _ _ => rfl

theorem quiet_error (code : Nat) (message : String) : Quiet (.error code message) := fun _ _ => rfl

theorem quiet_configured (mask : Option Bytes) : Quiet (.configured mask) := fun _ _ => rfl

theorem quiet_setDifficulty (difficulty : ℚ) : Quiet (.setDifficulty difficulty) := fun _ _ => rfl

theorem vardiffMaybeRetarget_quiet (fp : Fpu) (cfg : Cfg) (jobs : Jobs) (c : Conn) (now : UInt64) :
    ∀ line ∈ (vardiffMaybeRetarget fp cfg jobs c now).2, Quiet line := by
  rcases vardiffMaybeRetarget_told fp cfg jobs c now with ⟨_, none⟩ | ⟨c', moved, _⟩
  · rw [none]
    exact List.forall_mem_nil _
  · rw [moved]
    intro line member
    obtain rfl := List.mem_singleton.mp member
    exact quiet_setDifficulty _

/-- An authorize leaves the cache to the notify that follows it, or leaves it alone. -/
inductive Notifies (fp : Fpu) (s : Server) (c : Conn) (o : Outcome) : Prop where
  | granted (ready : Conn) (same : c.SameCache ready) (conn : o.conn =
    (sendCurrentNotify fp s.cfg s.jobs ready true).1)
      (lines : o.lines = [.accepted, .setDifficulty ready.difficulty] ++
        (sendCurrentNotify fp s.cfg s.jobs ready true).2)
  | refused (same : c.SameCache o.conn) (code : Nat) (message : String)
    (lines : o.lines = [.error code message])

theorem Notifies.failed {c : Conn} {o : Outcome} (same : c.SameCache o.conn) (env : Env)
    (told : o.lines = [.error code message]) :
    Notifies fp s c (authFailed env o) := by
  have lines : (authFailed env o).lines = o.lines := by
    rw [authFailed]
    split_ifs <;> rfl
  have kept : o.conn.SameCache (authFailed env o).conn := by
    rw [authFailed]
    split_ifs <;> exact ⟨rfl, rfl, rfl, rfl⟩
  exact .refused (same.trans kept) code message (lines.trans told)

theorem handleAuthorize_notifies (fp : Fpu) (env : Env) (s : Server) (c : Conn) (params : Json) :
    Notifies fp s c (handleAuthorize fp env s c params) := by
  have kept := authGate_sameCache s c env.mono
  have settings := authGate_sameWork s c env.mono
  rw [handleAuthorize]
  split
  next gate =>
    rw [gate] at kept
    exact .refused kept 24 _ rfl
  next gate =>
    rw [gate] at kept
    exact .failed kept env rfl
  next s' c' gate =>
    rw [gate] at kept settings
    split
    next => exact .failed kept env rfl
    next username pwDiff named =>
      split_ifs
      · exact .failed kept env rfl
      · exact .refused kept 24 _ rfl
      · rw [authorizeWorker]
        split
        next => exact .failed (kept.trans ⟨rfl, rfl, rfl, rfl⟩) env rfl
        next =>
          have ready := kept.trans (Conn.authorize_sameCache fp s' c' env username pwDiff)
          exact .granted _ ready (by rw [settings.cfg, settings.jobs]) (by rw [settings.cfg,
              settings.jobs])

/-- What a connection was told follows from the published jobs: every notify has the
coinbase rendered for its address, the cache has the one rendered for its own, and the
latest notify of the cached job has the cached coinbase. -/
structure Conn.Heeds (fp : Fpu) (cfg : Cfg) (published : List Job) (c : Conn) (address : Bytes)
    (heard : Heard) : Prop where
  extranonce1 : ∀ spelled, heard.extranonce1 = some spelled → spelled = hexEncode c.extranonce1
  notified : ∀ entry ∈ heard.notifies, ∃ job ∈ published, ∃ parts clean, entry.1 = job.jobId ∧
    entry.2.1 = makeNotifyParams job parts clean ∧ renderAs fp cfg c entry.2.2 job = .ok parts
  cached : c.cbForJobId ≠ [] → ∃ job ∈ published, job.jobId = c.cbForJobId ∧
  renderAs fp cfg c address job = .ok c.cb
  latest : ∀ job ∈ published, job.jobId = c.cbForJobId → ∀ notify told,
    heard.notifies.lookup c.cbForJobId = some (notify, told) → told = address ∨
    paysFinder cfg job = false

theorem Conn.Heeds.new (fp : Fpu) (cfg : Cfg) (published : List Job) (peerIp : Bytes)
    (pol : Listener) :
    ((Conn.new cfg peerIp).applyListener pol).Heeds fp cfg published [] .nothing where
  extranonce1 := nofun
  notified := List.forall_mem_nil _
  cached := fun cached => absurd rfl cached
  latest := fun _ _ _ _ _ none => nomatch none

/-- The part of the invariant that a render does not touch. -/
theorem Conn.Heeds.notified_of_budget {c c' : Conn} (heeds : c.Heeds fp cfg published address heard)
    (budget : c'.polMaxCoinbaseBytes = c.polMaxCoinbaseBytes) :
    ∀ entry ∈ heard.notifies, ∃ job ∈ published, ∃ parts clean,
      entry.1 = job.jobId ∧ entry.2.1 = makeNotifyParams job parts clean ∧
      renderAs fp cfg c' entry.2.2 job = .ok parts := by
  intro entry member
  obtain ⟨job, inside, parts, clean, named, told, rendered⟩ := heeds.notified entry member
  exact ⟨job, inside, parts, clean, named, told, (renderAs_congr budget ..).trans rendered⟩

theorem Conn.Heeds.of_same {c c' : Conn} (heeds : c.Heeds fp cfg published address heard)
    (same : c.SameCache c') :
    c'.Heeds fp cfg published address heard where
  extranonce1 := by
    rw [same.extranonce1]
    exact heeds.extranonce1
  notified := heeds.notified_of_budget same.budget
  cached := by
    rw [same.cbForJobId, same.cb]
    intro cached
    obtain ⟨job, member, named, rendered⟩ := heeds.cached cached
    exact ⟨job, member, named, (renderAs_congr same.budget ..).trans rendered⟩
  latest := by
    rw [same.cbForJobId]
    exact heeds.latest

theorem cacheAddress_same {c c' : Conn} (same : c'.cbForJobId = c.cbForJobId) (address : Bytes) :
    cacheAddress (some c) (some c') address = address := by
  rw [cacheAddress, if_pos same]

/-- A request that neither renders nor notifies. -/
theorem Conn.Heeds.quiet {c c' : Conn} (heeds : c.Heeds fp cfg published address heard)
    (same : c.SameCache c') (quiet : ∀ line ∈ lines, Quiet line) :
    c'.Heeds fp cfg published (cacheAddress (some c) (some c') address)
      (heard.lines (cacheAddress (some c) (some c') address) lines) := by
  rw [cacheAddress_same same.cbForJobId, Heard.lines_quiet quiet]
  exact heeds.of_same same

/-- A render leaves the job's coinbase in the cache, for the address it is logged under. -/
theorem render_cache {c r : Conn} (heeds : c.Heeds fp cfg published address heard)
    (distinct : Distinct published)
    (member : job ∈ published) (rendered : connRenderCoinbase fp cfg c job = some r) :
    r.cbForJobId = job.jobId ∧ r.payoutAddress = c.payoutAddress ∧ r.extranonce1 = c.extranonce1 ∧
      r.polMaxCoinbaseBytes = c.polMaxCoinbaseBytes ∧
      renderAs fp cfg c (cacheAddress (some c) (some r) address) job = .ok r.cb ∧
      (c.cached job = true ∧ r = c ∨ c.cached job = false ∧
        cacheAddress (some c) (some r) address = c.payoutAddress) := by
  have id := connRenderCoinbase_cbForJobId rendered
  have kept := connRenderCoinbase_eq rendered
  have named := distinct.named job member
  refine ⟨id, by rw [kept], by rw [kept], by rw [kept], ?_⟩
  rw [connRenderCoinbase] at rendered
  split_ifs at rendered with _ hit
  · obtain rfl := Option.some.inj rendered
    obtain ⟨other, known, same, before⟩ := heeds.cached (by rw [id]; exact named)
    obtain rfl : other = job := List.inj_on_of_nodup_map distinct.nodup known member (same.trans id)
    rw [cacheAddress_same rfl]
    exact ⟨before, .inl ⟨hit, rfl⟩⟩
  · split at rendered
    next parts fresh =>
      obtain rfl := Option.some.inj rendered
      have missed : c.cbForJobId ≠ job.jobId := by
        intro same
        simp [Conn.cached, same, named] at hit
      have moved : cacheAddress (some c)
        (some { c with cb := parts, cbForJobId := snprintf jobIdCap job.jobId }) address =
          c.payoutAddress := by
        rw [cacheAddress, if_neg]
        dsimp only
        rw [snprintf_of_le job.jobId_fits]
        exact Ne.symm missed
      rw [moved]
      exact ⟨fresh, .inr ⟨by simpa using hit, rfl⟩⟩
    next => contradiction

/-- A job that is notified goes out with the cached coinbase. -/
theorem Conn.Heeds.notify {jobs : Jobs} {c : Conn} (heeds : c.Heeds fp cfg published address heard)
    (distinct : Distinct published) (current : jobs.current = published.head?) (clean : Bool) :
    (sendCurrentNotify fp cfg jobs c clean).1.Heeds fp cfg published
      (cacheAddress (some c) (some (sendCurrentNotify fp cfg jobs c clean).1) address)
      (heard.lines (cacheAddress (some c) (some (sendCurrentNotify fp cfg jobs c clean).1) address)
        (sendCurrentNotify fp cfg jobs c clean).2) := by
  rw [sendCurrentNotify]
  split
  next =>
    rw [cacheAddress_same rfl]
    exact heeds
  next job here =>
    have member : job ∈ published := List.mem_of_mem_head? (current.symm.trans here)
    split
    next =>
      rw [cacheAddress_same rfl]
      exact heeds
    next r rendered =>
      obtain ⟨id, payoutAddress, extranonce1, budget, fresh, _⟩ :=
        render_cache heeds distinct member rendered
      have kept := connRecordJobDifficulty_sameCache r job.jobId r.difficulty
      have identity := connRecordJobDifficulty_sameIdentity r job.jobId r.difficulty
      have logged :
        cacheAddress (some c) (some (connRecordJobDifficulty r job.jobId r.difficulty)) address =
          cacheAddress (some c) (some r) address := by
        rw [cacheAddress, cacheAddress, kept.cbForJobId, identity.payoutAddress]
      dsimp only
      rw [logged]
      apply Conn.Heeds.of_same _ kept
      constructor
      · rw [extranonce1]
        exact heeds.extranonce1
      · intro entry told
        rcases List.mem_cons.mp told with rfl | earlier
        · exact ⟨job, member, r.cb, clean, rfl, rfl, (renderAs_congr budget ..).trans fresh⟩
        · exact heeds.notified_of_budget budget entry earlier
      · intro _
        exact ⟨job, member, id.symm, (renderAs_congr budget ..).trans fresh⟩
      · intro other _ _ notify told found
        rw [id] at found
        have newest : (job.jobId, makeNotifyParams job r.cb clean,
            cacheAddress (some c) (some r) address).2 = (notify, told) := by
          simpa [Heard.lines, Heard.line, makeNotifyParams] using found
        exact .inl (Prod.mk.inj newest).2.symm

/-- A new name is nobody's cached job. -/
theorem Conn.Heeds.publish {c : Conn} (heeds : c.Heeds fp cfg published address heard)
    (named : job.jobId ≠ []) (fresh : job.jobId ∉ published.map Job.jobId) :
    c.Heeds fp cfg (job :: published) address heard where
  extranonce1 := heeds.extranonce1
  notified := by
    intro entry member
    obtain ⟨old, inside, rest⟩ := heeds.notified entry member
    exact ⟨old, List.mem_cons_of_mem _ inside, rest⟩
  cached := by
    intro cached
    obtain ⟨old, inside, rest⟩ := heeds.cached cached
    exact ⟨old, List.mem_cons_of_mem _ inside, rest⟩
  latest := by
    intro other inside same notify told found
    rcases List.mem_cons.mp inside with rfl | old
    · obtain ⟨known, there, alike, _⟩ := heeds.cached (by rw [← same]; exact named)
      exact absurd (List.mem_map.mpr ⟨known, there, alike.trans same.symm⟩) fresh
    · exact heeds.latest other old same notify told found

/-- The halves a submit is hashed with are the ones its job was notified with. -/
theorem Conn.Heeds.notified_parts {c : Conn} {parts : Parts} {notify : Notify}
    (heeds : c.Heeds fp cfg published address heard) (distinct : Distinct published)
    (member : job ∈ published) (found : coinbaseFor fp cfg c job = some parts)
    (told : heard.notifies.lookup job.jobId = some (notify, toldFor))
    (steady : c.cached job = false → paysFinder cfg job = true → c.payoutAddress = toldFor) :
    ∃ clean, notify = makeNotifyParams job parts clean := by
  obtain ⟨before, after, split, _⟩ := List.lookup_eq_some_iff.mp told
  obtain ⟨other, there, sent, clean, named, spelled, rendered⟩ :=
    heeds.notified (job.jobId, notify, toldFor) (by rw [split]; simp)
  obtain rfl : other = job := List.inj_on_of_nodup_map distinct.nodup there member named.symm
  refine ⟨clean, ?_⟩
  dsimp only at spelled rendered
  suffices same : sent = parts by rw [spelled, same]
  cases drawn : connRenderCoinbase fp cfg c other with
  | none =>
    rw [coinbaseFor, drawn] at found
    contradiction
  | some r =>
    rw [coinbaseFor, drawn] at found
    obtain rfl := Option.some.inj found
    obtain ⟨id, _, _, _, fresh, how⟩ := render_cache heeds distinct member drawn
    have agree : renderAs fp cfg c toldFor other =
          renderAs fp cfg c (cacheAddress (some c) (some r) address) other := by
      rcases how with ⟨_, rfl⟩ | ⟨missed, now⟩
      · rw [cacheAddress_same rfl]
        rw [← id] at told
        rcases heeds.latest other member id.symm notify toldFor told with same | elsewhere
        · rw [same]
        · exact renderAs_other elsewhere ..
      · rw [now]
        cases finder : paysFinder cfg other with
        | true => rw [steady missed finder]
        | false => exact renderAs_other finder ..
    exact Except.ok.inj (rendered.symm.trans (agree.trans fresh))

theorem Conn.Heeds.rendered {c r : Conn} (heeds : c.Heeds fp cfg published address heard)
    (distinct : Distinct published)
    {s : Server} (settings : s.cfg = cfg) {w : Work} (member : w.job ∈ published)
    (reaches : Reaches fp env s c params w) (rendered : c.Rendered r w.job w.parts)
    (steady : ∀ notify toldFor, heard.notifies.lookup w.job.jobId = some (notify, toldFor) →
      c.cached w.job = false →
      paysFinder cfg w.job = true → c.payoutAddress = toldFor) :
    r.Heeds fp cfg published (cacheAddress (some c) (some r) address) heard := by
  obtain ⟨drawn, found, same⟩ := Option.map_eq_some_iff.mp (settings ▸ reaches.parts)
  obtain ⟨id, payoutAddress, _, _, fresh, how⟩ := render_cache heeds distinct member found
  have logged :
      cacheAddress (some c) (some r) address = cacheAddress (some c) (some drawn) address := by
    rw [cacheAddress, cacheAddress, rendered.cbForJobId, rendered.payoutAddress, id, payoutAddress]
  have halves : drawn.cb = r.cb := same.trans rendered.cb.symm
  rw [logged]
  constructor
  · rw [rendered.extranonce1]
    exact heeds.extranonce1
  · exact heeds.notified_of_budget rendered.budget
  · intro _
    exact ⟨w.job, member, rendered.cbForJobId.symm,
      (renderAs_congr rendered.budget ..).trans (halves ▸ fresh)⟩
  · intro job inside named notify told lookup
    obtain rfl : job = w.job :=
      List.inj_on_of_nodup_map distinct.nodup inside member (named.trans rendered.cbForJobId)
    rw [rendered.cbForJobId] at lookup
    rcases how with ⟨_, unchanged⟩ | ⟨missed, now⟩
    · rw [unchanged] at id ⊢
      rw [cacheAddress_same rfl]
      exact heeds.latest w.job member id.symm notify told (by rw [id]; exact lookup)
    · rw [now]
      cases finder : paysFinder cfg w.job with
      | true => exact .inl (steady notify told lookup missed finder).symm
      | false => exact .inr rfl

/-- A submit may leave another job's coinbase in the cache, and tells the miner nothing
that counts here. -/
theorem Conn.Heeds.submit {c : Conn} (heeds : c.Heeds fp cfg published address heard)
    (distinct : Distinct published)
    {s : Server} (settings : s.cfg = cfg) (jobs : s.jobs.Retains published) (env : Env)
    (params : Json)
    (steady : ∀ sub job notify toldFor, params.submission = some sub →
      findJob s.jobs sub.jobId = some job →
      heard.notifies.lookup job.jobId = some (notify, toldFor) → c.cached job = false →
      paysFinder cfg job = true →
      c.payoutAddress = toldFor) :
    (handleSubmit fp env s c params).conn.Heeds fp cfg published
      (cacheAddress (some c) (some (handleSubmit fp env s c params).conn) address)
      (heard.lines (cacheAddress (some c) (some (handleSubmit fp env s c params).conn) address)
        (handleSubmit fp env s c params).lines) := by
  rcases handleSubmit_cases fp env s c params with ⟨w, r, reaches, rendered, done⟩ | ⟨_, unhashed⟩
  · obtain ⟨k, _, place⟩ := jobs.find reaches.job
    have now := heeds.rendered distinct settings (List.mem_of_getElem? place) reaches rendered
      (fun notify toldFor told =>
        steady w.sub w.job notify toldFor reaches.submission reaches.job told)
    rw [done]
    rcases submitHash_cases rendered fp env s with ⟨_, out⟩ | ⟨_, ⟨_, out⟩ | ⟨verdict, _, out⟩⟩
    · rw [out]
      exact now
    · rw [out]
      exact now
    · rw [out]
      have counted : r.SameCache (r.countShare fp w.job (w.hash c)) := ⟨rfl, rfl, rfl, rfl⟩
      have kept := counted.trans (vardiffMaybeRetarget_sameCache fp (s.recordHash (w.hash c)).cfg
        (s.recordHash (w.hash c)).jobs (r.countShare fp w.job (w.hash c)) env.now)
      have identity := vardiffMaybeRetarget_sameIdentity fp (s.recordHash (w.hash c)).cfg
        (s.recordHash (w.hash c)).jobs
        (r.countShare fp w.job (w.hash c)) env.now
      have quiet :=
        vardiffMaybeRetarget_quiet fp (s.recordHash (w.hash c)).cfg (s.recordHash (w.hash c)).jobs
        (r.countShare fp w.job (w.hash c)) env.now
      have logged :
        cacheAddress (some c) (some (credit fp env (s.recordHash (w.hash c)) r w.job (w.coinbase c)
          (submitHeader w.job (w.coinbase c) w.version w.ntime w.nonce) (w.hash c) verdict).conn)
            address =
          cacheAddress (some c) (some r) address := by
        rw [cacheAddress, cacheAddress, credit, kept.cbForJobId, identity.payoutAddress]
        rfl
      rw [logged, credit, Heard.lines_quiet]
      · exact now.of_same kept
      · intro line member
        rcases List.mem_append.mp member with told | last
        · exact quiet line told
        · obtain rfl := List.mem_singleton.mp last
          exact quiet_accepted
  · obtain ⟨code, message, lines⟩ := unhashed.refused
    have same := unhashed.conn
    rw [lines]
    exact heeds.quiet ⟨same.extranonce1, same.cb, same.cbForJobId,
      same.budget⟩ (by simp [quiet_error])

theorem Conn.Heeds.authorize {c : Conn} (heeds : c.Heeds fp cfg published address heard)
    (distinct : Distinct published)
    {s : Server} (settings : s.cfg = cfg) (current : s.jobs.current = published.head?) (env : Env)
    (params : Json) :
    (handleAuthorize fp env s c params).conn.Heeds fp cfg published
      (cacheAddress (some c) (some (handleAuthorize fp env s c params).conn) address)
      (heard.lines (cacheAddress (some c) (some (handleAuthorize fp env s c params).conn) address)
        (handleAuthorize fp env s c params).lines) := by
  cases handleAuthorize_notifies fp env s c params with
  | granted ready same conn lines =>
    have logged :
      cacheAddress (some c) (some (sendCurrentNotify fp cfg s.jobs ready true).1) address =
        cacheAddress (some ready) (some (sendCurrentNotify fp cfg s.jobs ready true).1)
          address := by
      rw [cacheAddress, cacheAddress, same.cbForJobId]
    rw [conn, lines, settings, logged, Heard.lines, List.foldl_append]
    exact (heeds.of_same same).notify distinct current true
  | refused same code message lines =>
    rw [lines]
    exact heeds.quiet same (by simp [quiet_error])

theorem Conn.Heeds.message {c : Conn} (heeds : c.Heeds fp cfg published address heard)
    (distinct : Distinct published)
    {s : Server} (settings : s.cfg = cfg) (jobs : s.jobs.Retains published) (env : Env)
    (request : Request)
    (steady : methodOf request.method = .submit → ∀ sub job notify toldFor,
      request.params.submission = some sub →
      findJob s.jobs sub.jobId = some job → heard.notifies.lookup job.jobId = some
      (notify, toldFor) →
      c.cached job = false → paysFinder cfg job = true → c.payoutAddress = toldFor) :
    (handleMessage fp env s c request).conn.Heeds fp cfg published
      (cacheAddress (some c) (some (handleMessage fp env s c request).conn) address)
      (heard.lines (cacheAddress (some c) (some (handleMessage fp env s c request).conn) address)
        (handleMessage fp env s c request).lines) := by
  rw [handleMessage]
  cases called : methodOf request.method with
  | configure =>
    apply heeds.quiet
    · simp only [handleConfigure]
      split_ifs <;> exact ⟨rfl, rfl, rfl, rfl⟩
    · simp only [handleConfigure]
      split_ifs <;> simp [quiet_configured]
  | subscribe =>
    have kept : cacheAddress (some c) (some (handleSubscribe s c).conn) address = address :=
      cacheAddress_same rfl address
    dsimp only
    rw [kept]
    exact ⟨fun spelled same => (Option.some.inj same).symm, List.forall_mem_nil _, heeds.cached,
      fun _ _ _ _ _ none => by cases none⟩
  | suggestDifficulty =>
    apply heeds.quiet
    · rw [handleSuggestDifficulty]
      by_cases asked : 0 < (request.params.items[0]?.bind Json.valuedouble).getD 0
      · rw [if_neg (not_not.mpr asked)]
        exact applyRequestedDiff_sameCache ..
      · rw [if_pos asked]
        exact .refl c
    · simp only [handleSuggestDifficulty]
      split_ifs <;> simp [refuse, quiet_accepted, quiet_error, quiet_setDifficulty]
  | authorize => exact heeds.authorize distinct settings jobs.current env request.params
  | submit => exact heeds.submit distinct settings jobs env request.params (steady called)
  | unknown => exact heeds.quiet (.refl c) (by simp [refuse, quiet_error])

structure MinerLog.Heeds (fp : Fpu) (cfg : Cfg) (l : MinerLog) : Prop where
  settings : l.pool.server.cfg = cfg
  distinct : Distinct l.published
  jobs : l.pool.server.jobs.Retains l.published
  conns : ∀ i c, l.pool.conns i = some c → c.Heeds fp cfg l.published (l.renderedFor i) (l.heard i)

theorem MinerLog.Heeds.start (fp : Fpu) (cfg : Cfg) (seed : UInt32) :
    (MinerLog.start cfg seed).Heeds fp cfg where
  settings := rfl
  distinct := ⟨List.nodup_nil, List.forall_mem_nil _⟩
  jobs := .empty
  conns := fun _ _ none => nomatch none

theorem MinerLog.Heeds.agree {l : MinerLog} (heeds : l.Heeds fp cfg) (steady : Steady l event) :
    HeadersAgree fp l event := by
  cases event with
  | connect => trivial
  | disconnect => trivial
  | setJob => trivial
  | message i env request =>
    intro called c w extranonce1 notify address here reaches subscribed told
    obtain ⟨k, _, place⟩ := heeds.jobs.find reaches.job
    have held := heeds.conns i c here
    obtain ⟨kept, negotiated⟩ :=
      steady.submit i env request c w.sub w.job notify address rfl called here reaches.submission
      reaches.job told
    have spelled := held.extranonce1 extranonce1 subscribed
    obtain ⟨clean, made⟩ := held.notified_parts heeds.distinct (List.mem_of_getElem? place)
      (heeds.settings ▸ reaches.parts) told (heeds.settings ▸ kept)
    rw [spelled, made, minerHeader_makeNotifyParams,
      ← submitVersion_rollVersion reaches.version negotiated, Work.coinbase]

theorem MinerLog.Heeds.step {l after : MinerLog} (heeds : l.Heeds fp cfg) (steady : Steady l event)
    (stepped : l.step fp event = some after) : after.Heeds fp cfg := by
  obtain ⟨pool, moved, rfl⟩ := Option.map_eq_some_iff.mp stepped
  cases event with
  | connect i peerIp pol =>
    rw [Pool.step] at moved
    split at moved
    next => contradiction
    next =>
      obtain rfl := Option.some.inj moved
      refine ⟨heeds.settings, heeds.distinct, heeds.jobs, ?_⟩
      intro j c here
      dsimp only
      rcases conns_update here with ⟨rfl, placed⟩ | ⟨other, there⟩
      · obtain rfl := Option.some.inj placed
        rw [Function.update_self, Function.update_self, heeds.settings]
        exact .new fp cfg l.published peerIp pol
      · rw [Function.update_of_ne other, Function.update_of_ne other]
        exact heeds.conns j c there
  | disconnect i =>
    obtain rfl := Option.some.inj moved
    refine ⟨heeds.settings, heeds.distinct, heeds.jobs, ?_⟩
    intro j c here
    rcases conns_update here with ⟨_, gone⟩ | ⟨_, there⟩
    · contradiction
    · dsimp only at here ⊢
      rw [here, there, cacheAddress_same rfl]
      exact heeds.conns j c there
  | message i env request =>
    rw [Pool.step] at moved
    split at moved
    next => contradiction
    next c here =>
      obtain rfl := Option.some.inj moved
      obtain ⟨settings, jobs⟩ := handleMessage_jobs fp env l.pool.server c request
      refine ⟨settings.trans heeds.settings,
        heeds.distinct, by dsimp only [Pool.handled]; rw [jobs]; exact heeds.jobs, ?_⟩
      intro j c' there
      dsimp only at there ⊢
      rcases conns_update there with ⟨rfl, left⟩ | ⟨other, kept⟩
      · split_ifs at left
        obtain rfl := Option.some.inj left
        rw [there, here]
        simp only [linesTo, here, if_true]
        apply (heeds.conns j c here).message heeds.distinct heeds.settings heeds.jobs env request
        intro called sub job notify address submission found told missed finder
        exact (steady.submit j env request c sub job notify address rfl called here submission found
          told).1 missed
          (heeds.settings ▸ finder)
      · rw [there, kept, cacheAddress_same rfl]
        simp only [linesTo, kept, if_neg other]
        exact heeds.conns j c' kept
  | setJob mono job clean =>
    obtain rfl := Option.some.inj moved
    obtain ⟨named, fresh⟩ := steady.name job.jobId rfl
    have distinct : Distinct (job :: l.published) := by
      refine ⟨List.nodup_cons.mpr ⟨fresh, heeds.distinct.nodup⟩, ?_⟩
      intro other member
      rcases List.mem_cons.mp member with rfl | older
      · exact named
      · exact heeds.distinct.named other older
    have jobs := heeds.jobs.publish mono job
    refine ⟨heeds.settings, distinct, jobs, ?_⟩
    intro i c here
    obtain ⟨before, there, rfl⟩ := Option.map_eq_some_iff.mp here
    have published := (heeds.conns i before there).publish named fresh
    dsimp only at here ⊢
    rw [here, there]
    simp only [linesTo, there, notifyConn, heeds.settings]
    split_ifs with live
    · exact published.notify distinct jobs.current clean
    · exact published.quiet (.refl before) (List.forall_mem_nil _)

/-- In every run in which names are not used twice, and a submit that renders anew renders
for the address its job was notified with, every header is hashed as the miner built it. -/
theorem headers_hashed_as_notified (fp : Fpu) (cfg : Cfg) (seed : UInt32) (events : List Event)
    (steady : Along (MinerLog.step fp) (fun l event _ => Steady l event) (.start cfg seed) events) :
    Along (MinerLog.step fp) (fun l event _ => HeadersAgree fp l event)
      (.start cfg seed) events := by
  apply Along.of_invariant _ (MinerLog.Heeds.start fp cfg seed) steady
  intro l event after heeds steady stepped
  exact ⟨heeds.step steady stepped, heeds.agree steady⟩

/-- `Steady` as a test. -/
def steadyStep (l : MinerLog) (event : Event) : Bool :=
  match event with
  | .setJob _ job _ => job.jobId ≠ [] && l.published.all fun other => other.jobId ≠ job.jobId
  | .message i _ request =>
    methodOf request.method ≠ .submit || (l.pool.conns i).all fun c =>
      request.params.submission.all fun sub => (findJob l.pool.server.jobs sub.jobId).all fun job =>
        ((l.heard i).notifies.lookup job.jobId).all fun told =>
          (c.cached job || !paysFinder l.pool.server.cfg job || c.payoutAddress = told.2) &&
            (c.versionMask ≠ 0 || sub.bits.all fun bits => bits &&& versionRollingMask =
              job.version &&& versionRollingMask)
  | _ => true

theorem steady_of_steadyStep (steady : steadyStep l event = true) : Steady l event := by
  constructor
  · intro id published
    cases event with
    | setJob mono job clean =>
      obtain rfl := Option.some.inj published
      simpa [steadyStep] using steady
    | connect => contradiction
    | disconnect => contradiction
    | message => contradiction
  · rintro i env request c sub job notify address rfl called here submission found told
    simp only [steadyStep, called, here, submission, found, told, ne_eq, not_true_eq_false,
      decide_false, Bool.false_or, Option.all_some, Bool.and_eq_true] at steady
    obtain ⟨kept, negotiated⟩ := steady
    constructor
    · intro missed finder
      simpa [missed, finder] using kept
    · intro unmasked bits spelled
      simpa [unmasked, spelled] using negotiated

theorem headers_hashed_as_notified_once :
    (∃ l, run (MinerLog.step .exact) (.start soloCfg 0)
      (authorizeOnce ++ [soloMessage "mining.submit" (soloSubmit "00000004")]) =
      some l) ∧
    Along (MinerLog.step .exact) (fun l event _ => HeadersAgree .exact l event) (.start soloCfg 0)
      (authorizeOnce ++ [soloMessage "mining.submit" (soloSubmit "00000004")]) := by
  have tested : (run (MinerLog.step .exact) (.start soloCfg 0)
        (authorizeOnce ++ [soloMessage "mining.submit" (soloSubmit "00000004")])).isSome ∧
      Along (MinerLog.step .exact) (fun l event _ => steadyStep l event = true) (.start soloCfg 0)
        (authorizeOnce ++ [soloMessage "mining.submit" (soloSubmit "00000004")]) := by
    decide +kernel
  refine ⟨Option.isSome_iff_exists.mp tested.1, headers_hashed_as_notified .exact soloCfg 0 _ ?_⟩
  exact tested.2.imp fun l event after _ steady => steady_of_steadyStep steady

/-- The hash of the header the miner builds for a request of its own. -/
def minerHash (l : MinerLog) (i : Nat) (c : Conn) (request : Request) : Option Bytes := do
  let sub ← request.params.submission
  let job ← findJob l.pool.server.jobs sub.jobId
  let told ← (l.heard i).notifies.lookup job.jobId
  let extranonce1 ← (l.heard i).extranonce1
  let en2 ← hexToBytesAlloc sub.en2
  let ntime ← parseU32Hex sub.ntime
  let nonce ← parseU32Hex sub.nonce
  let header ← minerHeader c.versionMask extranonce1 told.1 en2 sub.bits ntime nonce
  some (hexEncode (hashHeader header))

/-- A credited hash is the miner's where the headers agree. -/
theorem minerHash_eq {l : MinerLog} {hash : Bytes}
    (agree : HeadersAgree fp l (.message i env request))
    (called : methodOf request.method = .submit) (here : l.pool.conns i = some c)
    (credited : Observed.share share ∈ (handleMessage fp env l.pool.server c request).observed)
    (built : minerHash l i c request = some hash) : hash = share.hash := by
  rw [handleMessage, called] at credited
  obtain ⟨w, reaches, _, _, _, hashed⟩ := handleSubmit_share credited
  simp only [minerHash, reaches.submission, reaches.job, reaches.en2, reaches.ntime, reaches.nonce,
    Option.bind_eq_bind, Option.bind_some, Option.bind_eq_some_iff] at built
  obtain ⟨⟨notify, address⟩, told, extranonce1, subscribed, header, made, digest⟩ := built
  have same := agree called c w extranonce1 notify address here reaches subscribed told
  obtain rfl := Option.some.inj (made.symm.trans same)
  rw [← Option.some.inj digest, hashed, Work.hash]

def laterJob : Job :=
  .new (ascii "2") 0x20000000 zeros32 5000000000 none extranonce1Size extranonce2Size []
    0x207fffff 0x65000000 regtestTarget 2 [] none false 0

/-- The second address is accepted while the first job is cached, and then comes the next job. -/
def movedOn : List Event := authorizeTwice ++ [.setJob 0 laterJob true]

def soloMinerLog (events : List Event) : MinerLog :=
  (run (MinerLog.step .exact) (MinerLog.start soloCfg 0) events).getD (MinerLog.start soloCfg 0)

def soloMinerConn (events : List Event) : Conn :=
  ((soloMinerLog events).pool.conns 0).getD (Conn.new soloCfg [])

/-- A share on the first job is hashed with a coinbase that the miner was never sent. -/
theorem earlier_job_rehashed :
    ¬Along (MinerLog.step .exact) (fun l event _ => HeadersAgree .exact l event)
    (.start soloCfg 0) (movedOn ++ [soloMessage "mining.submit" (soloSubmit "00000000")]) := by
  intro along
  have ended : (run (MinerLog.step .exact) (MinerLog.start soloCfg 0) movedOn).isSome ∧
      ((soloMinerLog movedOn).pool.conns 0).isSome ∧
      Observed.share ⟨secondAddress, secondAddress, 0, ((65535 / 140737471578112 : ℚ) : WithTop ℚ),
        true, ascii "152dc1b6288b39911f10e9d2f2824c11787718f16bb53d2e90f62eedfd64daef"⟩ ∈
          (handleMessage .exact soloEnv (soloMinerLog movedOn).pool.server (soloMinerConn movedOn)
            (soloRequest "mining.submit" (soloSubmit "00000000"))).observed ∧
      ∃ hash ∈ minerHash (soloMinerLog movedOn) 0 (soloMinerConn movedOn)
        (soloRequest "mining.submit" (soloSubmit "00000000")),
        hash ≠ ascii "152dc1b6288b39911f10e9d2f2824c11787718f16bb53d2e90f62eedfd64daef" := by
    decide +kernel
  obtain ⟨runs, there, credited, hash, built, other⟩ := ended
  have ran :
      run (MinerLog.step .exact) (MinerLog.start soloCfg 0) movedOn = some (soloMinerLog movedOn) :=
    eq_some_getD runs _
  have here : (soloMinerLog movedOn).pool.conns 0 = some (soloMinerConn movedOn) :=
    eq_some_getD there _
  have steps : ∃ after, (soloMinerLog movedOn).step .exact
      (soloMessage "mining.submit" (soloSubmit "00000000")) = some after := by
    simp only [soloMessage, MinerLog.step, Pool.step, here, Option.map_some]
    exact ⟨_, rfl⟩
  obtain ⟨after, stepped⟩ := steps
  obtain ⟨agree, _⟩ := along.after ran after stepped
  exact other (minerHash_eq agree (by decide +kernel) here credited built)

end SimplePool.Stratum
