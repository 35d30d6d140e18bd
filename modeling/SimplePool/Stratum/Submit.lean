import SimplePool.Stratum.Conn

/-! mining.submit: the checks in their order, the two duplicate filters, the verdict
on the hash, and what is credited. -/
namespace SimplePool.Stratum
open Wire Coinbase Crypto

def versionRollingMask : UInt32 := 0x1fffe000
def ntimeMaxForwardRoll : Int := 7200
def ntimeMaxBackwardRoll : Int := 600

/-- The parameters after the worker name, which the handler does not read. -/
structure Submission where
  jobId : Option Bytes
  en2 : Option Bytes
  ntime : Option Bytes
  nonce : Option Bytes
  version : Option Json

def Json.submission : Json → Option Submission
  | .array (_ :: jobId :: en2 :: ntime :: nonce :: rest) =>
    some ⟨jobId.valuestring, en2.valuestring, ntime.valuestring, nonce.valuestring, rest.head?⟩
  | _ => none

/-- The version the miner hashed: its own bits inside the negotiated mask. -/
def submitVersion (c : Conn) (job : Job) (sub : Submission) : Option UInt32 :=
  match sub.version with
  | none => some job.version
  | some v =>
    let mask := if c.versionMask ≠ 0 then c.versionMask else versionRollingMask
    (parseU32Hex v.valuestring).map fun rolled => (job.version &&& ~~~mask) ||| (rolled &&& mask)

/-- What the connection's own duplicate filter remembers of a submit. -/
def submitKey (jobId : Bytes) (sub : Submission) (version : UInt32) : UInt64 :=
  let bar : Bytes := [124]
  fnv1a (snprintf 256 (jobId ++ bar ++ sub.en2.getD [] ++ bar ++ sub.ntime.getD [] ++ bar ++
    sub.nonce.getD [] ++ bar ++ hex8 version))

def Conn.remembers (c : Conn) (h : UInt64) : Bool :=
  (List.range dedupeRing).any fun i => c.dedupe i = h

def dedupeCheckAndAdd (c : Conn) (h : UInt64) : Bool × Conn :=
  if c.remembers h then (true, c)
  else (false, { c with
    dedupe := Function.update c.dedupe c.dedupeHead h
    dedupeHead := (c.dedupeHead + 1) % dedupeRing })

def ntimeInRange (job : Job) (ntime : UInt32) : Bool :=
  let nt : Int := ntime.toNat
  let base : Int := job.ntime.toNat
  !(base + ntimeMaxForwardRoll < nt || nt < base - ntimeMaxBackwardRoll)

/-- The coinbase halves around the extranonces. -/
def submitCoinbase (c : Conn) (en2 : Bytes) : Bytes := c.cb.cb1 ++ c.extranonce1 ++ en2 ++ c.cb.cb2

def submitHeader (job : Job) (coinbase : Bytes) (version ntime nonce : UInt32) : Bytes :=
  buildHeader version job.prevHash (merkleRootFromBranches (dsha256 coinbase) job.merkleBranches)
    ntime job.nbits nonce

/-- The difficulty the job went out under, or the current one. -/
def assignedDiff (c : Conn) (job : Job) : ℚ :=
  if connJobDifficulty c job.jobId ≤ 0 then c.difficulty else connJobDifficulty c job.jobId

structure Verdict where
  shareDiff : WithTop ℚ
  isBlock : Bool
deriving DecidableEq

/-- `none` is a low-difficulty share. -/
def judge (fp : Fpu) (c : Conn) (job : Job) (hash : Bytes) : Option Verdict :=
  let assigned := assignedDiff c job
  let isBlock : Bool := be32Cmp hash job.networkTarget ≠ .gt
  let meetsWorker : Bool := be32Cmp hash (workerDiffToTarget fp assigned) = .lt
  let meetsCurrent : Bool :=
    !meetsWorker && c.difficulty < assigned && be32Cmp hash (workerDiffToTarget fp c.difficulty) =
      .lt
  let shareDiff := if meetsCurrent then c.difficulty else assigned
  if !isBlock && !(meetsWorker || meetsCurrent) then none
  -- the network's verdict wins, and credits the difficulty it proves
  else if isBlock && !(meetsWorker || meetsCurrent) then
    some ⟨targetToDiff fp job.networkTarget, isBlock⟩
  else some ⟨shareDiff, isBlock⟩

/-- The legacy coinbase with its witness put back. -/
def segwitCoinbase (coinbase : Bytes) : Bytes :=
  coinbase.take 4 ++ [0x00, 0x01] ++ (coinbase.drop 4).take (coinbase.length - 8) ++
    ([0x01, 0x20] ++ List.replicate 32 0) ++ coinbase.drop (coinbase.length - 4)

def assembleBlockHex (job : Job) (coinbase header : Bytes) : Option Bytes :=
  let coinbase :=
    if job.coinbaseHasWitness && 8 ≤ coinbase.length then segwitCoinbase coinbase else coinbase
  (job.txHexList.mapM hexPairs).map fun txs =>
    hexEncode (header ++ pushVarint (job.txHexList.length + 1) ++ coinbase ++ txs.flatten)

/-- Whether the node took the block, and its reason when it did not. -/
def submitBlock (env : Env) (blockHex : Option Bytes) : Bool × String :=
  match blockHex with
  | none => (false, "block assembly failed")
  | some hex =>
    match env.onBlock hex with
    | .ok () => (true, "")
    | .error reason => (false, reason)

/-- The fee split that `on_block_found` reports. -/
def reportedFee (cfg : Cfg) (job : Job) : Result Int :=
  match nonEmpty cfg.operatorAddress with
  | none => .ok 0
  | some _ =>
    if cfg.feeBps.bps = 0 then .ok 0
    else do
      let product ← int64 (job.valueSats * cfg.feeBps.bps)
      let fee := product.tdiv 10000
      .ok (if fee < dustSats then 0 else fee)

def blockFound (env : Env) (cfg : Cfg) (c : Conn) (job : Job) (hash : Bytes)
    (blockHex : Option Bytes) : Result BlockFound := do
  let feeSats ← reportedFee cfg job
  .ok {
    workerName := c.workerName
    finderAddress := c.payoutAddress
    ts := env.now
    height := job.height
    blockHash := hexEncode hash
    -- a fee above 0 is at most a tenth of the value, so the difference is an `int64_t`
    rewardSats := job.valueSats - feeSats
    feeSats
    accepted := (submitBlock env blockHex).1
    submitError := (submitBlock env blockHex).2 }

theorem blockFound_ok {hash : Bytes}
    (reported : blockFound env cfg c job hash blockHex = .ok found) :
    ∃ feeSats, reportedFee cfg job = .ok feeSats ∧
      found = ⟨c.workerName, c.payoutAddress, env.now, job.height, hexEncode hash,
        job.valueSats - feeSats, feeSats,
        (submitBlock env blockHex).1, (submitBlock env blockHex).2⟩ := by
  rw [blockFound] at reported
  obtain ⟨feeSats, fee, reported⟩ := bind_ok reported
  exact ⟨feeSats, fee, (Except.ok.inj reported).symm⟩

def reportBlock (report : Result BlockFound) : Observed :=
  match report with
  | .ok found => .blockFound found
  | .error _ => .undefined

theorem reportBlock_blockFound : .blockFound found = reportBlock report ↔ report = .ok found := by
  cases report with
  | ok reported => simp [reportBlock, eq_comm]
  | error => simp [reportBlock]

@[simp] theorem share_ne_reportBlock : .share share ≠ reportBlock report := by
  cases report <;> simp [reportBlock]

@[simp] theorem reject_ne_reportBlock : .reject worker ts reason ≠ reportBlock report := by
  cases report <;> simp [reportBlock]

@[simp] theorem block_ne_reportBlock : .block blockHex ≠ reportBlock report := by
  cases report <;> simp [reportBlock]

/-- The share counts towards the open vardiff window. -/
def Conn.countShare (fp : Fpu) (c : Conn) (job : Job) (hash : Bytes) : Conn :=
  { c with
    vdWindowShares := c.vdWindowShares + 1
    vdWindowMinAchieved := min c.vdWindowMinAchieved (targetToDiff fp hash)
    vdWindowMaxAssigned := max c.vdWindowMaxAssigned (assignedDiff c job) }

/-- A share that is credited, with the block it solved if it did. -/
def credit (fp : Fpu) (env : Env) (s : Server) (c : Conn) (job : Job) (coinbase header hash : Bytes)
    (verdict : Verdict) : Outcome :=
  let blockHex := assembleBlockHex job coinbase header
  let share : Share :=
    ⟨c.workerName, c.payoutAddress, env.now, verdict.shareDiff, verdict.isBlock, hexEncode hash⟩
  let (c', lines) := vardiffMaybeRetarget fp s.cfg s.jobs (c.countShare fp job hash) env.now
  let before := if verdict.isBlock then blockHex.toList.map Observed.block else []
  let after :=
    if verdict.isBlock then [reportBlock (blockFound env s.cfg c job hash blockHex)] else []
  ⟨s, c', lines ++ [.accepted], before ++ .share share :: after, false⟩

/-- The part that knows the whole coinbase. -/
def submitHash (fp : Fpu) (env : Env) (s : Server) (c : Conn) (job : Job) (en2 : Bytes)
    (version ntime nonce : UInt32) :
    Outcome :=
  let coinbase := submitCoinbase c en2
  let header := submitHeader job coinbase version ntime nonce
  let hash := hashHeader header
  let (dup, table) := s.shareDedupe.checkAndAdd (fnv1a hash)
  let s := { s with shareDedupe := table }
  if dup then refuseObserved s c env c.workerName 22 "duplicate share" "duplicate share"
  else
    match judge fp c job hash with
    | none => refuseObserved s c env c.workerName 23 "low difficulty" "low difficulty"
    | some verdict => credit fp env s c job coinbase header hash verdict

def submitWithJob (fp : Fpu) (env : Env) (s : Server) (c : Conn) (sub : Submission) (job : Job) :
    Outcome :=
  match submitVersion c job sub with
  | none => refuse s c 20 "bad version hex"
  | some version =>
    match dedupeCheckAndAdd c (submitKey job.jobId sub version) with
    | (true, c) => refuseObserved s c env c.workerName 22 "duplicate share" "duplicate share"
    | (false, c) =>
      match parseU32Hex sub.ntime, parseU32Hex sub.nonce with
      | some ntime, some nonce =>
        if !ntimeInRange job ntime then
          refuseObserved s c env c.workerName 20 "ntime out of range" "ntime out of range"
        else
          match hexToBytesAlloc sub.en2 with
          | none => refuse s c 20 "bad extranonce2 hex"
          | some en2 =>
            if en2.length ≠ job.en2Size then
              refuseObserved s c env c.workerName 20 "wrong extranonce2 size"
                "wrong extranonce2 size"
            else
              match connRenderCoinbase fp s.cfg c job with
              | none =>
                refuseObserved s c env c.workerName 25 "coinbase render failed"
                  "coinbase render failed"
              | some c => submitHash fp env s c job en2 version ntime nonce
      | _, _ => refuse s c 20 "bad ntime/nonce hex"

def handleSubmit (fp : Fpu) (env : Env) (s : Server) (c : Conn) (params : Json) : Outcome :=
  if !c.authorized then refuse s c 24 "unauthorized"
  else
    match submitRateExceeded s.cfg c env.mono with
    | (true, c) =>
      let (c, reports) := submitRateReport s.cfg c env
      ⟨s, c, [.error 20 "submitting too fast"], reports, false⟩
    | (false, c) =>
      match params.submission with
      | none => refuse s c 20 "bad params"
      | some sub =>
        if ppsGated s.cfg env then
          refuseObserved s c env c.workerName 24 ppsGatedMsg
            "pps accrual suspended (difficulty below floor)"
        else
          match findJob s.jobs sub.jobId with
          | none =>
            refuseObserved s c env c.workerName 21 "stale or unknown job" "stale or unknown job"
          | some job => submitWithJob fp env s c sub job

/-- The connections agree on all that a render, a hash and a verdict depend on. -/
structure Conn.SameWork (c c' : Conn) : Prop where
  authorized : c'.authorized = c.authorized
  subscribed : c'.subscribed = c.subscribed
  extranonce1 : c'.extranonce1 = c.extranonce1
  difficulty : c'.difficulty = c.difficulty
  jobDiffs : c'.jobDiffs = c.jobDiffs
  jobDiffsHead : c'.jobDiffsHead = c.jobDiffsHead
  versionMask : c'.versionMask = c.versionMask
  budget : c'.polMaxCoinbaseBytes = c.polMaxCoinbaseBytes
  workerName : c'.workerName = c.workerName
  payoutAddress : c'.payoutAddress = c.payoutAddress
  cb : c'.cb = c.cb
  cbForJobId : c'.cbForJobId = c.cbForJobId

theorem Conn.SameWork.refl (c : Conn) : c.SameWork c := by constructor <;> rfl

theorem Conn.SameWork.trans {c c' c'' : Conn} (first : c.SameWork c') (second : c'.SameWork c'') :
    c.SameWork c'' where
  authorized := second.authorized.trans first.authorized
  subscribed := second.subscribed.trans first.subscribed
  extranonce1 := second.extranonce1.trans first.extranonce1
  difficulty := second.difficulty.trans first.difficulty
  jobDiffs := second.jobDiffs.trans first.jobDiffs
  jobDiffsHead := second.jobDiffsHead.trans first.jobDiffsHead
  versionMask := second.versionMask.trans first.versionMask
  budget := second.budget.trans first.budget
  workerName := second.workerName.trans first.workerName
  payoutAddress := second.payoutAddress.trans first.payoutAddress
  cb := second.cb.trans first.cb
  cbForJobId := second.cbForJobId.trans first.cbForJobId

theorem submitRateExceeded_sameWork (cfg : Cfg) (c : Conn) (mono : UInt64) :
    c.SameWork (submitRateExceeded cfg c mono).2 := by
  simp only [submitRateExceeded, Conn.rollRateWindow]
  split_ifs <;> constructor <;> rfl

theorem submitRateReport_sameWork (cfg : Cfg) (c : Conn) (env : Env) :
    c.SameWork (submitRateReport cfg c env).1 := by
  rw [submitRateReport]
  split_ifs <;> constructor <;> rfl

theorem dedupeCheckAndAdd_sameWork (c : Conn) (h : UInt64) :
    c.SameWork (dedupeCheckAndAdd c h).2 := by
  rw [dedupeCheckAndAdd]
  split_ifs <;> constructor <;> rfl

theorem submitRateExceeded_dedupe (cfg : Cfg) (c : Conn) (mono : UInt64) :
    (submitRateExceeded cfg c mono).2.dedupe = c.dedupe := by
  simp only [submitRateExceeded, Conn.rollRateWindow]
  split_ifs <;> rfl

theorem Conn.SameWork.submitVersion {c c' : Conn} (same : c.SameWork c') (job : Job)
    (sub : Submission) :
    Stratum.submitVersion c' job sub = Stratum.submitVersion c job sub := by
  rw [Stratum.submitVersion, Stratum.submitVersion, same.versionMask]

theorem Conn.SameWork.renderFresh {c c' : Conn} (same : c.SameWork c') (fp : Fpu) (cfg : Cfg)
    (job : Job) :
    Stratum.renderFresh fp cfg c' job = Stratum.renderFresh fp cfg c job := by
  simp only [Stratum.renderFresh, renderWindowCoinbase, renderFinderCoinbase, connCoinbaseBudget,
    same.budget, same.payoutAddress]

/-- The halves that a submit on this job is hashed with. -/
def coinbaseFor (fp : Fpu) (cfg : Cfg) (c : Conn) (job : Job) : Option Parts :=
  (connRenderCoinbase fp cfg c job).map Conn.cb

theorem coinbaseFor_eq (fp : Fpu) (cfg : Cfg) (c : Conn) (job : Job) : coinbaseFor fp cfg c job =
    if !c.authorized || c.payoutAddress.isEmpty then none
    else if c.cached job then some c.cb else (renderFresh fp cfg c job).toOption := by
  rw [coinbaseFor, connRenderCoinbase]
  split_ifs
  · rfl
  · rfl
  · cases renderFresh fp cfg c job with
    | ok parts => rfl
    | error failure => rfl

theorem Conn.SameWork.cached {c c' : Conn} (same : c.SameWork c') (job : Job) :
    c'.cached job = c.cached job := by
  rw [Conn.cached, Conn.cached, same.cbForJobId]

theorem Conn.SameWork.coinbaseFor {c c' : Conn} (same : c.SameWork c') (fp : Fpu) (cfg : Cfg)
    (job : Job) :
    Stratum.coinbaseFor fp cfg c' job = Stratum.coinbaseFor fp cfg c job := by
  rw [coinbaseFor_eq, coinbaseFor_eq, same.renderFresh, same.authorized, same.payoutAddress,
    same.cached, same.cb]

/-- A render writes the cache and nothing else. -/
theorem connRenderCoinbase_eq {c r : Conn} (rendered : connRenderCoinbase fp cfg c job = some r) :
    r = { c with cb := r.cb, cbForJobId := r.cbForJobId } := by
  rw [connRenderCoinbase] at rendered
  split_ifs at rendered with _ hit
  · obtain rfl := Option.some.inj rendered
    rfl
  · split at rendered
    next parts _ =>
      obtain rfl := Option.some.inj rendered
      rfl
    next => contradiction

theorem assignedDiff_congr {c c' : Conn} (difficulty : c'.difficulty = c.difficulty)
    (jobDiffs : c'.jobDiffs = c.jobDiffs)
    (job : Job) : assignedDiff c' job = assignedDiff c job := by
  have lookup : connJobDifficulty c' job.jobId = connJobDifficulty c job.jobId := by
    rw [connJobDifficulty, connJobDifficulty, jobDiffs]
  rw [assignedDiff, assignedDiff, lookup, difficulty]

theorem judge_congr {c c' : Conn} (difficulty : c'.difficulty = c.difficulty)
    (jobDiffs : c'.jobDiffs = c.jobDiffs)
    (fp : Fpu) (job : Job) (hash : Bytes) : judge fp c' job hash = judge fp c job hash := by
  simp only [judge, assignedDiff_congr difficulty jobDiffs, difficulty]

/-- A submit once everything about it is decoded. -/
structure Work where
  sub : Submission
  job : Job
  version : UInt32
  ntime : UInt32
  nonce : UInt32
  en2 : Bytes
  parts : Parts

def Work.coinbase (w : Work) (c : Conn) : Bytes :=
  w.parts.cb1 ++ c.extranonce1 ++ w.en2 ++ w.parts.cb2

def Work.hash (w : Work) (c : Conn) : Bytes :=
  hashHeader (submitHeader w.job (w.coinbase c) w.version w.ntime w.nonce)

/-- The checks of `submit_with_job` before the header is hashed have passed. -/
structure Decoded (fp : Fpu) (cfg : Cfg) (c : Conn) (w : Work) : Prop where
  version : submitVersion c w.job w.sub = some w.version
  unseen : c.remembers (submitKey w.job.jobId w.sub w.version) = false
  ntime : parseU32Hex w.sub.ntime = some w.ntime
  nonce : parseU32Hex w.sub.nonce = some w.nonce
  inRange : ntimeInRange w.job w.ntime = true
  en2 : hexToBytesAlloc w.sub.en2 = some w.en2
  en2Size : w.en2.length = w.job.en2Size
  parts : coinbaseFor fp cfg c w.job = some w.parts

/-- And so have those of `handle_submit`. -/
structure Reaches (fp : Fpu) (env : Env) (s : Server) (c : Conn) (params : Json) (w : Work) : Prop
    extends Decoded fp s.cfg c w where
  authorized : c.authorized = true
  paced : (submitRateExceeded s.cfg c env.mono).1 = false
  submission : params.submission = some w.sub
  ungated : ppsGated s.cfg env = false
  job : findJob s.jobs w.sub.jobId = some w.job

/-- The connection that hashes: as it was, with this job's coinbase rendered. -/
structure Conn.Rendered (c r : Conn) (job : Job) (parts : Parts) : Prop where
  authorized : r.authorized = c.authorized
  subscribed : r.subscribed = c.subscribed
  extranonce1 : r.extranonce1 = c.extranonce1
  difficulty : r.difficulty = c.difficulty
  jobDiffs : r.jobDiffs = c.jobDiffs
  jobDiffsHead : r.jobDiffsHead = c.jobDiffsHead
  budget : r.polMaxCoinbaseBytes = c.polMaxCoinbaseBytes
  workerName : r.workerName = c.workerName
  payoutAddress : r.payoutAddress = c.payoutAddress
  cb : r.cb = parts
  cbForJobId : r.cbForJobId = job.jobId

theorem connRenderCoinbase_cbForJobId (rendered : connRenderCoinbase fp cfg c job = some r) :
    r.cbForJobId = job.jobId := by
  rw [connRenderCoinbase] at rendered
  split_ifs at rendered with _ hit
  · obtain rfl := Option.some.inj rendered
    rw [Conn.cached, Bool.and_eq_true] at hit
    exact of_decide_eq_true hit.2
  · split at rendered
    next =>
      obtain rfl := Option.some.inj rendered
      exact snprintf_of_le job.jobId_fits
    next => contradiction

theorem Conn.SameWork.rendered {c c' r : Conn} (same : c.SameWork c')
    (rendered : connRenderCoinbase fp cfg c' job = some r) : c.Rendered r job r.cb := by
  have named := connRenderCoinbase_cbForJobId rendered
  have kept := connRenderCoinbase_eq rendered
  constructor
  · rw [kept]; exact same.authorized
  · rw [kept]; exact same.subscribed
  · rw [kept]; exact same.extranonce1
  · rw [kept]; exact same.difficulty
  · rw [kept]; exact same.jobDiffs
  · rw [kept]; exact same.jobDiffsHead
  · rw [kept]; exact same.budget
  · rw [kept]; exact same.workerName
  · rw [kept]; exact same.payoutAddress
  · rfl
  · exact named

/-- A submit that was answered before any hash: nothing shared has changed, and the
answer is neither a credit nor a verdict on its difficulty. -/
structure Unhashed (s : Server) (c : Conn) (o : Outcome) : Prop where
  server : o.server = s
  conn : c.SameWork o.conn
  uncredited : ∀ share, Observed.share share ∉ o.observed
  unfound : ∀ block, Observed.blockFound block ∉ o.observed
  unjudged : ∀ message, Line.error 23 message ∉ o.lines
  refused : ∃ code message, o.lines = [.error code message]

theorem refuse_unhashed (same : c.SameWork c') (other : code ≠ 23) :
    Unhashed s c (refuse s c' code message) where
  server := rfl
  conn := same
  uncredited := by simp [refuse]
  unfound := by simp [refuse]
  unjudged := by simp [refuse, other.symm]
  refused := ⟨code, message, rfl⟩

theorem refuseObserved_unhashed (same : c.SameWork c') (other : code ≠ 23) :
    Unhashed s c (refuseObserved s c' env worker code message reason) where
  server := rfl
  conn := same
  uncredited := by simp [refuseObserved]
  unfound := by simp [refuseObserved]
  unjudged := by simp [refuseObserved, other.symm]
  refused := ⟨code, message, rfl⟩

theorem dedupeCheckAndAdd_fst (c : Conn) (h : UInt64) :
    (dedupeCheckAndAdd c h).1 = c.remembers h := by
  rw [dedupeCheckAndAdd]
  split_ifs with seen
  · exact seen.symm
  · exact (Bool.not_eq_true _ ▸ seen).symm

theorem Conn.remembers_congr {c c' : Conn} (ring : c'.dedupe = c.dedupe) (h : UInt64) :
    c'.remembers h = c.remembers h := by
  rw [Conn.remembers, Conn.remembers, ring]

theorem submitWithJob_cases {c c' : Conn} (same : c.SameWork c') (ring : c'.dedupe = c.dedupe)
    (fp : Fpu) (env : Env) (s : Server) (sub : Submission) (job : Job) :
    (∃ w r, w.sub = sub ∧ w.job = job ∧ Decoded fp s.cfg c w ∧ c.Rendered r w.job w.parts ∧
      submitWithJob fp env s c' sub job =
        submitHash fp env s r job w.en2 w.version w.ntime w.nonce) ∨
    ((∀ w, w.sub = sub → w.job = job → ¬Decoded fp s.cfg c w) ∧
      Unhashed s c (submitWithJob fp env s c' sub job)) := by
  rw [submitWithJob, same.submitVersion]
  cases versioned : submitVersion c job sub with
  | none =>
    refine .inr ⟨?_, refuse_unhashed same (by decide)⟩
    rintro w rfl rfl decoded
    cases versioned.symm.trans decoded.version
  | some version =>
    dsimp only
    have filtered := same.trans (dedupeCheckAndAdd_sameWork c' (submitKey job.jobId sub version))
    have verdict := dedupeCheckAndAdd_fst c' (submitKey job.jobId sub version)
    rw [Conn.remembers_congr ring] at verdict
    cases added : dedupeCheckAndAdd c' (submitKey job.jobId sub version) with
    | mk dup c'' =>
      rw [added] at filtered verdict
      cases dup with
      | true =>
        dsimp only
        refine .inr ⟨?_, refuseObserved_unhashed filtered (by decide)⟩
        rintro w rfl rfl decoded
        obtain rfl := Option.some.inj (versioned.symm.trans decoded.version)
        cases verdict.trans decoded.unseen
      | false =>
        cases hntime : parseU32Hex sub.ntime with
        | none =>
          dsimp only
          refine .inr ⟨?_, refuse_unhashed filtered (by decide)⟩
          rintro w rfl rfl decoded
          cases hntime.symm.trans decoded.ntime
        | some ntime =>
          cases hnonce : parseU32Hex sub.nonce with
          | none =>
            dsimp only
            refine .inr ⟨?_, refuse_unhashed filtered (by decide)⟩
            rintro w rfl rfl decoded
            cases hnonce.symm.trans decoded.nonce
          | some nonce =>
            dsimp only
            cases inRange : ntimeInRange job ntime with
            | false =>
              simp only [Bool.not_false, if_true]
              refine .inr ⟨?_, refuseObserved_unhashed filtered (by decide)⟩
              rintro w rfl rfl decoded
              obtain rfl := Option.some.inj (hntime.symm.trans decoded.ntime)
              cases inRange.symm.trans decoded.inRange
            | true =>
              simp only [Bool.not_true, Bool.false_eq_true, if_false]
              cases hen2 : hexToBytesAlloc sub.en2 with
              | none =>
                dsimp only
                refine .inr ⟨?_, refuse_unhashed filtered (by decide)⟩
                rintro w rfl rfl decoded
                cases hen2.symm.trans decoded.en2
              | some en2 =>
                by_cases size : en2.length = job.en2Size
                · have found := filtered.coinbaseFor fp s.cfg job
                  simp only [size, ne_eq, not_true_eq_false, if_false]
                  cases rendered : connRenderCoinbase fp s.cfg c'' job with
                  | none =>
                    refine .inr ⟨?_, refuseObserved_unhashed filtered (by decide)⟩
                    rintro w rfl rfl decoded
                    rw [coinbaseFor, rendered, decoded.parts] at found
                    contradiction
                  | some r =>
                    rw [coinbaseFor, rendered] at found
                    exact .inl ⟨⟨sub, job, version, ntime, nonce, en2, r.cb⟩, r, rfl, rfl,
                      ⟨versioned, verdict.symm, hntime, hnonce, inRange, hen2, size, found.symm⟩,
                      filtered.rendered rendered, rfl⟩
                · simp only [size, ne_eq, not_false_eq_true, if_true]
                  refine .inr ⟨?_, refuseObserved_unhashed filtered (by decide)⟩
                  rintro w rfl rfl decoded
                  obtain rfl := Option.some.inj (hen2.symm.trans decoded.en2)
                  exact size decoded.en2Size

theorem submitRateReport_observed (cfg : Cfg) (c : Conn) (env : Env) :
    (∀ share, Observed.share share ∉ (submitRateReport cfg c env).2) ∧
      ∀ block, Observed.blockFound block ∉ (submitRateReport cfg c env).2 := by
  rw [submitRateReport]
  split_ifs <;> simp

/-- A submit either is hashed, on the connection with its job rendered, or was answered
before. -/
theorem handleSubmit_cases (fp : Fpu) (env : Env) (s : Server) (c : Conn) (params : Json) :
    (∃ w r, Reaches fp env s c params w ∧ c.Rendered r w.job w.parts ∧
      handleSubmit fp env s c params =
        submitHash fp env s r w.job w.en2 w.version w.ntime w.nonce) ∨
    ((∀ w, ¬Reaches fp env s c params w) ∧ Unhashed s c (handleSubmit fp env s c params)) := by
  rw [handleSubmit]
  cases authorized : c.authorized with
  | false =>
    refine .inr ⟨?_, refuse_unhashed (.refl c) (by decide)⟩
    intro w reaches
    cases authorized.symm.trans reaches.authorized
  | true =>
    simp only [Bool.not_true, Bool.false_eq_true, if_false]
    have same := submitRateExceeded_sameWork s.cfg c env.mono
    have ring := submitRateExceeded_dedupe s.cfg c env.mono
    cases paced : submitRateExceeded s.cfg c env.mono with
    | mk limited c' =>
      rw [paced] at same ring
      cases limited with
      | true =>
        refine .inr ⟨?_, ?_⟩
        · intro w reaches
          have pace := reaches.paced
          rw [paced] at pace
          cases pace
        · obtain ⟨uncredited, unfound⟩ := submitRateReport_observed s.cfg c' env
          exact ⟨rfl, same.trans (submitRateReport_sameWork s.cfg c' env), uncredited,
            unfound, by simp, 20, _, rfl⟩
      | false =>
        dsimp only
        cases submission : params.submission with
        | none =>
          refine .inr ⟨?_, refuse_unhashed same (by decide)⟩
          intro w reaches
          cases submission.symm.trans reaches.submission
        | some sub =>
          dsimp only
          cases gated : ppsGated s.cfg env with
          | true =>
            refine .inr ⟨?_, refuseObserved_unhashed same (by decide)⟩
            intro w reaches
            cases gated.symm.trans reaches.ungated
          | false =>
            simp only [Bool.false_eq_true, if_false]
            cases found : findJob s.jobs sub.jobId with
            | none =>
              refine .inr ⟨?_, refuseObserved_unhashed same (by decide)⟩
              intro w reaches
              obtain rfl := Option.some.inj (submission.symm.trans reaches.submission)
              cases found.symm.trans reaches.job
            | some job =>
              dsimp only
              rcases submitWithJob_cases same ring fp env s sub job with
                ⟨w, r, rfl, rfl, decoded, rendered, done⟩ | ⟨undecoded, unhashed⟩
              · exact .inl ⟨w, r, ⟨decoded, authorized, by rw [paced], submission, gated, found⟩,
                  rendered, done⟩
              · refine .inr ⟨?_, unhashed⟩
                intro w reaches
                obtain rfl := Option.some.inj (submission.symm.trans reaches.submission)
                obtain rfl := Option.some.inj (found.symm.trans reaches.job)
                exact undecoded w rfl rfl reaches.toDecoded

/-- The duplicate table once this hash has been put to it. -/
def Server.recordHash (s : Server) (hash : Bytes) : Server :=
  { s with shareDedupe := (s.shareDedupe.checkAndAdd (fnv1a hash)).2 }

/-- What a submit that was hashed comes to. -/
theorem submitHash_cases {w : Work} (rendered : c.Rendered r w.job w.parts) (fp : Fpu) (env : Env)
    (s : Server) :
    (dedupeKey (fnv1a (w.hash c)) ∈ s.shareDedupe.recent ∧
      submitHash fp env s r w.job w.en2 w.version w.ntime w.nonce =
        refuseObserved (s.recordHash (w.hash c)) r env c.workerName 22 "duplicate share"
          "duplicate share") ∨
    dedupeKey (fnv1a (w.hash c)) ∉ s.shareDedupe.recent ∧
      (judge fp c w.job (w.hash c) = none ∧
        submitHash fp env s r w.job w.en2 w.version w.ntime w.nonce =
          refuseObserved (s.recordHash (w.hash c)) r env c.workerName 23 "low difficulty"
            "low difficulty" ∨
      ∃ verdict, judge fp c w.job (w.hash c) = some verdict ∧
        submitHash fp env s r w.job w.en2 w.version w.ntime w.nonce =
          credit fp env (s.recordHash (w.hash c)) r w.job (w.coinbase c)
            (submitHeader w.job (w.coinbase c) w.version w.ntime w.nonce) (w.hash c) verdict) := by
  have coinbase : submitCoinbase r w.en2 = w.coinbase c := by
    rw [submitCoinbase, Work.coinbase, rendered.cb, rendered.extranonce1]
  have answer := s.shareDedupe.checkAndAdd_spec (fnv1a (w.hash c))
  have judged := judge_congr rendered.difficulty rendered.jobDiffs fp w.job (w.hash c)
  simp only [submitHash, coinbase, Server.recordHash, rendered.workerName]
  rw [← Work.hash, judged]
  rw [BoundedFifo.checkAndAdd] at answer
  split_ifs at answer with seen
  · rw [(Prod.mk.inj answer).1, if_pos rfl]
    exact .inl ⟨seen, rfl⟩
  · rw [(Prod.mk.inj answer).1, if_neg Bool.false_ne_true]
    refine .inr ⟨seen, ?_⟩
    cases judge fp c w.job (w.hash c) with
    | none => exact .inl ⟨rfl, rfl⟩
    | some verdict => exact .inr ⟨verdict, rfl, rfl⟩

/-- The duplicate table is all that a submit changes for the other connections. -/
theorem handleSubmit_server (fp : Fpu) (env : Env) (s : Server) (c : Conn) (params : Json) :
    (∃ w, Reaches fp env s c params w ∧
      (handleSubmit fp env s c params).server = s.recordHash (w.hash c)) ∨
      (∀ w, ¬Reaches fp env s c params w) ∧ (handleSubmit fp env s c params).server = s := by
  rcases handleSubmit_cases fp env s c params with ⟨w, r, reaches, rendered, done⟩ | ⟨unreached,
    unhashed⟩
  · refine .inl ⟨w, reaches, ?_⟩
    rw [done]
    rcases submitHash_cases rendered fp env s with ⟨_, out⟩ | ⟨_, ⟨_, out⟩ | ⟨_, _, out⟩⟩ <;>
      rw [out] <;> rfl
  · exact .inr ⟨unreached, unhashed.server⟩

end SimplePool.Stratum
