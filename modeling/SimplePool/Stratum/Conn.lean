import SimplePool.Coinbase.TemplateRewrite
import SimplePool.Stratum.Job
import SimplePool.Stratum.ShareDedupe

/-! One miner's connection: its state, the coinbase rendered for it, the difficulty
each job went out to it under, its submit ceiling and vardiff. -/
namespace SimplePool.Stratum
open Wire Coinbase

def dedupeRing : Nat := 1024
def jobDiffRing : Nat := (recentJobs + 1) * 2

/-- The fields of `stratum_cfg_t` that the handlers read. `int` settings where zero or
less means off are integers. -/
structure Cfg where
  initialDiff : ℚ
  maxSuggestedDiff : ℚ
  operatorAddress : Option Bytes
  feeBps : FeeBps
  coinbaseTag : Option Bytes
  coinbasePaysPool : Bool
  usernameIsThunder : Bool
  coinbasePaysWindow : Bool
  maxCoinbaseBytes : Nat
  payoutFloorSats : Int
  ppsAccrues : Bool
  ppsRefuseSharesBelowMin : Bool
  poolBtcAddress : Bytes
  vardiffEnabled : Bool
  vardiffTargetSpm : ℚ
  vardiffMin : ℚ
  vardiffMax : ℚ
  vardiffWindowSec : Nat
  vardiffMinSamples : Int
  vardiffMaxWindowMult : Int
  vardiffIdleStep : ℚ
  maxSubmitsPerSec : Int
  authMaxFailures : Int
  authFailLockoutSec : Nat

/-- What a handler reads from outside while it runs: the wall clock, the monotonic
clock, the accrual gate, and the node's answer to a block. -/
structure Env where
  now : UInt64
  mono : UInt64
  ppsGate : Bool
  onBlock : Bytes → Except String Unit

/-- `stratum_listener_t`. -/
structure Listener where
  initialDiff : ℚ
  vardiffMin : ℚ
  vardiffMax : ℚ
  minDiff : ℚ
  maxCoinbaseBytes : Nat

/-- An entry of `job_diffs`. -/
structure JobDiff where
  jobId : Bytes
  difficulty : ℚ

/-- `stratum_conn`. An empty `cbForJobId` means that nothing is rendered. -/
structure Conn where
  extranonce1 : Bytes
  difficulty : ℚ
  requestedMinDiff : ℚ
  polMaxCoinbaseBytes : Nat
  polInitialDiff : ℚ
  polVardiffMin : ℚ
  polVardiffMax : ℚ
  polMinDiff : ℚ
  subscribed : Bool
  authorized : Bool
  peerIp : Bytes
  authFailures : UInt32
  authCallWindowMs : UInt64
  authCallsInWindow : UInt32
  versionMask : UInt32
  workerName : Bytes
  payoutAddress : Bytes
  cb : Parts
  cbForJobId : Bytes
  dedupe : Nat → UInt64
  dedupeHead : Nat
  vdWindowStartMs : UInt64
  vdWindowShares : UInt32
  vdWindowMinAchieved : WithTop ℚ
  vdWindowMaxAssigned : ℚ
  jobDiffs : Nat → JobDiff
  jobDiffsHead : Nat
  rlWindowStartMs : UInt64
  rlWindowCount : UInt32
  rlLimited : UInt32
  rlLimitedTotal : UInt64
  rlReportedMs : UInt64

/-- `calloc`, and the server-wide difficulty policy. -/
def Conn.new (cfg : Cfg) (peerIp : Bytes) : Conn where
  extranonce1 := [0, 0, 0, 0]
  difficulty := cfg.initialDiff
  requestedMinDiff := 0
  polMaxCoinbaseBytes := 0
  polInitialDiff := cfg.initialDiff
  polVardiffMin := cfg.vardiffMin
  polVardiffMax := cfg.vardiffMax
  polMinDiff := 0
  subscribed := false
  authorized := false
  peerIp := peerIp
  authFailures := 0
  authCallWindowMs := 0
  authCallsInWindow := 0
  versionMask := 0
  workerName := []
  payoutAddress := []
  cb := ⟨[], []⟩
  cbForJobId := []
  dedupe := fun _ => 0
  dedupeHead := 0
  vdWindowStartMs := 0
  vdWindowShares := 0
  vdWindowMinAchieved := ⊤
  vdWindowMaxAssigned := 0
  jobDiffs := fun _ => ⟨[], 0⟩
  jobDiffsHead := 0
  rlWindowStartMs := 0
  rlWindowCount := 0
  rlLimited := 0
  rlLimitedTotal := 0
  rlReportedMs := 0

/-- A field the listener left at 0 keeps the server-wide default. -/
def Conn.applyListener (c : Conn) (pol : Listener) : Conn :=
  let initial := if 0 < pol.initialDiff then pol.initialDiff else c.polInitialDiff
  { c with
    polInitialDiff := initial
    polVardiffMin := if 0 < pol.vardiffMin then pol.vardiffMin else c.polVardiffMin
    polVardiffMax := if 0 < pol.vardiffMax then pol.vardiffMax else c.polVardiffMax
    polMinDiff := pol.minDiff
    polMaxCoinbaseBytes := pol.maxCoinbaseBytes
    difficulty := initial }

structure Notify where
  jobId : Bytes
  prevHash : Bytes
  cb1 : Bytes
  cb2 : Bytes
  merkleBranches : List Bytes
  version : Bytes
  nbits : Bytes
  ntime : Bytes
  cleanJobs : Bool
deriving DecidableEq

inductive Line where
  | accepted
  | error (code : Nat) (message : String)
  | subscribed (extranonce1 : Bytes) (extranonce2Size : Nat)
  | configured (versionMask : Option Bytes)
  | setDifficulty (difficulty : ℚ)
  | notify (notify : Notify)
deriving DecidableEq

/-- The arguments of `on_share`. -/
structure Share where
  workerName : Bytes
  payoutAddress : Bytes
  ts : UInt64
  difficulty : WithTop ℚ
  isBlock : Bool
  hash : Bytes
deriving DecidableEq

/-- The arguments of `on_block_found`. -/
structure BlockFound where
  workerName : Bytes
  finderAddress : Bytes
  ts : UInt64
  height : UInt32
  blockHash : Bytes
  rewardSats : Int
  feeSats : Int
  accepted : Bool
  submitError : String
deriving DecidableEq

inductive Observed where
  | share (share : Share)
  | reject (workerName : Bytes) (ts : UInt64) (reason : String)
  | block (blockHex : Bytes)
  | blockFound (block : BlockFound)
  /-- The arithmetic of `on_block_found`'s arguments left `int64_t`. -/
  | undefined
deriving DecidableEq

/-- A null text is the argument `none`. -/
def hexToBytesAlloc (hex : Option Bytes) : Option Bytes := hex.bind hexPairs

def hexToBytes (hex : Option Bytes) (outlen : Nat) : Option Bytes :=
  hex.bind fun hex => if hex.length ≠ outlen * 2 then none else hexPairs hex

def parseU32Hex (hex : Option Bytes) : Option UInt32 :=
  (hexToBytes hex 4).map fun b => UInt32.ofNat (beValue b)

/-- `%08x`. -/
def hex8 (v : UInt32) : Bytes := hexEncode (encode 4 v.toNat).reverse

theorem parseU32Hex_hex8 (v : UInt32) : parseU32Hex (some (hex8 v)) = some v := by
  have size : (hex8 v).length = 4 * 2 := by simp [hex8, hexEncode]
  have value : decode (encode 4 v.toNat) = v.toNat :=
    decode_encode_of_lt (by simpa using v.toNat_lt)
  rw [parseU32Hex, hexToBytes, Option.bind_some, if_neg (not_not.mpr size), hex8,
    hexPairs_hexEncode, Option.map_some, beValue, List.reverse_reverse, value, UInt32.ofNat_toNat]

def connCoinbaseBudget (cfg : Cfg) (c : Conn) : Nat :=
  if 0 < c.polMaxCoinbaseBytes then c.polMaxCoinbaseBytes else cfg.maxCoinbaseBytes

/-- A coinbase that pays one address, from the server's transaction or from scratch. -/
def renderSingle (fp : Fpu) (cfg : Cfg) (job : Job) (address : Bytes) : Result Parts :=
  match job.coinbasetxnHex with
  | some hex =>
    (buildFromTemplate fp.scale (.single address cfg.operatorAddress cfg.feeBps) hex cfg.coinbaseTag
      job.cbSalt job.en1Size job.en2Size).map Prod.fst
  | none => (buildSplit job.height job.valueSats address cfg.operatorAddress cfg.feeBps job.wcHex
    cfg.coinbaseTag job.cbSalt job.en1Size job.en2Size).map SplitResult.parts

def renderFinderCoinbase (fp : Fpu) (cfg : Cfg) (c : Conn) (job : Job) : Result Parts :=
  renderSingle fp cfg job c.payoutAddress

def renderWindowCoinbase (fp : Fpu) (cfg : Cfg) (c : Conn) (job : Job) : Result Parts :=
  match job.coinbasetxnHex with
  | some hex => (buildFromTemplate fp.scale (.window job.payees cfg.operatorAddress cfg.feeBps
      (connCoinbaseBudget cfg c) cfg.payoutFloorSats) hex cfg.coinbaseTag job.cbSalt job.en1Size
        job.en2Size).map Prod.fst
  | none => (buildWindow fp.scale job.height job.valueSats job.payees cfg.operatorAddress cfg.feeBps
    job.wcHex
      cfg.coinbaseTag job.cbSalt job.en1Size job.en2Size (connCoinbaseBudget cfg c)
        cfg.payoutFloorSats).map Prod.fst

/-- The branches of `conn_render_coinbase` past its cache. -/
def renderFresh (fp : Fpu) (cfg : Cfg) (c : Conn) (job : Job) : Result Parts :=
  if cfg.coinbasePaysWindow && !job.payees.isEmpty then renderWindowCoinbase fp cfg c job
  else if cfg.coinbasePaysPool then renderSingle fp cfg job cfg.poolBtcAddress
  else renderFinderCoinbase fp cfg c job

/-- The cached coinbase is this job's. -/
def Conn.cached (c : Conn) (job : Job) : Bool := c.cbForJobId ≠ [] && c.cbForJobId = job.jobId

def connRenderCoinbase (fp : Fpu) (cfg : Cfg) (c : Conn) (job : Job) : Option Conn :=
  if !c.authorized || c.payoutAddress.isEmpty then none
  else if c.cached job then some c
  else
    match renderFresh fp cfg c job with
    | .ok parts => some { c with cb := parts, cbForJobId := snprintf jobIdCap job.jobId }
    | .error _ => none

def connRecordJobDifficulty (c : Conn) (jobId : Bytes) (difficulty : ℚ) : Conn :=
  if jobId = [] ∨ difficulty ≤ 0 then c
  else
    match (List.range jobDiffRing).find? fun i => (c.jobDiffs i).jobId = jobId with
    | some i =>
      { c with jobDiffs := Function.update c.jobDiffs i ⟨(c.jobDiffs i).jobId, difficulty⟩ }
    | none =>
      { c with
        jobDiffs := Function.update c.jobDiffs c.jobDiffsHead ⟨snprintf jobIdCap jobId, difficulty⟩
        jobDiffsHead := (c.jobDiffsHead + 1) % jobDiffRing }

/-- 0 when the connection was never told about the job. -/
def connJobDifficulty (c : Conn) (jobId : Bytes) : ℚ :=
  if jobId = [] then 0
  else
    match (List.range jobDiffRing).find? fun i => (c.jobDiffs i).jobId = jobId with
    | some i => (c.jobDiffs i).difficulty
    | none => 0

def currentNetDiff (fp : Fpu) (jobs : Jobs) : WithTop ℚ :=
  match jobs.current with
  | none => 0
  | some job => targetToDiff fp job.networkTarget

/-- The network ceiling. An infinite one bounds nothing. -/
def underCeiling (netDiff : WithTop ℚ) (diff : ℚ) : ℚ :=
  match netDiff with
  | none => diff
  | some net => if 0 < net ∧ net < diff then net else diff

def clampAssignedDifficulty (fp : Fpu) (jobs : Jobs) (c : Conn) (diff : ℚ) : ℚ :=
  let diff := underCeiling (currentNetDiff fp jobs) diff
  let diff := if 0 < c.polMinDiff ∧ diff < c.polMinDiff then c.polMinDiff else diff
  if diff ≤ 0 then 1 else diff

/-- A fixed window of one second on the monotonic clock. -/
def Conn.rollRateWindow (c : Conn) (mono : UInt64) : Conn :=
  if 1000 ≤ mono - c.rlWindowStartMs then
    { c with rlWindowStartMs := mono, rlWindowCount := 0 }
  else c

def submitRateExceeded (cfg : Cfg) (c : Conn) (mono : UInt64) : Bool × Conn :=
  if cfg.maxSubmitsPerSec ≤ 0 then (false, c)
  else
    let c := c.rollRateWindow mono
    if (c.rlWindowCount.toNat : Int) < cfg.maxSubmitsPerSec then
      (false, { c with rlWindowCount := c.rlWindowCount + 1 })
    else (true, { c with rlLimited := c.rlLimited + 1, rlLimitedTotal := c.rlLimitedTotal + 1 })

def rlReportIntervalMs : UInt64 := 10000

/-- At most one report an interval, with the count of what was refused since the last. -/
def submitRateReport (cfg : Cfg) (c : Conn) (env : Env) : Conn × List Observed :=
  if c.rlLimited = 0 then (c, [])
  else if c.rlReportedMs ≠ 0 ∧ env.mono - c.rlReportedMs < rlReportIntervalMs then (c, [])
  else
    ({ c with rlLimited := 0, rlReportedMs := env.mono },
      [.reject c.workerName env.now ("submitting too fast: " ++ toString c.rlLimited.toNat ++
        " refused at over " ++
        toString cfg.maxSubmitsPerSec ++ "/s (" ++ toString c.rlLimitedTotal.toNat ++ " total)")])

def Fpu.mul (fp : Fpu) (a b : ℚ) : ℚ := fp.round (a * b)

def Fpu.div (fp : Fpu) (a b : ℚ) : ℚ := fp.round (a / b)

/-- Open a fresh vardiff window. -/
def Conn.armVardiff (c : Conn) (now : UInt64) : Conn :=
  { c with
    vdWindowStartMs := now, vdWindowShares := 0
    vdWindowMinAchieved := ⊤, vdWindowMaxAssigned := 0 }

def underSampled (cfg : Cfg) (c : Conn) : Bool :=
  0 < cfg.vardiffMinSamples && (c.vdWindowShares.toNat : Int) < cfg.vardiffMinSamples

/-- The observed rate over the one aimed at. The window holds a share, so that nothing to
divide by makes it infinite. -/
def rateRatio (fp : Fpu) (cfg : Cfg) (c : Conn) (elapsedMs : UInt64) : WithTop ℚ :=
  if cfg.vardiffTargetSpm = 0 ∨ (elapsedMs = 0 ∧ 0 < cfg.vardiffTargetSpm) then ⊤
  else
    let observedSpm := fp.div (fp.mul c.vdWindowShares.toNat 60000) (fp.round elapsedMs.toNat)
    (fp.div observedSpm cfg.vardiffTargetSpm : ℚ)

def maxStep (cfg : Cfg) (c : Conn) : ℚ :=
  if underSampled cfg c then (if 1 < cfg.vardiffIdleStep then cfg.vardiffIdleStep else 2) else 4

/-- The rate loop's proposal, with its step capped. -/
def rateProposal (fp : Fpu) (cfg : Cfg) (c : Conn) (elapsedMs : UInt64) : ℚ :=
  let most := fp.mul c.difficulty (maxStep cfg c)
  let least := fp.div c.difficulty (maxStep cfg c)
  match rateRatio fp cfg c elapsedMs with
  | none => if most < least then least else most
  | some ratio =>
    if 2 < ratio ∨ ratio < 1 / 2 then
      let newDiff := fp.mul c.difficulty ratio
      let newDiff := if most < newDiff then most else newDiff
      if newDiff < least then least else newDiff
    else c.difficulty

def vdFloorMinSamples : UInt32 := 5

/-- Just under the floor the miner filters at, when every share of the window cleared
four times what it was asked for. -/
def floorProposal (fp : Fpu) (c : Conn) : Option ℚ :=
  match c.vdWindowMinAchieved with
  | none => none
  | some achieved =>
    if vdFloorMinSamples ≤ c.vdWindowShares ∧
      fp.mul (max c.vdWindowMaxAssigned c.difficulty) 4 < achieved then
      some (fp.mul achieved (fp.round (19 / 20)))
    else none

/-- The policy bounds on a proposal: the miner's request, then the port's limits. -/
def boundProposal (c : Conn) (diff : ℚ) : ℚ :=
  let diff :=
    if 0 < c.requestedMinDiff ∧ diff < c.requestedMinDiff then c.requestedMinDiff else diff
  let diff := if diff < c.polVardiffMin then c.polVardiffMin else diff
  if 0 < c.polVardiffMax ∧ c.polVardiffMax < diff then c.polVardiffMax else diff

def vardiffMaybeRetarget (fp : Fpu) (cfg : Cfg) (jobs : Jobs) (c : Conn) (now : UInt64) :
    Conn × List Line :=
  if !cfg.vardiffEnabled then (c, [])
  else if c.vdWindowStartMs = 0 then (c.armVardiff now, [])
  else
    let elapsedMs := now - c.vdWindowStartMs
    let windowMs := UInt64.ofNat cfg.vardiffWindowSec * 1000
    let mult := if 0 < cfg.vardiffMaxWindowMult then cfg.vardiffMaxWindowMult else 8
    if elapsedMs < windowMs then (c, [])
    else if underSampled cfg c && elapsedMs < windowMs * UInt64.ofNat mult.toNat then (c, [])
    else
      let rate := rateProposal fp cfg c elapsedMs
      let proposed := match floorProposal fp c with
        | some floor => if rate < floor then floor else rate
        | none => rate
      let newDiff := clampAssignedDifficulty fp jobs c (boundProposal c proposed)
      if newDiff ≠ c.difficulty then
        ({ c.armVardiff now with difficulty := newDiff }, [.setDifficulty newDiff])
      else (c.armVardiff now, [])

/-- Each word of four bytes reversed, in the order of the words. -/
def wordSwap : Bytes → Bytes
  | a :: b :: c :: d :: rest => d :: c :: b :: a :: wordSwap rest
  | rest => rest

def makeNotifyParams (job : Job) (cb : Parts) (cleanJobs : Bool) : Notify where
  jobId := job.jobId
  prevHash := hexEncode (wordSwap job.prevHash)
  cb1 := hexEncode cb.cb1
  cb2 := hexEncode cb.cb2
  merkleBranches := job.merkleBranches.map fun branch => hexEncode branch
  version := hex8 job.version
  nbits := hex8 job.nbits
  ntime := hex8 job.ntime
  cleanJobs := cleanJobs

def sendCurrentNotify (fp : Fpu) (cfg : Cfg) (jobs : Jobs) (c : Conn) (clean : Bool) :
    Conn × List Line :=
  match jobs.current with
  | none => (c, [])
  | some job =>
    match connRenderCoinbase fp cfg c job with
    | none => (c, [])
    | some c => (connRecordJobDifficulty c job.jobId c.difficulty,
      [.notify (makeNotifyParams job c.cb clean)])

/-- An entry of the authorize-failure table. An empty address is a free slot. -/
structure AuthFailEntry where
  ip : Bytes
  fails : UInt32
  windowStartMono : UInt64
  reported : Bool

/-- `stratum_server`, without its connections. -/
structure Server where
  cfg : Cfg
  extranonce1Seq : UInt32
  authFail : Nat → AuthFailEntry
  shareDedupe : DedupeTable
  jobs : Jobs

/-- The state a handler leaves, what it wrote and reported, and whether the
connection is to be closed. -/
structure Outcome where
  server : Server
  conn : Conn
  lines : List Line
  observed : List Observed
  close : Bool

/-- An error reply that changes nothing. -/
def refuse (s : Server) (c : Conn) (code : Nat) (message : String) : Outcome :=
  ⟨s, c, [.error code message], [], false⟩

/-- An error reply with a reject observation. -/
def refuseObserved (s : Server) (c : Conn) (env : Env) (worker : Bytes) (code : Nat)
    (message reason : String) : Outcome :=
  ⟨s, c, [.error code message], [.reject worker env.now reason], false⟩

def ppsGated (cfg : Cfg) (env : Env) : Bool :=
  cfg.ppsAccrues && cfg.ppsRefuseSharesBelowMin && env.ppsGate

def ppsGatedMsg : String :=
  "pool is not crediting shares right now: network difficulty is below the minimum this pool " ++
    "will pay PPS at. Point your miner elsewhere until it retargets."

/-- The parsed `params` of a request. A number too large for a double is `⊤`. -/
inductive Json where
  | null
  | bool (value : Bool)
  | number (value : WithTop ℚ)
  | string (value : Bytes)
  | array (items : List Json)
  | object (fields : List (Bytes × Json))

/-- Null for anything that is not a string. -/
def Json.valuestring : Json → Option Bytes
  | .string value => some value
  | _ => none

end SimplePool.Stratum
