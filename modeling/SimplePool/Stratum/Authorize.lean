import SimplePool.Stratum.Submit

/-! The other requests a miner sends: mining.subscribe, mining.configure,
mining.suggest_difficulty and mining.authorize with its failure budget. -/
namespace SimplePool.Stratum
open Wire Coinbase

def handleSubscribe (s : Server) (c : Conn) : Outcome :=
  let mix := s.extranonce1Seq
  let extranonce1 : Bytes :=
    [(mix >>> 24).toUInt8, (mix >>> 16).toUInt8, (mix >>> 8).toUInt8, mix.toUInt8]
  ⟨{ s with extranonce1Seq := mix + 1 }, { c with extranonce1 := extranonce1, subscribed := true },
    [.subscribed (hexEncode extranonce1) extranonce2Size], [], false⟩

def Json.items : Json → List Json
  | .array items => items
  | _ => []

def Json.valuedouble : Json → Option (WithTop ℚ)
  | .number value => some value
  | _ => none

/-- A member of an object, the first of its name. -/
def Json.member (name : Bytes) : Json → Option Json
  | .object fields => (fields.find? fun field => field.1 = name).map Prod.snd
  | _ => none

/-- The bits the client asks for; all of them when it names none that can be read. -/
def clientMask (args : Option Json) : UInt32 :=
  match (args.bind (Json.member (ascii "version-rolling.mask"))).bind fun m =>
    parseU32Hex m.valuestring with
  | some mask => mask
  | none => 0xffffffff

def handleConfigure (s : Server) (c : Conn) (params : Json) : Outcome :=
  let exts := (params.items[0]?.map Json.items).getD []
  if exts.any fun e => e.valuestring = some (ascii "version-rolling") then
    let mask := clientMask params.items[1]? &&& versionRollingMask
    ⟨s, { c with versionMask := mask }, [.configured (some (hex8 mask))], [], false⟩
  else ⟨s, c, [.configured none], [], false⟩

/-- The request in a password: the number after the first `d=` at a token boundary. -/
def parsePasswordDiff (fp : Fpu) : Option UInt8 → Bytes → Option (WithTop ℚ)
  | _, [] => none
  | previous, b :: rest =>
    let boundary := match previous with
      | none => true
      | some p => p = 44 || p = 59 || p = 32
    if boundary && b = 100 && rest.head? = some 61 then (fp.strtod rest.tail).filter fun v => 0 < v
    else parsePasswordDiff fp (some b) rest

def applyRequestedDiff (fp : Fpu) (cfg : Cfg) (jobs : Jobs) (c : Conn) (req : WithTop ℚ) : Conn :=
  if ¬0 < req ∨ cfg.maxSuggestedDiff ≤ 0 then c
  else
    let capped := match req with
      | none => cfg.maxSuggestedDiff
      | some req => if cfg.maxSuggestedDiff < req then cfg.maxSuggestedDiff else req
    let clamped := clampAssignedDifficulty fp jobs c capped
    let floor :=
      if 0 < c.polVardiffMax ∧ c.polVardiffMax < clamped then c.polVardiffMax else clamped
    { c with
      requestedMinDiff := floor
      difficulty := if c.difficulty < floor then floor else c.difficulty }

def handleSuggestDifficulty (fp : Fpu) (s : Server) (c : Conn) (hasId : Bool) (params : Json) :
    Outcome :=
  let req := (params.items[0]?.bind Json.valuedouble).getD 0
  if ¬0 < req then refuse s c 20 "bad params"
  else
    let c' := applyRequestedDiff fp s.cfg s.jobs c req
    let told := if c.authorized && c'.difficulty ≠ c.difficulty
      then [Line.setDifficulty c'.difficulty] else []
    ⟨s, c', told ++ (if hasId then [.accepted] else []), [], false⟩

def authFailSlots : Nat := 1024
def authFailProbe : Nat := 8
def authCallWindow : UInt64 := 10000
def authMaxCallsPerWindow : UInt32 := 60
def peerIpCap : Nat := 46

def lockoutMs (cfg : Cfg) : UInt64 := UInt64.ofNat cfg.authFailLockoutSec * 1000

/-- The loop of `auth_fail_find`: the entry itself, or the first free slot and the slot
whose window started earliest. -/
def authFailWalk (table : Nat → AuthFailEntry) (ip : Bytes) (mono lockout : UInt64) :
    List Nat → Option Nat → Option Nat → Nat ⊕ (Option Nat × Option Nat)
  | [], free, oldest => .inr (free, oldest)
  | i :: rest, free, oldest =>
    if (table i).ip ≠ [] ∧ (table i).ip = ip then .inl i
    else
      let isFree : Bool := (table i).ip = [] || lockout ≤ mono - (table i).windowStartMono
      let older := match oldest with
        | none => i
        | some o => if (table i).windowStartMono < (table o).windowStartMono then i else o
      authFailWalk table ip mono lockout rest (if isFree && free.isNone then some i else free)
        (some older)

def authFailFind (cfg : Cfg) (table : Nat → AuthFailEntry) (ip : Bytes) (mono : UInt64)
    (create : Bool) :
    (Nat → AuthFailEntry) × Option Nat :=
  let home := (fnv1a ip).toNat &&& (authFailSlots - 1)
  let slots := (List.range authFailProbe).map fun k => (home + k) &&& (authFailSlots - 1)
  match authFailWalk table ip mono (lockoutMs cfg) slots none none with
  | .inl i =>
    if lockoutMs cfg ≤ mono - (table i).windowStartMono then
      (Function.update table i ⟨(table i).ip, 0, mono, false⟩, some i)
    else (table, some i)
  | .inr (free, oldest) =>
    match create, free <|> oldest with
    | true, some i => (Function.update table i ⟨snprintf peerIpCap ip, 0, mono, false⟩, some i)
    | _, _ => (table, none)

inductive Gate where
  | refused (message : String)
  | proceed (overCallCeiling : Bool)

/-- The per-address half: the lockout message, if the address is locked out. -/
def authLockout (s : Server) (c : Conn) (mono : UInt64) : Server × Option String :=
  if c.peerIp = [] then (s, none)
  else
    match authFailFind s.cfg s.authFail c.peerIp mono false with
    | (table, some i) =>
      if s.cfg.authMaxFailures ≤ (table i).fails.toNat then
        let elapsed := mono - (table i).windowStartMono
        let retry :=
          (if elapsed < lockoutMs s.cfg then lockoutMs s.cfg - elapsed + 999 else 0) / 1000
        ({ s with authFail := Function.update table i { table i with reported := true } },
          some ("too many failed authorizations from this address; retry in " ++
            toString retry.toNat ++ "s"))
      else ({ s with authFail := table }, none)
    | (table, none) => ({ s with authFail := table }, none)

def Conn.rollAuthWindow (c : Conn) (mono : UInt64) : Conn :=
  if authCallWindow ≤ mono - c.authCallWindowMs then
    { c with authCallWindowMs := mono, authCallsInWindow := 0 }
  else c

def authGate (s : Server) (c : Conn) (mono : UInt64) : Server × Conn × Gate :=
  if s.cfg.authMaxFailures ≤ 0 then (s, c, .proceed false)
  else
    match authLockout s c mono with
    | (s, some message) => (s, c, .refused message)
    | (s, none) =>
      let rolled := c.rollAuthWindow mono
      let counted := { rolled with authCallsInWindow := rolled.authCallsInWindow + 1 }
      (s, counted, .proceed (authMaxCallsPerWindow < counted.authCallsInWindow))

/-- Every failed authorize ends here, with its answer already written. -/
def authFailed (env : Env) (o : Outcome) : Outcome :=
  if o.server.cfg.authMaxFailures ≤ 0 then o
  else
    let c := { o.conn with authFailures := o.conn.authFailures + 1 }
    let s := if c.peerIp = [] then o.server
      else
        match authFailFind o.server.cfg o.server.authFail c.peerIp env.mono true with
        | (table, some i) =>
          { o.server with
            authFail := Function.update table i { table i with fails := (table i).fails + 1 } }
        | (table, none) => { o.server with authFail := table }
    { o with server := s, conn := c, close := decide (s.cfg.authMaxFailures ≤
        c.authFailures.toNat) || o.close }

/-- A success forgives the address. -/
def authSucceeded (s : Server) (c : Conn) (mono : UInt64) : Server :=
  if s.cfg.authMaxFailures ≤ 0 ∨ c.peerIp = [] then s
  else
    match authFailFind s.cfg s.authFail c.peerIp mono false with
    | (table, some i) => { s with authFail := Function.update table i { table i with ip := [] } }
    | (table, none) => { s with authFail := table }

def payoutAddressCap : Nat := 128
def workerNameCap : Nat := 129

def sanitizeByte (b : UInt8) : UInt8 :=
  if (65 ≤ b && b ≤ 90) || (97 ≤ b && b ≤ 122) || (48 ≤ b && b ≤ 57) || b = 46 || b = 95 || b = 45
    then b else 95

def sanitizeWorker (name : Bytes) : Bytes := (name.take (workerNameCap - 1)).map sanitizeByte

/-- What a text buffer of `cap` bytes keeps of a message. -/
def clip (cap : Nat) (message : String) : String := String.ofList (message.toList.take (cap - 1))

def thunderAddressDecode (addr : Bytes) : Result Bytes :=
  if addr = [] then fail "empty thunder address"
  else if 95 ∈ addr then
    fail ("thunder address contains '_' — looks like the 's<n>_<base58>_<hex6>' " ++
      "deposit-format wrapper; use the bare base58 (thunder-cli get-new-address) instead")
  else if addr.length < 20 ∨ 40 < addr.length then
    fail ("thunder address base58 length " ++ toString addr.length ++ " out of range")
  else
    match b58Decode addr 64 with
    | none => fail "thunder address base58 decode failed"
    | some bytes =>
      if bytes.length ≠ 20 then
        fail ("thunder address decoded length " ++ toString bytes.length ++ " (expected 20)")
      else .ok bytes

def errorText : Failure → String
  | .error message => message
  | .undefined => ""

/-- Why the address of a username is refused, for the observer and for the miner. -/
def addressError (cfg : Cfg) (addr : Bytes) : Option (String × String) :=
  let named (what : String) : Result Bytes → Option (String × String)
    | .ok _ => none
    | .error failure =>
      let derr := clip 128 (errorText failure)
      some (clip 192 ("invalid " ++ what ++ " address: " ++ derr),
        clip 192 ("invalid " ++ what ++ " address in stratum username: " ++ derr))
  if cfg.usernameIsThunder then named "thunder" (thunderAddressDecode addr)
  else named "payout" (addressToScript addr spkCap)

/-- The worker name and the requested difficulty of an authorize request. -/
def Json.credentials (fp : Fpu) (params : Json) : Option Bytes × WithTop ℚ :=
  let worker := params.items[0]?.bind Json.valuestring
  let request := (params.items[1]?.bind Json.valuestring).bind (parsePasswordDiff fp none)
  (worker, request.getD 0)

/-- The address part of a username. -/
def addressPart (worker : Bytes) : Bytes := worker.takeWhile (· ≠ 46)

/-- The connection once its username is accepted, before anything is sent to it. -/
def Conn.authorize (fp : Fpu) (s : Server) (c : Conn) (env : Env) (worker : Bytes)
    (pwDiff : WithTop ℚ) : Conn :=
  let named := { c with
    payoutAddress := addressPart worker
    workerName := sanitizeWorker worker
    authFailures := 0
    authorized := true
    difficulty := if c.difficulty ≤ 0 then c.polInitialDiff else c.difficulty }
  let req : WithTop ℚ := if 0 < pwDiff then pwDiff else c.requestedMinDiff
  let asked := if 0 < req then applyRequestedDiff fp s.cfg s.jobs named req else named
  { asked.armVardiff env.now with
    difficulty := clampAssignedDifficulty fp s.jobs asked asked.difficulty }

def authorizeWorker (fp : Fpu) (env : Env) (s : Server) (c : Conn) (worker : Bytes)
    (pwDiff : WithTop ℚ) : Outcome :=
  match addressError s.cfg (addressPart worker) with
  | some (reason, message) =>
    authFailed env (refuseObserved s { c with payoutAddress := [] } env worker 24 message reason)
  | none =>
    let ready := c.authorize fp s env worker pwDiff
    let (notified, lines) := sendCurrentNotify fp s.cfg s.jobs ready true
    ⟨authSucceeded s ready env.mono, notified,
      [.accepted, .setDifficulty ready.difficulty] ++ lines, [], false⟩

def handleAuthorize (fp : Fpu) (env : Env) (s : Server) (c : Conn) (params : Json) : Outcome :=
  match authGate s c env.mono with
  | (s, c, .refused message) => ⟨s, c, [.error 24 message], [], true⟩
  | (s, c, .proceed true) =>
    authFailed env (refuse s c 24 "too many mining.authorize calls; slow down")
  | (s, c, .proceed false) =>
    match params.credentials fp with
    | (none, _) => authFailed env (refuse s c 24 "missing worker name")
    | (some worker, pwDiff) =>
      if (addressPart worker).length = 0 ∨ payoutAddressCap ≤ (addressPart worker).length then
        authFailed env (refuseObserved s c env worker 24
          "stratum username must be <bitcoin_address>[.<rig_label>]"
          "stratum username must start with a bitcoin address")
      else if ppsGated s.cfg env then
        refuseObserved s c env worker 24 ppsGatedMsg
          "pps accrual suspended (difficulty below floor)"
      else authorizeWorker fp env s c worker pwDiff

/-- The part of the server that only jobs, subscriptions and hashes change. -/
structure Server.SameWork (s s' : Server) : Prop where
  cfg : s'.cfg = s.cfg
  extranonce1Seq : s'.extranonce1Seq = s.extranonce1Seq
  shareDedupe : s'.shareDedupe = s.shareDedupe
  jobs : s'.jobs = s.jobs

theorem Server.SameWork.refl (s : Server) : s.SameWork s := ⟨rfl, rfl, rfl, rfl⟩

theorem Server.SameWork.trans {s s' s'' : Server} (first : s.SameWork s')
    (second : s'.SameWork s'') : s.SameWork s'' where
  cfg := second.cfg.trans first.cfg
  extranonce1Seq := second.extranonce1Seq.trans first.extranonce1Seq
  shareDedupe := second.shareDedupe.trans first.shareDedupe
  jobs := second.jobs.trans first.jobs

/-- The connections agree on the coinbase: whom it is for, and what is rendered. -/
structure Conn.SameCoinbase (c c' : Conn) : Prop where
  extranonce1 : c'.extranonce1 = c.extranonce1
  payoutAddress : c'.payoutAddress = c.payoutAddress
  cb : c'.cb = c.cb
  cbForJobId : c'.cbForJobId = c.cbForJobId

theorem Conn.SameCoinbase.refl (c : Conn) : c.SameCoinbase c := ⟨rfl, rfl, rfl, rfl⟩

theorem authLockout_sameWork (s : Server) (c : Conn) (mono : UInt64) :
    s.SameWork (authLockout s c mono).1 := by
  rw [authLockout]
  split_ifs
  · exact .refl s
  · split
    next =>
      split_ifs
      · exact ⟨rfl, rfl, rfl, rfl⟩
      · exact ⟨rfl, rfl, rfl, rfl⟩
    next => exact ⟨rfl, rfl, rfl, rfl⟩

theorem authGate_sameWork (s : Server) (c : Conn) (mono : UInt64) :
    s.SameWork (authGate s c mono).1 := by
  rw [authGate]
  split_ifs
  · exact .refl s
  · have kept := authLockout_sameWork s c mono
    split
    next locked => rwa [locked] at kept
    next passed => rwa [passed] at kept

theorem authGate_sameCoinbase (s : Server) (c : Conn) (mono : UInt64) :
    c.SameCoinbase (authGate s c mono).2.1 := by
  rw [authGate]
  split_ifs
  · exact .refl c
  · split
    next => exact .refl c
    next =>
      simp only [Conn.rollAuthWindow]
      split_ifs <;> exact ⟨rfl, rfl, rfl, rfl⟩

theorem authFailed_sameWork (env : Env) (o : Outcome) :
    o.server.SameWork (authFailed env o).server := by
  rw [authFailed]
  split_ifs
  · exact .refl _
  · dsimp only
    split_ifs
    · exact .refl _
    · split
      next => exact ⟨rfl, rfl, rfl, rfl⟩
      next => exact ⟨rfl, rfl, rfl, rfl⟩

theorem authFailed_sameCoinbase (env : Env) (o : Outcome) :
    o.conn.SameCoinbase (authFailed env o).conn := by
  rw [authFailed]
  split_ifs <;> exact ⟨rfl, rfl, rfl, rfl⟩

theorem authSucceeded_sameWork (s : Server) (c : Conn) (mono : UInt64) :
    s.SameWork (authSucceeded s c mono) := by
  rw [authSucceeded]
  split_ifs
  · exact .refl s
  · split
    next => exact ⟨rfl, rfl, rfl, rfl⟩
    next => exact ⟨rfl, rfl, rfl, rfl⟩

theorem applyRequestedDiff_sameCoinbase (fp : Fpu) (cfg : Cfg) (jobs : Jobs) (c : Conn)
    (req : WithTop ℚ) :
    c.SameCoinbase (applyRequestedDiff fp cfg jobs c req) := by
  simp only [applyRequestedDiff]
  split_ifs <;> exact ⟨rfl, rfl, rfl, rfl⟩

theorem vardiffMaybeRetarget_sameCoinbase (fp : Fpu) (cfg : Cfg) (jobs : Jobs) (c : Conn)
    (now : UInt64) :
    c.SameCoinbase (vardiffMaybeRetarget fp cfg jobs c now).1 := by
  simp only [vardiffMaybeRetarget]
  split_ifs <;> exact ⟨rfl, rfl, rfl, rfl⟩

theorem connRecordJobDifficulty_sameCoinbase (c : Conn) (jobId : Bytes) (difficulty : ℚ) :
    c.SameCoinbase (connRecordJobDifficulty c jobId difficulty) := by
  rw [connRecordJobDifficulty]
  split_ifs
  · exact .refl c
  · split
    next => exact ⟨rfl, rfl, rfl, rfl⟩
    next => exact ⟨rfl, rfl, rfl, rfl⟩

theorem applyRequestedDiff_authorized (fp : Fpu) (cfg : Cfg) (jobs : Jobs) (c : Conn)
    (req : WithTop ℚ) :
    (applyRequestedDiff fp cfg jobs c req).authorized = c.authorized := by
  simp only [applyRequestedDiff]
  split_ifs <;> rfl

/-- An accepted username: the address is new, the rendered coinbase is not. -/
structure Conn.Authorized (c c' : Conn) (address : Bytes) : Prop where
  authorized : c'.authorized = true
  payoutAddress : c'.payoutAddress = address
  extranonce1 : c'.extranonce1 = c.extranonce1
  cb : c'.cb = c.cb
  cbForJobId : c'.cbForJobId = c.cbForJobId

theorem Conn.Authorized.of_same {c c' c'' : Conn} (granted : c.Authorized c' address)
    (same : c'.SameCoinbase c'') (kept : c''.authorized = c'.authorized) :
    c.Authorized c'' address where
  authorized := kept.trans granted.authorized
  payoutAddress := same.payoutAddress.trans granted.payoutAddress
  extranonce1 := same.extranonce1.trans granted.extranonce1
  cb := same.cb.trans granted.cb
  cbForJobId := same.cbForJobId.trans granted.cbForJobId

theorem Conn.authorize_spec (fp : Fpu) (s : Server) (c : Conn) (env : Env) (worker : Bytes)
    (pwDiff : WithTop ℚ) :
    c.Authorized (c.authorize fp s env worker pwDiff) (addressPart worker) := by
  unfold Conn.authorize
  extract_lets named req asked
  have granted : c.Authorized named (addressPart worker) := ⟨rfl, rfl, rfl, rfl, rfl⟩
  have still : c.Authorized asked (addressPart worker) := by
    unfold asked
    split_ifs
    · exact granted.of_same (applyRequestedDiff_sameCoinbase ..) (applyRequestedDiff_authorized ..)
    · exact granted
  exact still.of_same ⟨rfl, rfl, rfl, rfl⟩ rfl

/-- The address a request will be authorized for, if it will be. -/
def grantedAddress (fp : Fpu) (env : Env) (s : Server) (c : Conn) (params : Json) : Option Bytes :=
  match authGate s c env.mono with
  | (_, _, .proceed false) =>
    (params.credentials fp).1.bind fun worker =>
      if (addressPart worker).length = 0 ∨ payoutAddressCap ≤ (addressPart worker).length then none
      else if ppsGated s.cfg env then none
      else if (addressError s.cfg (addressPart worker)).isSome then none
      else some (addressPart worker)
  | _ => none

/-- A refused authorize: the address may be gone, what is rendered is not. -/
structure Conn.Denied (c c' : Conn) : Prop where
  payoutAddress : c'.payoutAddress = c.payoutAddress ∨ c'.payoutAddress = []
  extranonce1 : c'.extranonce1 = c.extranonce1
  cb : c'.cb = c.cb
  cbForJobId : c'.cbForJobId = c.cbForJobId

theorem Conn.SameCoinbase.denied {c c' : Conn} (same : c.SameCoinbase c') : c.Denied c' :=
  ⟨.inl same.payoutAddress, same.extranonce1, same.cb, same.cbForJobId⟩

theorem Conn.Denied.of_same {c c' c'' : Conn} (denied : c.Denied c') (same : c'.SameCoinbase c'') :
    c.Denied c'' where
  payoutAddress := denied.payoutAddress.imp same.payoutAddress.trans same.payoutAddress.trans
  extranonce1 := same.extranonce1.trans denied.extranonce1
  cb := same.cb.trans denied.cb
  cbForJobId := same.cbForJobId.trans denied.cbForJobId

theorem Conn.SameCoinbase.trans_denied {c c' c'' : Conn} (same : c.SameCoinbase c')
    (denied : c'.Denied c'') :
    c.Denied c'' where
  payoutAddress := denied.payoutAddress.imp (·.trans same.payoutAddress) id
  extranonce1 := denied.extranonce1.trans same.extranonce1
  cb := denied.cb.trans same.cb
  cbForJobId := denied.cbForJobId.trans same.cbForJobId

theorem Conn.SameCoinbase.trans_authorized {c c' c'' : Conn} (same : c.SameCoinbase c')
    (granted : c'.Authorized c'' address) : c.Authorized c'' address where
  authorized := granted.authorized
  payoutAddress := granted.payoutAddress
  extranonce1 := granted.extranonce1.trans same.extranonce1
  cb := granted.cb.trans same.cb
  cbForJobId := granted.cbForJobId.trans same.cbForJobId

/-- The connections agree on the difficulties: the one assigned, and those of the jobs. -/
structure Conn.SameRing (c c' : Conn) : Prop where
  authorized : c'.authorized = c.authorized
  difficulty : c'.difficulty = c.difficulty
  jobDiffs : c'.jobDiffs = c.jobDiffs
  jobDiffsHead : c'.jobDiffsHead = c.jobDiffsHead

theorem Conn.SameRing.refl (c : Conn) : c.SameRing c := ⟨rfl, rfl, rfl, rfl⟩

theorem Conn.SameRing.trans {c c' c'' : Conn} (first : c.SameRing c') (second : c'.SameRing c'') :
    c.SameRing c'' where
  authorized := second.authorized.trans first.authorized
  difficulty := second.difficulty.trans first.difficulty
  jobDiffs := second.jobDiffs.trans first.jobDiffs
  jobDiffsHead := second.jobDiffsHead.trans first.jobDiffsHead

theorem authGate_sameRing (s : Server) (c : Conn) (mono : UInt64) :
    c.SameRing (authGate s c mono).2.1 := by
  rw [authGate]
  split_ifs
  · exact .refl c
  · split
    next => exact .refl c
    next =>
      simp only [Conn.rollAuthWindow]
      split_ifs <;> exact ⟨rfl, rfl, rfl, rfl⟩

theorem clampAssignedDifficulty_pos (fp : Fpu) (jobs : Jobs) (c : Conn) (diff : ℚ) :
    0 < clampAssignedDifficulty fp jobs c diff := by
  simp only [clampAssignedDifficulty]
  split_ifs <;> first | exact one_pos | exact not_le.mp ‹_›

theorem applyRequestedDiff_jobDiffs (fp : Fpu) (cfg : Cfg) (jobs : Jobs) (c : Conn)
    (req : WithTop ℚ) :
    (applyRequestedDiff fp cfg jobs c req).jobDiffs = c.jobDiffs ∧
      (applyRequestedDiff fp cfg jobs c req).jobDiffsHead = c.jobDiffsHead ∧
      c.difficulty ≤ (applyRequestedDiff fp cfg jobs c req).difficulty := by
  simp only [applyRequestedDiff]
  split_ifs with _ _ below
  · exact ⟨rfl, rfl, le_rfl⟩
  all_goals
    refine ⟨rfl, rfl, ?_⟩
    first | exact le_of_lt ‹_› | exact le_rfl

/-- A connection that was authorized, up to the notify that follows. -/
structure Conn.Assigned (c ready : Conn) : Prop where
  authorized : ready.authorized = true
  difficulty : 0 < ready.difficulty
  jobDiffs : ready.jobDiffs = c.jobDiffs
  jobDiffsHead : ready.jobDiffsHead = c.jobDiffsHead

theorem Conn.authorize_assigned (fp : Fpu) (s : Server) (c : Conn) (env : Env) (worker : Bytes)
    (pwDiff : WithTop ℚ) :
    c.Assigned (c.authorize fp s env worker pwDiff) where
  authorized := (Conn.authorize_spec fp s c env worker pwDiff).authorized
  difficulty := clampAssignedDifficulty_pos ..
  jobDiffs := by
    simp only [Conn.authorize, Conn.armVardiff]
    split_ifs <;> first | exact (applyRequestedDiff_jobDiffs ..).1 | rfl
  jobDiffsHead := by
    simp only [Conn.authorize, Conn.armVardiff]
    split_ifs <;> first | exact (applyRequestedDiff_jobDiffs ..).2.1 | rfl

/-- What mining.authorize comes to: a connection that is told the current job under its
new address, or a refusal. Neither touches the jobs or the duplicate table. -/
structure AuthorizeSpec (fp : Fpu) (env : Env) (s : Server) (c : Conn) (params : Json)
    (o : Outcome) : Prop where
  server : s.SameWork o.server
  uncredited : ∀ share, Observed.share share ∉ o.observed
  conn : (∃ address ready, grantedAddress fp env s c params = some address ∧ address ≠ [] ∧
      c.Authorized ready address ∧ o.conn = (sendCurrentNotify fp s.cfg s.jobs ready true).1) ∨
    (grantedAddress fp env s c params = none ∧ c.Denied o.conn)
  told : (∃ ready, c.Assigned ready ∧ o.conn = (sendCurrentNotify fp s.cfg s.jobs ready true).1 ∧
      o.lines = [.accepted, .setDifficulty ready.difficulty] ++
        (sendCurrentNotify fp s.cfg s.jobs ready true).2) ∨
    (c.SameRing o.conn ∧ ∃ code message, o.lines = [.error code message])

/-- A failed authorize, whatever answer was written. -/
theorem AuthorizeSpec.failed (ungranted : grantedAddress fp env s c params = none)
    (server : s.SameWork o.server)
    (conn : c.Denied o.conn) (uncredited : ∀ share, Observed.share share ∉ o.observed)
    (ring : c.SameRing o.conn) (told : o.lines = [.error code message]) :
    AuthorizeSpec fp env s c params (authFailed env o) where
  server := server.trans (authFailed_sameWork env o)
  uncredited := by
    intro share
    rw [authFailed]
    split_ifs <;> exact uncredited share
  conn := .inr ⟨ungranted, conn.of_same (authFailed_sameCoinbase env o)⟩
  told := by
    rw [authFailed]
    split_ifs
    · exact .inr ⟨ring, code, message, told⟩
    · exact .inr ⟨ring.trans ⟨rfl, rfl, rfl, rfl⟩, code, message, told⟩

theorem handleAuthorize_spec (fp : Fpu) (env : Env) (s : Server) (c : Conn) (params : Json) :
    AuthorizeSpec fp env s c params (handleAuthorize fp env s c params) := by
  have keptServer := authGate_sameWork s c env.mono
  have keptConn := authGate_sameCoinbase s c env.mono
  have keptRing := authGate_sameRing s c env.mono
  have granted := grantedAddress.eq_def fp env s c params
  rw [handleAuthorize]
  cases gate : authGate s c env.mono with
  | mk s' rest =>
    obtain ⟨c', verdict⟩ := rest
    rw [gate] at keptServer keptConn keptRing granted
    dsimp only at keptServer keptConn keptRing granted ⊢
    cases verdict with
    | refused message => exact ⟨keptServer, by simp, .inr
        ⟨granted, keptConn.denied⟩, .inr ⟨keptRing, 24, message, rfl⟩⟩
    | proceed exceeded =>
      cases exceeded with
      | true => exact .failed granted keptServer keptConn.denied (by simp [refuse]) keptRing rfl
      | false =>
        dsimp only at granted ⊢
        cases named : params.credentials fp with
        | mk worker pwDiff =>
          rw [named] at granted
          cases worker with
          | none => exact .failed granted keptServer keptConn.denied (by simp [refuse]) keptRing rfl
          | some worker =>
            dsimp only [Option.bind_some] at granted ⊢
            rw [← keptServer.cfg] at granted
            split_ifs at granted ⊢ with size gated refused
            · exact .failed granted keptServer keptConn.denied (by simp [refuseObserved]) keptRing
                rfl
            · exact ⟨keptServer, by simp [refuseObserved], .inr
                  ⟨granted, keptConn.denied⟩, .inr ⟨keptRing, 24, _, rfl⟩⟩
            · obtain ⟨⟨reason, message⟩, wrong⟩ := Option.isSome_iff_exists.mp refused
              rw [authorizeWorker, wrong]
              exact .failed granted keptServer (keptConn.trans_denied ⟨.inr rfl, rfl, rfl, rfl⟩)
                (by simp [refuseObserved])
                (keptRing.trans ⟨rfl, rfl, rfl, rfl⟩) rfl
            · have fine : addressError s'.cfg (addressPart worker) = none := by simpa using refused
              have ready := Conn.authorize_spec fp s' c' env worker pwDiff
              rw [authorizeWorker, fine]
              have assigned := Conn.authorize_assigned fp s' c' env worker pwDiff
              refine ⟨keptServer.trans (authSucceeded_sameWork s' _ env.mono), by simp, .inl ⟨_, _,
                  granted, ?_,
                keptConn.trans_authorized ready, ?_⟩,
                .inl ⟨_, ⟨assigned.authorized, assigned.difficulty, ?_, ?_⟩, ?_, ?_⟩⟩
              · exact fun empty => size (.inl (by rw [empty]; rfl))
              · rw [keptServer.cfg, keptServer.jobs]
              · exact assigned.jobDiffs.trans keptRing.jobDiffs
              · exact assigned.jobDiffsHead.trans keptRing.jobDiffsHead
              · rw [keptServer.cfg, keptServer.jobs]
              · rw [keptServer.cfg, keptServer.jobs]

end SimplePool.Stratum
