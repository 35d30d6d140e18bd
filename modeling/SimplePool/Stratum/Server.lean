import SimplePool.Lib.Transition
import SimplePool.Stratum.Authorize

/-! The server as a whole: connections come and go, send requests, and are notified
of every job that is published. One handled request, and one published job with its
broadcast, is one step. -/
namespace SimplePool.Stratum
open Transition Wire Coinbase

/-- A line that parsed as a request. -/
structure Request where
  method : Bytes
  hasId : Bool
  params : Json

inductive Method where
  | configure
  | subscribe
  | suggestDifficulty
  | authorize
  | submit
  | unknown
deriving DecidableEq

def methodOf (name : Bytes) : Method :=
  if name = ascii "mining.configure" then .configure
  else if name = ascii "mining.subscribe" then .subscribe
  else if name = ascii "mining.suggest_difficulty" then .suggestDifficulty
  else if name = ascii "mining.authorize" then .authorize
  else if name = ascii "mining.submit" then .submit
  else .unknown

/-- The dispatch of `stratum_handle_message`. -/
def handleMessage (fp : Fpu) (env : Env) (s : Server) (c : Conn) (request : Request) : Outcome :=
  match methodOf request.method with
  | .configure => handleConfigure s c request.params
  | .subscribe => handleSubscribe s c
  | .suggestDifficulty => handleSuggestDifficulty fp s c request.hasId request.params
  | .authorize => handleAuthorize fp env s c request.params
  | .submit => handleSubmit fp env s c request.params
  | .unknown => refuse s c 20 "unknown method"

structure Pool where
  server : Server
  conns : Nat → Option Conn

/-- `stratum_server_start`. The first extranonce1 is the clock's. -/
def Pool.start (cfg : Cfg) (seed : UInt32) : Pool where
  server := ⟨cfg, seed, fun _ => ⟨[], 0, 0, false⟩, .empty, .empty⟩
  conns := fun _ => none

inductive Event where
  | connect (i : Nat) (peerIp : Bytes) (pol : Listener)
  | disconnect (i : Nat)
  | message (i : Nat) (env : Env) (request : Request)
  | setJob (mono : UInt64) (job : Job) (cleanJobs : Bool)

/-- The broadcast of `stratum_server_set_job`, as far as one connection is concerned. -/
def notifyConn (fp : Fpu) (cfg : Cfg) (jobs : Jobs) (cleanJobs : Bool) (c : Conn) : Conn :=
  if c.subscribed && c.authorized then (sendCurrentNotify fp cfg jobs c cleanJobs).1 else c

/-- A handled request, on a connection that closes when the handler says so. -/
def Pool.handled (p : Pool) (i : Nat) (o : Outcome) : Pool where
  server := o.server
  conns := Function.update p.conns i (if o.close then none else some o.conn)

def Pool.step (fp : Fpu) (p : Pool) : Event → Option Pool
  | .connect i peerIp pol =>
    match p.conns i with
    | some _ => none
    | none => some { p with
      conns := Function.update p.conns i (some ((Conn.new p.server.cfg peerIp).applyListener pol)) }
  | .disconnect i => some { p with conns := Function.update p.conns i none }
  | .message i env request =>
    match p.conns i with
    | none => none
    | some c => some (p.handled i (handleMessage fp env p.server c request))
  | .setJob mono job cleanJobs =>
    let jobs := p.server.jobs.publish mono job
    some {
      server := { p.server with jobs := jobs }
      conns := fun i => (p.conns i).map (notifyConn fp p.server.cfg jobs cleanJobs) }

theorem handleSuggestDifficulty_sameCoinbase (fp : Fpu) (s : Server) (c : Conn) (hasId : Bool)
    (params : Json) :
    c.SameCoinbase (handleSuggestDifficulty fp s c hasId params).conn := by
  rw [handleSuggestDifficulty]
  by_cases asked : 0 < (params.items[0]?.bind Json.valuedouble).getD 0
  · rw [if_neg (not_not.mpr asked)]
    exact applyRequestedDiff_sameCoinbase ..
  · rw [if_pos asked]
    exact .refl c

theorem handleConfigure_sameCoinbase (s : Server) (c : Conn) (params : Json) :
    c.SameCoinbase (handleConfigure s c params).conn := by
  simp only [handleConfigure]
  split_ifs <;> exact ⟨rfl, rfl, rfl, rfl⟩

/-- The settings, the jobs and the duplicate table are as they were, and nobody is
credited. -/
structure Server.Kept (s : Server) (o : Outcome) : Prop where
  cfg : o.server.cfg = s.cfg
  jobs : o.server.jobs = s.jobs
  shareDedupe : o.server.shareDedupe = s.shareDedupe
  uncredited : ∀ share, Observed.share share ∉ o.observed

theorem handleMessage_kept (fp : Fpu) (env : Env) (s : Server) (c : Conn) (request : Request)
    (other : methodOf request.method ≠ .submit) : s.Kept (handleMessage fp env s c request) := by
  rw [handleMessage]
  cases called : methodOf request.method with
  | configure =>
    simp only [handleConfigure]
    split_ifs <;> exact ⟨rfl, rfl, rfl, by simp⟩
  | subscribe => exact ⟨rfl, rfl, rfl, by simp [handleSubscribe]⟩
  | suggestDifficulty =>
    simp only [handleSuggestDifficulty]
    split_ifs <;> exact ⟨rfl, rfl, rfl, by simp [refuse]⟩
  | authorize =>
    have spec := handleAuthorize_spec fp env s c request.params
    exact ⟨spec.server.cfg, spec.server.jobs, spec.server.shareDedupe, spec.uncredited⟩
  | submit => contradiction
  | unknown => exact ⟨rfl, rfl, rfl, by simp [refuse]⟩

theorem handleMessage_jobs (fp : Fpu) (env : Env) (s : Server) (c : Conn) (request : Request) :
    (handleMessage fp env s c request).server.cfg = s.cfg ∧
    (handleMessage fp env s c request).server.jobs = s.jobs := by
  by_cases called : methodOf request.method = .submit
  · rw [handleMessage, called]
    rcases handleSubmit_server fp env s c request.params with ⟨w, _, recorded⟩ | ⟨_, same⟩
    · simp only [recorded, Server.recordHash, and_self]
    · simp only [same, and_self]
  · have kept := handleMessage_kept fp env s c request called
    exact ⟨kept.cfg, kept.jobs⟩

/-- A connection found after one slot was written is the one written, or was there. -/
theorem conns_update {conns : Nat → Option Conn} (here : Function.update conns i new j = some c) :
    (j = i ∧ new = some c) ∨ (j ≠ i ∧ conns j = some c) := by
  rw [Function.update_apply] at here
  split_ifs at here with same
  · exact .inl ⟨same, here⟩
  · exact .inr ⟨same, here⟩

/-- Every job in the table has the property. -/
structure Jobs.All (P : Job → Prop) (jobs : Jobs) : Prop where
  current : ∀ j, jobs.current = some j → P j
  recent : ∀ i j, jobs.recent i = some j → P j

theorem Jobs.All.empty (P : Job → Prop) : Jobs.All P .empty where
  current := by simp [Jobs.empty]
  recent := by simp [Jobs.empty]

theorem Jobs.All.publish (all : Jobs.All P jobs) (new : P job) :
    Jobs.All P (jobs.publish mono job) := by
  rw [Jobs.publish]
  cases was : jobs.current with
  | none =>
    refine ⟨?_, all.recent⟩
    intro j same
    obtain rfl := Option.some.inj same
    exact new
  | some retired =>
    constructor
    · intro j same
      obtain rfl := Option.some.inj same
      exact new
    · intro i j kept
      simp only [retireJob, Function.update_apply] at kept
      split_ifs at kept
      · obtain rfl := Option.some.inj kept
        exact all.current retired was
      · obtain ⟨inside, _⟩ := Option.filter_eq_some_iff.mp kept
        exact all.recent i j inside

theorem named_slot (found : named jobId slot = some j) : slot = some j :=
  (Option.filter_eq_some_iff.mp found).1

theorem Jobs.All.find (all : Jobs.All P jobs) (found : findJob jobs jobId = some j) : P j := by
  cases jobId with
  | none => contradiction
  | some jobId =>
    simp only [findJob] at found
    split at found
    next current hit =>
      obtain rfl := Option.some.inj found
      exact all.current _ (named_slot hit)
    next =>
      obtain ⟨i, _, hit⟩ := List.exists_of_findSome?_eq_some found
      exact all.recent i j (named_slot hit)

/-- A solo server on regtest, with every limit off. -/
def soloCfg : Cfg where
  initialDiff := 1
  maxSuggestedDiff := 0
  operatorAddress := none
  feeBps := .free
  coinbaseTag := none
  coinbasePaysPool := false
  usernameIsThunder := false
  coinbasePaysWindow := false
  maxCoinbaseBytes := 0
  payoutFloorSats := 0
  ppsAccrues := false
  ppsRefuseSharesBelowMin := false
  poolBtcAddress := []
  vardiffEnabled := false
  vardiffTargetSpm := 0
  vardiffMin := 0
  vardiffMax := 0
  vardiffWindowSec := 0
  vardiffMinSamples := 0
  vardiffMaxWindowMult := 0
  vardiffIdleStep := 0
  maxSubmitsPerSec := 0
  authMaxFailures := 0
  authFailLockoutSec := 0

def regtestTarget : Bytes32 := ⟨[0x7f, 0xff, 0xff] ++ List.replicate 29 0, by decide⟩

def regtestJob : Job :=
  .new (ascii "1") 0x20000000 zeros32 5000000000 none extranonce1Size extranonce2Size []
    0x207fffff 0x65000000 regtestTarget 1 [] none false 0

def soloEnv : Env := ⟨0, 0, false, fun _ => .ok ()⟩

def soloRequest (method : String) (params : List Bytes) : Request :=
  ⟨ascii method, true, .array (params.map .string)⟩

def soloMessage (method : String) (params : List Bytes) : Event :=
  .message 0 soloEnv (soloRequest method params)

def firstAddress : Bytes := ascii "tb1qw508d6qejxtdg4y5r3zarvary0c5xw7kxpjzsx"

def soloSubmit (nonce : String) : List Bytes :=
  [[], ascii "1", ascii "0000000000000000", ascii "65000000", ascii nonce]

def authorizeOnce : List Event :=
  [.setJob 0 regtestJob true, .connect 0 [] ⟨0, 0, 0, 0, 0⟩, soloMessage "mining.subscribe" [],
    soloMessage "mining.authorize" [firstAddress]]

/-- The pool where the run ends. -/
def soloPool (events : List Event) : Pool :=
  (run (Pool.step .exact) (Pool.start soloCfg 0) events).getD (Pool.start soloCfg 0)

def soloConn (events : List Event) : Conn := ((soloPool events).conns 0).getD (Conn.new soloCfg [])

theorem soloConn_here (there : ((soloPool events).conns 0).isSome) :
    (soloPool events).conns 0 = some (soloConn events) :=
  eq_some_getD there _

theorem soloPool_run (ends : (run (Pool.step .exact) (Pool.start soloCfg 0) events).isSome) :
    run (Pool.step .exact) (Pool.start soloCfg 0) events = some (soloPool events) :=
  eq_some_getD ends _

end SimplePool.Stratum
