import SimplePool.Stratum.Acceptance
import SimplePool.Stratum.Server

/-! A header hash is credited once for as long as its job is found, provided the
server-wide filter still remembers it. The filter holds 16384 hashes and takes in every
hash that is put to it, also those that earn nothing, so that it can be made to forget. -/
namespace SimplePool.Stratum
open Transition Wire Coinbase

/-- A credited hash, with how many hashes the server-wide filter recorded after it. -/
structure CreditedHash where
  jobId : Bytes
  hash : Bytes
  since : Nat
deriving DecidableEq

/-- The pool, and the credited hashes whose jobs have been found ever since. -/
structure CreditLog where
  pool : Pool
  credited : List CreditedHash

def Request.jobId (request : Request) : Bytes :=
  (request.params.submission.bind Submission.jobId).getD []

/-- The credits among the reports of a submit. -/
def creditsOf (jobId : Bytes) (observed : List Observed) : List CreditedHash :=
  observed.filterMap fun
    | .share share => some ⟨jobId, share.hash, 0⟩
    | _ => none

/-- The hashes that a step credits. -/
def creditedNow (fp : Fpu) (p : Pool) : Event → List CreditedHash
  | .message i env request =>
    match p.conns i with
    | none => []
    | some c => creditsOf request.jobId (handleMessage fp env p.server c request).observed
  | _ => []

/-- The server-wide filter took in a hash. -/
def recordedNow (before after : Pool) : Bool :=
  after.server.shareDedupe.recent ≠ before.server.shareDedupe.recent

def CreditLog.step (fp : Fpu) (l : CreditLog) (event : Event) : Option CreditLog :=
  (l.pool.step fp event).map fun pool =>
    let aged := if recordedNow l.pool pool then l.credited.map fun old =>
      { old with since := old.since + 1 } else l.credited
    { pool
      credited := (creditedNow fp l.pool event ++ aged).filter fun old =>
        (findJob pool.server.jobs (some old.jobId)).isSome }

def CreditLog.start (cfg : Cfg) (seed : UInt32) : CreditLog := ⟨Pool.start cfg seed, []⟩

/-- No hash is credited that was credited before and whose job is still found. -/
def CreditedOnce (fp : Fpu) (before : CreditLog) (event : Event) : Prop :=
  ∀ new ∈ creditedNow fp before.pool event, ∀ old ∈ before.credited, new.hash ≠ old.hash

instance (fp : Fpu) (before : CreditLog) (event : Event) :
    Decidable (CreditedOnce fp before event) :=
  inferInstanceAs (Decidable (∀ new ∈ _, ∀ old ∈ _, _))

def Event.submits : Event → Bool
  | .message _ _ request => methodOf request.method = .submit
  | _ => false

/-- When a submit comes, the filter has not taken in 16384 hashes since any of the credited ones. -/
def Remembered (before : CreditLog) (event : Event) : Prop :=
  event.submits = true → ∀ old ∈ before.credited, old.since < shareDedupeRing

instance (before : CreditLog) (event : Event) : Decidable (Remembered before event) :=
  inferInstanceAs (Decidable (_ → ∀ old ∈ _, _))

/-- The place of a credited hash in the filter, while it is there. -/
def Placed (recent : List UInt64) (old : CreditedHash) : Prop :=
  old.since < shareDedupeRing →
    ∃ hash, hexEncode hash = old.hash ∧ recent[old.since]? = some (dedupeKey (fnv1a hash))

/-- Recording a hash moves every other one place on. -/
theorem Placed.record {recent : List UInt64} (placed : Placed recent old) (key : UInt64) :
    Placed ((key :: recent).take shareDedupeRing) { old with since := old.since + 1 } := by
  intro inside
  obtain ⟨hash, same, here⟩ := placed (Nat.lt_of_succ_lt inside)
  refine ⟨hash, same, ?_⟩
  rw [List.getElem?_take_of_lt inside, List.getElem?_cons_succ]
  exact here

/-- What a step does to the filter, and what it credits. -/
inductive FilterStep (recent : List UInt64) (new : List CreditedHash) (later : List UInt64) :
    Prop where
  | kept (same : later = recent) (uncredited : new = [])
  | recorded (hash : Bytes) (unseen : dedupeKey (fnv1a hash) ∉ recent)
      (added : later = (dedupeKey (fnv1a hash) :: recent).take shareDedupeRing)
      (credits : ∀ credit ∈ new, credit.since = 0 ∧ credit.hash = hexEncode hash)

section Steps

variable {fp : Fpu}

theorem mem_creditsOf {new : CreditedHash} : new ∈ creditsOf jobId observed ↔
    ∃ share, Observed.share share ∈ observed ∧ new = ⟨jobId, share.hash, 0⟩ := by
  rw [creditsOf, List.mem_filterMap]
  constructor
  · rintro ⟨report, member, made⟩
    split at made
    next share => exact ⟨share, member, (Option.some.inj made).symm⟩
    next => contradiction
  · rintro ⟨share, member, rfl⟩
    exact ⟨_, member, rfl⟩

theorem creditsOf_eq_nil (uncredited : ∀ share, Observed.share share ∉ observed) (jobId : Bytes) :
    creditsOf jobId observed = [] := by
  rw [List.eq_nil_iff_forall_not_mem]
  intro new member
  obtain ⟨share, inside, _⟩ := mem_creditsOf.mp member
  exact uncredited share inside

theorem recordHash_recent (s : Server) (hash : Bytes) : (s.recordHash hash).shareDedupe.recent =
    (BoundedFifo.checkAndAdd shareDedupeRing s.shareDedupe.recent (dedupeKey (fnv1a hash))).2 :=
  congrArg Prod.snd (s.shareDedupe.checkAndAdd_spec (fnv1a hash))

theorem handleSubmit_filter (fp : Fpu) (env : Env) (s : Server) (c : Conn) (params : Json)
    (jobId : Bytes) :
    FilterStep s.shareDedupe.recent (creditsOf jobId (handleSubmit fp env s c params).observed)
      (handleSubmit fp env s c params).server.shareDedupe.recent := by
  rcases handleSubmit_cases fp env s c params with ⟨w, r, _, rendered, done⟩ | ⟨_, unhashed⟩
  · have recent := recordHash_recent s (w.hash c)
    rw [done]
    rw [BoundedFifo.checkAndAdd] at recent
    rcases submitHash_cases rendered fp env s with
      ⟨seen, out⟩ | ⟨unseen, ⟨_, out⟩ | ⟨verdict, _, out⟩⟩
    · rw [if_pos seen] at recent
      rw [out]
      exact .kept recent (creditsOf_eq_nil (by simp [refuseObserved]) jobId)
    · rw [if_neg unseen] at recent
      rw [out]
      refine .recorded (w.hash c) unseen recent ?_
      rw [creditsOf_eq_nil (by simp [refuseObserved])]
      exact fun _ member => by cases member
    · rw [if_neg unseen] at recent
      rw [out]
      refine .recorded (w.hash c) unseen recent ?_
      intro new member
      obtain ⟨share, inside, rfl⟩ := mem_creditsOf.mp member
      obtain rfl := credit_share.mp inside
      exact ⟨rfl, rfl⟩
  · exact .kept (congrArg (fun s => s.shareDedupe.recent) unhashed.server)
      (creditsOf_eq_nil unhashed.uncredited jobId)

theorem step_filter {p q : Pool} (stepped : p.step fp event = some q) :
    FilterStep p.server.shareDedupe.recent (creditedNow fp p event)
      q.server.shareDedupe.recent := by
  cases event with
  | connect i peerIp pol =>
    rw [Pool.step] at stepped
    split at stepped
    · contradiction
    · obtain rfl := Option.some.inj stepped
      exact .kept rfl rfl
  | disconnect i =>
    obtain rfl := Option.some.inj stepped
    exact .kept rfl rfl
  | setJob mono job cleanJobs =>
    obtain rfl := Option.some.inj stepped
    exact .kept rfl rfl
  | message i env request =>
    rw [Pool.step] at stepped
    split at stepped
    · contradiction
    next c here =>
      obtain rfl := Option.some.inj stepped
      rw [creditedNow, here]
      by_cases called : methodOf request.method = .submit
      · have handled : handleMessage fp env p.server c request =
              handleSubmit fp env p.server c request.params := by
          rw [handleMessage, called]
        dsimp only [Pool.handled]
        rw [handled]
        exact handleSubmit_filter fp env p.server c request.params request.jobId
      · have kept := handleMessage_kept fp env p.server c request called
        exact .kept (congrArg DedupeTable.recent kept.shareDedupe)
          (creditsOf_eq_nil kept.uncredited _)

/-- Only a submit is credited. -/
theorem creditedNow_submits {p : Pool} (member : new ∈ creditedNow fp p event) :
    event.submits = true := by
  cases event with
  | message i env request =>
    rw [creditedNow] at member
    split at member
    · contradiction
    next c here =>
      by_contra other
      rw [Event.submits, decide_eq_true_eq] at other
      obtain ⟨share, inside, _⟩ := mem_creditsOf.mp member
      exact (handleMessage_kept fp env p.server c request other).uncredited share inside
  | connect | disconnect | setJob => contradiction

def CreditLog.Placed (l : CreditLog) : Prop :=
  ∀ old ∈ l.credited, Stratum.Placed l.pool.server.shareDedupe.recent old

theorem creditLog_step {l after : CreditLog} (placed : l.Placed)
    (stepped : l.step fp event = some after) :
    after.Placed ∧ (Remembered l event → CreditedOnce fp l event) := by
  obtain ⟨q, moved, rfl⟩ := Option.map_eq_some_iff.mp stepped
  cases step_filter moved with
  | kept same uncredited =>
    have idle : recordedNow l.pool q = false := by simp [recordedNow, same]
    constructor
    · intro old member
      have inside := (List.mem_filter.mp member).1
      rw [uncredited, idle, List.nil_append] at inside
      rw [same]
      exact placed old inside
    · intro _ new member
      rw [uncredited] at member
      contradiction
  | recorded hash unseen added credits =>
    have newest : dedupeKey (fnv1a hash) ∈ q.server.shareDedupe.recent := by
      rw [added]
      exact List.mem_of_getElem? (i := 0) rfl
    have taken : recordedNow l.pool q = true := by
      rw [recordedNow, decide_eq_true_eq]
      intro same
      exact unseen (same ▸ newest)
    constructor
    · intro old member
      have inside := (List.mem_filter.mp member).1
      rw [taken, if_pos rfl] at inside
      rw [added]
      rcases List.mem_append.mp inside with new | aged
      · -- what is credited now is the newest entry of the filter
        obtain ⟨fresh, same⟩ := credits old new
        exact fun _ => ⟨hash, same.symm, by rw [fresh]; rfl⟩
      · obtain ⟨earlier, known, rfl⟩ := List.mem_map.mp aged
        exact (placed earlier known).record _
    · intro remembered new member old known same
      have recent := remembered (creditedNow_submits member) old known
      obtain ⟨before, named, here⟩ := placed old known recent
      have again : before = hash :=
        hexEncode_injective (named.trans (same.symm.trans (credits new member).2))
      exact unseen (again ▸ List.mem_of_getElem? here)

end Steps

/-- In every run of connects, disconnects, requests and published jobs in which, whenever a
submit comes, the filter has taken in fewer than 16384 hashes after each credited one whose
job is still found, no such hash is credited again. -/
theorem hash_credited_once (fp : Fpu) (cfg : Cfg) (seed : UInt32) (events : List Event)
    (remembered : Along (CreditLog.step fp) (fun before event _ => Remembered before event)
      (.start cfg seed) events) :
    Along (CreditLog.step fp) (fun before event _ => CreditedOnce fp before event)
      (.start cfg seed) events := by
  refine Along.of_invariant ?_ (I := CreditLog.Placed) nofun remembered
  intro before event after placed kept stepped
  obtain ⟨later, once⟩ := creditLog_step placed stepped
  exact ⟨later, once kept⟩

/-- A share is submitted and credited. -/
def creditFirst : List Event :=
  authorizeOnce ++ [soloMessage "mining.submit" (soloSubmit "0000000a")]

/-- It comes again with the digits of its nonce in capitals, which the connection's own filter
takes for another share, and the server-wide one does not. -/
theorem hash_credited_once_capitals :
    (((run (CreditLog.step .exact) (.start soloCfg 0)
      (creditFirst ++ [soloMessage "mining.submit" (soloSubmit "0000000A")])).map
      fun l => l.credited.length) = some 1) ∧
    Along (CreditLog.step .exact) (fun before event _ => CreditedOnce .exact before event)
      (.start soloCfg 0)
      (creditFirst ++ [soloMessage "mining.submit" (soloSubmit "0000000A")]) :=
  ⟨by decide +kernel, hash_credited_once .exact soloCfg 0 _ (by decide +kernel)⟩

end SimplePool.Stratum
