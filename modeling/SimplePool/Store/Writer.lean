import Mathlib.Algebra.BigOperators.Group.List.Basic
import SimplePool.Lib.RingBuffer
import SimplePool.Lib.Transition
import SimplePool.Lib.Wire
import SimplePool.Store.Connection

/-! The event queue of store.c: producers put events into a ring, and one thread takes them
out in batches and writes each batch in a transaction. -/
namespace SimplePool.Store.Writer
open Wire Transition

def workerNameMax : Nat := 128
def addrMax : Nat := 128

/-- What `strncpy` leaves in a cleared buffer of `size` bytes. -/
def copied (size : Nat) (text : Bytes) : Bytes := text.take (size - 1)

structure ShareEvent where
  workerName : Bytes
  payoutAddress : Bytes
  tsMs : UInt64
  difficulty : ℚ
  isBlock : Bool
  hash : Bytes
  deltaSats : Int
  rateUsed : ℚ
deriving DecidableEq

structure RejectEvent where
  workerName : Bytes
  tsMs : UInt64
  reason : Bytes
deriving DecidableEq

structure BlockEvent where
  workerName : Bytes
  payoutAddress : Bytes
  tsMs : UInt64
  height : Int
  hash : Bytes
  rewardSats : Int
  feeSats : Int
  status : BlockStatus
  reason : Bytes
  pplnsWindowDiff : ℚ
deriving DecidableEq

structure CreditEvent where
  workerName : Bytes
  payoutAddress : Bytes
  tsMs : UInt64
  deltaSats : Int
deriving DecidableEq

/-- `event_t`, with the fields that its kind uses. -/
inductive Event where
  | share (event : ShareEvent)
  | reject (event : RejectEvent)
  | block (event : BlockEvent)
  | credit (event : CreditEvent)
deriving DecidableEq

structure WorkerRow where
  id : Nat
  name : Bytes
  firstSeen : UInt64
  lastSeen : UInt64
  payoutAddress : Option Bytes
deriving DecidableEq

/-- `workers`, with its primary key, its UNIQUE name and its AUTOINCREMENT counter. -/
structure WorkerTable where
  rows : List WorkerRow
  seq : Nat
  ids : (rows.map WorkerRow.id).Nodup
  names : (rows.map WorkerRow.name).Nodup
  below : ∀ row ∈ rows, row.id ≤ seq

structure ShareRow where
  workerId : Nat
  ts : UInt64
  difficulty : ℚ
  isBlock : Bool
  blockHash : Option Bytes
  creditedSats : Int
  rateUsed : ℚ
deriving DecidableEq

structure RejectRow where
  workerName : Option Bytes
  ts : UInt64
  reason : Bytes
deriving DecidableEq

structure BlockRow where
  ts : UInt64
  height : Int
  hash : Bytes
  finderId : Option Nat
  finderAddress : Option Bytes
  rewardSats : Option Int
  feeSats : Option Int
  status : BlockStatus
  submitError : Option Bytes
  pplnsWindowDiff : ℚ
deriving DecidableEq

structure CreditRow where
  workerId : Nat
  accruedSats : Int
  lastUpdated : UInt64
deriving DecidableEq

/-- `pps_credits`, one row a worker. -/
structure CreditTable where
  rows : List CreditRow
  keyed : (rows.map CreditRow.workerId).Nodup

structure Tables where
  workers : WorkerTable
  shares : List ShareRow
  rejects : List RejectRow
  blocksFound : List BlockRow
  /-- Whether the unique index on the hash is there. -/
  blockHashIndex : Bool
  ppsCredits : CreditTable

def Tables.empty : Tables where
  workers := ⟨[], 0, by simp, by simp, by simp⟩
  shares := []
  rejects := []
  blocksFound := []
  blockHashIndex := true
  ppsCredits := ⟨[], by simp⟩

/-- An empty text is bound as NULL. -/
def orNull (text : Bytes) : Option Bytes := if text = [] then none else some text

/-- The schema has seconds. -/
def seconds (tsMs : UInt64) : UInt64 := tsMs / 1000

/-- The row a conflicting name is updated to: the address is set once. -/
def WorkerRow.seen (row : WorkerRow) (name address : Bytes) (ts : UInt64) : WorkerRow :=
  if row.name = name then
    { row with lastSeen := ts, payoutAddress := row.payoutAddress.or (orNull address) }
  else row

theorem WorkerRow.seen_id (row : WorkerRow) (name address : Bytes) (ts : UInt64) :
    (row.seen name address ts).id = row.id := by
  rw [WorkerRow.seen]
  split_ifs <;> rfl

theorem WorkerRow.seen_name (row : WorkerRow) (name address : Bytes) (ts : UInt64) :
    (row.seen name address ts).name = row.name := by
  rw [WorkerRow.seen]
  split_ifs <;> rfl

/-- `Q_UPSERT`. A new worker takes the next number of the counter, and a conflict takes none:
SQLite only promises that a new id is above all before it, and may leave some out. -/
def WorkerTable.upsert (t : WorkerTable) (name address : Bytes) (ts : UInt64) : WorkerTable :=
  if known : name ∈ t.rows.map WorkerRow.name then
    { rows := t.rows.map fun row => row.seen name address ts
      seq := t.seq
      ids := by simpa only [List.map_map, Function.comp_def, WorkerRow.seen_id] using t.ids
      names := by simpa only [List.map_map, Function.comp_def, WorkerRow.seen_name] using t.names
      below := by
        intro row member
        obtain ⟨old, inside, rfl⟩ := List.mem_map.mp member
        rw [WorkerRow.seen_id]
        exact t.below old inside }
  else
    { rows := t.rows ++ [⟨t.seq + 1, name, ts, ts, orNull address⟩]
      seq := t.seq + 1
      ids := by
        rw [List.map_append, List.map_singleton, List.nodup_append]
        refine ⟨t.ids, List.nodup_singleton _, ?_⟩
        intro id member other new
        obtain ⟨old, inside, rfl⟩ := List.mem_map.mp member
        obtain rfl := List.mem_singleton.mp new
        exact (Nat.lt_succ_of_le (t.below old inside)).ne
      names := by
        rw [List.map_append, List.map_singleton, List.nodup_append]
        refine ⟨t.names, List.nodup_singleton _, ?_⟩
        intro old member other new same
        obtain rfl := List.mem_singleton.mp new
        exact known (same ▸ member)
      below := by
        intro row member
        rcases List.mem_append.mp member with old | new
        · exact (t.below row old).trans (Nat.le_succ _)
        · obtain rfl := List.mem_singleton.mp new
          exact le_rfl }

def WorkerTable.idOf (t : WorkerTable) (name : Bytes) : Option Nat :=
  (t.rows.find? fun row => row.name = name).map WorkerRow.id

def upsertWorker (name address : Bytes) (tsMs : UInt64) (t : Tables) : Tables :=
  { t with workers := t.workers.upsert name address (seconds tsMs) }

/-- `Q_INS_SHARE`. -/
def insertShare (workerId : Nat) (e : ShareEvent) (t : Tables) : Tables :=
  { t with shares := t.shares ++
      [⟨workerId, seconds e.tsMs, e.difficulty, e.isBlock, orNull e.hash, e.deltaSats, e.rateUsed⟩]
        }

/-- `Q_INS_REJECT`. -/
def insertReject (e : RejectEvent) (t : Tables) : Tables :=
  { t with rejects := t.rejects ++ [⟨orNull e.workerName, seconds e.tsMs, e.reason⟩] }

def positive (sats : Int) : Option Int := if 0 < sats then some sats else none

/-- `Q_INS_BLOCK`: a hash that is there already is ignored. -/
def insertBlock (finder : Option Nat) (e : BlockEvent) (t : Tables) : Tables :=
  if t.blockHashIndex && t.blocksFound.any fun row => row.hash = e.hash then t
  else { t with blocksFound := t.blocksFound ++
      [⟨seconds e.tsMs, e.height, e.hash, finder, orNull e.payoutAddress, positive e.rewardSats,
        positive e.feeSats, e.status, orNull e.reason, e.pplnsWindowDiff⟩] }

def CreditRow.add (row : CreditRow) (workerId : Nat) (sats : Int) (ts : UInt64) : CreditRow :=
  if row.workerId = workerId then
    { row with accruedSats := row.accruedSats + sats, lastUpdated := ts }
  else row

theorem CreditRow.add_workerId (row : CreditRow) (workerId : Nat) (sats : Int) (ts : UInt64) :
    (row.add workerId sats ts).workerId = row.workerId := by
  rw [CreditRow.add]
  split_ifs <;> rfl

/-- `Q_UPSERT_CREDIT`. -/
def CreditTable.upsert (t : CreditTable) (workerId : Nat) (sats : Int) (ts : UInt64) :
    CreditTable :=
  if known : workerId ∈ t.rows.map CreditRow.workerId then
    { rows := t.rows.map fun row => row.add workerId sats ts
      keyed := by
        simpa only [List.map_map, Function.comp_def, CreditRow.add_workerId] using t.keyed }
  else
    { rows := t.rows ++ [⟨workerId, sats, ts⟩]
      keyed := by
        rw [List.map_append, List.map_singleton, List.nodup_append]
        refine ⟨t.keyed, List.nodup_singleton _, ?_⟩
        intro id member other new same
        obtain rfl := List.mem_singleton.mp new
        exact known (same ▸ member) }

def upsertCredit (workerId : Nat) (e : CreditEvent) (t : Tables) : Tables :=
  { t with ppsCredits := t.ppsCredits.upsert workerId e.deltaSats (seconds e.tsMs) }

/-- What is durable, and the open transaction if there is one. -/
structure Session (δ : Type) where
  committed : δ
  working : Option δ

section Session

variable {δ : Type}

/-- What a statement sees. -/
def Session.db (s : Session δ) : δ := s.working.getD s.committed

/-- Outside a transaction a statement commits by itself. -/
def Session.write (s : Session δ) (f : δ → δ) : Session δ :=
  match s.working with
  | none => { s with committed := f s.committed }
  | some db => { s with working := some (f db) }

def Session.rollback (s : Session δ) : Session δ := { s with working := none }

/-- A statement as sqlite answers it. -/
def Session.step (s : Session δ) (f : δ → δ) : Outcome → Session δ
  | .served => s.write f
  | .error => s
  | .rolledBack => s.rollback

end Session

/-- The worker cache uses open addressing without deletion. -/
def workerCacheSlots : Nat := 16384

/-- 32-bit FNV-1a. -/
def nameHash (name : Bytes) : UInt32 :=
  name.foldl (fun h b => (h ^^^ b.toUInt32) * 16777619) 2166136261

def Cache : Type := Nat → Option (Bytes × Nat)

def Cache.empty : Cache := fun _ => none

/-- The first slot of the probe sequence that is unused or has the name. -/
def Cache.probe (cache : Cache) (name : Bytes) (h : Nat) : Nat → Nat → Option Nat
  | 0, _ => none
  | fuel + 1, i =>
    let idx := (h + i) % workerCacheSlots
    match cache idx with
    | none => some idx
    | some (other, _) => if other = name then some idx else cache.probe name h fuel (i + 1)

def Cache.find (cache : Cache) (name : Bytes) : Option Nat :=
  cache.probe name ((nameHash name).toNat % workerCacheSlots) workerCacheSlots 0

def cacheLookup (cache : Cache) (name : Bytes) : Option Nat :=
  (cache.find name).bind fun idx => (cache idx).map Prod.snd

/-- A full cache stays as it is. -/
def cacheInsert (cache : Cache) (name : Bytes) (id : Nat) : Cache :=
  match cache.find name with
  | none => cache
  | some idx => Function.update cache idx (some (name, id))

structure Proc where
  session : Session Tables
  cache : Cache

def Proc.step (p : Proc) (f : Tables → Tables) (outcome : Outcome) : Proc :=
  { p with session := p.session.step f outcome }

/-- The id that the upsert returns, or else the cached one. -/
def resolveWorkerId (outcome : Outcome) (p : Proc) (name address : Bytes) (tsMs : UInt64) :
    Option Nat × Proc :=
  let cached := cacheLookup p.cache name
  let after := p.step (upsertWorker name address tsMs) outcome
  match outcome, after.session.db.workers.idOf name with
  | .served, some id => (some id, if cached.isSome then after
    else { after with cache := cacheInsert after.cache name id })
  | _, _ => (cached, after)

/-- The session after a worker's upsert, whatever the id that is used. -/
theorem resolveWorkerId_session (outcome : Outcome) (p : Proc) (name address : Bytes)
    (tsMs : UInt64) :
    (resolveWorkerId outcome p name address tsMs).2.session =
      p.session.step (upsertWorker name address tsMs) outcome := by
  simp only [resolveWorkerId]
  split
  · split_ifs <;> rfl
  · rfl

/-- The outcomes are those of the worker's upsert and of the insert after it. -/
def processEvent (outcomes : Outcome × Outcome) (p : Proc) : Event → Proc
  | .share e =>
    match resolveWorkerId outcomes.1 p e.workerName e.payoutAddress e.tsMs with
    | (none, p) => p
    | (some workerId, p) => p.step (insertShare workerId e) outcomes.2
  | .reject e => p.step (insertReject e) outcomes.2
  | .block e =>
    if e.workerName = [] then p.step (insertBlock none e) outcomes.2
    else
      let (finder, p) := resolveWorkerId outcomes.1 p e.workerName e.payoutAddress e.tsMs
      p.step (insertBlock finder e) outcomes.2
  | .credit e =>
    match resolveWorkerId outcomes.1 p e.workerName e.payoutAddress e.tsMs with
    | (none, p) => p
    | (some workerId, p) => p.step (upsertCredit workerId e) outcomes.2

/-- How sqlite answers the calls of one attempt to land a batch. -/
structure Attempt where
  begin : Outcome
  /-- For the event at this place in the batch. -/
  steps : Nat → Outcome × Outcome
  commit : Outcome

def processBatch (a : Attempt) : Proc → List Event → Nat → Proc
  | p, [], _ => p
  | p, event :: rest, i => processBatch a (processEvent (a.steps i) p event) rest (i + 1)

/-- One turn of the loop in `commit_batch`. -/
def commitAttempt (a : Attempt) (p : Proc) (batch : List Event) : Bool × Proc :=
  match a.begin with
  | .served =>
    let begun : Proc := { p with session := { p.session with working := some p.session.committed } }
    let p := processBatch a begun batch 0
    match a.commit, p.session.working with
    | .served, some db => (true, { p with session := ⟨db, none⟩ })
    | _, _ => (false, { p with session := p.session.rollback })
  | _ => (false, p)

def storeCommitAttempts : Nat := 3

def commitBatch (attempts : Nat → Attempt) (batch : List Event) : Nat → Proc → Bool × Proc
  | 0, p => (false, p)
  | left + 1, p =>
    let (landed, p) := commitAttempt (attempts (storeCommitAttempts - (left + 1))) p batch
    if landed then (true, p) else commitBatch attempts batch left p

/-- What the thread is doing: waiting for events, holding a batch that has left the ring, or
about to say how far it has come. -/
inductive Phase where
  | idle
  | taken (batch : List Event) (seqAfter : Nat)
  | done (seqAfter : Nat)
deriving DecidableEq

/-- The store. `waiting` has what each caller of `store_flush` waits for, and `accepted` is
everything the ring ever took, in order. -/
structure State (cap : Nat) where
  ring : RingBuffer Event cap
  enqueueSeq : Nat
  committedSeq : Nat
  phase : Phase
  proc : Proc
  eventsLost : Nat
  waiting : List Nat
  accepted : List Event

/-- An event, cleared. -/
def blank : Event := .reject ⟨[], 0, []⟩

def State.open (positive : 0 < cap) (tables : Tables) : State cap where
  ring := .empty positive blank
  enqueueSeq := 0
  committedSeq := 0
  phase := .idle
  proc := ⟨⟨tables, none⟩, .empty⟩
  eventsLost := 0
  waiting := []
  accepted := []

inductive Step where
  | enqueue (event : Event)
  | drain
  | commit (attempts : Nat → Attempt)
  | publish
  | flush
  | flushed (caller : Nat)
  | timedOut (caller : Nat)

/-- `enqueue`. -/
def State.enqueue (s : State cap) (event : Event) : Bool × State cap :=
  match s.ring.push event with
  | none => (false, s)
  | some ring =>
    (true, { s with ring, enqueueSeq := s.enqueueSeq + 1, accepted := s.accepted ++ [event] })

/-- The critical sections of the producers, the writer thread and the callers of
`store_flush`, in any order. -/
def State.step (commitMax : Nat) (s : State cap) : Step → Option (State cap)
  | .enqueue event => some (s.enqueue event).2
  | .drain =>
    match s.phase with
    | .idle =>
      if s.ring.count = 0 then none
      else
        let (batch, ring) := s.ring.drain commitMax
        some { s with ring, phase := .taken batch (s.enqueueSeq - ring.count) }
    | _ => none
  | .commit attempts =>
    match s.phase with
    | .taken batch seqAfter =>
      let (landed, proc) := commitBatch attempts batch storeCommitAttempts s.proc
      some { s with
        proc
        phase := .done seqAfter
        eventsLost := if landed then s.eventsLost else s.eventsLost + batch.length }
    | _ => none
  | .publish =>
    match s.phase with
    | .done seqAfter => some { s with phase := .idle, committedSeq := seqAfter }
    | _ => none
  | .flush => some { s with waiting := s.waiting ++ [s.enqueueSeq] }
  | .flushed caller =>
    match s.waiting[caller]? with
    | some target =>
      if target ≤ s.committedSeq then some { s with waiting := s.waiting.eraseIdx caller } else none
    | none => none
  | .timedOut caller =>
    match s.waiting[caller]? with
    | some _ => some { s with waiting := s.waiting.eraseIdx caller }
    | none => none

/-- The whole effect of an event. -/
def applyEvent (t : Tables) : Event → Tables
  | .share e =>
    let t := upsertWorker e.workerName e.payoutAddress e.tsMs t
    match t.workers.idOf e.workerName with
    | some workerId => insertShare workerId e t
    | none => t
  | .reject e => insertReject e t
  | .block e =>
    if e.workerName = [] then insertBlock none e t
    else
      let t := upsertWorker e.workerName e.payoutAddress e.tsMs t
      insertBlock (t.workers.idOf e.workerName) e t
  | .credit e =>
    let t := upsertWorker e.workerName e.payoutAddress e.tsMs t
    match t.workers.idOf e.workerName with
    | some workerId => upsertCredit workerId e t
    | none => t

theorem WorkerTable.idOf_upsert (t : WorkerTable) (name address : Bytes) (ts : UInt64) :
    ∃ id, (t.upsert name address ts).idOf name = some id := by
  suffices found : ((t.upsert name address ts).rows.find? fun row => row.name = name).isSome by
    obtain ⟨row, here⟩ := Option.isSome_iff_exists.mp found
    exact ⟨row.id, by rw [WorkerTable.idOf, here]; rfl⟩
  rw [List.find?_isSome]
  rw [WorkerTable.upsert]
  split
  next known =>
    obtain ⟨row, member, named⟩ := List.mem_map.mp known
    exact ⟨row.seen name address ts,
      List.mem_map_of_mem member, by simp [WorkerRow.seen_name, named]⟩
  next => exact ⟨_, List.mem_append_right _ (List.mem_singleton_self _), by simp⟩

/-- With a transaction open and the upsert served, the worker is the one in the table. -/
theorem resolveWorkerId_served {p : Proc} (opened : p.session.working = some t)
    (name address : Bytes) (tsMs : UInt64) :
    ∃ cache, resolveWorkerId .served p name address tsMs =
      ((upsertWorker name address tsMs t).workers.idOf name,
      ⟨⟨p.session.committed, some (upsertWorker name address tsMs t)⟩, cache⟩) := by
  have written : p.session.step (upsertWorker name address tsMs) .served =
      ⟨p.session.committed, some (upsertWorker name address tsMs t)⟩ := by
    rw [Session.step, Session.write, opened]
  obtain ⟨id, found⟩ := t.workers.idOf_upsert name address (seconds tsMs)
  have returned : (upsertWorker name address tsMs t).workers.idOf name = some id := found
  simp only [resolveWorkerId, Proc.step, written, Session.db, Option.getD_some, returned]
  split_ifs
  · exact ⟨_, rfl⟩
  · exact ⟨_, rfl⟩

end SimplePool.Store.Writer
