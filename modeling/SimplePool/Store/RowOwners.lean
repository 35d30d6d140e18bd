import SimplePool.Store.Writer

/-! Whose rows the writer writes. A share or a credit is written under the id that the upsert
of its worker returns, and under the cached id when the upsert fails. The cache remembers ids
from transactions that were rolled back, which the table then gives to other workers. -/
namespace SimplePool.Store.Writer
open Wire Transition

/-- The name of the event that a row of shares or pps_credits was written for. -/
structure Attribution where
  workerId : Nat
  name : Bytes
deriving DecidableEq

structure Traced where
  proc : Proc
  notes : Session (List Attribution)

/-- A statement, and what it adds to the notes. -/
def Traced.step (t : Traced) (f : Tables → Tables) (new : List Attribution) (outcome : Outcome) :
    Traced :=
  ⟨t.proc.step f outcome, t.notes.step (· ++ new) outcome⟩

/-- The worker's upsert, which adds nothing. -/
def Traced.resolve (outcome : Outcome) (t : Traced) (name address : Bytes) (tsMs : UInt64) :
    Option Nat × Traced :=
  let (workerId, p) := resolveWorkerId outcome t.proc name address tsMs
  (workerId, ⟨p, t.notes.step id outcome⟩)

/-- A row under the worker's id, if there is one. -/
def Traced.under (outcomes : Outcome × Outcome) (t : Traced) (name address : Bytes) (tsMs : UInt64)
    (insert : Nat → Tables → Tables) : Traced :=
  match t.resolve outcomes.1 name address tsMs with
  | (none, t) => t
  | (some workerId, t) => t.step (insert workerId) [⟨workerId, name⟩] outcomes.2

def Traced.event (outcomes : Outcome × Outcome) (t : Traced) : Event → Traced
  | .share e =>
    t.under outcomes e.workerName e.payoutAddress e.tsMs fun workerId => insertShare workerId e
  | .reject e => t.step (insertReject e) [] outcomes.2
  | .block e =>
    if e.workerName = [] then t.step (insertBlock none e) [] outcomes.2
    else
      let (finder, t) := t.resolve outcomes.1 e.workerName e.payoutAddress e.tsMs
      t.step (insertBlock finder e) [] outcomes.2
  | .credit e =>
    t.under outcomes e.workerName e.payoutAddress e.tsMs fun workerId => upsertCredit workerId e

def Traced.batch (a : Attempt) : Traced → List Event → Nat → Traced
  | t, [], _ => t
  | t, event :: rest, i => Traced.batch a (t.event (a.steps i) event) rest (i + 1)

def Traced.begin (t : Traced) : Traced :=
  ⟨{ t.proc with session := { t.proc.session with working := some t.proc.session.committed } },
    { t.notes with working := some t.notes.committed }⟩

def Traced.attempt (a : Attempt) (t : Traced) (batch : List Event) : Bool × Traced :=
  match a.begin with
  | .served =>
    let t := Traced.batch a t.begin batch 0
    match a.commit, t.proc.session.working with
    | .served, some db => (true, ⟨{ t.proc with session := ⟨db, none⟩ }, ⟨t.notes.db, none⟩⟩)
    | _, _ => (false, ⟨{ t.proc with session := t.proc.session.rollback }, t.notes.rollback⟩)
  | _ => (false, t)

def Traced.commit (attempts : Nat → Attempt) (batch : List Event) : Nat → Traced → Bool × Traced
  | 0, t => (false, t)
  | left + 1, t =>
    let (landed, t) := t.attempt (attempts (storeCommitAttempts - (left + 1))) batch
    if landed then (true, t) else Traced.commit attempts batch left t

theorem Traced.event_proc (outcomes : Outcome × Outcome) (t : Traced) (event : Event) :
    (t.event outcomes event).proc = processEvent outcomes t.proc event := by
  cases event with
  | share e =>
    simp only [Traced.event, Traced.under, Traced.resolve, processEvent]
    cases resolveWorkerId outcomes.1 t.proc e.workerName e.payoutAddress e.tsMs with
    | mk id p => cases id <;> rfl
  | reject e => rfl
  | block e =>
    simp only [Traced.event, Traced.resolve, processEvent]
    split_ifs <;> rfl
  | credit e =>
    simp only [Traced.event, Traced.under, Traced.resolve, processEvent]
    cases resolveWorkerId outcomes.1 t.proc e.workerName e.payoutAddress e.tsMs with
    | mk id p => cases id <;> rfl

theorem Traced.batch_proc (a : Attempt) (t : Traced) (batch : List Event) (i : Nat) :
    (Traced.batch a t batch i).proc = processBatch a t.proc batch i := by
  induction batch generalizing t i with
  | nil => rfl
  | cons event rest ih => rw [Traced.batch, ih, Traced.event_proc, processBatch]

theorem Traced.attempt_proc (a : Attempt) (t : Traced) (batch : List Event) :
    ((t.attempt a batch).1, (t.attempt a batch).2.proc) = commitAttempt a t.proc batch := by
  have through := Traced.batch_proc a t.begin batch 0
  rw [Traced.attempt, commitAttempt]
  cases a.begin with
  | served =>
    simp only [Traced.begin] at through
    dsimp only [Traced.begin]
    rw [← through]
    split
    · simp_all
    · simp_all
  | error => rfl
  | rolledBack => rfl

theorem Traced.commit_proc (attempts : Nat → Attempt) (batch : List Event) (left : Nat)
    (t : Traced) :
    ((Traced.commit attempts batch left t).1, (Traced.commit attempts batch left t).2.proc) =
      commitBatch attempts batch left t.proc := by
  induction left generalizing t with
  | zero => rfl
  | succ left ih =>
    have through := Traced.attempt_proc (attempts (storeCommitAttempts - (left + 1))) t batch
    rw [Traced.commit, commitBatch, ← through]
    dsimp only
    split_ifs
    · rfl
    · exact ih _

/-- The store with its notes. -/
structure TracedState (cap : Nat) where
  state : State cap
  notes : Session (List Attribution)

def TracedState.open (positive : 0 < cap) (tables : Tables) : TracedState cap :=
  ⟨.open positive tables, ⟨[], none⟩⟩

def TracedState.step (commitMax : Nat) (s : TracedState cap) (e : Step) :
    Option (TracedState cap) :=
  (s.state.step commitMax e).map fun state =>
    ⟨state, match e, s.state.phase with
      | .commit attempts, .taken batch _ =>
        (Traced.commit attempts batch storeCommitAttempts ⟨s.state.proc, s.notes⟩).2.notes
      | _, _ => s.notes⟩

/-- The workers row under the id has the name. -/
def Names (tables : Tables) (a : Attribution) : Prop :=
  ∃ row ∈ tables.workers.rows, row.id = a.workerId ∧ row.name = a.name

def NamesAll (tables : Tables) (notes : List Attribution) : Prop := ∀ a ∈ notes, Names tables a

/-- Every row that was written for an event belongs to the worker the event names. -/
structure Traced.Owned (t : Traced) : Prop where
  committed : NamesAll t.proc.session.committed t.notes.committed
  working : Option.Rel NamesAll t.proc.session.working t.notes.working

/-- The upsert of a worker fails, and the cache has an id for it that is not the table's. -/
def Misled (outcome : Outcome) (p : Proc) (name : Bytes) : Prop :=
  outcome ≠ .served ∧
    ∃ workerId ∈ cacheLookup p.cache name,
      (p.session.step id outcome).db.workers.idOf name ≠ some workerId

/-- The event of a share or a credit does not mislead the writer. -/
def EventLed (outcome : Outcome) (p : Proc) : Event → Prop
  | .share e => ¬Misled outcome p e.workerName
  | .credit e => ¬Misled outcome p e.workerName
  | _ => True

def BatchLed (a : Attempt) : Proc → List Event → Nat → Prop
  | _, [], _ => True
  | p, event :: rest, i =>
    EventLed (a.steps i).1 p event ∧ BatchLed a (processEvent (a.steps i) p event) rest (i + 1)

def Proc.begin (p : Proc) : Proc :=
  { p with session := { p.session with working := some p.session.committed } }

def CommitLed (attempts : Nat → Attempt) (batch : List Event) : Nat → Proc → Prop
  | 0, _ => True
  | left + 1, p =>
    let a := attempts (storeCommitAttempts - (left + 1))
    (a.begin = .served → BatchLed a p.begin batch 0) ∧
      ((commitAttempt a p batch).1 = false →
        CommitLed attempts batch left (commitAttempt a p batch).2)

/-- Nothing that the step writes is misled. -/
def Led (s : State cap) : Step → Prop
  | .commit attempts =>
    match s.phase with
    | .taken batch _ => CommitLed attempts batch storeCommitAttempts s.proc
    | _ => True
  | _ => True

theorem WorkerTable.mem_upsert {t : WorkerTable} (name address : Bytes) (ts : UInt64)
    {row : WorkerRow} (member : row ∈ t.rows) :
    ∃ later ∈ (t.upsert name address ts).rows, later.id = row.id ∧ later.name = row.name := by
  rw [WorkerTable.upsert]
  split
  next => exact ⟨_, List.mem_map_of_mem member, WorkerRow.seen_id .., WorkerRow.seen_name ..⟩
  next => exact ⟨row, List.mem_append_left _ member, rfl, rfl⟩

theorem NamesAll.upsertWorker {tables : Tables} (names : NamesAll tables notes)
    (name address : Bytes) (tsMs : UInt64) :
    NamesAll (upsertWorker name address tsMs tables) notes := by
  intro a member
  obtain ⟨row, inside, same, named⟩ := names a member
  obtain ⟨later, there, kept, called⟩ :=
    tables.workers.mem_upsert name address (seconds tsMs) inside
  exact ⟨later, there, kept.trans same, called.trans named⟩

theorem NamesAll.add {tables : Tables} (names : NamesAll tables notes)
    (new : NamesAll tables more) :
    NamesAll tables (notes ++ more) := by
  intro a member
  rcases List.mem_append.mp member with old | added
  · exact names a old
  · exact new a added

/-- A statement that keeps to the names keeps them, whatever comes of it. -/
theorem Traced.Owned.step {t : Traced} (owned : t.Owned) {f : Tables → Tables}
    {g : List Attribution → List Attribution}
    (keeps : NamesAll t.proc.session.db t.notes.db → NamesAll (f t.proc.session.db) (g t.notes.db))
    (outcome : Outcome) :
    Traced.Owned ⟨t.proc.step f outcome, t.notes.step g outcome⟩ := by
  obtain ⟨⟨⟨tables, open'⟩, cache⟩, ⟨notes, openNotes⟩⟩ := t
  obtain ⟨committed, working⟩ := owned
  cases outcome with
  | served =>
    cases working with
    | none => exact ⟨keeps committed, .none⟩
    | some names => exact ⟨committed, .some (keeps names)⟩
  | error => exact ⟨committed, working⟩
  | rolledBack => exact ⟨committed, .none⟩

/-- The tables and the notes that a statement sees agree. -/
theorem Traced.Owned.db {t : Traced} (owned : t.Owned) : NamesAll t.proc.session.db t.notes.db := by
  obtain ⟨⟨⟨tables, open'⟩, cache⟩, ⟨notes, openNotes⟩⟩ := t
  obtain ⟨committed, working⟩ := owned
  cases working with
  | none => exact committed
  | some names => exact names

theorem WorkerTable.idOf_names {tables : Tables}
    (found : tables.workers.idOf name = some workerId) :
    Names tables ⟨workerId, name⟩ := by
  obtain ⟨row, here, rfl⟩ := Option.map_eq_some_iff.mp found
  exact ⟨row, List.mem_of_find?_eq_some here, rfl, by simpa using List.find?_some here⟩

theorem Session.step_served_db (s : Session δ) (f : δ → δ) : (s.step f .served).db = f s.db := by
  obtain ⟨committed, working⟩ := s
  cases working <;> rfl

/-- A statement that fails is as good as any other that fails. -/
theorem Session.step_failed (s : Session δ) (f g : δ → δ) (failed : outcome ≠ .served) :
    s.step f outcome = s.step g outcome := by
  cases outcome with
  | served => contradiction
  | error => rfl
  | rolledBack => rfl

/-- Not misled, the writer uses an id that has the name. -/
theorem resolveWorkerId_names {outcome : Outcome} {p : Proc} (led : ¬Misled outcome p name)
    (resolved : resolveWorkerId outcome p name address tsMs = (some workerId, after)) :
    Names after.session.db ⟨workerId, name⟩ := by
  have session := resolveWorkerId_session outcome p name address tsMs
  rw [resolved] at session
  dsimp only at session
  rw [session]
  by_cases served : outcome = .served
  · subst served
    obtain ⟨returned, found⟩ := p.session.db.workers.idOf_upsert name address (seconds tsMs)
    have there : (p.session.step (upsertWorker name address tsMs) .served).db.workers.idOf name =
          some returned := by
      rw [Session.step_served_db]
      exact found
    simp only [resolveWorkerId, Proc.step, there] at resolved
    obtain rfl := Option.some.inj (Prod.mk.inj resolved).1
    exact WorkerTable.idOf_names there
  · have cached : cacheLookup p.cache name = some workerId := by
      cases outcome with
      | served => contradiction
      | error => exact (Prod.mk.inj resolved).1
      | rolledBack => exact (Prod.mk.inj resolved).1
    rw [Session.step_failed p.session (upsertWorker name address tsMs) id served]
    apply WorkerTable.idOf_names
    by_contra differs
    exact led ⟨served, workerId, cached, differs⟩

theorem Traced.Owned.resolve {t : Traced} (owned : t.Owned) (outcome : Outcome)
    (name address : Bytes) (tsMs : UInt64) :
    (t.resolve outcome name address tsMs).2.Owned := by
  have session := resolveWorkerId_session outcome t.proc name address tsMs
  have kept := owned.step (f := upsertWorker name address tsMs) (g := id)
    (fun names => names.upsertWorker name address tsMs) outcome
  obtain ⟨committed, working⟩ := kept
  refine ⟨?_, ?_⟩
  · dsimp only [Traced.resolve]
    rw [session]
    exact committed
  · dsimp only [Traced.resolve]
    rw [session]
    exact working

/-- A row that is written under an id with its event's name. -/
theorem Traced.Owned.write {t : Traced} (owned : t.Owned) {f : Tables → Tables}
    {new : List Attribution} (workers : ∀ tables, (f tables).workers = tables.workers)
    (named : NamesAll t.proc.session.db new) (outcome : Outcome) :
    (t.step f new outcome).Owned := by
  apply owned.step
  intro names a member
  obtain ⟨row, inside, same⟩ := (names.add named) a member
  exact ⟨row, (workers t.proc.session.db).symm ▸ inside, same⟩

theorem namesAll_nil (tables : Tables) : NamesAll tables [] := fun _ member => nomatch member

theorem insertBlock_workers (finder : Option Nat) (e : BlockEvent) (tables : Tables) :
    (insertBlock finder e tables).workers = tables.workers := by
  rw [insertBlock]
  split_ifs <;> rfl

theorem Traced.Owned.under {t : Traced} (owned : t.Owned) {outcomes : Outcome × Outcome}
    {name : Bytes} (led : ¬Misled outcomes.1 t.proc name) (address : Bytes) (tsMs : UInt64)
    {insert : Nat → Tables → Tables}
    (workers : ∀ workerId tables, (insert workerId tables).workers = tables.workers) :
    (t.under outcomes name address tsMs insert).Owned := by
  have kept := owned.resolve outcomes.1 name address tsMs
  simp only [Traced.under]
  simp only [Traced.resolve] at kept ⊢
  cases resolved : resolveWorkerId outcomes.1 t.proc name address tsMs with
  | mk workerId after =>
    rw [resolved] at kept
    cases workerId with
    | none => exact kept
    | some workerId =>
      exact kept.write (workers workerId)
        (List.forall_mem_singleton.mpr (resolveWorkerId_names led resolved)) outcomes.2

theorem Traced.Owned.event {t : Traced} (owned : t.Owned) {outcomes : Outcome × Outcome}
    {event : Event} (led : EventLed outcomes.1 t.proc event) : (t.event outcomes event).Owned := by
  cases event with
  | share e => exact owned.under led e.payoutAddress e.tsMs fun _ _ => rfl
  | reject e => exact owned.write (f := insertReject e) (fun _ => rfl) (namesAll_nil _) outcomes.2
  | block e =>
    simp only [Traced.event]
    split_ifs
    · exact owned.write (insertBlock_workers none e) (namesAll_nil _) outcomes.2
    · exact (owned.resolve outcomes.1 e.workerName e.payoutAddress e.tsMs).write
        (insertBlock_workers _ e) (namesAll_nil _) outcomes.2
  | credit e => exact owned.under led e.payoutAddress e.tsMs fun _ _ => rfl

theorem Traced.Owned.batch {t : Traced} (owned : t.Owned) {batch : List Event}
    (led : BatchLed a t.proc batch i) :
    (Traced.batch a t batch i).Owned := by
  induction batch generalizing t i with
  | nil => exact owned
  | cons event rest ih =>
    obtain ⟨here, later⟩ := led
    rw [← Traced.event_proc] at later
    exact ih (owned.event here) later

theorem Traced.Owned.begin {t : Traced} (owned : t.Owned) : t.begin.Owned :=
  ⟨owned.committed, .some owned.committed⟩

theorem Traced.Owned.attempt {t : Traced} (owned : t.Owned) {a : Attempt} {batch : List Event}
    (led : a.begin = .served → BatchLed a t.proc.begin batch 0) :
    (t.attempt a batch).2.Owned := by
  rw [Traced.attempt]
  cases begun : a.begin with
  | served =>
    have through := owned.begin.batch (led begun)
    dsimp only
    split
    next db working =>
      have names := through.db
      rw [Session.db, working] at names
      exact ⟨names, .none⟩
    next => exact ⟨through.committed, .none⟩
  | error => exact owned
  | rolledBack => exact owned

theorem Traced.Owned.commit {t : Traced} (owned : t.Owned) {batch : List Event}
    (led : CommitLed attempts batch left t.proc) :
    (Traced.commit attempts batch left t).2.Owned := by
  induction left generalizing t with
  | zero => exact owned
  | succ left ih =>
    obtain ⟨here, later⟩ := led
    have through := Traced.attempt_proc (attempts (storeCommitAttempts - (left + 1))) t batch
    rw [← through] at later
    rw [Traced.commit]
    dsimp only at later ⊢
    split_ifs with landed
    · exact owned.attempt here
    · exact ih (owned.attempt here) (later (Bool.eq_false_iff.mpr landed))

/-- Only a commit runs statements. -/
theorem State.step_proc {s after : State cap} (stepped : s.step commitMax e = some after)
    (other : ∀ attempts, e ≠ .commit attempts) : after.proc = s.proc := by
  cases e with
  | enqueue event =>
    obtain rfl := Option.some.inj stepped
    rw [State.enqueue]
    split <;> rfl
  | drain =>
    rw [State.step] at stepped
    split at stepped
    next =>
      split_ifs at stepped
      obtain rfl := Option.some.inj stepped
      rfl
    next => contradiction
  | commit attempts => exact absurd rfl (other attempts)
  | publish =>
    rw [State.step] at stepped
    split at stepped
    next =>
      obtain rfl := Option.some.inj stepped
      rfl
    next => contradiction
  | flush =>
    obtain rfl := Option.some.inj stepped
    rfl
  | flushed caller =>
    rw [State.step] at stepped
    split at stepped
    next =>
      split_ifs at stepped
      obtain rfl := Option.some.inj stepped
      rfl
    next => contradiction
  | timedOut caller =>
    rw [State.step] at stepped
    split at stepped
    next =>
      obtain rfl := Option.some.inj stepped
      rfl
    next => contradiction

def TracedState.traced (s : TracedState cap) : Traced := ⟨s.state.proc, s.notes⟩

theorem TracedState.step_owned {s after : TracedState cap} (owned : s.traced.Owned)
    (led : Led s.state e) (stepped : s.step commitMax e = some after) : after.traced.Owned := by
  obtain ⟨state, taken, rfl⟩ := Option.map_eq_some_iff.mp stepped
  cases e with
  | commit attempts =>
    rw [State.step] at taken
    rw [Led] at led
    cases phase : s.state.phase with
    | taken batch seqAfter =>
      rw [phase] at taken led
      have through := Traced.commit_proc attempts batch storeCommitAttempts s.traced
      have kept := owned.commit led
      cases ran : commitBatch attempts batch storeCommitAttempts s.state.proc with
      | mk landed proc =>
        simp only [ran, Option.some.injEq] at taken
        subst taken
        have same : (Traced.commit attempts batch storeCommitAttempts s.traced).2.proc = proc :=
          (Prod.mk.inj (through.trans ran)).2
        rw [TracedState.traced]
        simp only [← same]
        exact kept
    | idle => rw [phase] at taken; contradiction
    | done seqAfter => rw [phase] at taken; contradiction
  | enqueue | drain | publish | flush | flushed | timedOut =>
    have same := State.step_proc taken nofun
    dsimp only [TracedState.traced]
    rw [same]
    exact owned

/-- In every run of the store in which no failing upsert leads the writer to a cached id that
the table has under another name or under none, every row of shares and pps_credits that is
durable belongs to the worker that its event named. -/
theorem rows_belong_to_named (positive : 0 < cap) (tables : Tables) (commitMax : Nat)
    (steps : List Step)
    (led : Along (TracedState.step commitMax) (fun s e _ => Led s.state e) (.open positive tables)
      steps) :
    Along (TracedState.step commitMax)
      (fun _ _ after => NamesAll after.state.proc.session.committed after.notes.committed)
      (TracedState.open positive tables) steps := by
  refine Along.of_invariant (I := fun s : TracedState cap => s.traced.Owned) ?_
    ⟨namesAll_nil _, .none⟩ led
  intro s e after owned led stepped
  have later := TracedState.step_owned owned led stepped
  exact ⟨later, later.committed⟩

def shareOf (name : Bytes) : Event := .share ⟨name, [], 0, 1, false, [], 0, 0⟩

def landing : Attempt := ⟨.served, fun _ => (.served, .served), .served⟩

/-- Everything is served but the COMMIT. -/
def dropping : Attempt := { landing with commit := .error }

/-- The first worker's upsert fails, and its share lands. -/
def fallingBack : Attempt := { landing with steps := fun _ => (.error, .served) }

/-- A share of the worker is queued, taken and committed. -/
def handOver (name : Bytes) (attempt : Attempt) : List Step :=
  [.enqueue (shareOf name), .drain, .commit fun _ => attempt, .publish]

def smallStore : TracedState 4 := .open (by decide) .empty

/-- The workers with their ids, and the notes. -/
def TracedState.sees (s : TracedState 4) : List (Nat × Bytes) × List Attribution :=
  (s.state.proc.session.committed.workers.rows.map fun row => (row.id, row.name), s.notes.committed)

instance (outcome : Outcome) (p : Proc) (name : Bytes) : Decidable (Misled outcome p name) :=
  inferInstanceAs (Decidable (_ ∧ _))

instance (outcome : Outcome) (p : Proc) : (event : Event) → Decidable (EventLed outcome p event)
  | .share _ => inferInstanceAs (Decidable (¬_))
  | .reject _ => .isTrue trivial
  | .block _ => .isTrue trivial
  | .credit _ => inferInstanceAs (Decidable (¬_))

def decidableBatchLed (a : Attempt) :
    (p : Proc) → (batch : List Event) → (i : Nat) → Decidable (BatchLed a p batch i)
  | _, [], _ => .isTrue trivial
  | p, event :: rest, i =>
    have := decidableBatchLed a (processEvent (a.steps i) p event) rest (i + 1)
    inferInstanceAs (Decidable (_ ∧ _))

def decidableCommitLed (attempts : Nat → Attempt) (batch : List Event) :
    (left : Nat) → (p : Proc) → Decidable (CommitLed attempts batch left p)
  | 0, _ => .isTrue trivial
  | left + 1, p =>
    let a := attempts (storeCommitAttempts - (left + 1))
    have := decidableBatchLed a p.begin batch 0
    have := decidableCommitLed attempts batch left (commitAttempt a p batch).2
    inferInstanceAs (Decidable ((_ → _) ∧ (_ → _)))

instance (s : State cap) : (e : Step) → Decidable (Led s e)
  | .commit attempts =>
    match h : s.phase with
    | .taken batch _ =>
      have := decidableCommitLed attempts batch storeCommitAttempts s.proc
      decidable_of_iff (CommitLed attempts batch storeCommitAttempts s.proc) (by rw [Led, h])
    | .idle => .isTrue (by rw [Led, h]; trivial)
    | .done _ => .isTrue (by rw [Led, h]; trivial)
  | .enqueue _ => .isTrue trivial
  | .drain => .isTrue trivial
  | .publish => .isTrue trivial
  | .flush => .isTrue trivial
  | .flushed _ => .isTrue trivial
  | .timedOut _ => .isTrue trivial

/-- The first worker's upsert fails while its cached id is the table's. -/
def fallsBackRightly : List Step :=
  handOver [97] landing ++ handOver [98] landing ++ handOver [97] fallingBack

theorem rows_belong_falling_back :
    ((run (TracedState.step 10) smallStore fallsBackRightly).map TracedState.sees =
      some ([(1, [97]), (2, [98])], [⟨1, [97]⟩, ⟨2, [98]⟩, ⟨1, [97]⟩])) ∧
    Along (TracedState.step 10) (fun _ _ after =>
      NamesAll after.state.proc.session.committed after.notes.committed) smallStore
      fallsBackRightly := by
  have facts : (run (TracedState.step 10) smallStore fallsBackRightly).map TracedState.sees =
      some ([(1, [97]), (2, [98])], [⟨1, [97]⟩, ⟨2, [98]⟩, ⟨1, [97]⟩]) ∧
      Along (TracedState.step 10) (fun s e _ => Led s.state e) smallStore fallsBackRightly := by
    decide +kernel
  exact ⟨facts.1, rows_belong_to_named (by decide) .empty 10 _ facts.2⟩

/-- The first worker's transaction is rolled back, and the second worker is given its id. -/
def fallsBackWrongly : List Step :=
  handOver [97] dropping ++ handOver [98] landing ++ handOver [97] fallingBack

/-- The first worker's next share is written for the second. -/
theorem row_belongs_to_other :
    ¬Along (TracedState.step 10) (fun _ _ after =>
      NamesAll after.state.proc.session.committed after.notes.committed) smallStore
      fallsBackWrongly := by
  intro along
  have facts : (run (TracedState.step 10) smallStore fallsBackWrongly).map TracedState.sees =
      some ([(1, [98])], [⟨1, [98]⟩, ⟨1, [97]⟩]) := by
    decide +kernel
  obtain ⟨s, ran, sees⟩ := Option.map_eq_some_iff.mp facts
  obtain ⟨workers, notes⟩ := Prod.mk.inj sees
  have names : NamesAll s.state.proc.session.committed s.notes.committed :=
    along.final (P := fun s : TracedState 4 =>
      NamesAll s.state.proc.session.committed s.notes.committed) (namesAll_nil _) ran
  rw [notes] at names
  obtain ⟨row, member, same, named⟩ := names ⟨1, [97]⟩ (by simp)
  have listed : (row.id, row.name) ∈ [(1, [98])] := workers ▸ List.mem_map_of_mem member
  rw [List.mem_singleton, Prod.mk.injEq, named] at listed
  exact absurd listed.2 (by decide)

end SimplePool.Store.Writer
