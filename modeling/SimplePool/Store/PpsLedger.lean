import SimplePool.Store.EventAccounting
import SimplePool.Stratum.Share

/-! The credit of a share. The callback for an accepted share records the share and then,
as an event of its own, what the share is worth to its worker; the two go through the ring and
its batches separately. -/
namespace SimplePool.Store.Writer
open Wire Transition
open Stratum (Fpu)

/-- What a share earns, and the rate that earned it. -/
def onShareDelta (fp : Fpu) (ppsClassic : Bool) (rate difficulty : ℚ) : Int × ℚ :=
  if ppsClassic && 0 < rate then
    let d := fp.round (difficulty * rate)
    if 0 < d ∧ d < 2 ^ 63 then (⌊d⌋, rate) else (0, 0)
  else (0, 0)

structure ShareArgs where
  workerName : Bytes
  payoutAddress : Bytes
  tsMs : UInt64
  difficulty : ℚ
  isBlock : Bool
  blockHash : Bytes

/-- `store_record_share_addr`. -/
def ShareArgs.event (args : ShareArgs) (deltaSats : Int) (rateUsed : ℚ) : Event :=
  .share ⟨copied workerNameMax args.workerName, copied addrMax args.payoutAddress, args.tsMs,
    args.difficulty, args.isBlock, copied hashStrMax args.blockHash, deltaSats, rateUsed⟩

/-- `store_record_credit`. -/
def ShareArgs.credit (args : ShareArgs) (deltaSats : Int) : CreditEvent :=
  ⟨copied workerNameMax args.workerName, copied addrMax args.payoutAddress, args.tsMs, deltaSats⟩

/-- A callback between its two records, with whether the share was taken. -/
structure Midway where
  credit : CreditEvent
  taken : Bool

structure Ledger (cap : Nat) where
  store : State cap
  midway : List Midway

def Ledger.open (positive : 0 < cap) (tables : Tables) : Ledger cap := ⟨.open positive tables, []⟩

inductive LedgerStep where
  | share (args : ShareArgs) (rate : ℚ)
  | credit (callback : Nat)
  | store (step : Step)

/-- Rejects and blocks are recorded directly; shares and credits come from the callback. -/
def Step.direct : Step → Bool
  | .enqueue (.share _) => false
  | .enqueue (.credit _) => false
  | _ => true

def Ledger.step (fp : Fpu) (ppsClassic : Bool) (commitMax : Nat) (l : Ledger cap) :
    LedgerStep → Option (Ledger cap)
  | .share args rate =>
    let (delta, rateUsed) := onShareDelta fp ppsClassic rate args.difficulty
    let (taken, store) := l.store.enqueue (args.event delta rateUsed)
    some ⟨store, if 0 < delta then l.midway ++ [⟨args.credit delta, taken⟩] else l.midway⟩
  | .credit callback =>
    match l.midway[callback]? with
    -- a refused credit is not noticed
    | some m => some ⟨(l.store.enqueue (.credit m.credit)).2, l.midway.eraseIdx callback⟩
    | none => none
  | .store step =>
    if step.direct then (l.store.step commitMax step).map fun store => { l with store } else none

def Tables.creditedShares (t : Tables) (workerId : Nat) : Int :=
  ((t.shares.filter fun row => row.workerId = workerId).map ShareRow.creditedSats).sum

def Tables.accrued (t : Tables) (workerId : Nat) : Int :=
  ((t.ppsCredits.rows.filter fun row => row.workerId = workerId).map CreditRow.accruedSats).sum

/-- What was accrued since equals what was credited on shares since, for every worker. -/
def Agrees (start t : Tables) : Prop :=
  ∀ workerId, t.accrued workerId - start.accrued workerId =
    t.creditedShares workerId - start.creditedShares workerId

structure State.Quiescent (s : State cap) : Prop where
  ring : s.ring.count = 0
  phase : s.phase = .idle

def LedgerAgrees (start : Tables) (l : Ledger cap) : Prop :=
  l.store.Quiescent → Agrees start l.store.proc.session.committed

def Event.workerName : Event → Bytes
  | .share e => e.workerName
  | .reject e => e.workerName
  | .block e => e.workerName
  | .credit e => e.workerName

/-- Satoshis on a share count one way, credits the other. -/
def Event.net : Event → Int
  | .share e => e.deltaSats
  | .credit e => -e.deltaSats
  | _ => 0

def netOf (name : Bytes) (events : List Event) : Int :=
  ((events.filter fun event => event.workerName = name).map Event.net).sum

/-- For every worker the list has as much on its shares as in its credits. -/
def Balanced (events : List Event) : Prop := ∀ name, netOf name events = 0

@[simp] theorem netOf_append (name : Bytes) (first rest : List Event) :
    netOf name (first ++ rest) = netOf name first + netOf name rest := by
  simp [netOf]

theorem netOf_eq (name : Bytes) (events : List Event) :
    netOf name events = (events.map fun event => if event.workerName = name then event.net
      else 0).sum := by
  rw [netOf]
  induction events with
  | nil => rfl
  | cons event rest ih =>
    rw [List.map_cons, List.sum_cons, ← ih, List.filter_cons]
    by_cases same : event.workerName = name
    · simp [same]
    · simp [same]

def Tables.net (t : Tables) (workerId : Nat) : Int := t.creditedShares workerId - t.accrued workerId

theorem agrees_iff (start t : Tables) :
    Agrees start t ↔ ∀ workerId, t.net workerId = start.net workerId := by
  refine forall_congr' fun workerId => ?_
  rw [Tables.net, Tables.net]
  omega

/-- A worker keeps its id. -/
theorem WorkerTable.idOf_upsert_of_some {t : WorkerTable} (known : t.idOf name = some workerId)
    (other address : Bytes)
    (ts : UInt64) : (t.upsert other address ts).idOf name = some workerId := by
  rw [WorkerTable.idOf, Option.map_eq_some_iff] at known
  obtain ⟨row, found, rfl⟩ := known
  rw [WorkerTable.upsert]
  split
  next =>
    have named : ((fun row : WorkerRow => decide (row.name = name)) ∘ fun row : WorkerRow =>
      row.seen other address ts) =
        fun row : WorkerRow => decide (row.name = name) := by
      funext row
      simp [WorkerRow.seen_name]
    rw [WorkerTable.idOf, List.find?_map, named, found]
    simp [WorkerRow.seen_id]
  next => rw [WorkerTable.idOf, List.find?_append, found, Option.some_or, Option.map_some]

/-- An id has one name. -/
theorem WorkerTable.idOf_injective {t : WorkerTable} (first : t.idOf name = some workerId)
    (second : t.idOf other = some workerId) :
    name = other := by
  rw [WorkerTable.idOf, Option.map_eq_some_iff] at first second
  obtain ⟨row, found, rfl⟩ := first
  obtain ⟨row', found', same⟩ := second
  have equal := List.inj_on_of_nodup_map t.ids (List.mem_of_find?_eq_some found')
    (List.mem_of_find?_eq_some found) same
  have named := List.find?_some found
  have named' := List.find?_some found'
  rw [decide_eq_true_eq] at named named'
  rw [← named, ← named', equal]

theorem sum_add_of_absent {rows : List CreditRow} (absent : workerId ∉ rows.map CreditRow.workerId)
    (sats : Int) (ts : UInt64) :
    rows.map (fun row => row.add workerId sats ts) = rows := by
  refine (List.map_congr_left ?_).trans (List.map_id rows)
  intro row member
  have other : row.workerId ≠ workerId := by
    rintro rfl
    exact absent (List.mem_map_of_mem member)
  rw [CreditRow.add, if_neg other]
  rfl

theorem sum_add {rows : List CreditRow} (keyed : (rows.map CreditRow.workerId).Nodup)
    (known : workerId ∈ rows.map CreditRow.workerId) (sats : Int) (ts : UInt64) (id : Nat) :
    (((rows.map fun row => row.add workerId sats ts).filter fun row => row.workerId = id).map
      CreditRow.accruedSats).sum =
      ((rows.filter fun row => row.workerId = id).map CreditRow.accruedSats).sum + if workerId = id
        then sats else 0 := by
  induction rows with
  | nil => simp at known
  | cons row rest ih =>
    rw [List.map_cons, List.nodup_cons] at keyed
    rw [List.map_cons, List.filter_cons, List.filter_cons, CreditRow.add_workerId]
    by_cases first : row.workerId = workerId
    · rw [sum_add_of_absent (first ▸ keyed.1), CreditRow.add, if_pos first, ← first]
      by_cases same : row.workerId = id
      · simp only [same, decide_true, if_true, List.map_cons, List.sum_cons]
        omega
      · simp [same]
    · have later : workerId ∈ rest.map CreditRow.workerId := by
        rcases List.mem_cons.mp known with here | later
        · exact absurd here.symm first
        · exact later
      rw [CreditRow.add, if_neg first]
      by_cases same : row.workerId = id
      · simp only [same, decide_true, if_true, List.map_cons, List.sum_cons, ih keyed.2 later]
        omega
      · simp only [same, decide_false, Bool.false_eq_true, if_false, ih keyed.2 later]

theorem accrued_upsertCredit (t : Tables) (workerId : Nat) (e : CreditEvent) (id : Nat) :
    (upsertCredit workerId e t).accrued id = t.accrued id + if workerId = id then e.deltaSats
      else 0 := by
  simp only [upsertCredit, CreditTable.upsert, Tables.accrued]
  split
  next known => exact sum_add t.ppsCredits.keyed known ..
  next =>
    rw [List.filter_append, List.map_append, List.sum_append]
    by_cases same : workerId = id
    · simp [same]
    · simp [same]

theorem creditedShares_insertShare (t : Tables) (workerId : Nat) (e : ShareEvent) (id : Nat) :
    (insertShare workerId e t).creditedShares id = t.creditedShares id + if workerId = id
      then e.deltaSats else 0 := by
  simp only [insertShare, Tables.creditedShares, List.filter_append, List.map_append,
    List.sum_append]
  by_cases same : workerId = id
  · simp [same]
  · simp [same]

/-- What the event means for the worker, under the ids of this table. -/
def netAt (workers : WorkerTable) (workerId : Nat) (event : Event) : Int :=
  if workers.idOf event.workerName = some workerId then event.net else 0

theorem netAt_zero {event : Event} (nothing : event.net = 0) (workers : WorkerTable)
    (workerId : Nat) :
    netAt workers workerId event = 0 := by
  rw [netAt, nothing, ite_self]

theorem insertBlock_net (finder : Option Nat) (e : BlockEvent) (t : Tables) (id : Nat) :
    (insertBlock finder e t).net id = t.net id ∧ (insertBlock finder e t).workers = t.workers := by
  rw [insertBlock]
  split_ifs <;> exact ⟨rfl, rfl⟩

theorem insertShare_net (workerId : Nat) (e : ShareEvent) (t : Tables) (id : Nat) :
    (insertShare workerId e t).net id = t.net id + if workerId = id then e.deltaSats else 0 := by
  rw [Tables.net, creditedShares_insertShare, Tables.net]
  change _ - t.accrued id = _
  omega

theorem upsertCredit_net (workerId : Nat) (e : CreditEvent) (t : Tables) (id : Nat) :
    (upsertCredit workerId e t).net id = t.net id + if workerId = id then -e.deltaSats else 0 := by
  rw [Tables.net, accrued_upsertCredit, Tables.net]
  change t.creditedShares id - _ = _
  split_ifs <;> omega

/-- What an event does to the ids and to the difference. -/
structure Nets (t : Tables) (event : Event) (after : Tables) (id : Nat) : Prop where
  moved : after.net id = t.net id + netAt after.workers id event
  kept : ∀ name workerId, t.workers.idOf name = some workerId →
    after.workers.idOf name = some workerId
  named : event.net ≠ 0 → (after.workers.idOf event.workerName).isSome

/-- An event that changes neither. -/
theorem Nets.of_zero {event : Event} {id : Nat} (nothing : event.net = 0)
    (same : after.net id = t.net id)
    (kept : ∀ name workerId, t.workers.idOf name = some workerId →
      after.workers.idOf name = some workerId) :
    Nets t event after id where
  moved := by rw [netAt_zero nothing, add_zero, same]
  kept := kept
  named := fun nonzero => absurd nothing nonzero

/-- A worker is found or made, and what is written for it moves the difference by what the event
means. -/
theorem Nets.of_upsert {t : Tables} {id : Nat} {address : Bytes} {tsMs : UInt64} (event : Event)
    (write : Nat → Tables → Tables) (workers : ∀ workerId u, (write workerId u).workers = u.workers)
    (moved : ∀ workerId u, (write workerId u).net id = u.net id + if workerId = id then event.net
      else 0)
    (found : (upsertWorker event.workerName address tsMs t).workers.idOf event.workerName =
      some workerId) :
    Nets t event (write workerId (upsertWorker event.workerName address tsMs t)) id where
  moved := by
    rw [moved, netAt, workers, found]
    simp only [Option.some.injEq]
    rfl
  kept := by
    intro name other known
    rw [workers]
    exact WorkerTable.idOf_upsert_of_some known ..
  named := by
    intro _
    rw [workers, found]
    rfl

/-- Applying an event keeps the ids and moves the difference by what the event means. -/
theorem applyEvent_net (t : Tables) (event : Event) (id : Nat) :
    Nets t event (applyEvent t event) id := by
  cases event with
  | share e =>
    obtain ⟨workerId, found⟩ := t.workers.idOf_upsert e.workerName e.payoutAddress (seconds e.tsMs)
    have resolved : (upsertWorker e.workerName e.payoutAddress e.tsMs t).workers.idOf e.workerName =
          some workerId := found
    simp only [applyEvent, resolved]
    exact Nets.of_upsert (.share e) (insertShare · e) (fun _ _ => rfl)
      (fun workerId u => insertShare_net workerId e u id) resolved
  | reject e => exact .of_zero rfl rfl fun _ _ known => known
  | block e =>
    rw [applyEvent]
    split_ifs
    · obtain ⟨same, workers⟩ := insertBlock_net none e t id
      exact .of_zero rfl same fun _ _ known => workers ▸ known
    · dsimp only
      obtain ⟨same, workers⟩ := insertBlock_net
        ((upsertWorker e.workerName e.payoutAddress e.tsMs t).workers.idOf e.workerName) e
        (upsertWorker e.workerName e.payoutAddress e.tsMs t) id
      refine .of_zero rfl same fun name workerId known => ?_
      rw [workers]
      exact WorkerTable.idOf_upsert_of_some known ..
  | credit e =>
    obtain ⟨workerId, found⟩ := t.workers.idOf_upsert e.workerName e.payoutAddress (seconds e.tsMs)
    have resolved : (upsertWorker e.workerName e.payoutAddress e.tsMs t).workers.idOf e.workerName =
          some workerId := found
    simp only [applyEvent, resolved]
    exact Nets.of_upsert (.credit e) (upsertCredit · e) (fun _ _ => rfl)
      (fun workerId u => upsertCredit_net workerId e u id) resolved

theorem foldl_idOf {t : Tables} (known : t.workers.idOf name = some workerId)
    (events : List Event) :
    (events.foldl applyEvent t).workers.idOf name = some workerId := by
  induction events generalizing t with
  | nil => exact known
  | cons event rest ih => exact ih ((applyEvent_net t event 0).kept name workerId known)

theorem foldl_net (t : Tables) (events : List Event) (id : Nat) :
    (events.foldl applyEvent t).net id =
    t.net id + (events.map (netAt (events.foldl applyEvent t).workers id)).sum := by
  induction events generalizing t with
  | nil => simp
  | cons event rest ih =>
    obtain ⟨moved, _, named⟩ := applyEvent_net t event id
    have settled : netAt (rest.foldl applyEvent (applyEvent t event)).workers id event =
          netAt (applyEvent t event).workers id event := by
      by_cases nothing : event.net = 0
      · rw [netAt_zero nothing, netAt_zero nothing]
      · obtain ⟨workerId, here⟩ := Option.isSome_iff_exists.mp (named nothing)
        rw [netAt, netAt, here, foldl_idOf here]
    rw [List.foldl_cons, ih, moved, List.map_cons, List.sum_cons, settled]
    omega

/-- A balanced list leaves the tables as far apart as they were. -/
theorem Balanced.foldl_net {events : List Event} (balanced : Balanced events) (t : Tables)
    (id : Nat) :
    (events.foldl applyEvent t).net id = t.net id := by
  rw [Writer.foldl_net]
  generalize (events.foldl applyEvent t).workers = workers
  suffices none : (events.map (netAt workers id)).sum = 0 by omega
  by_cases someone : ∃ name, workers.idOf name = some id
  · obtain ⟨name, here⟩ := someone
    have own :
        ∀ event, netAt workers id event = if event.workerName = name then event.net else 0 := by
      intro event
      rw [netAt]
      refine if_congr ⟨fun found => WorkerTable.idOf_injective found here, ?_⟩ rfl rfl
      rintro rfl
      exact here
    rw [funext own, ← netOf_eq, balanced name]
  · have nobody : ∀ event, netAt workers id event = 0 :=
      fun event => if_neg fun found => someone ⟨_, found⟩
    rw [funext nobody]
    simp

/-- The attempt begins and its COMMIT is served. -/
def Attempt.lands (a : Attempt) : Prop := a.begin = .served ∧ a.commit = .served

/-- A credit is taken when its share was, and refused when its share was; a batch is answered
soundly, and holds as much on shares as in credits if it is lost; and the queue does not run
empty while a share is in it or through it and its credit is not. -/
def PairsKept (l : Ledger cap) : LedgerStep → Prop
  | .credit callback =>
    ∀ m, l.midway[callback]? = some m → (m.taken = true ↔ l.store.ring.full = false)
  | .store (.commit attempts) => ∀ batch seqAfter, l.store.phase = .taken batch seqAfter →
      (∀ k < storeCommitAttempts, (attempts k).Sound batch) ∧
      ((∀ k < storeCommitAttempts, ¬(attempts k).lands) → Balanced batch)
  | .store .publish => l.store.ring.count = 0 → ∀ m ∈ l.midway, m.taken = false
  | _ => True

theorem commitAttempt_lands {a : Attempt} (sound : a.Sound batch) (lands : a.lands) (p : Proc) :
    (commitAttempt a p batch).1 = true := by
  obtain ⟨begun, committed⟩ := lands
  have all :=
    processBatch_served (p := ⟨⟨p.session.committed, some p.session.committed⟩, p.cache⟩) rfl
    ((sound begun).2 committed)
  simp only [commitAttempt, begun, committed, all]

/-- A batch is given up only after every attempt. -/
theorem commitBatch_lost {attempts : Nat → Attempt}
    (sound : ∀ k < storeCommitAttempts, (attempts k).Sound batch)
    (few : left ≤ storeCommitAttempts) (p : Proc)
    (lost : (commitBatch attempts batch left p).1 = false) :
    ∀ k, storeCommitAttempts - left ≤ k → k < storeCommitAttempts → ¬(attempts k).lands := by
  induction left generalizing p with
  | zero =>
    intro k late early
    omega
  | succ left ih =>
    rw [commitBatch] at lost
    cases tried : commitAttempt (attempts (storeCommitAttempts - (left + 1))) p batch with
    | mk landed mid =>
      rw [tried] at lost
      cases landed with
      | true => contradiction
      | false =>
        intro k late early lands
        by_cases here : k = storeCommitAttempts - (left + 1)
        · rw [here] at lands
          have := commitAttempt_lands (sound _ (by omega)) lands p
          rw [tried] at this
          contradiction
        · exact ih (by omega) mid lost k (by omega) early lands

@[simp] theorem netOf_nil (name : Bytes) : netOf name [] = 0 := rfl

@[simp] theorem netOf_singleton (name : Bytes) (event : Event) :
    netOf name [event] = if event.workerName = name then event.net else 0 := by
  rw [netOf_eq, List.map_singleton, List.sum_singleton]

theorem onShareDelta_nonneg (fp : Fpu) (ppsClassic : Bool) (rate difficulty : ℚ) :
    0 ≤ (onShareDelta fp ppsClassic rate difficulty).1 := by
  rw [onShareDelta]
  split_ifs
  · dsimp only
    split_ifs with fits
    · exact Int.floor_nonneg.mpr fits.1.le
    · exact le_rfl
  · exact le_rfl

/-- What the callbacks that had their share taken still have to credit the worker with. -/
def owed (name : Bytes) (midway : List Midway) : Int :=
  (midway.map fun m => if m.taken ∧ m.credit.workerName = name then m.credit.deltaSats else 0).sum

@[simp] theorem owed_append (name : Bytes) (first rest : List Midway) :
    owed name (first ++ rest) = owed name first + owed name rest := by
  simp [owed]

@[simp] theorem owed_singleton (name : Bytes) (m : Midway) :
    owed name [m] = if m.taken ∧ m.credit.workerName = name then m.credit.deltaSats else 0 := by
  rw [owed, List.map_singleton, List.sum_singleton]

theorem owed_eraseIdx {midway : List Midway} (here : midway[callback]? = some m) (name : Bytes) :
    owed name midway = owed name [m] + owed name (midway.eraseIdx callback) := by
  obtain ⟨inside, rfl⟩ := List.getElem?_eq_some_iff.mp here
  have order := (List.getElem_cons_eraseIdx_perm inside).map
    fun m : Midway => if m.taken ∧ m.credit.workerName = name then m.credit.deltaSats else 0
  rw [owed, ← order.sum_eq, List.map_cons, List.sum_cons, owed_singleton]
  rfl

/-- What the ring took is durable, lost or here. -/
def State.pending (s : State cap) : List Event := s.inFlight ++ s.ring.contents

theorem enqueue_spec {s after : State cap} (done : s.enqueue event = (taken, after)) :
    after.proc = s.proc ∧ after.pending = s.pending ++ (if taken then [event] else []) ∧
    (taken = true ↔ s.ring.full = false) ∧
      (after.Quiescent → s.Quiescent ∧ taken = false) := by
  rw [State.enqueue] at done
  split at done
  next refused =>
    obtain ⟨rfl, rfl⟩ := Prod.mk.inj done
    rw [RingBuffer.push_none_iff] at refused
    simp [refused]
  next ring pushed =>
    obtain ⟨rfl, rfl⟩ := Prod.mk.inj done
    have room : s.ring.full = false := by
      rw [← Bool.not_eq_true, ← RingBuffer.push_none_iff s.ring event, pushed]
      exact Option.some_ne_none ring
    have longer := RingBuffer.push_contents pushed
    refine ⟨rfl, ?_, by simp [room], ?_⟩
    · rw [State.pending, longer, ← List.append_assoc]
      rfl
    · intro quiescent
      have := congrArg List.length longer
      rw [RingBuffer.length_contents, quiescent.ring, List.length_append,
        List.length_singleton] at this
      omega

/-- What is durable came from events that, with those on their way, are balanced up to what
the callbacks still have to credit. -/
structure Ledger.Paired (tables : Tables) (l : Ledger cap) : Prop where
  closed : l.store.proc.session.working = none
  durable : ∃ landed, l.store.proc.session.committed = landed.foldl applyEvent tables ∧
    ∀ name, netOf name (landed ++ l.store.pending) = owed name l.midway
  rested : l.store.Quiescent → ∀ m ∈ l.midway, m.taken = false

theorem Ledger.Paired.open (positive : 0 < cap) (tables : Tables) :
    (Ledger.open positive tables).Paired tables where
  closed := rfl
  durable := ⟨[], rfl, fun _ => rfl⟩
  rested := fun _ => List.forall_mem_nil _

/-- The difference may move between the queue and the callbacks. -/
theorem Ledger.Paired.move {l after : Ledger cap} (paired : l.Paired tables)
    (proc : after.store.proc = l.store.proc)
    (balance : ∀ name, netOf name after.store.pending - owed name after.midway =
      netOf name l.store.pending - owed name l.midway)
    (rested : after.store.Quiescent → ∀ m ∈ after.midway, m.taken = false) :
    after.Paired tables := by
  obtain ⟨closed, ⟨landed, committed, balanced⟩, _⟩ := paired
  refine ⟨by rw [proc, closed], ⟨landed, by rw [proc, committed], fun name => ?_⟩, rested⟩
  have before := balanced name
  have moved := balance name
  rw [netOf_append] at before ⊢
  omega

theorem Ledger.Paired.share {l after : Ledger cap} (paired : l.Paired tables) {args : ShareArgs}
    (stepped : l.step fp ppsClassic commitMax (.share args rate) = some after) :
    after.Paired tables := by
  rw [Ledger.step] at stepped
  have nonneg := onShareDelta_nonneg fp ppsClassic rate args.difficulty
  cases earned : onShareDelta fp ppsClassic rate args.difficulty with
  | mk delta rateUsed =>
    rw [earned] at stepped nonneg
    dsimp only at stepped nonneg
    cases recorded : l.store.enqueue (args.event delta rateUsed) with
    | mk taken store =>
      rw [recorded] at stepped
      obtain rfl := Option.some.inj stepped
      obtain ⟨proc, pending, _, waits⟩ := enqueue_spec recorded
      refine paired.move proc (fun name => ?_) fun quiescent => ?_
      · dsimp only
        rw [pending, netOf_append]
        by_cases credited : 0 < delta
        · rw [if_pos credited, owed_append, owed_singleton]
          cases taken with
          | true =>
            simp only [ShareArgs.event, ShareArgs.credit, if_true, netOf_singleton,
              Event.workerName, Event.net]
            by_cases own : copied workerNameMax args.workerName = name
            · simp [own]
            · simp [own]
          | false => simp
        · have nothing : delta = 0 := by omega
          rw [if_neg credited]
          cases taken with
          | true => simp [ShareArgs.event, Event.net, nothing]
          | false => simp
      · obtain ⟨before, rfl⟩ := waits quiescent
        have old := paired.rested before
        dsimp only
        split_ifs
        · exact List.forall_mem_append.mpr ⟨old, List.forall_mem_singleton.mpr rfl⟩
        · exact old

theorem Ledger.Paired.credit {l after : Ledger cap} (paired : l.Paired tables)
    (kept : PairsKept l (.credit callback))
    (stepped : l.step fp ppsClassic commitMax (.credit callback) = some after) :
    after.Paired tables := by
  rw [Ledger.step] at stepped
  split at stepped
  next m here =>
    obtain rfl := Option.some.inj stepped
    have sameFate := kept m here
    cases recorded : l.store.enqueue (.credit m.credit) with
    | mk taken store =>
      obtain ⟨proc, pending, room, waits⟩ := enqueue_spec recorded
      refine paired.move proc (fun name => ?_) fun quiescent m member => ?_
      · have same : taken = m.taken := Bool.eq_iff_iff.mpr (room.trans sameFate.symm)
        dsimp only
        rw [pending, netOf_append, owed_eraseIdx here name, owed_singleton, same]
        cases m.taken with
        | true =>
          simp only [if_true, netOf_singleton, Event.workerName, Event.net]
          by_cases own : m.credit.workerName = name
          · simp only [own, true_and, if_true]
            omega
          · simp [own]
        | false => simp
      · exact paired.rested (waits quiescent).1 m (List.mem_of_mem_eraseIdx member)
  next => contradiction

/-- A batch lands, or it is given up and was balanced. -/
theorem Ledger.Paired.commit {l : Ledger cap} {landed : Bool} {after : Proc}
    (paired : l.Paired tables) (phase : l.store.phase = .taken batch seqAfter)
    (sound : ∀ k < storeCommitAttempts, (attempts k).Sound batch)
    (lost : (∀ k < storeCommitAttempts, ¬(attempts k).lands) → Balanced batch)
    (done : commitBatch attempts batch storeCommitAttempts l.store.proc = (landed, after)) :
    Ledger.Paired tables { l with store := { l.store with
      proc := after
      phase := .done seqAfter
      eventsLost :=
        if landed then l.store.eventsLost else l.store.eventsLost + batch.length } } := by
  obtain ⟨closed, ⟨events, committed, balanced⟩, _⟩ := paired
  have written := commitBatch_spec closed sound le_rfl done
  have waits : l.store.pending = batch ++ l.store.ring.contents := by
    rw [State.pending, State.inFlight, phase]
  rw [waits] at balanced
  refine ⟨by rw [written], ?_, fun quiescent => by cases quiescent.phase⟩
  dsimp only [State.pending, State.inFlight]
  rw [written, List.nil_append]
  cases landed with
  | true =>
    exact ⟨events ++ batch, by simp [committed], fun name => by rw [List.append_assoc, balanced]⟩
  | false =>
    have gone := lost fun k early => commitBatch_lost sound le_rfl l.store.proc (by rw [done]) k
      (by omega) early
    refine ⟨events, by simp [committed], fun name => ?_⟩
    have before := balanced name
    have nothing := gone name
    rw [netOf_append, netOf_append] at before
    rw [netOf_append]
    omega

theorem Ledger.Paired.store {l after : Ledger cap} {action : Step} (paired : l.Paired tables)
    (kept : PairsKept l (.store action))
    (stepped : l.step fp ppsClassic commitMax (.store action) = some after) :
    after.Paired tables := by
  rw [Ledger.step] at stepped
  split at stepped
  next direct =>
    obtain ⟨store, moved, rfl⟩ := Option.map_eq_some_iff.mp stepped
    clear stepped
    cases action with
    | enqueue event =>
      cases recorded : l.store.enqueue event with
      | mk taken next =>
        rw [State.step, recorded] at moved
        obtain rfl := Option.some.inj moved
        obtain ⟨proc, pending, _, waits⟩ := enqueue_spec recorded
        have nothing : event.net = 0 := by
          cases event with
          | share e => contradiction
          | credit e => contradiction
          | reject e => rfl
          | block e => rfl
        refine paired.move proc (fun name => ?_) fun quiescent => paired.rested (waits quiescent).1
        dsimp only
        rw [pending, netOf_append]
        cases taken with
        | true => simp [nothing]
        | false => simp
    | drain =>
      rw [State.step] at moved
      split at moved
      next idle =>
        split at moved
        next => contradiction
        next =>
          obtain rfl := Option.some.inj moved
          have whole : (l.store.ring.drain commitMax).1 ++
                (l.store.ring.drain commitMax).2.contents = l.store.pending := by
            rw [RingBuffer.drain_fst, RingBuffer.drain_contents, List.take_append_drop,
              State.pending, State.inFlight, idle, List.nil_append]
          refine paired.move rfl (fun name => ?_) fun quiescent => by cases quiescent.phase
          rw [← whole]
          rfl
      next => contradiction
    | commit attempts =>
      rw [State.step] at moved
      split at moved
      next batch seqAfter phase =>
        obtain rfl := Option.some.inj moved
        obtain ⟨sound, lost⟩ := kept batch seqAfter phase
        exact paired.commit phase sound lost rfl
      next => contradiction
    | publish =>
      rw [State.step] at moved
      split at moved
      next seqAfter phase =>
        obtain rfl := Option.some.inj moved
        refine paired.move rfl (fun name => ?_) fun quiescent => kept quiescent.ring
        simp [State.pending, State.inFlight, phase]
      next => contradiction
    | flush =>
      obtain rfl := Option.some.inj moved
      exact paired.move rfl (fun _ => rfl) fun quiescent => paired.rested
        ⟨quiescent.ring, quiescent.phase⟩
    | flushed caller =>
      rw [State.step] at moved
      split at moved
      next =>
        split at moved
        next =>
          obtain rfl := Option.some.inj moved
          exact paired.move rfl (fun _ => rfl) fun quiescent => paired.rested
            ⟨quiescent.ring, quiescent.phase⟩
        next => contradiction
      next => contradiction
    | timedOut caller =>
      rw [State.step] at moved
      split at moved
      next =>
        obtain rfl := Option.some.inj moved
        exact paired.move rfl (fun _ => rfl) fun quiescent => paired.rested
          ⟨quiescent.ring, quiescent.phase⟩
      next => contradiction
  next => contradiction

/-- With nothing on its way what is durable is balanced. -/
theorem Ledger.Paired.agrees {l : Ledger cap} (paired : l.Paired tables) :
    LedgerAgrees tables l := by
  intro quiescent
  obtain ⟨_, ⟨landed, committed, balanced⟩, rested⟩ := paired
  have empty : l.store.pending = [] := by
    rw [State.pending, State.inFlight, quiescent.phase, List.nil_append, ← List.length_eq_zero_iff,
      RingBuffer.length_contents, quiescent.ring]
  rw [agrees_iff, committed]
  refine fun workerId => Balanced.foldl_net (fun name => ?_) tables workerId
  have nothing :
    l.midway.map (fun m => if m.taken ∧ m.credit.workerName = name then m.credit.deltaSats else 0) =
      l.midway.map fun _ => 0 := by
    refine List.map_congr_left fun m member => if_neg ?_
    rw [rested quiescent m member]
    exact fun both => Bool.false_ne_true both.1
  have balance := balanced name
  rw [empty, List.append_nil, owed, nothing] at balance
  simpa using balance

/-- In every run whose credits share the fate of their shares. -/
theorem pps_ledger_agrees (positive : 0 < cap) (fp : Fpu) (ppsClassic : Bool) (commitMax : Nat)
    (tables : Tables) (steps : List LedgerStep)
    (kept : Along (Ledger.step fp ppsClassic commitMax) (fun l step _ => PairsKept l step)
      (Ledger.open positive tables) steps) :
    Along (Ledger.step fp ppsClassic commitMax) (fun _ _ l => LedgerAgrees tables l)
      (Ledger.open positive tables) steps := by
  apply Along.of_invariant _ (Ledger.Paired.open positive tables) kept
  intro l step after paired kept stepped
  have next : after.Paired tables := by
    cases step with
    | share args rate => exact paired.share stepped
    | credit callback => exact paired.credit kept stepped
    | store action => exact paired.store kept stepped
  exact ⟨next, next.agrees⟩

def tenSats : ShareArgs := ⟨[97], [98], 5000, 5, false, []⟩

/-- A share that is worth ten satoshis and its credit land in one batch, at the second attempt. -/
def oneBatch : List LedgerStep :=
  [.share tenSats 2, .credit 0, .store .drain,
    .store (.commit fun k => .answered (if k = 0 then .error else .served) .served),
    .store .publish]

def oneBatchEnd : Option (Ledger 2) :=
  run (Ledger.step .exact true 100) (.open Nat.two_pos .empty) oneBatch

theorem oneBatch_pairsKept :
    Along (Ledger.step .exact true 100) (fun l step _ => PairsKept l step)
      (.open Nat.two_pos Tables.empty) oneBatch := by
  have queued : Along (Ledger.step .exact true 100) (fun l _ _ => l.midway.map Midway.taken = [] ∨
      l.midway.map Midway.taken = [true] ∧ l.store.ring.full = false ∧ l.store.ring.count ≠ 0)
      (.open Nat.two_pos Tables.empty) oneBatch := by
    decide +kernel
  apply queued.imp
  intro l step after member queued
  simp only [oneBatch, List.mem_cons, List.not_mem_nil, or_false] at member
  rcases member with rfl | rfl | rfl | rfl | rfl
  · trivial
  · intro m here
    have taken := List.mem_map_of_mem (f := Midway.taken) (List.mem_of_getElem? here)
    rcases queued with none | ⟨one, room, _⟩
    · simp [none] at taken
    · rw [one, List.mem_singleton] at taken
      simp [taken, room]
  · trivial
  · intro batch seqAfter _
    refine ⟨fun k _ => Attempt.answered_sound _ _ batch, fun lost => ?_⟩
    exact absurd ⟨rfl, rfl⟩ (lost 1 (by decide))
  · intro empty m member
    have taken := List.mem_map_of_mem (f := Midway.taken) member
    rcases queued with none | ⟨_, _, waiting⟩
    · simp [none] at taken
    · exact absurd empty waiting

theorem pps_ledger_agrees_one_batch :
    (oneBatchEnd.map fun l => (l.store.proc.session.committed.creditedShares 1,
      l.store.proc.session.committed.accrued 1)) = some (10, 10) ∧
    Along (Ledger.step .exact true 100) (fun l step _ => PairsKept l step)
      (.open Nat.two_pos Tables.empty) oneBatch ∧
    Along (Ledger.step .exact true 100) (fun _ _ l => LedgerAgrees .empty l)
      (.open Nat.two_pos Tables.empty) oneBatch :=
  ⟨by
    decide +kernel, oneBatch_pairsKept,
    pps_ledger_agrees Nat.two_pos .exact true 100 .empty oneBatch oneBatch_pairsKept⟩

/-- The credit finds the ring full and the share is written without it. -/
def creditRefused : List LedgerStep :=
  [.share tenSats 2, .credit 0, .store .drain, .store (.commit fun _ => .answered .served .served),
    .store .publish]

def creditRefusedEnd : Ledger 1 :=
  (run (Ledger.step .exact true 100) (.open Nat.one_pos .empty) creditRefused).getD
    (.open Nat.one_pos .empty)

/-- The share row says ten satoshis and the worker has none. -/
theorem refused_credit_unpaired :
    ¬Along (Ledger.step .exact true 100) (fun _ _ l => LedgerAgrees .empty l)
      (.open Nat.one_pos Tables.empty) creditRefused := by
  intro along
  have ended :
    (run (Ledger.step .exact true 100) (Ledger.open Nat.one_pos .empty) creditRefused).isSome ∧
      creditRefusedEnd.store.ring.count = 0 ∧ creditRefusedEnd.store.phase = .idle ∧
      creditRefusedEnd.midway.length = 0 ∧
      creditRefusedEnd.store.proc.session.committed.creditedShares 1 = 10 ∧
      creditRefusedEnd.store.proc.session.committed.accrued 1 = 0 ∧ Tables.empty.net 1 = 0 := by
    decide +kernel
  obtain ⟨ends, empty, idle, _, credited, accrued, start⟩ := ended
  have ran : run (Ledger.step .exact true 100) (Ledger.open Nat.one_pos .empty) creditRefused =
        some creditRefusedEnd :=
    eq_some_getD ends _
  have opened : LedgerAgrees .empty (Ledger.open Nat.one_pos Tables.empty) :=
    (Ledger.Paired.open Nat.one_pos .empty).agrees
  have agrees := Along.final (P := LedgerAgrees Tables.empty) opened along ran
  have same := (agrees_iff _ _).mp (agrees ⟨empty, idle⟩) 1
  rw [start, Tables.net, credited, accrued] at same
  contradiction

end SimplePool.Store.Writer
