import SimplePool.Store.Writer

/-! Where accepted events end up. A batch that lands whole, or not at all, leaves every event
applied once or counted lost; a statement that fails in a batch that commits leaves its event
neither, and a transaction that sqlite ends by itself leaves the rest of its batch durable and
still to be retried. -/
namespace SimplePool.Store.Writer
open Wire Transition

/-- The answers to the statements of an event. -/
def Event.outcomes (outcomes : Outcome × Outcome) : Event → List Outcome
  | .reject _ => [outcomes.2]
  | .block e => if e.workerName = [] then [outcomes.2] else [outcomes.1, outcomes.2]
  | _ => [outcomes.1, outcomes.2]

def Attempt.outcomes (a : Attempt) : List Event → Nat → List Outcome
  | [], _ => []
  | event :: rest, i => event.outcomes (a.steps i) ++ a.outcomes rest (i + 1)

/-- No statement is served once sqlite has ended the transaction. -/
def Contained : Bool → List Outcome → Prop
  | _, [] => True
  | true, outcome :: rest => Contained (outcome ≠ .rolledBack) rest
  | false, outcome :: rest => outcome ≠ .served ∧ Contained false rest

/-- The attempt lands the whole batch or nothing: when its COMMIT succeeds every statement of
it did, and no statement succeeds after the transaction is gone. -/
def Attempt.Sound (a : Attempt) (batch : List Event) : Prop :=
  a.begin = .served → Contained true (a.outcomes batch 0) ∧
  (a.commit = .served → ∀ outcome ∈ a.outcomes batch 0, outcome = .served)

theorem Contained.of_closed : {rest : List Outcome} → Contained false rest → Contained true rest
  | [], _ => trivial
  | outcome :: rest, contained => by
    rw [Contained]
    by_cases ended : outcome = .rolledBack
    · simpa [ended] using contained.2
    · simpa [ended] using contained.2.of_closed

theorem Contained.tail (contained : Contained opened (outcome :: rest)) :
    Contained opened rest := by
  cases opened with
  | true =>
    rw [Contained] at contained
    by_cases ended : outcome = .rolledBack
    · simp only [ended, ne_eq, not_true_eq_false, decide_false] at contained
      exact contained.of_closed
    · simpa [ended] using contained
  | false => exact contained.2

theorem Proc.step_contained {p : Proc}
    (contained : Contained p.session.working.isSome (outcome :: rest)) (f : Tables → Tables) :
    (p.step f outcome).session.committed = p.session.committed ∧
    Contained (p.step f outcome).session.working.isSome rest := by
  cases opened : p.session.working with
  | none =>
    rw [opened] at contained
    cases outcome with
    | served => exact absurd rfl contained.1
    | error => exact ⟨rfl, by simpa [Proc.step, Session.step, opened] using contained.2⟩
    | rolledBack => exact ⟨rfl, contained.2⟩
  | some db =>
    rw [opened] at contained
    cases outcome with
    | served =>
      rw [Proc.step, Session.step, Session.write, opened]
      exact ⟨rfl, contained⟩
    | error =>
      rw [Proc.step, Session.step, opened]
      exact ⟨rfl, contained⟩
    | rolledBack => exact ⟨rfl, contained⟩

theorem resolveWorkerId_contained {p : Proc}
    (contained : Contained p.session.working.isSome (outcome :: rest))
    {after : Proc} (resolved : resolveWorkerId outcome p name address tsMs = (found, after)) :
    after.session.committed = p.session.committed ∧
    Contained after.session.working.isSome rest := by
  have session : after.session = (p.step (upsertWorker name address tsMs) outcome).session :=
    (congrArg (fun r => r.2.session) resolved).symm.trans
      (resolveWorkerId_session outcome p name address tsMs)
  rw [session]
  exact p.step_contained contained _

/-- A worker is resolved, and something is written for it if it is there. -/
theorem resolve_write_contained {p written : Proc} {outcomes : Outcome × Outcome}
    (write : Nat → Tables → Tables)
    (contained : Contained p.session.working.isSome (outcomes.1 :: outcomes.2 :: rest))
    (done : (match resolveWorkerId outcomes.1 p name address tsMs with
      | (none, p) => p
      | (some workerId, p) => p.step (write workerId) outcomes.2) = written) :
    written.session.committed = p.session.committed ∧
    Contained written.session.working.isSome rest := by
  subst done
  split
  next after resolved =>
    obtain ⟨same, later⟩ := resolveWorkerId_contained contained resolved
    exact ⟨same, later.tail⟩
  next workerId after resolved =>
    obtain ⟨same, later⟩ := resolveWorkerId_contained contained resolved
    obtain ⟨kept, last⟩ := after.step_contained later (write workerId)
    exact ⟨kept.trans same, last⟩

theorem processEvent_contained {p : Proc} {event : Event}
    (contained : Contained p.session.working.isSome (event.outcomes outcomes ++ rest)) :
    (processEvent outcomes p event).session.committed = p.session.committed ∧
      Contained (processEvent outcomes p event).session.working.isSome rest := by
  cases event with
  | share e => exact resolve_write_contained (insertShare · e) contained rfl
  | reject e => exact p.step_contained contained _
  | block e =>
    rw [processEvent]
    rw [Event.outcomes] at contained
    split_ifs with anonymous
    · rw [if_pos anonymous] at contained
      exact p.step_contained contained _
    · rw [if_neg anonymous] at contained
      cases resolved : resolveWorkerId outcomes.1 p e.workerName e.payoutAddress e.tsMs with
      | mk finder after =>
        obtain ⟨same, later⟩ := resolveWorkerId_contained contained resolved
        obtain ⟨kept, last⟩ := after.step_contained later (insertBlock finder e)
        exact ⟨kept.trans same, last⟩
  | credit e => exact resolve_write_contained (upsertCredit · e) contained rfl

/-- Nothing of a contained attempt is durable before its COMMIT. -/
theorem processBatch_contained {a : Attempt} {p : Proc}
    (contained : Contained p.session.working.isSome (a.outcomes batch i)) :
    (processBatch a p batch i).session.committed = p.session.committed := by
  induction batch generalizing p i with
  | nil => rfl
  | cons event rest ih =>
    obtain ⟨same, later⟩ := processEvent_contained contained
    exact (ih later).trans same

theorem Proc.step_served {p : Proc} (opened : p.session.working = some t) (f : Tables → Tables) :
    (p.step f .served).session = ⟨p.session.committed, some (f t)⟩ := by
  rw [Proc.step, Session.step, Session.write, opened]

theorem resolve_write_served {p : Proc} (opened : p.session.working = some t)
    (write : Nat → Tables → Tables) (name address : Bytes) (tsMs : UInt64) :
    (match resolveWorkerId .served p name address tsMs with
      | (none, p) => p
      | (some workerId, p) => p.step (write workerId) .served).session =
      ⟨p.session.committed, some (match (upsertWorker name address tsMs t).workers.idOf name with
        | some workerId => write workerId (upsertWorker name address tsMs t)
        | none => upsertWorker name address tsMs t)⟩ := by
  obtain ⟨cache, resolved⟩ := resolveWorkerId_served opened name address tsMs
  rw [resolved]
  cases (upsertWorker name address tsMs t).workers.idOf name with
  | none => rfl
  | some workerId => exact Proc.step_served rfl _

theorem processEvent_served {p : Proc} (opened : p.session.working = some t) {event : Event}
    (served : ∀ outcome ∈ event.outcomes outcomes, outcome = .served) :
    (processEvent outcomes p event).session = ⟨p.session.committed, some (applyEvent t event)⟩ := by
  cases event with
  | share e =>
    have upsert : outcomes.1 = .served := served _ (by simp [Event.outcomes])
    have insert : outcomes.2 = .served := served _ (by simp [Event.outcomes])
    rw [processEvent, upsert, insert]
    exact resolve_write_served opened (insertShare · e) ..
  | reject e =>
    have insert : outcomes.2 = .served := served _ (by simp [Event.outcomes])
    rw [processEvent, insert]
    exact Proc.step_served opened _
  | block e =>
    by_cases anonymous : e.workerName = []
    · have insert : outcomes.2 = .served := served _ (by simp [Event.outcomes, anonymous])
      rw [processEvent, applyEvent, if_pos anonymous, if_pos anonymous, insert]
      exact Proc.step_served opened _
    · have upsert : outcomes.1 = .served := served _ (by simp [Event.outcomes, anonymous])
      have insert : outcomes.2 = .served := served _ (by simp [Event.outcomes, anonymous])
      obtain ⟨cache, resolved⟩ := resolveWorkerId_served opened e.workerName e.payoutAddress e.tsMs
      simp only [processEvent, applyEvent, if_neg anonymous, upsert, insert, resolved]
      exact Proc.step_served rfl _
  | credit e =>
    have upsert : outcomes.1 = .served := served _ (by simp [Event.outcomes])
    have insert : outcomes.2 = .served := served _ (by simp [Event.outcomes])
    rw [processEvent, upsert, insert]
    exact resolve_write_served opened (upsertCredit · e) ..

theorem processBatch_served {a : Attempt} {p : Proc} (opened : p.session.working = some t)
    (served : ∀ outcome ∈ a.outcomes batch i, outcome = .served) :
    (processBatch a p batch i).session = ⟨p.session.committed,
      some (batch.foldl applyEvent t)⟩ := by
  induction batch generalizing p t i with
  | nil =>
    rw [processBatch, List.foldl_nil, ← opened]
  | cons event rest ih =>
    rw [Attempt.outcomes, List.forall_mem_append] at served
    have first := processEvent_served opened served.1
    rw [processBatch, ih (by rw [first]) served.2, first, List.foldl_cons]

theorem commitAttempt_spec {a : Attempt} {p after : Proc} (closed : p.session.working = none)
    (sound : a.Sound batch) (done : commitAttempt a p batch = (landed, after)) :
    after.session = ⟨if landed then batch.foldl applyEvent p.session.committed
      else p.session.committed, none⟩ := by
  rw [commitAttempt] at done
  split at done
  next begun =>
    obtain ⟨contained, served⟩ := sound begun
    have kept := processBatch_contained (p := ⟨⟨p.session.committed, some p.session.committed⟩,
        p.cache⟩) contained
    dsimp only at done
    split at done
    next db committed opened =>
      obtain ⟨rfl, rfl⟩ := Prod.mk.inj done
      have all := processBatch_served (p := ⟨⟨p.session.committed, some p.session.committed⟩,
          p.cache⟩) rfl (served committed)
      dsimp only at opened all
      rw [all] at opened
      obtain rfl := Option.some.inj opened
      rfl
    next =>
      obtain ⟨rfl, rfl⟩ := Prod.mk.inj done
      dsimp only at kept
      simp only [Session.rollback, kept, Bool.false_eq_true, if_false]
  next =>
    obtain ⟨rfl, rfl⟩ := Prod.mk.inj done
    rw [← closed]
    rfl

theorem commitBatch_spec {attempts : Nat → Attempt} {p after : Proc}
    (closed : p.session.working = none)
    (sound : ∀ k < storeCommitAttempts, (attempts k).Sound batch) (few : left ≤ storeCommitAttempts)
    (done : commitBatch attempts batch left p = (landed, after)) :
    after.session = ⟨if landed then batch.foldl applyEvent p.session.committed
      else p.session.committed, none⟩ := by
  induction left generalizing p with
  | zero =>
    obtain ⟨rfl, rfl⟩ := Prod.mk.inj done
    rw [← closed]
    rfl
  | succ left ih =>
    rw [commitBatch] at done
    cases tried : commitAttempt (attempts (storeCommitAttempts - (left + 1))) p batch with
    | mk first mid =>
      have spec := commitAttempt_spec closed (sound _ (by omega)) tried
      rw [tried] at done
      cases first with
      | true =>
        obtain ⟨rfl, rfl⟩ := Prod.mk.inj done
        exact spec
      | false =>
        have rest := ih (p := mid) (by rw [spec]) (by omega) done
        rw [rest, spec]
        rfl

/-- The events the writer is through with, if not with saying so. -/
def State.settled (s : State cap) : Nat :=
  match s.phase with
  | .done seqAfter => seqAfter
  | _ => s.committedSeq

/-- The batch that has left the ring and has not been tried. -/
def State.inFlight (s : State cap) : List Event :=
  match s.phase with
  | .taken batch _ => batch
  | _ => []

/-- Every event that is settled is applied or counted lost, by its number in the order of
acceptance, and what is durable is exactly the applied ones, once each and in that order. -/
structure Accounts (tables : Tables) (s : State cap) (applied lost : List Nat) : Prop where
  settled : ∀ i, i < s.settled ↔ i ∈ applied ∨ i ∈ lost
  once : ∀ i ∈ applied, i ∉ lost
  ordered : applied.Pairwise (· < ·)
  distinct : lost.Nodup
  counted : s.eventsLost = lost.length
  durable : s.proc.session.committed = (applied.filterMap (s.accepted[·]?)).foldl applyEvent tables
  announced : s.committedSeq ≤ s.settled

/-- Where the events are that are not settled. -/
structure Queued (s : State cap) : Prop where
  closed : s.proc.session.working = none
  numbered : s.enqueueSeq = s.accepted.length
  within : s.settled ≤ s.accepted.length
  pending : s.accepted.drop s.settled = s.inFlight ++ s.ring.contents
  taken : ∀ batch seqAfter, s.phase = .taken batch seqAfter → seqAfter = s.settled + batch.length

theorem filterMap_range' (events : List Event) (start n : Nat) :
    (List.range' start n).filterMap (events[·]?) = (events.drop start).take n := by
  induction n generalizing start with
  | zero => simp
  | succ n ih =>
    rw [List.range'_succ]
    cases here : events[start]? with
    | none =>
      have past := List.getElem?_eq_none_iff.mp here
      rw [List.filterMap_cons_none here, ih, List.drop_eq_nil_of_le past,
        List.drop_eq_nil_of_le (by omega)]
      simp
    | some event =>
      obtain ⟨inside, rfl⟩ := List.getElem?_eq_some_iff.mp here
      rw [List.filterMap_cons_some here, ih, List.drop_eq_getElem_cons inside, List.take_succ_cons]

theorem Accounts.accept {applied lost : List Nat} (accounts : Accounts tables s applied lost)
    (within : s.settled ≤ s.accepted.length)
    (same : after.settled = s.settled) (proc : after.proc = s.proc)
    (eventsLost : after.eventsLost = s.eventsLost)
    (committedSeq : after.committedSeq = s.committedSeq)
    (more : after.accepted = s.accepted ++ [event]) :
    Accounts tables after applied lost where
  settled := by rw [same]; exact accounts.settled
  once := accounts.once
  ordered := accounts.ordered
  distinct := accounts.distinct
  counted := eventsLost.trans accounts.counted
  durable := by
    rw [proc, accounts.durable, more]
    congr 1
    apply List.filterMap_congr
    intro i member
    have inside := (accounts.settled i).mpr (.inl member)
    rw [List.getElem?_append_left (by omega)]
  announced := by rw [same, committedSeq]; exact accounts.announced

theorem Accounts.of_same {applied lost : List Nat} (accounts : Accounts tables s applied lost)
    (same : after.settled = s.settled)
    (proc : after.proc = s.proc) (eventsLost : after.eventsLost = s.eventsLost)
    (accepted : after.accepted = s.accepted)
    (announced : after.committedSeq ≤ after.settled) : Accounts tables after applied lost where
  settled := by rw [same]; exact accounts.settled
  once := accounts.once
  ordered := accounts.ordered
  distinct := accounts.distinct
  counted := eventsLost.trans accounts.counted
  durable := by rw [proc, accounts.durable, accepted]
  announced := announced

/-- A batch that landed. -/
theorem Accounts.land {batch waiting : List Event} {applied lost : List Nat}
    (accounts : Accounts tables s applied lost) (same : after.settled = s.settled + batch.length)
    (pending : s.accepted.drop s.settled = batch ++ waiting)
    (accepted : after.accepted = s.accepted)
    (durable : after.proc.session.committed = batch.foldl applyEvent s.proc.session.committed)
    (eventsLost : after.eventsLost = s.eventsLost)
    (announced : after.committedSeq ≤ after.settled) :
    Accounts tables after (applied ++ List.range' s.settled batch.length) lost where
  settled := by
    intro i
    rw [same, List.mem_append, List.mem_range'_1]
    have := accounts.settled i
    constructor
    · intro inside
      by_cases early : i < s.settled
      · rcases this.mp early with old | gone
        · exact .inl (.inl old)
        · exact .inr gone
      · exact .inl (.inr ⟨by omega, by omega⟩)
    · rintro ((old | new) | gone)
      · have := this.mpr (.inl old)
        omega
      · omega
      · have := this.mpr (.inr gone)
        omega
  once := by
    intro i member gone
    rcases List.mem_append.mp member with old | new
    · exact accounts.once i old gone
    · have early := (accounts.settled i).mpr (.inr gone)
      have late := List.mem_range'_1.mp new
      omega
  ordered := by
    rw [List.pairwise_append]
    refine ⟨accounts.ordered, List.pairwise_lt_range' .., ?_⟩
    intro i old j new
    have early := (accounts.settled i).mpr (.inl old)
    have late := List.mem_range'_1.mp new
    omega
  distinct := accounts.distinct
  counted := eventsLost.trans accounts.counted
  durable := by
    rw [durable, accounts.durable, accepted, List.filterMap_append, List.foldl_append,
      filterMap_range', pending, List.take_left]
  announced := announced

/-- A batch that was given up. -/
theorem Accounts.lose {batch : List Event} {applied lost : List Nat}
    (accounts : Accounts tables s applied lost)
    (same : after.settled = s.settled + batch.length) (accepted : after.accepted = s.accepted)
    (durable : after.proc.session.committed = s.proc.session.committed)
    (eventsLost : after.eventsLost = s.eventsLost + batch.length)
    (announced : after.committedSeq ≤ after.settled) :
    Accounts tables after applied (lost ++ List.range' s.settled batch.length) where
  settled := by
    intro i
    rw [same, List.mem_append, List.mem_range'_1]
    have := accounts.settled i
    constructor
    · intro inside
      by_cases early : i < s.settled
      · rcases this.mp early with old | gone
        · exact .inl old
        · exact .inr (.inl gone)
      · exact .inr (.inr ⟨by omega, by omega⟩)
    · rintro (old | gone | new)
      · have := this.mpr (.inl old)
        omega
      · have := this.mpr (.inr gone)
        omega
      · omega
  once := by
    intro i member gone
    rcases List.mem_append.mp gone with old | new
    · exact accounts.once i member old
    · have early := (accounts.settled i).mpr (.inl member)
      have late := List.mem_range'_1.mp new
      omega
  ordered := accounts.ordered
  distinct := by
    rw [List.nodup_append]
    refine ⟨accounts.distinct, List.nodup_range' .., ?_⟩
    intro i old j new
    have early := (accounts.settled i).mpr (.inr old)
    have late := List.mem_range'_1.mp new
    omega
  counted := by rw [eventsLost, accounts.counted, List.length_append, List.length_range']
  durable := by rw [durable, accounts.durable, accepted]
  announced := announced

structure State.Kept (tables : Tables) (s : State cap) : Prop where
  queued : Queued s
  accounts : ∃ applied lost, Accounts tables s applied lost

theorem State.Kept.open (positive : 0 < cap) (tables : Tables) :
    (State.open positive tables).Kept tables where
  queued := ⟨rfl, rfl, le_rfl, rfl, nofun⟩
  accounts := ⟨[], [], by simp [State.open, State.settled], by simp, .nil, .nil, rfl, rfl, le_rfl⟩

/-- When a batch is tried, sqlite answers each attempt soundly. -/
def SoundAnswers (s : State cap) (step : Step) : Prop :=
  match step, s.phase with
  | .commit attempts, .taken batch _ => ∀ k < storeCommitAttempts, (attempts k).Sound batch
  | _, _ => True

theorem State.Kept.enqueue {s : State cap} (kept : s.Kept tables) (event : Event) :
    (s.enqueue event).2.Kept tables := by
  rw [State.enqueue]
  split
  next => exact kept
  next ring pushed =>
    obtain ⟨closed, numbered, within, pending, taken⟩ := kept.queued
    obtain ⟨applied, lost, accounts⟩ := kept.accounts
    refine ⟨⟨closed, ?_, ?_, ?_, taken⟩, applied, lost, accounts.accept within rfl rfl rfl rfl rfl⟩
    · simp [numbered]
    · rw [List.length_append]
      exact within.trans (Nat.le_add_right _ _)
    · have longer : (s.accepted ++ [event]).drop s.settled = s.accepted.drop s.settled ++ [event] :=
        List.drop_append_of_le_length within
      exact longer.trans (by rw [pending, RingBuffer.push_contents pushed, List.append_assoc]; rfl)

theorem State.Kept.drain {s after : State cap} (kept : s.Kept tables) (idle : s.phase = .idle)
    (drained : { s with
      ring := (s.ring.drain commitMax).2
      phase := .taken (s.ring.drain commitMax).1 (s.enqueueSeq - (s.ring.drain commitMax).2.count)
        } = after) :
    after.Kept tables := by
  subst drained
  obtain ⟨closed, numbered, within, pending, _⟩ := kept.queued
  obtain ⟨applied, lost, accounts⟩ := kept.accounts
  have here : s.settled = s.committedSeq := by rw [State.settled, idle]
  have waits : s.accepted.drop s.committedSeq = s.ring.contents := by
    rw [← here, pending, State.inFlight, idle, List.nil_append]
  have whole :
      (s.ring.drain commitMax).1 ++ (s.ring.drain commitMax).2.contents = s.ring.contents := by
    rw [RingBuffer.drain_fst, RingBuffer.drain_contents, List.take_append_drop]
  refine ⟨⟨closed, numbered, ?_, ?_, ?_⟩, applied, lost,
    accounts.of_same here.symm rfl rfl rfl le_rfl⟩
  · exact here ▸ within
  · exact waits.trans whole.symm
  · intro batch seqAfter same
    obtain ⟨rfl, rfl⟩ := Phase.taken.inj same
    have sizes := congrArg List.length (waits.trans whole.symm)
    rw [List.length_drop, List.length_append, RingBuffer.length_contents] at sizes
    dsimp only [State.settled]
    rw [here] at within
    omega

theorem State.Kept.commit {s : State cap} {landed : Bool} {after : Proc} (kept : s.Kept tables)
    (phase : s.phase = .taken batch seqAfter)
    (sound : ∀ k < storeCommitAttempts, (attempts k).Sound batch)
    (done : commitBatch attempts batch storeCommitAttempts s.proc = (landed, after)) :
    State.Kept tables { s with
      proc := after
      phase := .done seqAfter
      eventsLost := if landed then s.eventsLost else s.eventsLost + batch.length } := by
  obtain ⟨closed, numbered, within, pending, taken⟩ := kept.queued
  obtain ⟨applied, lost, accounts⟩ := kept.accounts
  have written := commitBatch_spec closed sound le_rfl done
  have here : s.settled = s.committedSeq := by rw [State.settled, phase]
  have reached := taken batch seqAfter phase
  have waits : s.accepted.drop s.settled = batch ++ s.ring.contents := by
    rw [pending, State.inFlight, phase]
  have ahead : s.accepted.drop seqAfter = s.ring.contents := by
    rw [reached, ← List.drop_drop, waits, List.drop_left]
  have sizes := congrArg List.length waits
  rw [List.length_drop, List.length_append] at sizes
  refine ⟨⟨by rw [written], numbered, ?_, ahead, nofun⟩, ?_⟩
  · dsimp only [State.settled]
    omega
  · have announced : s.committedSeq ≤ seqAfter := by omega
    cases landed with
    | true => exact ⟨_, _, accounts.land reached waits rfl (by rw [written]; rfl) rfl announced⟩
    | false => exact ⟨_, _, accounts.lose reached rfl (by rw [written]; rfl) rfl announced⟩

theorem State.Kept.step {s after : State cap} {action : Step} (kept : s.Kept tables)
    (sound : SoundAnswers s action)
    (stepped : s.step commitMax action = some after) : after.Kept tables := by
  obtain ⟨closed, numbered, within, pending, taken⟩ := kept.queued
  obtain ⟨applied, lost, accounts⟩ := kept.accounts
  cases action with
  | enqueue event =>
    obtain rfl := Option.some.inj stepped
    exact kept.enqueue event
  | drain =>
    rw [State.step] at stepped
    split at stepped
    next idle =>
      split at stepped
      next => contradiction
      next => exact kept.drain idle (Option.some.inj stepped)
    next => contradiction
  | commit attempts =>
    rw [State.step] at stepped
    split at stepped
    next batch seqAfter phase =>
      obtain rfl := Option.some.inj stepped
      simp only [SoundAnswers, phase] at sound
      exact kept.commit phase sound rfl
    next => contradiction
  | publish =>
    rw [State.step] at stepped
    split at stepped
    next seqAfter phase =>
      obtain rfl := Option.some.inj stepped
      have here : s.settled = seqAfter := by rw [State.settled, phase]
      have waits : s.accepted.drop seqAfter = s.ring.contents := by
        rw [← here, pending, State.inFlight, phase, List.nil_append]
      exact ⟨⟨closed, numbered, here ▸ within, waits, nofun⟩, applied, lost,
        accounts.of_same here.symm rfl rfl rfl le_rfl⟩
    next => contradiction
  | flush =>
    obtain rfl := Option.some.inj stepped
    exact ⟨⟨closed, numbered, within, pending, taken⟩, applied, lost,
      accounts.of_same rfl rfl rfl rfl accounts.announced⟩
  | flushed caller =>
    rw [State.step] at stepped
    split at stepped
    next target here =>
      split at stepped
      next =>
        obtain rfl := Option.some.inj stepped
        exact ⟨⟨closed, numbered, within, pending, taken⟩, applied, lost,
          accounts.of_same rfl rfl rfl rfl accounts.announced⟩
      next => contradiction
    next => contradiction
  | timedOut caller =>
    rw [State.step] at stepped
    split at stepped
    next =>
      obtain rfl := Option.some.inj stepped
      exact ⟨⟨closed, numbered, within, pending, taken⟩, applied, lost,
        accounts.of_same rfl rfl rfl rfl accounts.announced⟩
    next => contradiction

/-- The accounts are exact, and a flush that succeeds has waited for every event that was
accepted before it was called. -/
def EventsAccounted (tables : Tables) (before : State cap) (step : Step) (after : State cap) :
    Prop :=
  ∃ applied lost, Accounts tables after applied lost ∧
    ∀ caller target, step = .flushed caller → before.waiting[caller]? = some target → ∀ i < target,
      i ∈ applied ∨ i ∈ lost

theorem State.Kept.accounted {s after : State cap} {action : Step} (kept : after.Kept tables)
    (stepped : s.step commitMax action = some after) : EventsAccounted tables s action after := by
  obtain ⟨applied, lost, accounts⟩ := kept.accounts
  refine ⟨applied, lost, accounts, ?_⟩
  rintro caller target rfl here i early
  simp only [State.step, here] at stepped
  split at stepped
  next reached =>
    obtain rfl := Option.some.inj stepped
    have announced := accounts.announced
    dsimp only at announced
    exact (accounts.settled i).mp (by omega)
  next => contradiction

/-- In every run in which sqlite answers each attempt soundly. -/
theorem events_accounted (positive : 0 < cap) (commitMax : Nat) (tables : Tables)
    (steps : List Step)
    (sound : Along (State.step commitMax) (fun s step _ => SoundAnswers s step)
      (State.open positive tables) steps) :
    Along (State.step commitMax) (EventsAccounted tables) (State.open positive tables) steps := by
  apply Along.of_invariant _ (State.Kept.open positive tables) sound
  intro s step after kept sound stepped
  have next := kept.step sound stepped
  exact ⟨next, next.accounted stepped⟩

/-- Every statement of the attempt is served. -/
def Attempt.answered (begin commit : Outcome) : Attempt :=
  ⟨begin, fun _ => (.served, .served), commit⟩

theorem Attempt.answered_outcomes (begin commit : Outcome) (batch : List Event) (i : Nat) :
    ∀ outcome ∈ (Attempt.answered begin commit).outcomes batch i, outcome = .served := by
  induction batch generalizing i with
  | nil => exact List.forall_mem_nil _
  | cons event rest ih =>
    rw [Attempt.outcomes, List.forall_mem_append]
    refine ⟨?_, ih (i + 1)⟩
    cases event with
    | block e =>
      rw [Event.outcomes]
      split_ifs <;> simp [Attempt.answered]
    | _ => simp [Event.outcomes, Attempt.answered]

theorem contained_of_served {outcomes : List Outcome}
    (served : ∀ outcome ∈ outcomes, outcome = .served) :
    Contained true outcomes := by
  induction outcomes with
  | nil => trivial
  | cons outcome rest ih =>
    obtain ⟨rfl, later⟩ := List.forall_mem_cons.mp served
    exact ih later

theorem Attempt.answered_sound (begin commit : Outcome) (batch : List Event) :
    (Attempt.answered begin commit).Sound batch :=
  fun _ => ⟨contained_of_served (Attempt.answered_outcomes begin commit batch 0),
    fun _ => Attempt.answered_outcomes begin commit batch 0⟩

def oneShare : Event := .share ⟨[97], [], 0, 1, false, [], 5, 5⟩

/-- A locked database for one attempt, and then the batch lands. -/
def lockedOnce : List Step :=
  [.enqueue oneShare, .flush, .drain,
    .commit fun k => .answered (if k = 0 then .error else .served) .served, .publish, .flushed 0]

theorem events_accounted_locked :
    (run (State.step 100) (State.open Nat.one_pos Tables.empty) lockedOnce).isSome ∧
    Along (State.step 100) (fun s step _ => SoundAnswers s step)
      (State.open Nat.one_pos Tables.empty) lockedOnce ∧
      Along (State.step 100) (EventsAccounted Tables.empty) (State.open Nat.one_pos Tables.empty)
        lockedOnce := by
  have sound : Along (State.step 100) (fun s step _ => SoundAnswers s step)
      (State.open Nat.one_pos Tables.empty) lockedOnce := by
    have any : Along (State.step 100) (fun _ _ _ => True) (State.open Nat.one_pos Tables.empty)
        lockedOnce := by
      decide +kernel
    apply any.imp
    intro s step after member _
    simp only [lockedOnce, List.mem_cons, List.not_mem_nil, or_false] at member
    rcases member with rfl | rfl | rfl | rfl | rfl | rfl
    · trivial
    · trivial
    · trivial
    · cases phase : s.phase with
      | taken batch seqAfter =>
        simp only [SoundAnswers, phase]
        exact fun k _ => Attempt.answered_sound _ _ batch
      | _ => simp only [SoundAnswers, phase]
    · trivial
    · trivial
  exact ⟨by decide +kernel, sound, events_accounted Nat.one_pos 100 Tables.empty lockedOnce sound⟩

def insertFails : List Step :=
  [.enqueue oneShare, .drain, .commit fun _ => ⟨.served, fun _ => (.served, .error), .served⟩,
    .publish]

def insertFailed : State 1 :=
  (run (State.step 100) (State.open Nat.one_pos Tables.empty) insertFails).getD
    (State.open Nat.one_pos Tables.empty)

/-- The share is through, is not in the table, and is not counted. -/
theorem failed_insert_uncounted :
    ¬Along (State.step 100) (EventsAccounted Tables.empty) (State.open Nat.one_pos Tables.empty)
    insertFails := by
  intro along
  have ended : (run (State.step 100) (State.open Nat.one_pos Tables.empty) insertFails).isSome ∧
    insertFailed.settled = 1 ∧
      insertFailed.eventsLost = 0 ∧ insertFailed.accepted = [oneShare] ∧
      insertFailed.proc.session.committed.shares = [] ∧
      (applyEvent Tables.empty oneShare).shares ≠ [] := by
    decide +kernel
  obtain ⟨ends, settled, uncounted, accepted, unrecorded, recorded⟩ := ended
  have ran :
      run (State.step 100) (State.open Nat.one_pos Tables.empty) insertFails = some insertFailed :=
    eq_some_getD ends _
  have states :
    Along (State.step 100) (fun _ _ s => ∃ applied lost, Accounts Tables.empty s applied lost)
      (State.open Nat.one_pos Tables.empty) insertFails := by
    refine along.imp ?_
    rintro _ _ after _ ⟨applied, lost, accounts, _⟩
    exact ⟨applied, lost, accounts⟩
  have opened :
      ∃ applied lost, Accounts Tables.empty (State.open Nat.one_pos Tables.empty) applied lost :=
    (State.Kept.open Nat.one_pos Tables.empty).accounts
  obtain ⟨applied, lost, accounts⟩ :=
    Along.final (P := fun s => ∃ applied lost, Accounts Tables.empty s applied lost) opened
    states ran
  have none : lost = [] := List.length_eq_zero_iff.mp (accounts.counted.symm.trans uncounted)
  have only : applied = [0] := by
    have zero := (accounts.settled 0).mp (by omega)
    have first : ∀ i ∈ applied, i = 0 := by
      intro i member
      have := (accounts.settled i).mpr (.inl member)
      omega
    have nodup := accounts.ordered.imp fun {a b} (less : a < b) => less.ne
    rw [none] at zero
    cases applied with
    | nil => simp at zero
    | cons i rest =>
      obtain rfl := first i List.mem_cons_self
      cases rest with
      | nil => rfl
      | cons j rest =>
        have same := first j (by simp)
        exact absurd same.symm (List.rel_of_pairwise_cons nodup List.mem_cons_self)
  have durable := congrArg Tables.shares accounts.durable
  rw [unrecorded, only, accepted] at durable
  exact recorded durable.symm

end SimplePool.Store.Writer
