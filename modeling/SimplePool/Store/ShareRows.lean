import SimplePool.Store.PpsLedger

/-! Where the rows of shares come from: whatever fails and whatever is rolled back, each was
there before or is of an event in the batch. -/
namespace SimplePool.Store.Writer
open Wire Transition

/-- What is durable has the property, and so has what a transaction made of it. -/
structure Session.Holds {δ : Type} (q : δ → Prop) (s : Session δ) : Prop where
  committed : q s.committed
  working : ∀ db, s.working = some db → q db

section Holds

variable {δ : Type} {q : δ → Prop} {s : Session δ}

theorem Session.Holds.rollback (holds : s.Holds q) : s.rollback.Holds q := ⟨holds.committed, nofun⟩

theorem Session.Holds.step (holds : s.Holds q) {f : δ → δ} (frame : ∀ db, q db → q (f db))
    (outcome : Outcome) :
    (s.step f outcome).Holds q := by
  cases outcome with
  | served =>
    rw [Session.step, Session.write]
    split
    next closed =>
      exact ⟨frame _ holds.committed, fun db opened => holds.working db (by simpa using opened)⟩
    next db opened =>
      refine ⟨holds.committed, fun other same => ?_⟩
      obtain rfl := Option.some.inj same
      exact frame db (holds.working db opened)
  | error => exact holds
  | rolledBack => exact holds.rollback

end Holds

/-- Every row of shares has the property. -/
def Tables.SharesAll (p : ShareRow → Prop) (t : Tables) : Prop := ∀ row ∈ t.shares, p row

/-- What the event writes to shares has the property, under any worker. -/
def Event.Writes (p : ShareRow → Prop) : Event → Prop
  | .share e => ∀ workerId, p ⟨workerId, seconds e.tsMs, e.difficulty, e.isBlock, orNull e.hash,
    e.deltaSats, e.rateUsed⟩
  | _ => True

section Rows

variable {p : ShareRow → Prop} {proc after : Proc} {event : Event} {batch : List Event}

/-- A statement that leaves the table of shares alone. -/
theorem Session.Holds.others {s : Session Tables} (holds : s.Holds (Tables.SharesAll p))
    (f : Tables → Tables) (same : ∀ t, (f t).shares = t.shares) (outcome : Outcome) :
    (s.step f outcome).Holds (Tables.SharesAll p) := by
  refine holds.step (fun t all => ?_) outcome
  rw [Tables.SharesAll, same]
  exact all

theorem insertBlock_shares (finder : Option Nat) (e : BlockEvent) (t : Tables) :
    (insertBlock finder e t).shares = t.shares := by
  rw [insertBlock]
  split_ifs <;> rfl

theorem resolveWorkerId_sharesAll (holds : proc.session.Holds (Tables.SharesAll p))
    (outcome : Outcome) (name address : Bytes) (tsMs : UInt64) :
    (resolveWorkerId outcome proc name address tsMs).2.session.Holds (Tables.SharesAll p) := by
  rw [resolveWorkerId_session]
  exact holds.others (upsertWorker name address tsMs) (fun _ => rfl) outcome

theorem processEvent_sharesAll (holds : proc.session.Holds (Tables.SharesAll p))
    (writes : event.Writes p) (outcomes : Outcome × Outcome) :
    (processEvent outcomes proc event).session.Holds (Tables.SharesAll p) := by
  cases event with
  | share e =>
    have resolved := resolveWorkerId_sharesAll holds outcomes.1 e.workerName e.payoutAddress e.tsMs
    rw [processEvent]
    split
    next p found =>
      rw [found] at resolved
      exact resolved
    next workerId p found =>
      rw [found] at resolved
      refine resolved.step (fun t all => ?_) outcomes.2
      exact List.forall_mem_append.mpr ⟨all, List.forall_mem_singleton.mpr (writes workerId)⟩
  | reject e => exact holds.others (insertReject e) (fun _ => rfl) outcomes.2
  | block e =>
    rw [processEvent]
    split
    next => exact holds.others _ (insertBlock_shares none e) outcomes.2
    next =>
      have resolved :=
        resolveWorkerId_sharesAll holds outcomes.1 e.workerName e.payoutAddress e.tsMs
      exact resolved.others _ (insertBlock_shares _ e) outcomes.2
  | credit e =>
    have resolved := resolveWorkerId_sharesAll holds outcomes.1 e.workerName e.payoutAddress e.tsMs
    rw [processEvent]
    split
    next p found =>
      rw [found] at resolved
      exact resolved
    next workerId p found =>
      rw [found] at resolved
      exact resolved.others (upsertCredit workerId e) (fun _ => rfl) outcomes.2

theorem processBatch_sharesAll (holds : proc.session.Holds (Tables.SharesAll p))
    (writes : ∀ event ∈ batch, event.Writes p)
    (a : Attempt) (i : Nat) : (processBatch a proc batch i).session.Holds (Tables.SharesAll p) := by
  induction batch generalizing proc i with
  | nil => exact holds
  | cons event rest ih =>
    rw [processBatch]
    exact ih (processEvent_sharesAll holds (writes event List.mem_cons_self) (a.steps i))
      (fun other member => writes other (List.mem_cons_of_mem _ member)) (i + 1)

theorem commitAttempt_sharesAll (holds : proc.session.Holds (Tables.SharesAll p))
    (writes : ∀ event ∈ batch, event.Writes p)
    (done : commitAttempt a proc batch = (landed, after)) :
    after.session.Holds (Tables.SharesAll p) := by
  rw [commitAttempt] at done
  split at done
  next =>
    let begin : Proc :=
      { proc with session := { proc.session with working := some proc.session.committed } }
    have begun : begin.session.Holds (Tables.SharesAll p) :=
      ⟨holds.committed, fun db opened => Option.some.inj opened ▸ holds.committed⟩
    have written := processBatch_sharesAll begun writes a 0
    dsimp only at done
    split at done
    next db committed opened =>
      cases done
      exact ⟨written.working db opened, fun _ closed => by cases closed⟩
    next =>
      cases done
      exact written.rollback
  next =>
    cases done
    exact holds

/-- Of all the attempts at a batch. -/
theorem commitBatch_sharesAll (holds : proc.session.Holds (Tables.SharesAll p))
    (writes : ∀ event ∈ batch, event.Writes p)
    (done : commitBatch attempts batch left proc = (landed, after)) :
    after.session.Holds (Tables.SharesAll p) := by
  induction left generalizing proc with
  | zero =>
    cases done
    exact holds
  | succ left ih =>
    rw [commitBatch] at done
    cases tried : commitAttempt (attempts (storeCommitAttempts - (left + 1))) proc batch with
    | mk ok mid =>
      have kept := commitAttempt_sharesAll holds writes tried
      rw [tried] at done
      dsimp only at done
      split at done
      next =>
        cases done
        exact kept
      next => exact ih kept done

end Rows

/-- Apart from a producer's, no step puts an event into the queue. -/
theorem State.step_pending {s after : State cap} (stepped : s.step commitMax e = some after)
    (other : ∀ event, e ≠ .enqueue event) : after.pending ⊆ s.pending := by
  cases e with
  | enqueue event => exact absurd rfl (other event)
  | drain =>
    rw [State.step] at stepped
    split at stepped
    next idle =>
      split at stepped
      next => contradiction
      next =>
        obtain rfl := Option.some.inj stepped
        have whole :
            (s.ring.drain commitMax).1 ++ (s.ring.drain commitMax).2.contents = s.pending := by
          rw [RingBuffer.drain_fst, RingBuffer.drain_contents, List.take_append_drop, State.pending,
            State.inFlight, idle, List.nil_append]
        rw [← whole]
        exact List.Subset.refl _
    next => contradiction
  | commit attempts =>
    rw [State.step] at stepped
    split at stepped
    next batch seqAfter phase =>
      obtain rfl := Option.some.inj stepped
      exact List.subset_append_right _ _
    next => contradiction
  | publish =>
    rw [State.step] at stepped
    split at stepped
    next seqAfter phase =>
      obtain rfl := Option.some.inj stepped
      exact List.subset_append_right _ _
    next => contradiction
  | flush =>
    obtain rfl := Option.some.inj stepped
    exact List.Subset.refl _
  | flushed caller =>
    rw [State.step] at stepped
    split at stepped
    next =>
      split_ifs at stepped
      obtain rfl := Option.some.inj stepped
      exact List.Subset.refl _
    next => contradiction
  | timedOut caller =>
    rw [State.step] at stepped
    split at stepped
    next =>
      obtain rfl := Option.some.inj stepped
      exact List.Subset.refl _
    next => contradiction

end SimplePool.Store.Writer
