import SimplePool.Slipstream.Service

/-! What becomes of a submission. Every call that ends should leave one row in the log and no
exception, and what the node took because of it should be in the table. -/
namespace SimplePool.Slipstream
open Transition

def Submission.request (row : Submission) : Request := ⟨row.rawHex, row.submitter⟩

def Outcome.isReturned : Outcome → Bool
  | .returned _ => true
  | .thrown _ => false

/-- The log has one row a call, in the order in which they ended, no call threw, and what the
node took is tracked. -/
structure Accounted (s : State) : Prop where
  logged : s.store.submissions.map Submission.request = s.ended.map Ended.request
  returned : ∀ ended ∈ s.ended, ended.outcome.isReturned
  tracked : ∀ ended ∈ s.ended, ∀ txid ∈ ended.took, txid ∈ s.store.tracked

instance (s : State) : Decidable (Accounted s) :=
  decidable_of_iff (_ ∧ (∀ ended ∈ s.ended, ended.outcome.isReturned = true) ∧
      ∀ ended ∈ s.ended, ∀ txid ∈ ended.took, txid ∈ s.store.tracked)
    ⟨fun ⟨logged, returned, tracked⟩ => ⟨logged, returned, tracked⟩,
      fun ⟨logged, returned, tracked⟩ => ⟨logged, returned, tracked⟩⟩

/-- Not found counts as an answer. -/
def Reply.answers {α : Type} : Reply α → Bool
  | .ok _ => true
  | .rpcError code _ => code = -5
  | .unavailable _ => false

/-- No call has inserted the row that this one is about to insert. -/
def Call.insertsNew (tracked : List String) : Call → Bool
  | .entering p _ => p.existing.isSome || p.check.txid ∉ tracked
  | _ => true

/-- The transaction that the node has taken for the call is tracked. -/
def Call.tookTracked (tracked : List String) : Call → Bool
  | .taken p => p.check.txid ∈ tracked
  | _ => true

/-- `getmempoolentry` answers, the insertion meets no row that another call inserted meanwhile, and
the answer to a transaction that the node has taken is not lost unless it is tracked. -/
def Heard (s : State) : Event → Prop
  | .lookedUp _ reply => reply.answers
  | .entered slot reply => reply.answers ∧ (s.calls slot).insertsNew s.store.tracked
  | .sent slot (.unavailable _) => (s.calls slot).tookTracked s.store.tracked
  | _ => True

instance (s : State) : (event : Event) → Decidable (Heard s event)
  | .lookedUp _ reply => inferInstanceAs (Decidable (reply.answers = true))
  | .entered _ reply => inferInstanceAs (Decidable (reply.answers = true ∧ _ = true))
  | .sent _ (.unavailable _) => inferInstanceAs (Decidable (_ = true))
  | .sent _ (.ok _) | .sent _ (.rpcError _ _) | .wait _ | .submit .. | .checked .. | .refreshed ..
  | .took _ | .tick
  | .template _ | .entry _ | .block _ | .header .. | .resent _ => inferInstanceAs (Decidable True)

/-- A transaction that had a row when the call looked has one. -/
def Call.Backed (tracked : List String) : Call → Prop
  | .lookingUp _ check existing => existing.isSome → check.txid ∈ tracked
  | .refreshing a => a.existing.isSome → a.check.txid ∈ tracked
  | .sending p | .taken p | .entering p _ => p.existing.isSome → p.check.txid ∈ tracked
  | _ => True

structure State.Backed (s : State) : Prop where
  accounted : Accounted s
  calls : ∀ slot, (s.calls slot).Backed s.store.tracked

section

variable {cfg : Config} {s t : State} {slot : Nat} {request : Request} {p : Priced}

theorem Reply.orNull_of_answers {α : Type} {reply : Reply α} (method : String)
    (answers : reply.answers) :
    ∃ value, reply.orNull method = .ok value := by
  cases reply with
  | ok value => exact ⟨some value, rfl⟩
  | rpcError code message => exact ⟨none, if_pos (of_decide_eq_true answers)⟩
  | unavailable => contradiction

theorem Reply.answers_of_orNull {α : Type} {reply : Reply α} {value : Option α}
    (found : reply.orNull method = .ok value) : reply.answers := by
  cases reply with
  | ok => rfl
  | rpcError code message =>
    rw [Reply.orNull] at found
    split_ifs at found with missing
    exact decide_eq_true missing
  | unavailable => cases found

theorem Call.Backed.mono {call : Call} (backed : call.Backed tracked) (more : tracked ⊆ tracked') :
    call.Backed tracked' := by
  cases call with
  | idle | testing => trivial
  | _ => exact fun had => more (backed had)

/-- Log, calls and outcomes are as they were, and no row is lost. -/
theorem State.Backed.quiet (backed : s.Backed) (log : t.store.submissions = s.store.submissions)
    (more : s.store.tracked ⊆ t.store.tracked)
    (ended : t.ended = s.ended) (calls : t.calls = s.calls) : t.Backed where
  accounted :=
    { logged := by rw [log, ended]; exact backed.accounted.logged
      returned := by rw [ended]; exact backed.accounted.returned
      tracked := by
        rw [ended]
        exact fun e member txid took => more (backed.accounted.tracked e member txid took) }
  calls slot := by rw [calls]; exact (backed.calls slot).mono more

/-- The table has the same transactions. -/
theorem State.Backed.frame (backed : s.Backed) (log : t.store.submissions = s.store.submissions)
    (same : t.store.tracked = s.store.tracked)
    (ended : t.ended = s.ended) (calls : t.calls = s.calls) : t.Backed :=
  backed.quiet log (same ▸ List.Subset.refl _) ended calls

theorem State.Backed.put (backed : s.Backed) (slot : Nat) {call : Call}
    (mine : call.Backed s.store.tracked) : (s.put slot call).Backed where
  accounted := ⟨backed.accounted.logged, backed.accounted.returned, backed.accounted.tracked⟩
  calls other := by
    change (Function.update s.calls slot call other).Backed s.store.tracked
    by_cases same : other = slot
    · rw [same, Function.update_self]
      exact mine
    · rw [Function.update_of_ne same]
      exact backed.calls other

/-- The call is logged and returns. -/
theorem State.Backed.recorded (backed : s.Backed) (slot : Nat) (request : Request)
    (txid : Option String) (accepted : Bool)
    (rejectReason : Option String) (took : Option String) (response : Response)
    (known : ∀ txid ∈ took, txid ∈ s.store.tracked) :
    ((s.record request txid accepted rejectReason).finish slot
      ⟨request, took, .returned response⟩).Backed := by
  have idle : Call.Backed s.store.tracked .idle := trivial
  exact
  { accounted :=
      { logged := congrArg (request :: ·) backed.accounted.logged
        returned := List.forall_mem_cons.mpr ⟨rfl, backed.accounted.returned⟩
        tracked := List.forall_mem_cons.mpr ⟨known, backed.accounted.tracked⟩ }
    calls := (backed.put slot idle).calls }

theorem State.Backed.refuse (backed : s.Backed) (slot : Nat) (request : Request) (httpStatus : Nat)
    (reason : String) (txid : Option String) (rates : Option (ℚ × ℚ))
    (known : ∀ txid ∈ took, txid ∈ s.store.tracked) :
    (refuse s slot request httpStatus reason txid rates took).Backed :=
  backed.recorded slot request txid false (some reason) took (.refused httpStatus reason txid rates)
    known

theorem submit_backed (backed : s.Backed) (slot : Nat) (rawHex submitter : Option String) :
    (submit s slot rawHex submitter).Backed := by
  rw [submit]
  split_ifs
  · exact backed.refuse slot _ 400 "invalid-hex" none none (by simp)
  · exact backed.refuse slot _ 400 "tx-size" none none (by simp)
  · exact backed.put slot trivial

theorem price_backed (backed : s.Backed) (a : Admission)
    (known : a.existing.isSome → a.check.txid ∈ s.store.tracked) :
    (price cfg s slot a).Backed := by
  rw [price]
  split_ifs
  · exact backed.refuse slot _ 200 "fee-rate-too-low" _ _ (by simp)
  · exact backed.put slot known
  · exact backed.put slot known

theorem admitted_backed (backed : s.Backed) (a : Admission)
    (known : a.existing.isSome → a.check.txid ∈ s.store.tracked) :
    (admitted cfg s slot a).Backed := by
  rw [admitted]
  split_ifs
  · exact backed.put slot known
  · exact price_backed backed a known

theorem checked_backed (backed : s.Backed) (reply : Reply Check) :
    (checked cfg s slot request reply).Backed := by
  cases reply with
  | rpcError code message =>
    rw [checked]
    split_ifs
    · exact backed.refuse slot request 400 "tx-decode-failed" none none (by simp)
    · exact backed.refuse slot request 502 "node-unavailable" none none (by simp)
  | unavailable => exact backed.refuse slot request 502 "node-unavailable" none none (by simp)
  | ok check =>
    rw [checked]
    dsimp only
    have known : (s.store.get check.txid).isSome → check.txid ∈ s.store.tracked :=
      (s.store.get_isSome_iff check.txid).mp
    split
    next row _ => exact backed.recorded slot request _ true none none _ (by simp)
    next =>
      split_ifs
      · exact admitted_backed backed _ known
      · exact backed.put slot known
      · exact backed.refuse slot request 200 _ _ none (by simp)

theorem lookedUp_backed (backed : s.Backed)
    (here : s.calls slot = .lookingUp request check existing) (answers : reply.answers) :
    (lookedUp cfg s slot request check existing reply).Backed := by
  have known := backed.calls slot
  rw [here] at known
  obtain ⟨entry, found⟩ := Reply.orNull_of_answers "getmempoolentry" answers
  rw [lookedUp, found]
  cases entry with
  | none => exact backed.refuse slot request 200 "already-confirmed" _ none (by simp)
  | some entry => exact admitted_backed backed _ known

theorem refreshTemplate_backed (backed : s.Backed) (reply : Reply Template) :
    (refreshTemplate s reply).Backed := by
  cases reply with
  | ok | rpcError | unavailable => exact backed.frame rfl rfl rfl rfl

theorem sent_backed (backed : s.Backed) (known : p.existing.isSome → p.check.txid ∈ s.store.tracked)
    (took : Bool) (reply : Reply Unit)
    (heard : ∀ message, reply = .unavailable message → took → p.check.txid ∈ s.store.tracked) :
    (sent s slot p took reply).Backed := by
  cases reply with
  | ok => exact backed.put slot known
  | rpcError code message => exact backed.refuse slot _ 200 message _ none (by simp)
  | unavailable message =>
    refine backed.refuse slot _ 502 "node-unavailable" _ none ?_
    intro txid member
    split_ifs at member with was
    · obtain rfl := Option.some.inj member
      exact heard message rfl was
    · contradiction

/-- The row is in the table afterwards, with the rows that were. -/
theorem track_some (known : p.existing.isSome → p.check.txid ∈ s.store.tracked)
    (tracks : track s p entry = some store) :
    store.submissions = s.store.submissions ∧ s.store.tracked ⊆ store.tracked ∧
    p.check.txid ∈ store.tracked := by
  rw [track] at tracks
  dsimp only at tracks
  split at tracks
  next row here =>
    obtain rfl := Option.some.inj tracks
    have same := (Store.setStatus_tracked _ p.check.txid .pending s.now none []
      (.resubmittedBy "submitter")).trans
      (s.store.touch_tracked p.check.txid [.rawHex p.request.rawHex, .feeSats p.feeSats,
        .feeRate p.rate, .requiredFeeRate p.required,
        .submittedAt s.now, .submittedHeight (s.template.bind Template.height)])
    refine ⟨Store.setStatus_submissions .., ?_, ?_⟩
    · rw [same]
      exact List.Subset.refl _
    · rw [same]
      exact known (by rw [here]; rfl)
  next =>
    obtain ⟨rows, log, _⟩ := Store.insertAccepted_some tracks
    rw [rows]
    exact ⟨log, List.subset_append_left _ _, List.mem_append_right _ (List.mem_singleton_self _)⟩

theorem track_isSome (fresh : p.existing.isSome ∨ p.check.txid ∉ s.store.tracked) :
    ∃ store, track s p entry = some store := by
  rw [track]
  dsimp only
  split
  next => exact ⟨_, rfl⟩
  next absent =>
    rw [absent] at fresh
    have free : ¬(s.store.get p.check.txid).isSome := by
      rw [Store.get_isSome_iff]
      exact fresh.resolve_left (by simp)
    exact ⟨_, if_neg free⟩

theorem entered_backed (backed : s.Backed)
    (known : p.existing.isSome → p.check.txid ∈ s.store.tracked) (answers : reply.answers)
    (fresh : p.existing.isSome ∨ p.check.txid ∉ s.store.tracked) :
    (entered s slot p took reply).Backed := by
  obtain ⟨entry, found⟩ := Reply.orNull_of_answers "getmempoolentry" answers
  obtain ⟨store, tracks⟩ : ∃ store, track s p entry = some store := track_isSome fresh
  obtain ⟨log, more, there⟩ := track_some known tracks
  rw [entered, found]
  dsimp only
  rw [tracks]
  refine (backed.quiet (t := { s with store }) log more rfl rfl).recorded slot _ _ true none _ _ ?_
  intro txid member
  split_ifs at member
  · obtain rfl := Option.some.inj member
    exact there
  · contradiction

theorem nextRow_backed (backed : s.Backed) (rest : Rest) : (nextRow cfg s rest).Backed := by
  rw [nextRow.eq_def]
  split
  · exact backed.frame rfl rfl rfl rfl
  · split
    · exact backed.frame rfl rfl rfl rfl
    · exact backed.frame rfl rfl rfl rfl
  · exact backed.frame rfl rfl rfl rfl
  · exact backed.frame rfl rfl rfl rfl

theorem State.Backed.setStatus (backed : s.Backed) (txid : String) (status : Status)
    (reason : Option String) (fields : List Column)
    (note : Note) : (s.setStatus txid status reason fields note).Backed :=
  backed.frame (Store.setStatus_submissions ..) (Store.setStatus_tracked ..) rfl rfl

theorem State.Backed.touch (backed : s.Backed) (txid : String) (fields : List Column) :
    (s.touch txid fields).Backed :=
  backed.frame rfl (s.store.touch_tracked txid fields) rfl rfl

theorem State.Backed.tick (backed : s.Backed) (tick : Tick) : State.Backed { s with tick } :=
  backed.frame rfl rfl rfl rfl

theorem followOpen_backed (backed : s.Backed) (row : Row) (rest : List Row)
    (inTemplate : List String) (reply : Reply Entry) :
    (followOpen cfg s row rest inTemplate reply).Backed := by
  rw [followOpen]
  split
  next => exact backed.tick .idle
  next => exact backed.tick _
  next =>
    dsimp only
    split_ifs
    · exact nextRow_backed ((backed.setStatus ..).touch ..) _
    · exact nextRow_backed ((backed.setStatus ..).touch ..) _
    · exact nextRow_backed (backed.setStatus ..) _

theorem openBlock_backed (backed : s.Backed) (row : Row) (rest : Rest) (reply : Reply RawTx) :
    (openBlock s row rest reply).Backed := by
  rw [openBlock]
  split
  · exact backed.tick .idle
  · exact backed.tick _
  · exact backed.tick _

theorem markMined_backed (backed : s.Backed) (row : Row) (blockHash : String) (rest : Rest)
    (reply : Reply Header) (ours : Option Bool) :
    (markMined cfg s row blockHash rest reply ours).Backed := by
  rw [markMined]
  split
  · exact backed.tick .idle
  · exact nextRow_backed (backed.setStatus ..) rest

theorem followMined_backed (backed : s.Backed) (row : Row) (rest : List Row)
    (reply : Reply Header) :
    (followMined cfg s row rest reply).Backed := by
  rw [followMined]
  split
  next => exact backed.tick .idle
  next => exact backed.tick _
  next =>
    split_ifs
    · exact backed.tick _
    · exact nextRow_backed (backed.setStatus ..) _
    · exact nextRow_backed (backed.touch ..) _

theorem minedBlock_backed (backed : s.Backed) (row : Row) (rest : List Row) (reply : Reply RawTx) :
    (minedBlock s row rest reply).Backed := by
  rw [minedBlock]
  split
  next => exact backed.tick .idle
  next =>
    split
    · exact backed.tick _
    · exact backed.tick _

theorem minedEntry_backed (backed : s.Backed) (row : Row) (rest : List Row) (reply : Reply Entry) :
    (minedEntry cfg s row rest reply).Backed := by
  rw [minedEntry]
  split
  · exact backed.tick .idle
  · exact nextRow_backed (backed.setStatus ..) _
  · exact backed.tick _

theorem rebroadcast_backed (backed : s.Backed) (row : Row) (why : String) (rest : Rest)
    (reply : Reply Unit) :
    (rebroadcast cfg s row why rest reply).Backed := by
  cases reply with
  | unavailable => exact nextRow_backed backed rest
  | rpcError code message =>
    rw [rebroadcast]
    split_ifs
    · exact nextRow_backed backed rest
    · exact nextRow_backed (backed.setStatus ..) rest
  | ok =>
    have touched := backed.touch row.txid [.resubmissions (row.resubmissions + 1)]
    exact nextRow_backed
      ((touched.frame (t := { s.touch row.txid [.resubmissions (row.resubmissions + 1)] with
      store := (s.touch row.txid [.resubmissions (row.resubmissions + 1)]).store.event row.txid
        s.now (.rebroadcast why) })
      rfl rfl rfl rfl).setStatus ..) rest

theorem step_backed (backed : s.Backed) (heard : Heard s event)
    (stepped : step cfg s event = some t) : t.Backed := by
  cases event with
  | wait seconds =>
    obtain rfl := Option.some.inj stepped
    exact backed.frame rfl rfl rfl rfl
  | submit slot rawHex submitter =>
    simp only [step] at stepped
    split at stepped
    next =>
      obtain rfl := Option.some.inj stepped
      exact submit_backed backed slot rawHex submitter
    next => contradiction
  | checked slot reply =>
    simp only [step] at stepped
    split at stepped
    next =>
      obtain rfl := Option.some.inj stepped
      exact checked_backed backed reply
    next => contradiction
  | lookedUp slot reply =>
    simp only [step] at stepped
    split at stepped
    next request check existing here =>
      obtain rfl := Option.some.inj stepped
      exact lookedUp_backed backed here heard
    next => contradiction
  | refreshed slot reply =>
    simp only [step] at stepped
    split at stepped
    next a here =>
      obtain rfl := Option.some.inj stepped
      have fresh := refreshTemplate_backed backed reply
      have known := fresh.calls slot
      rw [show (refreshTemplate s reply).calls = s.calls by cases reply <;> rfl, here] at known
      exact price_backed fresh a known
    next => contradiction
  | took slot =>
    simp only [step] at stepped
    split at stepped
    next p here =>
      obtain rfl := Option.some.inj stepped
      have known := backed.calls slot
      rw [here] at known
      exact backed.put slot known
    next => contradiction
  | sent slot reply =>
    have known := backed.calls slot
    simp only [step] at stepped
    split at stepped
    next reply _ _ p here =>
      obtain rfl := Option.some.inj stepped
      rw [here] at known
      exact sent_backed backed known false reply (fun _ _ took => by contradiction)
    next => contradiction
    next reply _ _ p here _ =>
      obtain rfl := Option.some.inj stepped
      rw [here] at known
      refine sent_backed backed known true reply ?_
      rintro message rfl _
      rw [Heard, here] at heard
      exact of_decide_eq_true heard
    next => contradiction
  | entered slot reply =>
    simp only [step] at stepped
    split at stepped
    next p took here =>
      obtain rfl := Option.some.inj stepped
      have known := backed.calls slot
      have fresh := heard.2
      rw [here] at known fresh
      exact entered_backed backed known heard.1 (by simpa [Call.insertsNew] using fresh)
    next => contradiction
  | tick =>
    simp only [step] at stepped
    split at stepped
    next =>
      obtain rfl := Option.some.inj stepped
      exact backed.tick .refreshing
    next => contradiction
  | template reply =>
    simp only [step] at stepped
    split at stepped
    next template _ =>
      obtain rfl := Option.some.inj stepped
      exact nextRow_backed (refreshTemplate_backed backed (.ok template)) _
    next reply _ _ _ _ =>
      obtain rfl := Option.some.inj stepped
      exact (refreshTemplate_backed backed reply).tick .idle
    next => contradiction
  | entry reply =>
    simp only [step] at stepped
    split at stepped
    next =>
      obtain rfl := Option.some.inj stepped
      exact followOpen_backed backed _ _ _ reply
    next =>
      obtain rfl := Option.some.inj stepped
      exact minedEntry_backed backed _ _ reply
    next => contradiction
  | block reply =>
    simp only [step] at stepped
    split at stepped
    next =>
      obtain rfl := Option.some.inj stepped
      exact openBlock_backed backed _ _ reply
    next =>
      obtain rfl := Option.some.inj stepped
      exact minedBlock_backed backed _ _ reply
    next => contradiction
  | header reply ours =>
    simp only [step] at stepped
    split at stepped
    next =>
      obtain rfl := Option.some.inj stepped
      exact markMined_backed backed _ _ _ reply ours
    next =>
      obtain rfl := Option.some.inj stepped
      exact followMined_backed backed _ _ reply
    next => contradiction
  | resent reply =>
    simp only [step] at stepped
    split at stepped
    next =>
      obtain rfl := Option.some.inj stepped
      exact rebroadcast_backed backed _ _ _ reply
    next => contradiction

theorem raise_unaccounted (s : State) (slot : Nat) (request : Request) (took : Option String)
    (message : String) :
    ¬Accounted (raise s slot request took message) := by
  intro accounted
  have returned := accounted.returned _ List.mem_cons_self
  contradiction

theorem orNull_error {α : Type} {reply : Reply α} (method : String) (silent : ¬reply.answers) :
    ∃ message, reply.orNull method = .error message := by
  cases answered : reply.orNull method with
  | ok value => exact absurd (Reply.answers_of_orNull answered) silent
  | error message => exact ⟨message, rfl⟩

theorem step_heard (stepped : step cfg s event = some t) (accounted : Accounted t) :
    Heard s event := by
  cases event with
  | lookedUp slot reply =>
    by_contra silent
    obtain ⟨message, error⟩ := orNull_error "getmempoolentry" silent
    simp only [step] at stepped
    split at stepped
    next =>
      obtain rfl := Option.some.inj stepped
      rw [lookedUp, error] at accounted
      exact raise_unaccounted _ _ _ _ _ accounted
    next => contradiction
  | entered slot reply =>
    simp only [step] at stepped
    split at stepped
    next p took here =>
      obtain rfl := Option.some.inj stepped
      by_contra lost
      cases answered : reply.orNull "getmempoolentry" with
      | error message =>
        rw [entered, answered] at accounted
        exact raise_unaccounted _ _ _ _ _ accounted
      | ok entry =>
        have inserted : ¬(p.existing.isSome ∨ p.check.txid ∉ s.store.tracked) := by
          intro fresh
          refine lost ⟨Reply.answers_of_orNull answered, ?_⟩
          rw [here]
          simpa [Call.insertsNew] using fresh
        rw [not_or, not_not, Option.not_isSome_iff_eq_none] at inserted
        have throws : track s p entry = none := by
          rw [track, inserted.1]
          exact if_pos ((Store.get_isSome_iff ..).mpr inserted.2)
        rw [entered, answered] at accounted
        dsimp only at accounted
        rw [throws] at accounted
        exact raise_unaccounted _ _ _ _ _ accounted
    next => contradiction
  | sent slot reply =>
    cases reply with
    | ok | rpcError => trivial
    | unavailable message =>
      rw [Heard]
      cases here : s.calls slot with
      | taken p =>
        simp only [step, here] at stepped
        obtain rfl := Option.some.inj stepped
        exact decide_eq_true (accounted.tracked _ List.mem_cons_self _ rfl)
      | _ => rfl
  | _ => trivial

end

theorem State.Backed.start : State.start.Backed where
  accounted := ⟨rfl, List.forall_mem_nil _, List.forall_mem_nil _⟩
  calls := fun _ => trivial

/-- In every interleaving, and whatever the node answers: the log has one row for each call that
has ended, none has thrown and what the node took is tracked, exactly in the runs in which every
step is heard. -/
theorem submissions_accounted_iff (cfg : Config) (events : List Event) :
    Along (step cfg) (fun _ _ t => Accounted t) .start events ↔
    Along (step cfg) (fun s event _ => Heard s event) .start events := by
  refine along_iff_of_guarded ?_ ?_ State.Backed.start
  · intro s event t backed stepped
    constructor
    · exact step_heard stepped
    · exact fun heard => (step_backed backed heard stepped).accounted
  · exact fun s event t backed stepped heard => step_backed backed heard stepped

def exactConfig : Config := ⟨1, 6, id, .stable _⟩

/-- A transaction of 100 vB that pays 200 satoshis. -/
def plainCheck : Check := ⟨"aa", "aa", true, 100, 2 / 1000000, none⟩

/-- A submission up to the answer of `sendrawtransaction`, with a template that has room. -/
def sentRun (slot : Nat) : List Event :=
  [.submit slot (some "0200") none, .checked slot (.ok plainCheck),
    .refreshed slot (.ok ⟨some 100, []⟩), .took slot, .sent slot (.ok ())]

/-- The node goes away after it has taken the transaction: the call throws, nothing is logged
and nothing is tracked. -/
theorem entry_lost_unaccounted :
    (∃ s ∈ run (step exactConfig) .start (sentRun 0 ++ [.entered 0 (.unavailable "aborted")]),
      s.store.submissions = [] ∧ s.store.tracked = [] ∧
      s.ended.map (fun ended => (ended.took, ended.outcome.isReturned)) = [(some "aa", false)]) ∧
    ¬Along (step exactConfig) (fun _ _ t => Accounted t) .start
      (sentRun 0 ++ [.entered 0 (.unavailable "aborted")]) := by
  decide +kernel

end SimplePool.Slipstream
