import SimplePool.Payout.AtMostOnce

/-! What one step of a tick can do, and the batches that a run has begun. -/
namespace SimplePool.Payout

/-- The tick holds nothing that it read before. -/
def Pc.free : Pc → Bool
  | .idle | .nudging | .listing => true
  | _ => false

/-- The tick asks after this batch. -/
def Pc.reads : Pc → Option Pending
  | .settling pending | .checkingWallet pending _ | .finalizing pending => some pending
  | _ => none

/-- The tick is about to pay these. -/
def Pc.lists : Pc → Option (List DueRow)
  | .checkingMempool due | .checkingBalance due | .beginning due => some due
  | _ => none

/-- The rows are written and the amounts not looked at yet. -/
def Pc.prepares : Pc → Option Batch
  | .calling batch | .unlocking batch => some batch
  | _ => none

/-- The node has taken the transaction of this batch. -/
def Pc.taken : Pc → Option (Batch × String)
  | .created batch txid | .submitted batch txid | .sent batch txid => some (batch, txid)
  | _ => none

/-- The rows that the tick has written and not recorded a transaction for. -/
def Pc.holds : Pc → Option (List Nat)
  | .calling batch | .unlocking batch | .creating batch | .signing batch _ | .submitting batch _
  | .sending batch
  | .created batch _ | .submitted batch _ | .sent batch _ => some batch.rowIds
  | .attaching rowIds _ _ | .aborting rowIds => some rowIds
  | _ => none

section

variable {pc : Pc} {batch : Batch}

theorem Pc.holds_of_free (free : pc.free = true) : pc.holds = none := by
  cases pc with
  | idle | nudging | listing => rfl
  | _ => contradiction

theorem Pc.holds_of_lists (lists : pc.lists = some due) : pc.holds = none := by
  cases pc with
  | checkingMempool | checkingBalance | beginning => rfl
  | _ => contradiction

theorem Pc.holds_of_reads (reads : pc.reads = some pending) : pc.holds = none := by
  cases pc with
  | settling | checkingWallet | finalizing => rfl
  | _ => contradiction

theorem Pc.holds_of_prepares (prepares : pc.prepares = some batch) :
    pc.holds = some batch.rowIds := by
  cases pc with
  | calling | unlocking =>
    obtain rfl := Option.some.inj prepares
    rfl
  | _ => contradiction

theorem Pc.holds_of_taken (taken : pc.taken = some (batch, txid)) :
    pc.holds = some batch.rowIds := by
  cases pc with
  | created | submitted | sent =>
    obtain ⟨rfl, rfl⟩ := Prod.mk.inj (Option.some.inj taken)
    rfl
  | _ => contradiction

end

/-- The rows stay and nobody loses anything. -/
structure Grows (db db' : Db) : Prop where
  rows : db'.inFlight = db.inFlight
  paid : ∀ workerId, db.paid workerId ≤ db'.paid workerId
  known : ∀ workerId, Known db workerId → Known db' workerId
  nextRowId : db'.nextRowId = db.nextRowId

/-- The batch that the rows of this due list become. -/
def begunBatch (s : State) (due : List DueRow) : Batch :=
  ⟨batchOf due, (beginBatch s.db (batchOf due) (s.nowMs / 1000)).1⟩

/-- What `runOnce` knows about the rows it lists. -/
structure Chosen (db : Db) (due : List DueRow) : Prop where
  nonempty : due ≠ []
  distinct : (due.map DueRow.workerId).Nodup
  known : ∀ row ∈ due, Known db row.workerId

/-- Nothing durable and nothing at the node. -/
def Quietly (s t : State) : Prop := t.db = s.db ∧ t.accepted = s.accepted

inductive Progress (s t : State) : Event → Prop where
  | grown (grows : Grows s.db t.db) (accepted : t.accepted = s.accepted) (pc : t.pc = s.pc) :
    Progress s t event
  | freed (quiet : Quietly s t) (pc : t.pc.free = true) : Progress s t event
  | read (quiet : Quietly s t) (found : pendingBatch s.db = some pending)
    (pc : t.pc = .settling pending) :
      Progress s t event
  | reading (quiet : Quietly s t) (before : s.pc.reads = some pending)
    (after : t.pc.reads = some pending) :
      Progress s t event
  | finalised (before : s.pc = .finalizing pending) (accepted : t.accepted = s.accepted)
    (pc : t.pc = .listing)
      (db : t.db = finalizeBatch s.db pending.rows txFeeSats pending.txid (s.nowMs / 1000)) :
        Progress s t .proceed
  | listed (quiet : Quietly s t) (clear : s.db.inFlight = []) (chosen : Chosen s.db due)
    (pc : t.pc.lists = some due) :
      Progress s t event
  | listing (quiet : Quietly s t) (before : s.pc.lists = some due) (after : t.pc.lists = some due) :
    Progress s t event
  | begun (before : s.pc = .beginning due) (accepted : t.accepted = s.accepted)
      (db : t.db = (beginBatch s.db (batchOf due) (s.nowMs / 1000)).2)
        (pc : t.pc = .calling (begunBatch s due)) :
      Progress s t .proceed
  | preparing (quiet : Quietly s t) (before : s.pc.prepares = some batch)
    (after : t.pc.prepares = some batch) :
      Progress s t event
  | called (quiet : Quietly s t) (before : s.pc.prepares = some batch)
    (amounts : ∀ item ∈ batch.items, 0 < item.sats)
      (pc : t.pc = .creating batch ∨ t.pc = .sending batch) : Progress s t event
  | built (quiet : Quietly s t) (before : s.pc = .creating batch)
    (spliced : splice batch outputs = some parts)
      (pc : t.pc = .signing batch parts) : Progress s t event
  | signed (quiet : Quietly s t) (before : s.pc = .signing batch outputs)
    (pc : t.pc = .submitting batch outputs) :
      Progress s t event
  | dropped (quiet : Quietly s t) (before : s.pc.holds = some rowIds)
    (pc : t.pc = .aborting rowIds) : Progress s t event
  /-- The node signs on its own, for the first address and the whole amount. -/
  | created (before : s.pc = .creating batch) (db : t.db = s.db) (fresh : txid ≠ "")
      (accepted : t.accepted = ⟨txid,
        (batch.items.head?.map fun first => Output.mk first.address batch.total).toList,
        batch.debts⟩ :: s.accepted) (pc : t.pc = .created batch txid) : Progress s t event
  | submitted (before : s.pc = .submitting batch outputs) (db : t.db = s.db) (fresh : txid ≠ "")
      (accepted : t.accepted = ⟨txid, outputs, batch.debts⟩ :: s.accepted)
        (pc : t.pc = .submitted batch txid) :
      Progress s t event
  | sent (before : s.pc = .sending batch) (db : t.db = s.db) (fresh : txid ≠ "")
      (accepted : t.accepted = ⟨txid, destinations batch, batch.debts⟩ :: s.accepted)
        (pc : t.pc = .sent batch txid) :
      Progress s t event
  | answered (quiet : Quietly s t) (before : s.pc.taken = some (batch, txid))
    (pc : t.pc = .attaching batch.rowIds txid nudges) :
      Progress s t .replied
  | attached (before : s.pc = .attaching rowIds txid nudges)
    (db : t.db = attachBatchTxid s.db rowIds txid)
      (accepted : t.accepted = s.accepted) (pc : t.pc.free = true) : Progress s t .proceed
  | aborted (before : s.pc = .aborting rowIds) (db : t.db = abortBatch s.db rowIds)
    (accepted : t.accepted = s.accepted)
      (pc : t.pc = .idle) : Progress s t .proceed

section

variable {s t : State}

theorem Grows.refl (db : Db) : Grows db db := ⟨rfl, fun _ => le_rfl, fun _ => id, rfl⟩

theorem accrue_grows (db : Db) (workerId : Nat) (sats : Int) :
    Grows db { db with credits := db.credits.accrue workerId sats } :=
  ⟨rfl, fun other => (Db.paid_accrue db workerId sats other).ge,
    fun other => Credits.mem_accrue db.credits workerId sats other, rfl⟩

theorem nudge_progress (cfg : Config) (force : Bool) (s : State) :
    Quietly s (nudge cfg force s) ∧ (nudge cfg force s).pc.free = true := by
  dsimp only [nudge]
  split_ifs
  · exact ⟨⟨rfl, rfl⟩, rfl⟩
  · exact ⟨⟨rfl, rfl⟩, rfl⟩

theorem blocked_progress (cfg : Config) (pending : Pending) (state : Settlement) (s : State) :
    Quietly s (blocked cfg pending state s) ∧ (blocked cfg pending state s).pc.free = true := by
  rw [blocked]
  split
  next => exact nudge_progress cfg false s
  next => exact ⟨⟨rfl, rfl⟩, rfl⟩

/-- Somebody is in the group that is owed most. -/
theorem largestGroup_ne_nil {due : List DueRow} (nonempty : due ≠ []) : largestGroup due ≠ [] := by
  obtain ⟨first, rest, rfl⟩ := List.exists_cons_of_ne_nil nonempty
  simp only [largestGroup]
  cases head : List.head? _ with
  | none =>
    rw [List.head?_eq_none_iff, ← List.length_eq_zero_iff, List.length_insertionSort,
      List.length_map, List.length_reverse, List.length_eq_zero_iff, List.dedup_eq_nil] at head
    simp at head
  | some group =>
    have member := List.mem_of_mem_head? head
    rw [List.mem_insertionSort] at member
    obtain ⟨address, named, rfl⟩ := List.mem_map.mp member
    rw [List.mem_reverse, List.mem_dedup, List.mem_reverse] at named
    obtain ⟨row, listed, same⟩ := List.mem_map.mp named
    rw [Option.getD_some]
    exact List.ne_nil_of_mem (List.mem_filter.mpr ⟨listed, by simpa using same⟩)

theorem startBatch_progress (cfg : Config) (s : State) : Progress s (startBatch cfg s) event := by
  rw [startBatch]
  split
  next => exact .freed ⟨rfl, rfl⟩ rfl
  next outstanding =>
    dsimp only
    split
    next => exact .freed ⟨rfl, rfl⟩ rfl
    next started =>
      have live : cfg.dryRun = false := by
        cases dry : cfg.dryRun with
        | false => rfl
        | true => simp [dry] at started
      have someone : listDue s.db cfg.minSats cfg.maxPerTick ≠ [] := by simpa [live] using started
      have part := selectDue_subset cfg s.memory (listDue s.db cfg.minSats cfg.maxPerTick)
      have chosen :
          Chosen s.db (selectDue cfg s.memory (listDue s.db cfg.minSats cfg.maxPerTick)) :=
        { nonempty := by
            rw [selectDue]
            split
            next => exact someone
            next => exact largestGroup_ne_nil someone
          distinct := (listDue_nodup _ _ _).sublist (part.map _)
          known := fun row member => (listDue_quotes (part.subset member)).1 }
      have clear : s.db.inFlight = [] := by simpa [live] using outstanding
      split
      next => exact .listed ⟨rfl, rfl⟩ clear chosen rfl
      next => exact .listed ⟨rfl, rfl⟩ clear chosen rfl

theorem firstCall_progress (cfg : Config) (before : s.pc.prepares = some batch)
    (same : s'.db = s.db)
    (accepted : s'.accepted = s.accepted) : Progress s (firstCall cfg batch s') event := by
  rw [firstCall]
  split
  next => exact .dropped ⟨same, accepted⟩ (Pc.holds_of_prepares before) rfl
  next valid =>
    have amounts : ∀ item ∈ batch.items, 0 < item.sats := by
      simp only [validAmounts, Bool.not_eq_true', Bool.not_eq_false, Bool.and_eq_true,
        List.all_eq_true, decide_eq_true_eq] at valid
      exact valid.1
    split
    next => exact .called ⟨same, accepted⟩ before amounts (.inl rfl)
    next => exact .called ⟨same, accepted⟩ before amounts (.inr rfl)

theorem proceed_progress (stepped : proceed cfg s = some t) : Progress s t .proceed := by
  simp only [proceed] at stepped
  split at stepped
  next pending here =>
    obtain rfl := Option.some.inj stepped
    exact .finalised here rfl rfl rfl
  next =>
    obtain rfl := Option.some.inj stepped
    exact startBatch_progress cfg s
  next due here =>
    obtain rfl := Option.some.inj stepped
    exact .begun here rfl rfl rfl
  next batch here =>
    have before : s.pc.prepares = some batch := by rw [here]; rfl
    split at stepped
    next =>
      obtain rfl := Option.some.inj stepped
      exact .preparing ⟨rfl, rfl⟩ before rfl
    next =>
      obtain rfl := Option.some.inj stepped
      exact firstCall_progress cfg before rfl rfl
  next rowIds txid nudges here =>
    obtain rfl := Option.some.inj stepped
    split
    next =>
      obtain ⟨⟨db, accepted⟩, free⟩ :=
        nudge_progress cfg true { s with db := attachBatchTxid s.db rowIds txid }
      exact .attached here db accepted free
    next => exact .attached here rfl rfl rfl
  next rowIds here =>
    obtain rfl := Option.some.inj stepped
    exact .aborted here rfl rfl rfl
  next => contradiction

theorem accept_progress (stepped : accept s txid = some t) : Progress s t event := by
  simp only [accept] at stepped
  split at stepped
  next => contradiction
  next fresh =>
    have named : txid ≠ "" := fun same => fresh (.inl same)
    split at stepped
    next batch here =>
      obtain rfl := Option.some.inj stepped
      exact .created here rfl named rfl rfl
    next batch outputs here =>
      obtain rfl := Option.some.inj stepped
      exact .submitted here rfl named rfl rfl
    next batch here =>
      obtain rfl := Option.some.inj stepped
      exact .sent here rfl named rfl rfl
    next => contradiction

theorem replied_progress (stepped : replied s = some t) : Progress s t .replied := by
  simp only [replied] at stepped
  split at stepped
  case h_4 => contradiction
  all_goals
    next here =>
      obtain rfl := Option.some.inj stepped
      exact .answered ⟨rfl, rfl⟩ (by rw [here]; rfl) rfl

theorem lost_progress (stepped : lost s = some t) : Progress s t event := by
  simp only [lost] at stepped
  split at stepped
  case h_4 => contradiction
  all_goals
    next here =>
      obtain rfl := Option.some.inj stepped
      exact .dropped ⟨rfl, rfl⟩ (by rw [here]; rfl) rfl

theorem failed_progress (stepped : failed s = some t) : Progress s t event := by
  simp only [failed] at stepped
  split at stepped
  case h_10 => contradiction
  case h_1 here | h_2 here | h_3 here | h_4 here | h_5 here =>
    obtain rfl := Option.some.inj stepped
    exact .dropped ⟨rfl, rfl⟩ (by rw [here]; rfl) rfl
  all_goals
    obtain rfl := Option.some.inj stepped
    exact .freed ⟨rfl, rfl⟩ rfl

theorem step_progress (stepped : step cfg s event = some t) : Progress s t event := by
  cases event with
  | accrue workerId sats =>
    simp only [step] at stepped
    split at stepped
    next =>
      obtain rfl := Option.some.inj stepped
      exact .grown (accrue_grows s.db workerId sats) rfl rfl
    next => contradiction
  | register worker =>
    obtain rfl := Option.some.inj stepped
    exact .grown ⟨rfl, fun _ => le_rfl, fun _ => id, rfl⟩ rfl rfl
  | wait ms =>
    obtain rfl := Option.some.inj stepped
    exact .grown (.refl s.db) rfl rfl
  | crash =>
    obtain rfl := Option.some.inj stepped
    exact .freed ⟨rfl, rfl⟩ rfl
  | tick =>
    simp only [step] at stepped
    split at stepped
    next =>
      split at stepped
      next pending found =>
        obtain rfl := Option.some.inj stepped
        cases dry : cfg.dryRun with
        | true => exact .freed ⟨rfl, rfl⟩ rfl
        | false => exact .read ⟨rfl, rfl⟩ found rfl
      next =>
        obtain rfl := Option.some.inj stepped
        exact .freed ⟨rfl, rfl⟩ rfl
    next => contradiction
  | txStatus status =>
    simp only [step] at stepped
    split at stepped
    next pending here =>
      obtain rfl := Option.some.inj stepped
      have before : s.pc.reads = some pending := by rw [here]; rfl
      refine .reading ⟨rfl, rfl⟩ before ?_
      dsimp only
      split
      next => rfl
      next => rfl
    next => contradiction
  | utxos reply =>
    simp only [step] at stepped
    split at stepped
    next pending status here =>
      have before : s.pc.reads = some pending := by rw [here]; rfl
      split at stepped
      next =>
        obtain rfl := Option.some.inj stepped
        exact .reading ⟨rfl, rfl⟩ before rfl
      next =>
        obtain rfl := Option.some.inj stepped
        obtain ⟨quiet, free⟩ := blocked_progress cfg pending _ s
        exact .freed quiet free
    next => contradiction
  | mined =>
    simp only [step] at stepped
    split at stepped
    next =>
      obtain rfl := Option.some.inj stepped
      exact .freed ⟨rfl, rfl⟩ rfl
    next => contradiction
  | mempool reply =>
    simp only [step] at stepped
    split at stepped
    next due here =>
      obtain rfl := Option.some.inj stepped
      have before : s.pc.lists = some due := by rw [here]; rfl
      by_cases busy : 0 < reply.getD 0
      · exact .freed ⟨rfl, rfl⟩ (by rw [if_pos busy]; rfl)
      · exact .listing ⟨rfl, rfl⟩ before (by rw [if_neg busy]; rfl)
    next => contradiction
  | balance reply =>
    simp only [step] at stepped
    split at stepped
    next due available here =>
      obtain rfl := Option.some.inj stepped
      have before : s.pc.lists = some due := by rw [here]; rfl
      by_cases short : available < totalOwed due + txFeeSats
      · exact .freed ⟨rfl, rfl⟩ (by rw [if_pos short]; rfl)
      · exact .listing ⟨rfl, rfl⟩ before (by rw [if_neg short]; rfl)
    next =>
      obtain rfl := Option.some.inj stepped
      exact .freed ⟨rfl, rfl⟩ rfl
    next => contradiction
  | unlocked =>
    simp only [step] at stepped
    split at stepped
    next batch here =>
      obtain rfl := Option.some.inj stepped
      exact firstCall_progress cfg (by rw [here]; rfl) rfl rfl
    next => contradiction
  | unsigned outputs =>
    simp only [step] at stepped
    split at stepped
    next batch here =>
      split at stepped
      next parts spliced =>
        obtain rfl := Option.some.inj stepped
        exact .built ⟨rfl, rfl⟩ here spliced rfl
      next =>
        obtain rfl := Option.some.inj stepped
        exact .dropped ⟨rfl, rfl⟩ (by rw [here]; rfl) rfl
    next => contradiction
  | signed =>
    simp only [step] at stepped
    split at stepped
    next batch outputs here =>
      obtain rfl := Option.some.inj stepped
      exact .signed ⟨rfl, rfl⟩ here rfl
    next => contradiction
  | proceed => exact proceed_progress stepped
  | accept txid => exact accept_progress stepped
  | replied => exact replied_progress stepped
  | lost => exact lost_progress stepped
  | failed => exact failed_progress stepped

end

/-- The state with every batch that was begun, the latest first. -/
structure Traced where
  state : State
  begun : List Batch

def begunNow (s : State) : Event → List Batch
  | .proceed =>
    match s.pc with
    | .beginning due => [begunBatch s due]
    | _ => []
  | _ => []

def tracedStep (cfg : Config) (a : Traced) (event : Event) : Option Traced :=
  (step cfg a.state event).map fun state => ⟨state, begunNow a.state event ++ a.begun⟩

/-- These are the rows of the batch. -/
structure RowsOf (rows : List InFlight) (batch : Batch) : Prop where
  ids : rows.map InFlight.id = batch.rowIds
  items : rows.map (fun row => (row.workerId, row.sats)) = batch.items.map fun item =>
    (item.workerId, item.sats)

instance (rows : List InFlight) (batch : Batch) : Decidable (RowsOf rows batch) :=
  decidable_of_iff (rows.map InFlight.id = batch.rowIds ∧
    rows.map (fun row => (row.workerId, row.sats)) = batch.items.map fun item =>
      (item.workerId, item.sats))
    ⟨fun both => ⟨both.1, both.2⟩, fun rows => ⟨rows.ids, rows.items⟩⟩

theorem beginBatch_inFlight {db : Db} (clear : db.inFlight = []) (items : List BatchItem)
    (nowSec : Nat) :
    (beginBatch db items nowSec).2.inFlight = batchRows db.nextRowId items nowSec := by
  simp [beginBatch, clear]

theorem beginBatch_rowsOf {s : State} (clear : s.db.inFlight = []) (due : List DueRow) :
    RowsOf (beginBatch s.db (batchOf due) (s.nowMs / 1000)).2.inFlight (begunBatch s due) := by
  rw [beginBatch_inFlight clear]
  exact ⟨rfl, batchRows_map _ _ fun _ _ _ => rfl⟩

theorem RowsOf.attach {db : Db} (rows : RowsOf db.inFlight batch)
    (ids : db.inFlight.map InFlight.id = rowIds) (txid : String) :
    RowsOf (attachBatchTxid db rowIds txid).inFlight batch := by
  rw [attachBatchTxid_inFlight ids]
  refine ⟨?_, ?_⟩
  · rw [List.map_map]
    exact rows.ids
  · rw [List.map_map]
    exact rows.items

/-- The rows in flight are those of this batch. -/
def Flies (db : Db) (begun : List Batch) (batch : Batch) : Prop :=
  batch ∈ begun ∧ RowsOf db.inFlight batch

theorem Flies.mono (flies : Flies db begun batch) (more : List Batch) :
    Flies db (more ++ begun) batch :=
  ⟨List.mem_append_right more flies.1, flies.2⟩

end SimplePool.Payout
