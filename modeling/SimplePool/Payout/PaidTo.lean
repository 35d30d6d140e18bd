import SimplePool.Payout.Progress

/-! Whom a credited batch was paid to. A batch is credited against the txid its rows are held
under, and that transaction pays its addresses unless the node sent the whole of a batch with
several addresses to the first of them. -/
namespace SimplePool.Payout
open Transition

def Batch.owedTo (batch : Batch) (address : String) : Int :=
  ((batch.items.filter fun item => item.address = address).map BatchItem.sats).sum

/-- The amounts of a transaction are unsigned. -/
def paidTo (outputs : List Output) (address : String) : Int :=
  ((outputs.filter fun output => output.address = address).map fun output =>
    (output.value.toNat : Int)).sum

/-- Each address of the batch gets at least what the batch has for it. -/
def PaysBatch (outputs : List Output) (batch : Batch) : Prop :=
  ∀ item ∈ batch.items, batch.owedTo item.address ≤ paidTo outputs item.address

instance (outputs : List Output) (batch : Batch) : Decidable (PaysBatch outputs batch) :=
  inferInstanceAs (Decidable (∀ item ∈ batch.items, _))

def PaidUnder (accepted : List AcceptedTx) (txid : String) (batch : Batch) : Prop :=
  ∃ tx ∈ accepted, tx.txid = txid ∧ PaysBatch tx.outputs batch

instance (accepted : List AcceptedTx) (txid : String) (batch : Batch) :
    Decidable (PaidUnder accepted txid batch) :=
  inferInstanceAs (Decidable (∃ tx ∈ accepted, _))

/-- The next write credits this batch. -/
def Pc.credits : Pc → Option Pending
  | .finalizing pending => some pending
  | _ => none

/-- What `finalizeBatch` credits are the rows of a batch that the transaction pays. -/
def CreditsPaid (a : Traced) (event : Event) : Prop :=
  event = .proceed → ∀ pending ∈ a.state.pc.credits,
    ∃ batch ∈ a.begun, RowsOf pending.rows batch ∧ PaidUnder a.state.accepted pending.txid batch

instance (a : Traced) (event : Event) : Decidable (CreditsPaid a event) :=
  inferInstanceAs (Decidable (event = .proceed → ∀ pending ∈ a.state.pc.credits, _))

def Batch.oneAddress (batch : Batch) : Prop := (batch.items.map BatchItem.address).dedup.length = 1

instance (batch : Batch) : Decidable batch.oneAddress := inferInstanceAs (Decidable (_ = _))

/-- The node has signed and sent this batch on its own. -/
def Pc.sentByNode : Pc → Option Batch
  | .created batch _ => some batch
  | _ => none

/-- The txid of a transaction that the node sent on its own arrives only for a batch with one
address. -/
def SentAsMeant (s : State) (event : Event) : Prop :=
  event = .replied → ∀ batch ∈ s.pc.sentByNode, batch.oneAddress

instance (s : State) (event : Event) : Decidable (SentAsMeant s event) :=
  inferInstanceAs (Decidable (event = .replied → ∀ batch ∈ s.pc.sentByNode, _))

theorem paidTo_nonneg (outputs : List Output) (address : String) : 0 ≤ paidTo outputs address := by
  refine List.sum_nonneg fun amount member => ?_
  obtain ⟨output, _, rfl⟩ := List.mem_map.mp member
  exact Int.natCast_nonneg _

theorem paidTo_append (first rest : List Output) (address : String) :
    paidTo (first ++ rest) address = paidTo first address + paidTo rest address := by
  simp [paidTo]

/-- One output a recipient. -/
theorem PaysBatch.items (batch : Batch) :
    PaysBatch (batch.items.map fun item => ⟨item.address, item.sats⟩) batch := by
  intro item _
  rw [Batch.owedTo, paidTo]
  generalize item.address = address
  induction batch.items with
  | nil => exact le_rfl
  | cons first rest ih =>
    rw [List.map_cons, List.filter_cons, List.filter_cons]
    by_cases mine : first.address = address
    · simp only [mine, decide_true, if_true, List.map_cons, List.sum_cons]
      exact add_le_add (Int.self_le_toNat _) ih
    · simpa [mine] using ih

theorem PaysBatch.splice (spliced : splice batch outputs = some parts) : PaysBatch parts batch := by
  rw [Payout.splice] at spliced
  split at spliced
  next => contradiction
  next first _ =>
    dsimp only at spliced
    split at spliced
    next one =>
      obtain rfl := Option.some.inj spliced
      obtain ⟨payment, only⟩ := List.length_eq_one_iff.mp one
      have chosen := List.mem_singleton_self payment
      rw [← only, List.mem_filter] at chosen
      obtain ⟨before, after, rfl⟩ := List.append_of_mem chosen.1
      intro item inside
      rw [List.flatMap_append, List.flatMap_cons, if_pos chosen.2, paidTo_append, paidTo_append]
      exact le_add_of_nonneg_of_le (paidTo_nonneg _ _)
        (le_add_of_le_of_nonneg (PaysBatch.items batch item inside) (paidTo_nonneg _ _))
    next => contradiction

/-- The destinations of the wallet call are the addresses with their sums. -/
theorem PaysBatch.destinations (batch : Batch) : PaysBatch (destinations batch) batch := by
  intro item inside
  have listed :
      (⟨item.address, batch.owedTo item.address⟩ : Output) ∈ Payout.destinations batch := by
    refine List.mem_map.mpr ⟨item.address, ?_, rfl⟩
    rw [List.mem_dedup]
    exact List.mem_map_of_mem inside
  obtain ⟨before, after, parts⟩ := List.append_of_mem listed
  rw [parts, ← List.singleton_append, paidTo_append, paidTo_append]
  refine le_add_of_nonneg_of_le (paidTo_nonneg _ _) (le_add_of_le_of_nonneg ?_ (paidTo_nonneg _ _))
  simp [paidTo]

/-- The whole amount to the first address. -/
theorem PaysBatch.whole {batch : Batch} (one : batch.oneAddress) :
    PaysBatch (batch.items.head?.map fun first => Output.mk first.address batch.total).toList
      batch := by
  obtain ⟨address, only⟩ := List.length_eq_one_iff.mp one
  have same : ∀ item ∈ batch.items, item.address = address := by
    intro item inside
    have listed := List.mem_dedup.mpr (List.mem_map_of_mem (f := BatchItem.address) inside)
    rw [only] at listed
    exact List.mem_singleton.mp listed
  intro item inside
  obtain ⟨first, rest, items⟩ := List.exists_cons_of_ne_nil (List.ne_nil_of_mem inside)
  have everyone : batch.items.filter (fun other => other.address = item.address) = batch.items := by
    refine List.filter_eq_self.mpr fun other listed => ?_
    rw [same other listed, same item inside, decide_eq_true_eq]
  have firstAddress : first.address = item.address := by
    rw [same item inside]
    exact same first (items ▸ List.mem_cons_self)
  rw [Batch.owedTo, everyone, ← Batch.total, items, List.head?_cons, Option.map_some,
    Option.toList_some]
  simp [paidTo, firstAddress]

/-- What the tick relies on between its awaits. -/
def Pc.Backed (db : Db) (accepted : List AcceptedTx) (begun : List Batch) : Pc → Prop
  | .idle | .nudging | .listing => True
  | .settling pending | .checkingWallet pending _ | .finalizing pending =>
    pending.rows = db.inFlight ∧ ∃ batch, Flies db begun batch ∧
    PaidUnder accepted pending.txid batch
  | .checkingMempool _ | .checkingBalance _ | .beginning _ => db.inFlight = []
  | .calling batch | .unlocking batch | .creating batch | .sending batch => Flies db begun batch
  | .signing batch outputs | .submitting batch outputs =>
    Flies db begun batch ∧ PaysBatch outputs batch
  | .created batch txid => Flies db begun batch ∧ (batch.oneAddress → PaidUnder accepted txid batch)
  | .submitted batch txid | .sent batch txid => Flies db begun batch ∧ PaidUnder accepted txid batch
  | .attaching rowIds txid _ =>
    ∃ batch, batch.rowIds = rowIds ∧ Flies db begun batch ∧ PaidUnder accepted txid batch
  | .aborting rowIds => db.inFlight.map InFlight.id = rowIds

/-- A txid on the rows is that of a transaction that pays them. -/
structure Traced.Backed (a : Traced) : Prop where
  single : ∀ row ∈ a.state.db.inFlight, ∀ other ∈ a.state.db.inFlight, row.txid = other.txid
  stamped : ∀ row ∈ a.state.db.inFlight, row.txid ≠ "" →
    ∃ batch, Flies a.state.db a.begun batch ∧ PaidUnder a.state.accepted row.txid batch
  pc : a.state.pc.Backed a.state.db a.state.accepted a.begun

section

variable {db db' : Db} {accepted : List AcceptedTx} {begun : List Batch} {pc pc' : Pc}

theorem Pc.Backed.of_free (free : pc.free = true) : pc.Backed db accepted begun := by
  cases pc with
  | idle | nudging | listing => trivial
  | _ => contradiction

theorem Pc.Backed.of_lists (lists : pc.lists = some due) (clear : db.inFlight = []) :
    pc.Backed db accepted begun := by
  cases pc with
  | checkingMempool | checkingBalance | beginning => exact clear
  | _ => contradiction

theorem Pc.Backed.lists (backed : pc.Backed db accepted begun) (lists : pc.lists = some due) :
    db.inFlight = [] := by
  cases pc with
  | checkingMempool | checkingBalance | beginning => exact backed
  | _ => contradiction

theorem Pc.Backed.reads (backed : pc.Backed db accepted begun) (before : pc.reads = some pending)
    (after : pc'.reads = some pending) : pc'.Backed db accepted begun := by
  have read : pending.rows = db.inFlight ∧ ∃ batch, Flies db begun batch ∧
      PaidUnder accepted pending.txid batch := by
    cases pc with
    | settling | checkingWallet | finalizing =>
      obtain rfl := Option.some.inj before
      exact backed
    | _ => contradiction
  cases pc' with
  | settling | checkingWallet | finalizing =>
    obtain rfl := Option.some.inj after
    exact read
  | _ => contradiction

theorem Pc.Backed.prepares (backed : pc.Backed db accepted begun)
    (before : pc.prepares = some batch) : Flies db begun batch := by
  cases pc with
  | calling | unlocking =>
    obtain rfl := Option.some.inj before
    exact backed
  | _ => contradiction

theorem Pc.Backed.holds (backed : pc.Backed db accepted begun) (before : pc.holds = some rowIds) :
    db.inFlight.map InFlight.id = rowIds := by
  cases pc with
  | calling | unlocking | creating | sending =>
    obtain rfl := Option.some.inj before
    exact backed.2.ids
  | signing | submitting | created | submitted | sent =>
    obtain rfl := Option.some.inj before
    exact backed.1.2.ids
  | attaching =>
    obtain rfl := Option.some.inj before
    obtain ⟨batch, rfl, flies, _⟩ := backed
    exact flies.2.ids
  | aborting =>
    obtain rfl := Option.some.inj before
    exact backed
  | _ => contradiction

theorem Pc.Backed.taken (backed : pc.Backed db accepted begun)
    (before : pc.taken = some (batch, txid)) (meant : ∀ batch ∈ pc.sentByNode, batch.oneAddress) :
    Flies db begun batch ∧ PaidUnder accepted txid batch := by
  cases pc with
  | created =>
    obtain ⟨rfl, rfl⟩ := Prod.mk.inj (Option.some.inj before)
    exact ⟨backed.1, backed.2 (meant _ rfl)⟩
  | submitted | sent =>
    obtain ⟨rfl, rfl⟩ := Prod.mk.inj (Option.some.inj before)
    exact backed
  | _ => contradiction

/-- Only the rows count. -/
theorem Pc.Backed.frame (backed : pc.Backed db accepted begun) (rows : db'.inFlight = db.inFlight) :
    pc.Backed db' accepted begun := by
  cases pc with
  | idle | nudging | listing => trivial
  | _ => simpa only [Pc.Backed, Flies, rows] using backed

end

section

variable {a : Traced} {t : State} {event : Event}

/-- The rows and what the node took are as they were. -/
theorem Traced.Backed.quiet (backed : a.Backed) (rows : t.db.inFlight = a.state.db.inFlight)
    (accepted : t.accepted = a.state.accepted)
    (pc : t.pc.Backed a.state.db a.state.accepted a.begun) : Traced.Backed ⟨t, a.begun⟩ := by
  refine ⟨?_, ?_, ?_⟩
  · rw [rows]
    exact backed.single
  · dsimp only [Flies]
    rw [rows, accepted]
    exact backed.stamped
  · rw [accepted]
    exact pc.frame rows

theorem PaidUnder.cons (paid : PaidUnder accepted txid batch) (tx : AcceptedTx) :
    PaidUnder (tx :: accepted) txid batch := by
  obtain ⟨old, member, paid⟩ := paid
  exact ⟨old, List.mem_cons_of_mem tx member, paid⟩

/-- The node takes one more transaction. -/
theorem Traced.Backed.take (backed : a.Backed) (db : t.db = a.state.db)
    (accepted : t.accepted = tx :: a.state.accepted)
    (pc : t.pc.Backed a.state.db (tx :: a.state.accepted) a.begun) :
    Traced.Backed ⟨t, a.begun⟩ := by
  refine ⟨?_, ?_, ?_⟩
  · rw [db]
    exact backed.single
  · intro row member stamped
    rw [db] at member
    obtain ⟨batch, flies, paid⟩ := backed.stamped row member stamped
    dsimp only
    rw [db, accepted]
    exact ⟨batch, flies, paid.cons tx⟩
  · rw [db, accepted]
    exact pc

/-- Nothing is in flight any more. -/
theorem Traced.Backed.clear (clear : t.db.inFlight = []) (free : t.pc.free = true) :
    Traced.Backed ⟨t, a.begun⟩ where
  single := by simp [clear]
  stamped := by simp [clear]
  pc := .of_free free

theorem Traced.Backed.begin (clear : a.state.db.inFlight = [])
    (db : t.db = (beginBatch a.state.db (batchOf due) (a.state.nowMs / 1000)).2)
    (pc : t.pc = .calling (begunBatch a.state due)) :
    Traced.Backed ⟨t, begunBatch a.state due :: a.begun⟩ := by
  have rows := beginBatch_inFlight clear (batchOf due) (a.state.nowMs / 1000)
  rw [← db] at rows
  have unstamped : ∀ row ∈ t.db.inFlight, row.txid = "" := by
    rw [rows]
    intro row member
    obtain ⟨item, _, rfl⟩ := List.mem_map.mp member
    rfl
  refine ⟨?_, ?_, ?_⟩
  · intro row member other otherMember
    rw [unstamped row member, unstamped other otherMember]
  · intro row member stamped
    exact absurd (unstamped row member) stamped
  · dsimp only
    rw [pc]
    exact ⟨List.mem_cons_self, db ▸ beginBatch_rowsOf clear due⟩

theorem Traced.Backed.attach {batch : Batch} (flies : Flies a.state.db a.begun batch)
    (paid : PaidUnder a.state.accepted txid batch)
    (db : t.db = attachBatchTxid a.state.db batch.rowIds txid)
    (accepted : t.accepted = a.state.accepted) (free : t.pc.free = true) :
    Traced.Backed ⟨t, a.begun⟩ := by
  have stamped : ∀ row ∈ t.db.inFlight, row.txid = txid := by
    rw [db, attachBatchTxid_inFlight flies.2.ids]
    intro row member
    obtain ⟨old, _, rfl⟩ := List.mem_map.mp member
    rfl
  refine ⟨?_, ?_, .of_free free⟩
  · intro row member other otherMember
    rw [stamped row member, stamped other otherMember]
  · intro row member _
    rw [stamped row member]
    dsimp only
    rw [accepted]
    exact ⟨batch, ⟨flies.1, db ▸ flies.2.attach flies.2.ids txid⟩, paid⟩

theorem Traced.Backed.mono (backed : Traced.Backed ⟨t, batches⟩) (more : List Batch) :
    Traced.Backed ⟨t, more ++ batches⟩ := by
  refine ⟨backed.single, ?_, ?_⟩
  · intro row member stamped
    obtain ⟨batch, flies, paid⟩ := backed.stamped row member stamped
    exact ⟨batch, flies.mono more, paid⟩
  · have held := backed.pc
    dsimp only at held ⊢
    cases here : t.pc with
    | idle | nudging | listing => trivial
    | settling | checkingWallet | finalizing =>
      rw [here] at held
      obtain ⟨rows, batch, flies, paid⟩ := held
      exact ⟨rows, batch, flies.mono more, paid⟩
    | checkingMempool | checkingBalance | beginning | aborting =>
      rw [here] at held
      exact held
    | calling | unlocking | creating | sending =>
      rw [here] at held
      exact held.mono more
    | signing | submitting | created | submitted | sent =>
      rw [here] at held
      exact ⟨held.1.mono more, held.2⟩
    | attaching =>
      rw [here] at held
      obtain ⟨batch, ids, flies, paid⟩ := held
      exact ⟨batch, ids, flies.mono more, paid⟩

theorem Traced.Backed.step (backed : a.Backed) (meant : SentAsMeant a.state event)
    (progress : Progress a.state t event) :
    Traced.Backed ⟨t, begunNow a.state event ++ a.begun⟩ := by
  have held := backed.pc
  cases progress with
  | begun before accepted db pc =>
    rw [before] at held
    rw [show begunNow a.state .proceed = [begunBatch a.state _] by
      simp only [begunNow, before]
      rfl]
    exact Traced.Backed.begin held db pc
  | grown grows accepted pc => exact (backed.quiet grows.rows accepted (pc ▸ held)).mono _
  | freed quiet pc => exact (backed.quiet (quiet.1 ▸ rfl) quiet.2 (.of_free pc)).mono _
  | @read pending _ quiet found pc =>
    obtain ⟨rows, nonempty, stamped, same⟩ := pendingBatch_whole backed.single found
    obtain ⟨first, rest, inFlight⟩ := List.exists_cons_of_ne_nil nonempty
    have member : first ∈ a.state.db.inFlight := inFlight ▸ List.mem_cons_self
    have paid := backed.stamped first member (same first member ▸ stamped)
    rw [same first member] at paid
    exact (backed.quiet (quiet.1 ▸ rfl) quiet.2 (pc ▸ ⟨rows, paid⟩)).mono _
  | reading quiet before after =>
    exact (backed.quiet (quiet.1 ▸ rfl) quiet.2 (held.reads before after)).mono _
  | finalised before accepted pc db =>
    rw [before] at held
    refine (Traced.Backed.clear ?_ (by rw [pc]; rfl)).mono _
    rw [db, held.1]
    exact finalizeBatch_inFlight ..
  | listed quiet clear chosen pc =>
    exact (backed.quiet (quiet.1 ▸ rfl) quiet.2 (.of_lists pc clear)).mono _
  | listing quiet before after =>
    exact (backed.quiet (quiet.1 ▸ rfl) quiet.2 (.of_lists after (held.lists before))).mono _
  | @preparing batch _ quiet before after =>
    have flies := held.prepares before
    refine (backed.quiet (quiet.1 ▸ rfl) quiet.2 ?_).mono _
    cases here : t.pc with
    | calling | unlocking =>
      rw [here] at after
      obtain rfl := Option.some.inj after
      exact flies
    | _ =>
      rw [here] at after
      contradiction
  | called quiet before amounts pc =>
    have flies := held.prepares before
    refine (backed.quiet (quiet.1 ▸ rfl) quiet.2 ?_).mono _
    rcases pc with pc | pc
    · rw [pc]
      exact flies
    · rw [pc]
      exact flies
  | built quiet before spliced pc =>
    rw [before] at held
    exact (backed.quiet (quiet.1 ▸ rfl) quiet.2 (pc ▸ ⟨held, PaysBatch.splice spliced⟩)).mono _
  | signed quiet before pc =>
    rw [before] at held
    exact (backed.quiet (quiet.1 ▸ rfl) quiet.2 (pc ▸ held)).mono _
  | dropped quiet before pc =>
    exact (backed.quiet (quiet.1 ▸ rfl) quiet.2 (pc ▸ held.holds before)).mono _
  | created before db fresh accepted pc =>
    rw [before] at held
    refine (backed.take db accepted ?_).mono _
    rw [pc]
    exact ⟨held, fun one => ⟨_, List.mem_cons_self, rfl, PaysBatch.whole one⟩⟩
  | submitted before db fresh accepted pc =>
    rw [before] at held
    refine (backed.take db accepted ?_).mono _
    rw [pc]
    exact ⟨held.1, _, List.mem_cons_self, rfl, held.2⟩
  | sent before db fresh accepted pc =>
    rw [before] at held
    refine (backed.take db accepted ?_).mono _
    rw [pc]
    exact ⟨held, _, List.mem_cons_self, rfl, PaysBatch.destinations _⟩
  | answered quiet before pc =>
    obtain ⟨flies, paid⟩ := held.taken before (meant rfl)
    exact (backed.quiet (quiet.1 ▸ rfl) quiet.2 (pc ▸ ⟨_, rfl, flies, paid⟩)).mono _
  | attached before db accepted pc =>
    rw [before] at held
    obtain ⟨batch, rfl, flies, paid⟩ := held
    exact (Traced.Backed.attach flies paid db accepted pc).mono _
  | aborted before db accepted pc =>
    rw [before] at held
    refine (Traced.Backed.clear ?_ (by rw [pc]; rfl)).mono _
    rw [db]
    exact abortBatch_clear held

end

/-- Nothing is in flight and no tick is under way. -/
structure AtRest (s : State) : Prop where
  clear : s.db.inFlight = []
  idle : s.pc = .idle

/-- In every run in which the txid of a transaction that the node sent on its own arrives only
for a batch with one address. -/
theorem paid_to_workers (cfg : Config) (s : State) (events : List Event) (rest : AtRest s)
    (meant : Along (tracedStep cfg) (fun a event _ => SentAsMeant a.state event) ⟨s, []⟩ events) :
    Along (tracedStep cfg) (fun a event _ => CreditsPaid a event) ⟨s, []⟩ events := by
  have initial : Traced.Backed ⟨s, []⟩ :=
    ⟨by simp [rest.clear], by simp [rest.clear], by rw [rest.idle]; trivial⟩
  refine Along.of_invariant ?_ initial meant
  intro a event after backed meant stepped
  obtain ⟨t, taken, rfl⟩ := Option.map_eq_some_iff.mp stepped
  refine ⟨backed.step meant (step_progress taken), ?_⟩
  intro _ pending credited
  have held := backed.pc
  cases here : a.state.pc with
  | finalizing current =>
    rw [here] at held credited
    obtain rfl := Option.some.inj credited
    obtain ⟨rows, batch, flies, paid⟩ := held
    exact ⟨batch, flies.1, rows ▸ flies.2, paid⟩
  | _ =>
    rw [here] at credited
    contradiction

/-- Two workers with an address each. -/
def twoWorkers : State where
  db := ⟨[⟨1, some "ta"⟩, ⟨2, some "tb"⟩], ⟨[], List.nodup_nil⟩, [], [], 1⟩
  accepted := []
  nowMs := 0
  memory := .fresh
  pc := .idle

def thunderConfig : Config := ⟨.thunder, 10000, 50, false, false, 0, 0, false⟩

/-- A tick up to its `create_transfer`. -/
def createTick : List Event :=
  [.tick, .proceed, .mempool (some 0), .balance (some 1000000), .proceed, .proceed]

/-- The node leaves the transfer unsigned, and the outputs are split. -/
def splitRun (first : Output) (txid : String) : List Event :=
  [.unsigned [first, ⟨"tpool", 900000⟩], .signed, .accept txid]

/-- The txid is recorded, and the next tick finds it in a block. -/
def confirmRun : List Event :=
  [.replied, .proceed, .tick, .txStatus ⟨true, true, false⟩, .proceed, .proceed]

/-- One payment proves that the node leaves transfers unsigned; then both workers are due. -/
def provenRun : List Event :=
  .accrue 1 20000 :: createTick ++ splitRun ⟨"ta", 20000⟩ "t1" ++ confirmRun ++
    [.accrue 1 20000, .accrue 2 30000] ++ createTick

def splitBothRun : List Event := provenRun ++ splitRun ⟨"tb", 50000⟩ "t2" ++ confirmRun

theorem paid_to_workers_split :
    (run (tracedStep thunderConfig) ⟨twoWorkers, []⟩ splitBothRun).map
        (fun a => (a.state.accepted.map AcceptedTx.outputs, a.state.db.credits.rows)) =
      some ([[⟨"tb", 30000⟩, ⟨"ta", 20000⟩, ⟨"tpool", 900000⟩], [⟨"ta", 20000⟩, ⟨"tpool", 900000⟩]],
        [⟨1, 40000, 40000⟩, ⟨2, 30000, 30000⟩]) ∧
    Along (tracedStep thunderConfig) (fun a event _ => CreditsPaid a event)
      ⟨twoWorkers, []⟩ splitBothRun :=
  ⟨by decide +kernel, paid_to_workers thunderConfig twoWorkers splitBothRun
    ⟨rfl, rfl⟩ (by decide +kernel)⟩

/-- The node starts to sign on its own after it has proved that it does not. -/
def changedNodeRun : List Event := provenRun ++ [.accept "t2"] ++ confirmRun

/-- Both workers are credited for a transaction that pays the first address only. -/
theorem changed_node_credits_unpaid :
    (run (tracedStep thunderConfig) ⟨twoWorkers, []⟩ changedNodeRun).map
        (fun a => (a.state.accepted.head?.map AcceptedTx.outputs, a.state.db.credits.rows)) =
      some (some [⟨"tb", 50000⟩], [⟨1, 40000, 40000⟩, ⟨2, 30000, 30000⟩]) ∧
    AtRest twoWorkers ∧
      ¬Along (tracedStep thunderConfig) (fun a event _ => CreditsPaid a event)
        ⟨twoWorkers, []⟩ changedNodeRun :=
  ⟨by decide +kernel, ⟨rfl, rfl⟩, by decide +kernel⟩

end SimplePool.Payout
