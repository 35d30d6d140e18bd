import SimplePool.Payout.Progress

/-! Ticks that overlap. The loop and the admin endpoint call `runOnce` in one thread, and every
await lets another call go on. A call reads what is in flight and who is due, and writes its
rows some awaits later. -/
namespace SimplePool.Payout
open Transition

inductive Caller where
  | loop | admin
deriving DecidableEq, Repr

/-- The process, with the calls of `runOnce` that are under way: the loop's at 0, and the
requests of the endpoint. -/
structure Pool where
  db : Db
  accepted : List AcceptedTx
  nowMs : Nat
  /-- The loop and the endpoint have a context each, and the client in common. -/
  memory : Caller → Memory
  ticks : Nat → Pc
  /-- The call that has the thread. -/
  running : Option Nat
  /-- Every batch that was begun, the latest first. -/
  begun : List Batch

def Pool.start (db : Db) : Pool := ⟨db, [], 0, fun _ => .fresh, fun _ => .idle, none, []⟩

def caller (slot : Nat) : Caller := if slot = 0 then .loop else .admin

/-- From the answer to `balance` to the call of the node there is no await. -/
def Pc.awaits : Pc → Bool
  | .beginning _ | .calling _ => false
  | _ => true

/-- What a call sees. -/
def Pool.view (p : Pool) (slot : Nat) : State :=
  ⟨p.db, p.accepted, p.nowMs, p.memory (caller slot), p.ticks slot⟩

def Pool.put (p : Pool) (slot : Nat) (event : Event) (s : State) : Pool where
  db := s.db
  accepted := s.accepted
  nowMs := s.nowMs
  memory context := if context = caller slot then s.memory
    else { p.memory context with unlocked := s.memory.unlocked }
  ticks := Function.update p.ticks slot s.pc
  running := if s.pc.awaits then none else some slot
  begun := begunNow (p.view slot) event ++ p.begun

inductive PoolEvent where
  /-- The proxy writes, or time passes. -/
  | world (event : Event)
  | crash
  | tick (slot : Nat) (event : Event)

def Event.outside : Event → Bool
  | .accrue .. | .register _ | .wait _ => true
  | _ => false

def Pool.step (cfg : Config) (p : Pool) : PoolEvent → Option Pool
  | .world event =>
    if event.outside then (Payout.step cfg (p.view 0) event).map fun s =>
      { p with db := s.db, nowMs := s.nowMs } else none
  | .crash => some { p with memory := fun _ => .fresh, ticks := fun _ => .idle, running := none }
  | .tick slot event =>
    if !event.outside && event ≠ .crash && (p.running = none || p.running = some slot) then
      (Payout.step cfg (p.view slot) event).map (p.put slot event)
    else none

/-- At most one batch is in flight, with a row a worker, and no two transactions overlap. -/
structure OneBatch (p : Pool) : Prop where
  batch : p.db.inFlight = [] ∨ ∃ batch ∈ p.begun, ∀ row ∈ p.db.inFlight, row.id ∈ batch.rowIds
  workers : (p.db.inFlight.map InFlight.workerId).Nodup
  once : p.accepted.Pairwise Disjoint

/-- The rows that the next write of the call makes. -/
def Pc.begins : Pc → Option (List DueRow)
  | .beginning due => some due
  | _ => none

/-- Nothing is in flight when rows are written, and nobody in them has been paid since the list
was read. -/
def StillDue (p : Pool) (slot : Nat) : Prop :=
  ∀ due ∈ (p.ticks slot).begins, p.db.inFlight = [] ∧ ∀ row ∈ due,
    row.paidSats = p.db.paid row.workerId

/-- The rows that the next write of the call deletes. -/
def Pc.aborts : Pc → Option (List Nat)
  | .aborting rowIds => some rowIds
  | _ => none

/-- No rows are deleted of a batch whose transaction the node took. -/
def KeepsTaken (p : Pool) (slot : Nat) : Prop :=
  ∀ rowIds ∈ (p.ticks slot).aborts, ∀ batch ∈ p.begun, batch.rowIds = rowIds →
    ∀ tx ∈ p.accepted, ∀ d ∈ tx.debts, ∀ e ∈ batch.debts, ¬d.Overlaps e

def Undisturbed (p : Pool) : PoolEvent → Prop
  | .tick slot event => event = .proceed → StillDue p slot ∧ KeepsTaken p slot
  | .world _ | .crash => True

instance (p : Pool) (slot : Nat) : Decidable (StillDue p slot) :=
  inferInstanceAs (Decidable (∀ due ∈ (p.ticks slot).begins, _))

instance (p : Pool) (slot : Nat) : Decidable (KeepsTaken p slot) :=
  inferInstanceAs (Decidable (∀ rowIds ∈ (p.ticks slot).aborts, _))

instance (p : Pool) : (event : PoolEvent) → Decidable (Undisturbed p event)
  | .tick _ event => inferInstanceAs (Decidable (event = .proceed → _ ∧ _))
  | .world _ | .crash => inferInstanceAs (Decidable True)

/-- The batch was listed no later than what has been paid. -/
def Quotes (db : Db) (batch : Batch) : Prop :=
  ∀ item ∈ batch.items, item.paidSats ≤ db.paid item.workerId

/-- What the calls have in common. -/
structure Shared (db : Db) (accepted : List AcceptedTx) (begun : List Batch) : Prop where
  ids : ∀ row ∈ db.inFlight, row.id < db.nextRowId
  workers : (db.inFlight.map InFlight.workerId).Nodup
  known : ∀ row ∈ db.inFlight, Known db row.workerId
  single : ∀ row ∈ db.inFlight, ∀ other ∈ db.inFlight, row.txid = other.txid
  stamped : ∀ row ∈ db.inFlight, row.txid ≠ "" → 0 < row.sats
  batch : db.inFlight = [] ∨ ∃ batch, Flies db begun batch
  carried : ∀ tx ∈ accepted, Settled db tx ∨ ∃ batch, Flies db begun batch ∧
  tx.debts = batch.debts ∧ Quotes db batch
  positive : ∀ tx ∈ accepted, ∀ d ∈ tx.debts, 0 < d.sats
  once : accepted.Pairwise Disjoint

/-- The rows that a call asks after are all there is in flight, or are gone. -/
structure Asked (db : Db) (pending : Pending) : Prop where
  ids : ∀ row ∈ pending.rows, row.id < db.nextRowId
  positive : ∀ row ∈ pending.rows, 0 < row.sats
  stamped : ∀ row ∈ pending.rows, row.txid ≠ ""
  rows : pending.rows = db.inFlight ∨ ∀ row ∈ pending.rows, row.id ∉ db.inFlight.map InFlight.id

/-- A call has these rows in flight and no transaction recorded for them. -/
structure Held (db : Db) (begun : List Batch) (batch : Batch) : Prop where
  flies : Flies db begun batch
  nonempty : db.inFlight ≠ []
  unstamped : ∀ row ∈ db.inFlight, row.txid = ""
  quotes : Quotes db batch

/-- Every transaction ends before the batch starts. -/
def Earlier (accepted : List AcceptedTx) (batch : Batch) : Prop :=
  ∀ tx ∈ accepted, ∀ d ∈ tx.debts, ∀ item ∈ batch.items, d.workerId = item.workerId →
    d.stop ≤ item.paidSats

def Batch.Positive (batch : Batch) : Prop := ∀ item ∈ batch.items, 0 < item.sats

/-- What a call relies on between its awaits. -/
def Pc.Fits (db : Db) (accepted : List AcceptedTx) (begun : List Batch) : Pc → Prop
  | .idle | .nudging | .listing => True
  | .settling pending | .checkingWallet pending _ | .finalizing pending => Asked db pending
  | .checkingMempool due | .checkingBalance due | .beginning due => Chosen db due
  | .calling batch | .unlocking batch => Held db begun batch ∧ Earlier accepted batch
  | .creating batch | .signing batch _ | .submitting batch _ | .sending batch =>
    Held db begun batch ∧ Earlier accepted batch ∧ batch.Positive
  | .created batch _ | .submitted batch _ | .sent batch _ => Held db begun batch ∧ batch.Positive
  | .attaching rowIds _ _ => ∃ batch, batch.rowIds = rowIds ∧ Held db begun batch ∧ batch.Positive
  | .aborting rowIds => ∃ batch, batch.rowIds = rowIds ∧ Held db begun batch

structure Pool.Kept (p : Pool) : Prop where
  shared : Shared p.db p.accepted p.begun
  ticks : ∀ slot, (p.ticks slot).Fits p.db p.accepted p.begun
  alone : ∀ slot other, slot ≠ other → (p.ticks slot).holds.isSome → (p.ticks other).holds = none

section

variable {db db' : Db} {accepted : List AcceptedTx} {begun : List Batch} {batch : Batch}
  {pc pc' : Pc}

theorem Quotes.grow (quotes : Quotes db batch)
    (paid : ∀ workerId, db.paid workerId ≤ db'.paid workerId) : Quotes db' batch :=
  fun item inside => (quotes item inside).trans (paid item.workerId)

theorem Settled.grow (settled : Settled db tx)
    (paid : ∀ workerId, db.paid workerId ≤ db'.paid workerId) : Settled db' tx :=
  fun d inside => (settled d inside).trans (paid d.workerId)

theorem Flies.grow (flies : Flies db begun batch) (rows : db'.inFlight = db.inFlight) :
    Flies db' begun batch :=
  ⟨flies.1, rows ▸ flies.2⟩

theorem Shared.grow (shared : Shared db accepted begun) (grows : Grows db db') :
    Shared db' accepted begun := by
  obtain ⟨rows, paid, known, nextRowId⟩ := grows
  exact
  { ids := by rw [rows, nextRowId]; exact shared.ids
    workers := by rw [rows]; exact shared.workers
    known := fun row member => known _ (shared.known row (rows ▸ member))
    single := by rw [rows]; exact shared.single
    stamped := by rw [rows]; exact shared.stamped
    batch := by
      rcases shared.batch with clear | ⟨batch, flies⟩
      · exact .inl (rows.trans clear)
      · exact .inr ⟨batch, flies.grow rows⟩
    carried := by
      intro tx member
      rcases shared.carried tx member with settled | ⟨batch, flies, same, quotes⟩
      · exact .inl (settled.grow paid)
      · exact .inr ⟨batch, flies.grow rows, same, quotes.grow paid⟩
    positive := shared.positive
    once := shared.once }

theorem Held.grow (held : Held db begun batch) (grows : Grows db db') : Held db' begun batch where
  flies := held.flies.grow grows.rows
  nonempty := by rw [grows.rows]; exact held.nonempty
  unstamped := by rw [grows.rows]; exact held.unstamped
  quotes := held.quotes.grow grows.paid

theorem Chosen.grow (chosen : Chosen db due)
    (known : ∀ workerId, Known db workerId → Known db' workerId) : Chosen db' due :=
  ⟨chosen.nonempty, chosen.distinct, fun row member => known _ (chosen.known row member)⟩

theorem Asked.grow (asked : Asked db pending) (grows : Grows db db') : Asked db' pending where
  ids := by rw [grows.nextRowId]; exact asked.ids
  positive := asked.positive
  stamped := asked.stamped
  rows := by rw [grows.rows]; exact asked.rows

theorem Pc.Fits.grow (fits : pc.Fits db accepted begun) (grows : Grows db db') :
    pc.Fits db' accepted begun := by
  cases pc with
  | idle | nudging | listing => trivial
  | settling | checkingWallet | finalizing => exact Asked.grow fits grows
  | checkingMempool | checkingBalance | beginning => exact Chosen.grow fits grows.known
  | calling | unlocking | creating | signing | submitting | sending | created | submitted | sent =>
    exact ⟨fits.1.grow grows, fits.2⟩
  | attaching =>
    obtain ⟨batch, same, held, positive⟩ := fits
    exact ⟨batch, same, held.grow grows, positive⟩
  | aborting =>
    obtain ⟨batch, same, held⟩ := fits
    exact ⟨batch, same, held.grow grows⟩

theorem Pc.Fits.of_free (free : pc.free = true) : pc.Fits db accepted begun := by
  cases pc with
  | idle | nudging | listing => trivial
  | _ => contradiction

theorem Pc.Fits.reads (fits : pc.Fits db accepted begun) (reads : pc.reads = some pending) :
    Asked db pending := by
  cases pc with
  | settling | checkingWallet | finalizing =>
    obtain rfl := Option.some.inj reads
    exact fits
  | _ => contradiction

theorem Pc.Fits.of_reads (reads : pc.reads = some pending) (asked : Asked db pending) :
    pc.Fits db accepted begun := by
  cases pc with
  | settling | checkingWallet | finalizing =>
    obtain rfl := Option.some.inj reads
    exact asked
  | _ => contradiction

theorem Pc.Fits.lists (fits : pc.Fits db accepted begun) (lists : pc.lists = some due) :
    Chosen db due := by
  cases pc with
  | checkingMempool | checkingBalance | beginning =>
    obtain rfl := Option.some.inj lists
    exact fits
  | _ => contradiction

theorem Pc.Fits.of_lists (lists : pc.lists = some due) (chosen : Chosen db due) :
    pc.Fits db accepted begun := by
  cases pc with
  | checkingMempool | checkingBalance | beginning =>
    obtain rfl := Option.some.inj lists
    exact chosen
  | _ => contradiction

theorem Pc.Fits.prepares (fits : pc.Fits db accepted begun) (prepares : pc.prepares = some batch) :
    Held db begun batch ∧ Earlier accepted batch := by
  cases pc with
  | calling | unlocking =>
    obtain rfl := Option.some.inj prepares
    exact fits
  | _ => contradiction

theorem Pc.Fits.of_prepares (prepares : pc.prepares = some batch) (held : Held db begun batch)
    (earlier : Earlier accepted batch) :
    pc.Fits db accepted begun := by
  cases pc with
  | calling | unlocking =>
    obtain rfl := Option.some.inj prepares
    exact ⟨held, earlier⟩
  | _ => contradiction

theorem Pc.Fits.taken (fits : pc.Fits db accepted begun) (taken : pc.taken = some (batch, txid)) :
    Held db begun batch ∧ batch.Positive := by
  cases pc with
  | created | submitted | sent =>
    obtain ⟨rfl, rfl⟩ := Prod.mk.inj (Option.some.inj taken)
    exact fits
  | _ => contradiction

theorem Pc.Fits.holds (fits : pc.Fits db accepted begun) (holds : pc.holds = some rowIds) :
    ∃ batch, batch.rowIds = rowIds ∧ Held db begun batch := by
  cases pc with
  | calling | unlocking | creating | signing | submitting | sending | created | submitted | sent =>
    obtain rfl := Option.some.inj holds
    exact ⟨_, rfl, fits.1⟩
  | attaching =>
    obtain rfl := Option.some.inj holds
    obtain ⟨batch, same, held, _⟩ := fits
    exact ⟨batch, same, held⟩
  | aborting =>
    obtain rfl := Option.some.inj holds
    exact fits
  | _ => contradiction

/-- A call that holds nothing only minds what it asks after. -/
theorem Pc.Fits.move (fits : pc.Fits db accepted begun) (nothing : pc.holds = none)
    (known : ∀ workerId, Known db workerId → Known db' workerId)
    (asked : ∀ pending, Asked db pending → Asked db' pending)
    (accepted' : List AcceptedTx) (begun' : List Batch) : pc.Fits db' accepted' begun' := by
  cases pc with
  | idle | nudging | listing => trivial
  | settling | checkingWallet | finalizing => exact asked _ fits
  | checkingMempool | checkingBalance | beginning => exact Chosen.grow fits known
  | _ => contradiction

theorem Pc.Fits.of_taken (taken : pc.taken = some (batch, txid)) (held : Held db begun batch)
    (positive : batch.Positive) :
    pc.Fits db accepted begun := by
  cases pc with
  | created | submitted | sent =>
    obtain ⟨rfl, rfl⟩ := Prod.mk.inj (Option.some.inj taken)
    exact ⟨held, positive⟩
  | _ => contradiction

theorem Held.mono (held : Held db begun batch) (more : List Batch) :
    Held db (more ++ begun) batch :=
  ⟨held.flies.mono more, held.nonempty, held.unstamped, held.quotes⟩

theorem Pc.Fits.mono (fits : pc.Fits db accepted begun) (more : List Batch) :
    pc.Fits db accepted (more ++ begun) := by
  cases pc with
  | idle | nudging | listing => trivial
  | settling | checkingWallet | finalizing | checkingMempool | checkingBalance | beginning =>
    exact fits
  | calling | unlocking | creating | signing | submitting | sending | created | submitted | sent =>
    exact ⟨fits.1.mono more, fits.2⟩
  | attaching =>
    obtain ⟨batch, same, held, positive⟩ := fits
    exact ⟨batch, same, held.mono more, positive⟩
  | aborting =>
    obtain ⟨batch, same, held⟩ := fits
    exact ⟨batch, same, held.mono more⟩

theorem Shared.mono (shared : Shared db accepted begun) (more : List Batch) :
    Shared db accepted (more ++ begun) where
  ids := shared.ids
  workers := shared.workers
  known := shared.known
  single := shared.single
  stamped := shared.stamped
  batch := by
    rcases shared.batch with clear | ⟨batch, flies⟩
    · exact .inl clear
    · exact .inr ⟨batch, flies.mono more⟩
  carried := by
    intro tx member
    rcases shared.carried tx member with settled | ⟨batch, flies, same, quotes⟩
    · exact .inl settled
    · exact .inr ⟨batch, flies.mono more, same, quotes⟩
  positive := shared.positive
  once := shared.once

/-- With nothing in flight, everything the node took has been credited. -/
theorem Shared.settled_of_clear (shared : Shared db accepted begun) (clear : db.inFlight = []) :
    ∀ tx ∈ accepted, Settled db tx := by
  intro tx member
  rcases shared.carried tx member with settled | ⟨batch, flies, same, _⟩
  · exact settled
  · have nobody := flies.2.items
    rw [clear, List.map_nil, List.nil_eq, List.map_eq_nil_iff] at nobody
    intro d inside
    simp [same, Batch.debts, nobody] at inside

theorem Shared.of_clear (clear : db.inFlight = []) (settled : ∀ tx ∈ accepted, Settled db tx)
    (positive : ∀ tx ∈ accepted, ∀ d ∈ tx.debts, 0 < d.sats) (once : accepted.Pairwise Disjoint) :
    Shared db accepted begun where
  ids := by simp [clear]
  workers := by simp [clear]
  known := by simp [clear]
  single := by simp [clear]
  stamped := by simp [clear]
  batch := .inl clear
  carried tx member := .inl (settled tx member)
  positive := positive
  once := once

theorem Asked.of_clear (asked : Asked db pending) (clear : db'.inFlight = [])
    (nextRowId : db'.nextRowId = db.nextRowId) :
    Asked db' pending where
  ids := by rw [nextRowId]; exact asked.ids
  positive := asked.positive
  stamped := asked.stamped
  rows := .inr (by simp [clear])

/-- What is asked after is not held by a call. -/
theorem Asked.gone (asked : Asked db pending) (held : Held db begun batch) :
    ∀ row ∈ pending.rows, row.id ∉ db.inFlight.map InFlight.id := by
  rcases asked.rows with current | gone
  · obtain ⟨row, rest, rows⟩ := List.exists_cons_of_ne_nil held.nonempty
    have member : row ∈ db.inFlight := rows ▸ List.mem_cons_self
    exact absurd (held.unstamped row member) (asked.stamped row (current ▸ member))
  · exact gone

theorem RowsOf.row_of_item (rows : RowsOf db.inFlight batch) (inside : item ∈ batch.items) :
    ∃ row ∈ db.inFlight, row.workerId = item.workerId ∧ row.sats = item.sats := by
  have paired :=
    List.mem_map_of_mem (f := fun item : BatchItem => (item.workerId, item.sats)) inside
  rw [← rows.items] at paired
  obtain ⟨row, member, same⟩ := List.mem_map.mp paired
  exact ⟨row, member, Prod.mk.inj same⟩

theorem RowsOf.positive (rows : RowsOf db.inFlight batch) (positive : batch.Positive) :
    ∀ row ∈ db.inFlight, 0 < row.sats := by
  intro row member
  have paired := List.mem_map_of_mem (f := fun row : InFlight => (row.workerId, row.sats)) member
  rw [rows.items] at paired
  obtain ⟨item, inside, same⟩ := List.mem_map.mp paired
  rw [← (Prod.mk.inj same).2]
  exact positive item inside

theorem batchRows_id_lt (member : row ∈ batchRows firstId items nowSec) :
    firstId ≤ row.id ∧ row.id < firstId + items.length := by
  obtain ⟨⟨item, i⟩, listed, rfl⟩ := List.mem_map.mp member
  have bound := (List.mem_zipIdx listed).2.1
  dsimp only
  omega

/-- Rows are written with nothing in flight, for debts that nobody has paid since. -/
theorem Shared.begin {s : State} (shared : Shared s.db accepted begun) (clear : s.db.inFlight = [])
    (chosen : Chosen s.db due) (quoted : ∀ row ∈ due, row.paidSats = s.db.paid row.workerId)
    (written : (beginBatch s.db (batchOf due) (s.nowMs / 1000)).2 = db') :
    Shared db' accepted (begunBatch s due :: begun) ∧
    Held db' (begunBatch s due :: begun) (begunBatch s due) ∧
      Earlier accepted (begunBatch s due) := by
  have rows : db'.inFlight = batchRows s.db.nextRowId (batchOf due) (s.nowMs / 1000) :=
    written ▸ beginBatch_inFlight clear _ _
  have flies : Flies db' (begunBatch s due :: begun) (begunBatch s due) :=
    ⟨List.mem_cons_self, written ▸ beginBatch_rowsOf clear due⟩
  have paid : ∀ workerId, db'.paid workerId = s.db.paid workerId := written ▸ fun _ => rfl
  have settled := shared.settled_of_clear clear
  have workers : db'.inFlight.map InFlight.workerId = due.map DueRow.workerId := by
    rw [rows, batchRows_map InFlight.workerId BatchItem.workerId (fun _ _ _ => rfl), batchOf,
      List.map_map]
    rfl
  have unstamped : ∀ row ∈ db'.inFlight, row.txid = "" := by
    rw [rows]
    intro row member
    obtain ⟨item, _, rfl⟩ := List.mem_map.mp member
    rfl
  have quotes : ∀ item ∈ (begunBatch s due).items, item.paidSats = s.db.paid item.workerId := by
    intro item member
    obtain ⟨row, inside, rfl⟩ := List.mem_map.mp member
    exact quoted row inside
  refine ⟨?_, ⟨flies, ?_, unstamped, ?_⟩, ?_⟩
  · exact
    { ids := by
        intro row member
        rw [rows] at member
        rw [← written]
        exact (batchRows_id_lt member).2
      workers := workers ▸ chosen.distinct
      known := by
        intro row member
        have listed := List.mem_map_of_mem (f := InFlight.workerId) member
        rw [workers] at listed
        obtain ⟨dueRow, inside, same⟩ := List.mem_map.mp listed
        rw [← same, ← written]
        exact chosen.known dueRow inside
      single := by
        intro row member other otherMember
        rw [unstamped row member, unstamped other otherMember]
      stamped := fun row member stamped => absurd (unstamped row member) stamped
      batch := .inr ⟨_, flies⟩
      carried := fun tx member => .inl ((settled tx member).grow fun workerId => (paid workerId).ge)
      positive := shared.positive
      once := shared.once }
  · intro nothing
    rw [nothing, List.map_nil] at workers
    exact chosen.nonempty (List.map_eq_nil_iff.mp workers.symm)
  · intro item member
    rw [quotes item member, paid]
  · intro tx member d inside item listed same
    rw [quotes item listed, ← same]
    exact settled tx member d inside

theorem Shared.attach (shared : Shared db accepted begun) (held : Held db begun batch)
    (positive : batch.Positive) (txid : String) :
    Shared (attachBatchTxid db batch.rowIds txid) accepted begun := by
  have rows := attachBatchTxid_inFlight held.flies.2.ids txid
  have flies :
      ∀ other, Flies db begun other → Flies (attachBatchTxid db batch.rowIds txid) begun other :=
    fun other flies => ⟨flies.1, flies.2.attach held.flies.2.ids txid⟩
  exact
  { ids := by
      rw [rows]
      exact List.forall_mem_map.mpr shared.ids
    workers := by
      rw [rows, List.map_map]
      exact shared.workers
    known := by
      rw [rows]
      exact List.forall_mem_map.mpr shared.known
    single := by
      rw [rows]
      intro row member other otherMember
      obtain ⟨_, _, rfl⟩ := List.mem_map.mp member
      obtain ⟨_, _, rfl⟩ := List.mem_map.mp otherMember
      rfl
    stamped := by
      rw [rows]
      intro row member _
      obtain ⟨old, inside, rfl⟩ := List.mem_map.mp member
      exact held.flies.2.positive positive old inside
    batch := .inr ⟨batch, flies batch held.flies⟩
    carried := by
      intro tx member
      rcases shared.carried tx member with settled | ⟨other, flying, same, quotes⟩
      · exact .inl settled
      · exact .inr ⟨other, flies other flying, same, quotes⟩
    positive := shared.positive
    once := shared.once }

/-- A batch is dropped that the node has taken nothing for. -/
theorem Shared.abort (shared : Shared db accepted begun)
    (rows : db.inFlight.map InFlight.id = rowIds)
    (untaken : ∀ batch ∈ begun, batch.rowIds = rowIds → ∀ tx ∈ accepted, ∀ d ∈ tx.debts,
      ∀ e ∈ batch.debts, ¬d.Overlaps e) :
    Shared (abortBatch db rowIds) accepted begun := by
  refine Shared.of_clear (abortBatch_clear rows) ?_ shared.positive shared.once
  intro tx member
  rcases shared.carried tx member with settled | ⟨batch, flies, same, _⟩
  · exact settled
  · -- a transaction for these rows would overlap each of its own debts
    intro d inside
    have positive := shared.positive tx member d inside
    refine absurd ⟨rfl, ?_, ?_⟩
      (untaken batch flies.1 (flies.2.ids.symm.trans rows) tx member d inside d (same ▸ inside)) <;>
      simp only [Debt.stop] <;> omega

/-- The batch that is in flight is credited. -/
theorem Shared.finalize (shared : Shared db accepted begun)
    (positive : ∀ row ∈ db.inFlight, 0 < row.sats) (fee : Int) (txid : String) (nowSec : Nat) :
    Shared (finalizeBatch db db.inFlight fee txid nowSec) accepted begun := by
  refine Shared.of_clear (finalizeBatch_inFlight db fee txid nowSec) ?_ shared.positive shared.once
  intro tx member
  have grown :
      ∀ workerId, db.paid workerId ≤ (finalizeBatch db db.inFlight fee txid nowSec).paid workerId :=
    finalizeBatch_paid_le positive
  rcases shared.carried tx member with settled | ⟨batch, flies, same, quotes⟩
  · exact settled.grow grown
  · intro d inside
    obtain ⟨item, listed, rfl⟩ := List.mem_map.mp (same ▸ inside)
    obtain ⟨row, inFlight, worker, sats⟩ := flies.2.row_of_item listed
    have credited : db.paid row.workerId + row.sats ≤
          (finalizeBatch db db.inFlight fee txid nowSec).paid row.workerId :=
      finalizeBatch_paid_row positive inFlight (shared.known row inFlight)
    have start := quotes item listed
    rw [worker, sats] at credited
    change item.paidSats + item.sats ≤ _
    exact (add_le_add_left start _).trans credited

/-- Rows that are gone are credited once more. -/
theorem finalizeBatch_grows (asked : Asked db pending)
    (gone : ∀ row ∈ pending.rows, row.id ∉ db.inFlight.map InFlight.id)
    (fee : Int) (txid : String) (nowSec : Nat) :
    Grows db (finalizeBatch db pending.rows fee txid nowSec) where
  rows := by
    rw [finalizeBatch_rows]
    refine List.filter_eq_self.mpr fun row member => ?_
    rw [decide_eq_true_eq]
    intro listed
    obtain ⟨old, inside, same⟩ := List.mem_map.mp listed
    exact gone old inside (same ▸ List.mem_map_of_mem member)
  paid := finalizeBatch_paid_le asked.positive
  known := by
    intro workerId known
    rw [Known, finalizeBatch_known]
    exact known
  nextRowId := finalizeBatch_nextRowId ..

end

section

variable {p : Pool} {slot : Nat} {event : Event} {t : State} {batch : Batch}

theorem Pool.Kept.nobody (kept : p.Kept) (holder : (p.ticks slot).holds = some rowIds) :
    ∀ other, other ≠ slot → (p.ticks other).holds = none :=
  fun other different => kept.alone slot other different.symm (by rw [holder]; rfl)

/-- A call that holds rows excludes that nothing is in flight. -/
theorem Pool.Kept.nobody_of_clear (kept : p.Kept) (clear : p.db.inFlight = []) (other : Nat) :
    (p.ticks other).holds = none := by
  cases holds : (p.ticks other).holds with
  | none => rfl
  | some rowIds =>
    obtain ⟨batch, _, held⟩ := (kept.ticks other).holds holds
    exact absurd clear held.nonempty

theorem Pool.put_self (p : Pool) (slot : Nat) (event : Event) (t : State) :
    (p.put slot event t).ticks slot = t.pc :=
  Function.update_self ..

theorem Pool.put_other (p : Pool) (event : Event) (t : State) (different : other ≠ slot) :
    (p.put slot event t).ticks other = p.ticks other :=
  Function.update_of_ne different ..

/-- The call that moved, the others, and what they share. -/
theorem Pool.Kept.put (kept : p.Kept) (shared : Shared t.db t.accepted (p.put slot event t).begun)
    (mover : t.pc.Fits t.db t.accepted (p.put slot event t).begun)
    (others : ∀ other, other ≠ slot →
      (p.ticks other).Fits t.db t.accepted (p.put slot event t).begun)
    (alone : t.pc.holds.isSome → ∀ other, other ≠ slot → (p.ticks other).holds = none) :
    (p.put slot event t).Kept := by
  refine ⟨shared, ?_, ?_⟩
  · intro other
    by_cases same : other = slot
    · rw [same, Pool.put_self]
      exact mover
    · rw [Pool.put_other p event t same]
      exact others other same
  · intro first second different holds
    by_cases moved : first = slot
    · rw [moved, Pool.put_self] at holds
      rw [Pool.put_other p event t (moved ▸ different.symm)]
      exact alone holds second (moved ▸ different.symm)
    · rw [Pool.put_other p event t moved] at holds
      by_cases target : second = slot
      · rw [target, Pool.put_self]
        cases now : t.pc.holds with
        | none => rfl
        | some rowIds =>
          rw [alone (by rw [now]; rfl) first moved] at holds
          contradiction
      · rw [Pool.put_other p event t target]
        exact kept.alone first second different holds

/-- The call writes nothing. -/
theorem Pool.Kept.quiet (kept : p.Kept) (quiet : Quietly (p.view slot) t)
    (fits : t.pc.Fits p.db p.accepted p.begun)
    (same : t.pc.holds.isSome → (p.ticks slot).holds.isSome) : (p.put slot event t).Kept := by
  obtain ⟨db, accepted⟩ := quiet
  change t.db = p.db at db
  change t.accepted = p.accepted at accepted
  apply kept.put
  · rw [db, accepted]
    exact kept.shared.mono _
  · rw [db, accepted]
    exact fits.mono _
  · intro other _
    rw [db, accepted]
    exact (kept.ticks other).mono _
  · intro holds other different
    exact kept.alone slot other different.symm (same holds)

theorem Pool.Kept.grow (kept : p.Kept) (grows : Grows p.db t.db)
    (accepted : t.accepted = p.accepted) (pc : t.pc.Fits p.db p.accepted p.begun)
    (same : t.pc.holds.isSome → (p.ticks slot).holds.isSome) : (p.put slot event t).Kept := by
  apply kept.put
  · rw [accepted]
    exact (kept.shared.grow grows).mono _
  · rw [accepted]
    exact (pc.grow grows).mono _
  · intro other _
    rw [accepted]
    exact ((kept.ticks other).grow grows).mono _
  · intro holds other different
    exact kept.alone slot other different.symm (same holds)

/-- The node takes the transaction of the call. -/
theorem Pool.Kept.take (kept : p.Kept) (holder : (p.ticks slot).holds = some batch.rowIds)
    (held : Held p.db p.begun batch)
    (earlier : Earlier p.accepted batch) (positive : batch.Positive) (db : t.db = p.db)
    (accepted : t.accepted = ⟨txid, outputs, batch.debts⟩ :: p.accepted)
    (taken : t.pc.taken = some (batch, txid)) :
    (p.put slot event t).Kept := by
  have shared : Shared p.db t.accepted p.begun :=
    { kept.shared with
      carried := by
        rw [accepted]
        intro tx member
        rcases List.mem_cons.mp member with rfl | old
        · exact .inr ⟨batch, held.flies, rfl, held.quotes⟩
        · exact kept.shared.carried tx old
      positive := by
        rw [accepted]
        intro tx member d inside
        rcases List.mem_cons.mp member with rfl | old
        · obtain ⟨item, listed, rfl⟩ := List.mem_map.mp inside
          exact positive item listed
        · exact kept.shared.positive tx old d inside
      once := by
        rw [accepted]
        refine List.pairwise_cons.mpr ⟨?_, kept.shared.once⟩
        rintro tx old d inside e other ⟨worker, before, _⟩
        obtain ⟨item, listed, rfl⟩ := List.mem_map.mp inside
        exact absurd (earlier tx old e other item listed worker.symm) (not_le.mpr before) }
  apply kept.put
  · rw [db]
    exact shared.mono _
  · rw [db]
    exact (Pc.Fits.of_taken taken held positive).mono _
  · intro other different
    rw [db]
    exact (kept.ticks other).move (kept.nobody holder other different) (fun _ => id)
      (fun _ => id) _ _
  · exact fun _ => kept.nobody holder

theorem Pool.Kept.begin (kept : p.Kept) (before : p.ticks slot = .beginning due)
    (still : StillDue p slot) (accepted : t.accepted = p.accepted)
    (db : t.db = (beginBatch p.db (batchOf due) (p.nowMs / 1000)).2)
    (pc : t.pc = .calling (begunBatch (p.view slot) due)) : (p.put slot .proceed t).Kept := by
  have chosen := kept.ticks slot
  rw [before] at chosen
  obtain ⟨clear, quoted⟩ := still due (by rw [before]; rfl)
  have begun : (p.put slot .proceed t).begun = begunBatch (p.view slot) due :: p.begun := by
    have here : (p.view slot).pc = .beginning due := before
    simp only [Pool.put, begunNow, here, List.singleton_append]
  obtain ⟨shared, held, earlier⟩ :=
    Shared.begin (s := p.view slot) kept.shared clear chosen quoted db.symm
  apply kept.put
  · rw [accepted, begun]
    exact shared
  · rw [accepted, begun, pc]
    exact ⟨held, earlier⟩
  · intro other _
    refine (kept.ticks other).move (kept.nobody_of_clear clear other)
      (fun workerId known => db ▸ known) ?_ _ _
    intro pending asked
    -- the new rows are numbered above everything that was ever asked after
    have rows : t.db.inFlight = batchRows p.db.nextRowId (batchOf due) (p.nowMs / 1000) :=
      db ▸ beginBatch_inFlight clear _ _
    have gone : ∀ row ∈ pending.rows, row.id ∉ t.db.inFlight.map InFlight.id := by
      intro row inside listed
      rw [rows] at listed
      obtain ⟨new, member, same⟩ := List.mem_map.mp listed
      have above := (batchRows_id_lt member).1
      have below := asked.ids row inside
      omega
    refine ⟨fun row inside => ?_, asked.positive, asked.stamped, .inr gone⟩
    rw [db]
    exact (asked.ids row inside).trans_le (Nat.le_add_right _ _)
  · exact fun _ other _ => kept.nobody_of_clear clear other

theorem Pool.Kept.attach (kept : p.Kept) (before : p.ticks slot = .attaching rowIds txid nudges)
    (db : t.db = attachBatchTxid p.db rowIds txid) (accepted : t.accepted = p.accepted)
    (free : t.pc.free = true) :
    (p.put slot event t).Kept := by
  have fits := kept.ticks slot
  rw [before] at fits
  obtain ⟨batch, rfl, held, positive⟩ := fits
  have holder : (p.ticks slot).holds = some batch.rowIds := by rw [before]; rfl
  apply kept.put
  · rw [db, accepted]
    exact (kept.shared.attach held positive txid).mono _
  · exact .of_free free
  · intro other different
    refine (kept.ticks other).move (kept.nobody holder other different)
      (fun workerId known => db ▸ known) ?_ _ _
    intro pending asked
    refine ⟨db ▸ asked.ids, asked.positive, asked.stamped, .inr ?_⟩
    rw [db, attachBatchTxid_inFlight held.flies.2.ids, List.map_map]
    exact asked.gone held
  · intro holds
    rw [Pc.holds_of_free free] at holds
    contradiction

theorem Pool.Kept.abort (kept : p.Kept) (before : p.ticks slot = .aborting rowIds)
    (keeps : KeepsTaken p slot)
    (db : t.db = abortBatch p.db rowIds) (accepted : t.accepted = p.accepted)
    (free : t.pc.free = true) :
    (p.put slot event t).Kept := by
  have holder : (p.ticks slot).holds = some rowIds := by rw [before]; rfl
  obtain ⟨batch, same, held⟩ := (kept.ticks slot).holds holder
  have rows : p.db.inFlight.map InFlight.id = rowIds := held.flies.2.ids.trans same
  apply kept.put
  · rw [db, accepted]
    exact (kept.shared.abort rows (keeps rowIds (by rw [before]; rfl))).mono _
  · exact .of_free free
  · intro other different
    refine (kept.ticks other).move (kept.nobody holder other different)
      (fun workerId known => db ▸ known) ?_ _ _
    exact fun pending asked => asked.of_clear (db ▸ abortBatch_clear rows) (db ▸ rfl)
  · intro holds
    rw [Pc.holds_of_free free] at holds
    contradiction

theorem Pool.Kept.finalize (kept : p.Kept) (before : p.ticks slot = .finalizing pending)
    (accepted : t.accepted = p.accepted)
    (db : t.db = finalizeBatch p.db pending.rows txFeeSats pending.txid nowSec)
    (free : t.pc.free = true) :
    (p.put slot event t).Kept := by
  have asked := (kept.ticks slot).reads (by rw [before]; rfl : (p.ticks slot).reads = some pending)
  have nothing : t.pc.holds.isSome → (p.ticks slot).holds.isSome := by
    intro holds
    rw [Pc.holds_of_free free] at holds
    contradiction
  rcases asked.rows with current | gone
  · -- nobody holds rows: they are stamped
    have nobody : ∀ other, (p.ticks other).holds = none := by
      intro other
      cases holds : (p.ticks other).holds with
      | none => rfl
      | some rowIds =>
        obtain ⟨batch, _, held⟩ := (kept.ticks other).holds holds
        obtain ⟨row, rest, rows⟩ := List.exists_cons_of_ne_nil held.nonempty
        have member : row ∈ p.db.inFlight := rows ▸ List.mem_cons_self
        exact absurd (List.mem_map_of_mem member) (asked.gone held row (current ▸ member))
    rw [current] at db
    apply kept.put
    · rw [db, accepted]
      exact (kept.shared.finalize (current ▸ asked.positive) ..).mono _
    · exact .of_free free
    · intro other _
      have known : ∀ workerId, Known p.db workerId → Known t.db workerId := by
        intro workerId known
        rw [db, Known, finalizeBatch_known]
        exact known
      refine (kept.ticks other).move (nobody other) known ?_ _ _
      exact fun pending asked => asked.of_clear (db ▸ finalizeBatch_inFlight ..)
        (db ▸ finalizeBatch_nextRowId ..)
    · exact fun _ other _ => nobody other
  · exact kept.grow (db ▸ finalizeBatch_grows asked gone ..) accepted (.of_free free) nothing

theorem Pool.Kept.tick (kept : p.Kept) (undisturbed : Undisturbed p (.tick slot event))
    (progress : Progress (p.view slot) t event) :
    (p.put slot event t).Kept := by
  have fits := kept.ticks slot
  have released : ∀ {pc : Pc}, pc.holds = none → pc.holds.isSome → (p.ticks slot).holds.isSome := by
    intro pc nothing holds
    rw [nothing] at holds
    contradiction
  have still : ∀ {pc : Pc} {rowIds : List Nat}, (p.ticks slot).holds = some rowIds →
      pc.holds.isSome → (p.ticks slot).holds.isSome := by
    intro pc rowIds before _
    rw [before]
    rfl
  cases progress with
  | grown grows accepted pc =>
    refine kept.grow grows accepted (pc ▸ fits) fun holds => ?_
    rw [pc] at holds
    exact holds
  | freed quiet pc => exact kept.quiet quiet (.of_free pc) (released (Pc.holds_of_free pc))
  | read quiet found pc =>
    obtain ⟨rows, _, stamped, same⟩ := pendingBatch_whole kept.shared.single found
    refine kept.quiet quiet ?_ (released (by rw [pc]; rfl))
    rw [pc]
    refine ⟨rows ▸ kept.shared.ids, ?_, ?_, .inl rows⟩
    · intro row inside
      rw [rows] at inside
      exact kept.shared.stamped row inside (same row inside ▸ stamped)
    · intro row inside
      rw [rows] at inside
      exact same row inside ▸ stamped
  | reading quiet before after =>
    exact kept.quiet quiet (.of_reads after (fits.reads before))
      (released (Pc.holds_of_reads after))
  | finalised before accepted pc db => exact kept.finalize before accepted db (by rw [pc]; rfl)
  | listed quiet clear chosen pc =>
    exact kept.quiet quiet (.of_lists pc chosen) (released (Pc.holds_of_lists pc))
  | listing quiet before after =>
    exact kept.quiet quiet (.of_lists after (fits.lists before))
      (released (Pc.holds_of_lists after))
  | begun before accepted db pc => exact kept.begin before (undisturbed rfl).1 accepted db pc
  | preparing quiet before after =>
    obtain ⟨held, earlier⟩ := fits.prepares before
    exact kept.quiet quiet (.of_prepares after held earlier) (still (Pc.holds_of_prepares before))
  | called quiet before amounts pc =>
    obtain ⟨held, earlier⟩ := fits.prepares before
    refine kept.quiet quiet ?_ (still (Pc.holds_of_prepares before))
    rcases pc with pc | pc
    · rw [pc]
      exact ⟨held, earlier, amounts⟩
    · rw [pc]
      exact ⟨held, earlier, amounts⟩
  | built quiet before spliced pc =>
    change p.ticks slot = _ at before
    rw [before] at fits
    exact kept.quiet quiet (pc ▸ fits) (still (by rw [before]; rfl))
  | signed quiet before pc =>
    change p.ticks slot = _ at before
    rw [before] at fits
    exact kept.quiet quiet (pc ▸ fits) (still (by rw [before]; rfl))
  | dropped quiet before pc => exact kept.quiet quiet (pc ▸ fits.holds before) (still before)
  | created before db fresh accepted pc =>
    change p.ticks slot = _ at before
    rw [before] at fits
    exact kept.take (by rw [before]; rfl) fits.1 fits.2.1 fits.2.2 db accepted (by rw [pc]; rfl)
  | submitted before db fresh accepted pc =>
    change p.ticks slot = _ at before
    rw [before] at fits
    exact kept.take (by rw [before]; rfl) fits.1 fits.2.1 fits.2.2 db accepted (by rw [pc]; rfl)
  | sent before db fresh accepted pc =>
    change p.ticks slot = _ at before
    rw [before] at fits
    exact kept.take (by rw [before]; rfl) fits.1 fits.2.1 fits.2.2 db accepted (by rw [pc]; rfl)
  | answered quiet before pc =>
    obtain ⟨held, positive⟩ := fits.taken before
    exact kept.quiet quiet (pc ▸ ⟨_, rfl, held, positive⟩) (still (Pc.holds_of_taken before))
  | attached before db accepted pc => exact kept.attach before db accepted pc
  | aborted before db accepted pc =>
    exact kept.abort before (undisturbed rfl).2 db accepted (by rw [pc]; rfl)

end

theorem Pool.Kept.step {p q : Pool} {event : PoolEvent} (kept : p.Kept)
    (undisturbed : Undisturbed p event) (stepped : p.step cfg event = some q) : q.Kept := by
  cases event with
  | world event =>
    rw [Pool.step] at stepped
    split at stepped
    next outside =>
      obtain ⟨t, taken, rfl⟩ := Option.map_eq_some_iff.mp stepped
      have grows : Grows p.db t.db := by
        cases event with
        | accrue workerId sats =>
          simp only [Payout.step] at taken
          split at taken
          next =>
            obtain rfl := Option.some.inj taken
            exact accrue_grows p.db workerId sats
          next => contradiction
        | register worker =>
          obtain rfl := Option.some.inj taken
          exact ⟨rfl, fun _ => le_rfl, fun _ => id, rfl⟩
        | wait ms =>
          obtain rfl := Option.some.inj taken
          exact .refl p.db
        | _ => contradiction
      exact ⟨kept.shared.grow grows, fun slot => (kept.ticks slot).grow grows, kept.alone⟩
    next => contradiction
  | crash =>
    obtain rfl := Option.some.inj stepped
    exact ⟨kept.shared, fun _ => trivial, fun _ _ _ _ => rfl⟩
  | tick slot event =>
    rw [Pool.step] at stepped
    split at stepped
    next =>
      obtain ⟨t, taken, rfl⟩ := Option.map_eq_some_iff.mp stepped
      exact kept.tick undisturbed (step_progress taken)
    next => contradiction

theorem Pool.Kept.start {db : Db} (clear : db.inFlight = []) : (Pool.start db).Kept where
  shared := .of_clear clear (List.forall_mem_nil _) (List.forall_mem_nil _) .nil
  ticks := fun _ => trivial
  alone := fun _ _ _ _ => rfl

theorem Pool.Kept.oneBatch {p : Pool} (kept : p.Kept) : OneBatch p where
  batch := by
    rcases kept.shared.batch with clear | ⟨batch, flies⟩
    · exact .inl clear
    · refine .inr ⟨batch, flies.1, fun row member => ?_⟩
      rw [← flies.2.ids]
      exact List.mem_map_of_mem member
  workers := kept.shared.workers
  once := kept.shared.once

/-- Along every interleaving of calls in which the rows that are written are still due, and no
rows are dropped that the node was paid for. -/
theorem overlapping_ticks (cfg : Config) (db : Db) (events : List PoolEvent)
    (clear : db.inFlight = [])
    (undisturbed : Along (Pool.step cfg) (fun p event _ => Undisturbed p event)
      (.start db) events) :
    Along (Pool.step cfg) (fun _ _ p => OneBatch p) (.start db) events := by
  refine Along.of_invariant ?_ (Pool.Kept.start clear) undisturbed
  intro p event q kept undisturbed stepped
  have next := kept.step undisturbed stepped
  exact ⟨next, next.oneBatch⟩

/-- The answer to `balance`, the rows and the call of the wallet. -/
def payTurn (slot : Nat) : List PoolEvent :=
  [.tick slot (.balance (some 1000000)), .tick slot .proceed, .tick slot .proceed]

/-- A request finds the rows of the loop in flight, and a later one settles them. -/
def secondCallWaits : List PoolEvent :=
  [.world (.accrue 1 20000), .tick 0 .tick, .tick 0 .proceed] ++ payTurn 0 ++
    [.tick 1 .tick, .tick 1 .proceed, .tick 0 (.accept "a1"), .tick 0 .replied, .tick 0 .proceed,
      .tick 1 .tick, .tick 1 (.txStatus ⟨true, true, false⟩), .tick 1 .proceed, .tick 1 .proceed]

theorem overlapping_ticks_second_waits :
    (run (Pool.step enforcerConfig) (.start soleWorker.db) secondCallWaits).map
        (fun p => (p.accepted.length, p.db.inFlight, p.db.credits.rows)) =
          some (1, [], [⟨1, 20000, 20000⟩]) ∧
      Along (Pool.step enforcerConfig) (fun _ _ p => OneBatch p) (.start soleWorker.db)
        secondCallWaits :=
  ⟨by decide +kernel, overlapping_ticks enforcerConfig soleWorker.db secondCallWaits rfl
    (by decide +kernel)⟩

/-- Both calls list the worker before either of them writes its row. -/
def bothCallsList : List PoolEvent :=
  [.world (.accrue 1 20000), .tick 0 .tick, .tick 0 .proceed, .tick 1 .tick, .tick 1 .proceed] ++
    payTurn 0 ++ payTurn 1 ++ [.tick 0 (.accept "a1"), .tick 1 (.accept "a2")]

/-- The worker is in flight twice, in two batches, and the node takes both. -/
theorem overlapping_ticks_pay_twice : soleWorker.db.inFlight = [] ∧
    (run (Pool.step enforcerConfig) (.start soleWorker.db) bothCallsList).map
        (fun p => (p.begun.map Batch.rowIds, p.db.inFlight.map InFlight.workerId,
          p.accepted.map AcceptedTx.debts)) =
      some ([[2], [1]], [1, 1], [[⟨1, 0, 20000⟩], [⟨1, 0, 20000⟩]]) ∧
    ¬Along (Pool.step enforcerConfig) (fun _ _ p => OneBatch p) (.start soleWorker.db)
      bothCallsList := by
  refine ⟨rfl, by decide +kernel, fun along => ?_⟩
  have twice : (run (Pool.step enforcerConfig) (.start soleWorker.db) bothCallsList).map
      (fun p => decide (p.db.inFlight.map InFlight.workerId).Nodup) = some false := by
        decide +kernel
  obtain ⟨final, ran, repeated⟩ := Option.map_eq_some_iff.mp twice
  have initial : OneBatch (Pool.start soleWorker.db) := (Pool.Kept.start rfl).oneBatch
  exact of_decide_eq_false repeated (along.final initial ran).workers

end SimplePool.Payout
