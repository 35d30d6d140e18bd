import SimplePool.Slipstream.LoggedOnce

/-! What a row says and what its events say. The pass moves a row by `setStatus`, which records
a change of status but no change of the other columns, and each transition sets or clears its
own columns. -/
namespace SimplePool.Slipstream
open Transition

/-- The status that an event leaves; sending a transaction again is no change of it. -/
def EventKind.moves : EventKind → Option Status
  | .accepted .. => some .pending
  | .status moved _ _ => some moved
  | .rebroadcast _ => none

/-- The block that a mined event names. -/
def EventKind.minedIn : EventKind → Option (Option String)
  | .status .mined _ (.block hash _) => some (some hash)
  | .status .mined _ _ => some none
  | _ => none

def lastStatus (events : List TxEvent) (txid : String) : Option Status :=
  ((events.filter fun event => event.txid = txid).filterMap fun event => event.kind.moves).head?

def lastMined (events : List TxEvent) (txid : String) : Option (Option String) :=
  ((events.filter fun event => event.txid = txid).filterMap fun event => event.kind.minedIn).head?

def Row.isMined (row : Row) : Bool := row.status = .mined || row.status = .confirmed

/-- The columns that say where and when it was mined. -/
def Row.minedColumns (row : Row) :
    Option String × Option Int × Option Nat × Option Bool × Option Int :=
  (row.minedBlockHash, row.minedHeight, row.minedAt, row.minedByPool, row.confirmations)

/-- The row and its events agree. -/
structure Row.Told (events : List TxEvent) (row : Row) : Prop where
  clear : ¬row.isMined → row.minedColumns = (none, none, none, none, none)
  block : row.isMined → row.minedBlockHash.isSome ∧
  lastMined events row.txid = some row.minedBlockHash
  status : lastStatus events row.txid = some row.status

def OneStory (s : State) : Prop := ∀ row ∈ s.store.txs, row.Told s.store.events

instance (events : List TxEvent) (row : Row) : Decidable (row.Told events) :=
  decidable_of_iff ((¬row.isMined → row.minedColumns = (none, none, none, none, none)) ∧
      (row.isMined → row.minedBlockHash.isSome ∧
        lastMined events row.txid = some row.minedBlockHash) ∧
      lastStatus events row.txid = some row.status)
    ⟨fun ⟨clear, block, status⟩ => ⟨clear, block, status⟩,
      fun ⟨clear, block, status⟩ => ⟨clear, block, status⟩⟩

instance (s : State) : Decidable (OneStory s) :=
  inferInstanceAs (Decidable (∀ row ∈ s.store.txs, _))

/-- The table has the transaction as mined or confirmed. -/
def Store.hasMined (store : Store) (txid : String) : Bool := (store.get txid).any Row.isMined

def Tick.marksMined (store : Store) : Tick → Bool
  | .marking row _ _ => store.hasMined row.txid
  | _ => false

def Tick.resendsMined (store : Store) : Tick → Bool
  | .resending row _ _ => store.hasMined row.txid
  | _ => false

/-- The call found the transaction dropped, and it is mined by now. -/
def Call.sawDropped (store : Store) : Call → Bool
  | .entering p _ => p.existing.isSome && store.hasMined p.check.txid
  | _ => false

/-- A transaction that the table has as mined is not found in another block and not refused when
it is sent again, and no submission that saw it dropped ends now. -/
def Plain (s : State) : Event → Prop
  | .header reply _ => reply.answers → ¬s.tick.marksMined s.store
  | .resent (.rpcError code _) => code = -27 ∨ ¬s.tick.resendsMined s.store
  | .entered slot reply => reply.answers → ¬(s.calls slot).sawDropped s.store
  | _ => True

instance (s : State) : (event : Event) → Decidable (Plain s event)
  | .header reply _ => inferInstanceAs (Decidable (reply.answers = true → ¬_ = true))
  | .resent (.rpcError code _) => inferInstanceAs (Decidable (code = -27 ∨ ¬_ = true))
  | .entered _ reply => inferInstanceAs (Decidable (reply.answers = true → ¬_ = true))
  | .resent (.ok _) | .resent (.unavailable _) | .wait _ | .submit .. | .checked .. | .lookedUp ..
  | .refreshed .. | .took _ | .sent .. | .tick
  | .template _ | .entry _ | .block _ => inferInstanceAs (Decidable True)

section

variable {store store' : Store} {events : List TxEvent} {row : Row} {txid other : String}
  {fields : List Column}

theorem lastStatus_cons (events : List TxEvent) (event : TxEvent) (txid : String) :
    lastStatus (event :: events) txid = if event.txid = txid
      then event.kind.moves.or (lastStatus events txid) else lastStatus events txid := by
  rw [lastStatus, List.filter_cons]
  split_ifs with mine mine' mine'
  · rw [List.filterMap_cons]
    cases event.kind.moves with
    | none => rfl
    | some => rfl
  · exact absurd (of_decide_eq_true mine) mine'
  · exact absurd (decide_eq_true mine') mine
  · rfl

theorem lastMined_cons (events : List TxEvent) (event : TxEvent) (txid : String) :
    lastMined (event :: events) txid = if event.txid = txid
      then event.kind.minedIn.or (lastMined events txid) else lastMined events txid := by
  rw [lastMined, List.filter_cons]
  split_ifs with mine mine' mine'
  · rw [List.filterMap_cons]
    cases event.kind.minedIn with
    | none => rfl
    | some => rfl
  · exact absurd (of_decide_eq_true mine) mine'
  · exact absurd (decide_eq_true mine') mine
  · rfl

/-- An event of another transaction, or that it was sent again. -/
theorem Row.Told.event (told : row.Told events) (event : TxEvent)
    (aside : event.txid ≠ row.txid ∨ event.kind.moves = none ∧ event.kind.minedIn = none) :
    row.Told (event :: events) := by
  have status : lastStatus (event :: events) row.txid = lastStatus events row.txid := by
    rw [lastStatus_cons]
    split_ifs with mine
    · rw [(aside.resolve_left (not_not.mpr mine)).1, Option.none_or]
    · rfl
  have mined : lastMined (event :: events) row.txid = lastMined events row.txid := by
    rw [lastMined_cons]
    split_ifs with mine
    · rw [(aside.resolve_left (not_not.mpr mine)).2, Option.none_or]
    · rfl
  exact ⟨told.clear, by rw [mined]; exact told.block, by rw [status]; exact told.status⟩

theorem Column.write_comm (a b : Column) (apart : a.ctorIdx ≠ b.ctorIdx) (row : Row) :
    a.write (b.write row) = b.write (a.write row) := by
  cases a <;> cases b <;> first | rfl | exact absurd rfl apart

/-- A column that holds its value is written for nothing. -/
theorem Row.set_filter (distinct : fields.Pairwise fun a b => a.ctorIdx ≠ b.ctorIdx)
    (holds : ∀ column ∈ fields, column.write row = row → column.write base = base) :
    base.set (fields.filter fun column => column.write row ≠ row) = base.set fields := by
  induction fields generalizing base with
  | nil => rfl
  | cons column rest ih =>
    obtain ⟨apart, distinct⟩ := List.pairwise_cons.mp distinct
    rw [List.filter_cons]
    split_ifs with differs
    · refine ih distinct fun other member same => ?_
      rw [← column.write_comm other (apart other member),
        holds other (List.mem_cons_of_mem _ member) same]
    · have same := holds column List.mem_cons_self (by simpa using differs)
      rw [ih distinct fun other member => holds other (List.mem_cons_of_mem _ member)]
      exact congrArg (Row.set · rest) same.symm

theorem Column.write_status (column : Column) (row : Row) :
    (column.write row).status = row.status := by
  cases column <;> rfl

theorem Row.set_status (row : Row) (fields : List Column) :
    (row.set fields).status = row.status := by
  induction fields generalizing row with
  | nil => rfl
  | cons column rest ih => exact (ih (column.write row)).trans (column.write_status row)

/-- Writing the status leaves the columns be. -/
theorem Column.write_move (column : Column) (row : Row) (status : Status) (reason : Option String)
    (ts : Nat) (same : column.write row = row) :
    column.write (row.move status reason ts) = row.move status reason ts := by
  have moved :
      column.write (row.move status reason ts) = (column.write row).move status reason ts := by
    cases column <;> rfl
  rw [moved, same]

theorem Store.get_touch (store : Store) (txid : String) (fields : List Column) (other : String) :
    (store.touch txid fields).get other = if other = txid then (store.get other).map fun row =>
      row.set fields else store.get other :=
  store.get_update txid (fun row => row.set_txid fields) other

theorem Store.setStatus_other (store : Store) (status : Status) (ts : Nat) (reason : Option String)
    (fields : List Column) (note : Note) (apart : other ≠ txid) :
    (store.setStatus txid status ts reason fields note).get other = store.get other := by
  have moved (row : Row) (at' : Row → Nat) :
      (store.update txid fun old => (old.move status reason (at' old)).set
        (fields.filter fun column => column.write row ≠ row)).get other =
        store.get other :=
    (store.get_update txid (fun old => Row.set_txid (old.move status reason (at' old)) _)
      other).trans (if_neg apart)
  rw [Store.setStatus]
  split
  next => rfl
  next row _ =>
    dsimp only
    split_ifs
    · rfl
    · exact moved row fun _ => ts
    · exact moved row fun old => old.statusAt

/-- The row with its new status and columns, and an event unless the status was the same. -/
theorem Store.setStatus_found (found : store.get txid = some row)
    (distinct : fields.Pairwise fun a b => a.ctorIdx ≠ b.ctorIdx)
    (status : Status) (ts : Nat) (reason : Option String) (note : Note) :
    ∃ statusAt, (store.setStatus txid status ts reason fields note).get txid =
      some ((row.move status reason statusAt).set fields) ∧
      ((store.setStatus txid status ts reason fields note).events =
        ⟨txid, ts, .status status reason note⟩ :: store.events ∨
        row.status = status ∧ (store.setStatus txid status ts reason fields note).events =
          store.events) := by
  have writes (statusAt : Nat) :
    (row.move status reason statusAt).set (fields.filter fun column => column.write row ≠ row) =
      (row.move status reason statusAt).set fields :=
    Row.set_filter distinct fun column _ same => column.write_move row status reason statusAt same
  have moved (at' : Row → Nat) :
      (store.update txid fun old => (old.move status reason (at' old)).set
        (fields.filter fun column => column.write row ≠ row)).get txid =
        some ((row.move status reason (at' row)).set fields) := by
    rw [store.get_update txid (fun old => Row.set_txid (old.move status reason (at' old)) _),
      if_pos rfl, found, Option.map_some, writes]
  rw [Store.setStatus, found]
  dsimp only
  split_ifs with nothing changed
  · simp only [Bool.and_eq_true, Bool.not_eq_true', Bool.or_eq_false_iff, decide_eq_false_iff_not,
      not_not, List.isEmpty_iff] at nothing
    obtain ⟨⟨sameStatus, sameReason⟩, nothing⟩ := nothing
    refine ⟨row.statusAt, ?_, .inr ⟨sameStatus, rfl⟩⟩
    have still : row.move status reason row.statusAt = row := by
      rw [Row.move, ← sameStatus, ← sameReason]
    rw [found, ← writes, nothing, still]
    rfl
  · exact ⟨ts, moved fun _ => ts, .inl rfl⟩
  · simp only [Bool.or_eq_true, decide_eq_true_eq, not_or, not_not] at changed
    exact ⟨row.statusAt, moved fun old => old.statusAt, .inr ⟨changed.1, rfl⟩⟩

theorem Store.get_of_mem (keyed : store.tracked.Nodup) (member : row ∈ store.txs) :
    store.get row.txid = some row :=
  KeyedTable.find_of_mem keyed member

/-- One row a transaction, and each row tells what its events tell. -/
structure Store.Story (store : Store) : Prop where
  keyed : store.tracked.Nodup
  told : ∀ txid row, store.get txid = some row → row.Told store.events

theorem Store.Story.oneStory {s : State} (story : s.store.Story) : OneStory s :=
  fun row member => story.told row.txid row (Store.get_of_mem story.keyed member)

theorem Store.Story.setStatus (story : store.Story)
    (distinct : fields.Pairwise fun a b => a.ctorIdx ≠ b.ctorIdx)
    {status : Status} {ts : Nat} {reason : Option String} {note : Note}
    (next : ∀ row statusAt, store.get txid = some row → row.Told store.events →
      ((row.move status reason statusAt).set fields).Told
      (⟨txid, ts, .status status reason note⟩ :: store.events) ∧
        (row.status = status → ((row.move status reason statusAt).set fields).Told store.events)) :
    (store.setStatus txid status ts reason fields note).Story where
  keyed := by rw [Store.setStatus_tracked]; exact story.keyed
  told := by
    cases found : store.get txid with
    | none =>
      have same : store.setStatus txid status ts reason fields note = store := by
        rw [Store.setStatus, found]
      rw [same]
      exact story.told
    | some row =>
      obtain ⟨statusAt, moved, events⟩ := Store.setStatus_found found distinct status ts reason note
      intro other now here
      by_cases mine : other = txid
      · subst mine
        rw [moved] at here
        obtain rfl := Option.some.inj here
        obtain ⟨recorded, still⟩ := next row statusAt found (story.told _ row found)
        rcases events with events | ⟨same, events⟩
        · rw [events]
          exact recorded
        · rw [events]
          exact still same
      · rw [Store.setStatus_other store status ts reason fields note mine] at here
        have told := story.told other now here
        rcases events with events | ⟨_, events⟩
        · rw [events]
          exact told.event _ (.inl fun same => mine ((Store.get_txid here).symm.trans same.symm))
        · rw [events]
          exact told

/-- To a status that is not mined, with the columns of a block clear afterwards. -/
theorem Store.Story.leave (story : store.Story)
    (distinct : fields.Pairwise fun a b => a.ctorIdx ≠ b.ctorIdx)
    {status : Status} {ts : Nat} {reason : Option String} {note : Note}
    (unmined : status ≠ .mined ∧ status ≠ .confirmed)
    (clears : ∀ row statusAt, store.get txid = some row → ((row.move status reason statusAt).set
      fields).minedColumns = (none, none, none, none, none)) :
    (store.setStatus txid status ts reason fields note).Story := by
  refine story.setStatus distinct fun row statusAt found told => ?_
  have named : ((row.move status reason statusAt).set fields).txid = txid :=
    (Row.set_txid (row.move status reason statusAt) fields).trans
      (Store.get_txid found : row.txid = txid)
  have moved : ((row.move status reason statusAt).set fields).status = status := Row.set_status ..
  have open' : ¬((row.move status reason statusAt).set fields).isMined := by
    simp [Row.isMined, moved, unmined]
  refine ⟨⟨fun _ => clears row statusAt found, fun mined => absurd mined open', ?_⟩,
    fun same => ⟨fun _ => clears row statusAt found, fun mined => absurd mined open', ?_⟩⟩
  · rw [lastStatus_cons, named, if_pos rfl, moved]
    rfl
  · rw [named, moved, ← same, ← Store.get_txid found]
    exact told.status

theorem Store.Story.clear_of (story : store.Story) (unmined : ¬store.hasMined txid)
    (found : store.get txid = some row) :
    row.minedColumns = (none, none, none, none, none) := by
  rw [Store.hasMined, found] at unmined
  exact (story.told txid row found).clear unmined

/-- The columns that a block sets. -/
def blockColumns (blockHash : String) (height : Option Int) (minedAt : Option Nat)
    (ours : Option Bool) (confirmations : Option Int) :
    List Column :=
  [.minedBlockHash (some blockHash), .minedHeight height, .minedAt minedAt, .minedByPool ours,
    .confirmations confirmations]

/-- Into a block, from a status that is not mined. -/
theorem Store.Story.mark (story : store.Story) (unmined : ¬store.hasMined txid) (ts : Nat)
    (blockHash : String) (height : Option Int)
    (minedAt : Option Nat) (ours : Option Bool) (confirmations : Option Int) :
    (store.setStatus txid .mined ts none (blockColumns blockHash height minedAt ours confirmations)
      (.block blockHash height)).Story := by
  refine story.setStatus (by simp [blockColumns, Column.ctorIdx]) fun row statusAt found told => ?_
  have named : ((row.move .mined none statusAt).set
      (blockColumns blockHash height minedAt ours confirmations)).txid = txid :=
    (Row.set_txid (row.move .mined none statusAt) _).trans (Store.get_txid found : row.txid = txid)
  constructor
  · refine ⟨fun clear => absurd rfl clear, fun _ => ⟨rfl, ?_⟩, ?_⟩
    · rw [lastMined_cons, named, if_pos rfl]
      rfl
    · rw [lastStatus_cons, named, if_pos rfl]
      rfl
  · intro same
    rw [Store.hasMined, found] at unmined
    exact absurd (by simp [Row.isMined, same]) unmined

/-- Deep enough in its block. -/
theorem Store.Story.confirm (story : store.Story) (ts : Nat) (confirmations : Option Int)
    (confirmedAt : Option Nat) (mined : ∀ row ∈ store.get txid, row.isMined) :
    (store.setStatus txid .confirmed ts none [.confirmations confirmations,
      .confirmedAt confirmedAt] .none).Story := by
  refine story.setStatus (by simp [Column.ctorIdx]) fun row statusAt found told => ?_
  have named : ((row.move .confirmed none statusAt).set [.confirmations confirmations,
        .confirmedAt confirmedAt]).txid = txid :=
    (Row.set_txid (row.move .confirmed none statusAt) _).trans
      (Store.get_txid found : row.txid = txid)
  obtain ⟨block, names⟩ := told.block (mined row found)
  rw [Store.get_txid found] at names
  constructor
  · refine ⟨fun clear => absurd rfl clear, fun _ => ⟨block, ?_⟩, ?_⟩
    · rw [lastMined_cons, named, if_pos rfl]
      exact names
    · rw [lastStatus_cons, named, if_pos rfl]
      rfl
  · intro same
    refine ⟨fun clear => absurd rfl clear, fun _ => ⟨block, ?_⟩, ?_⟩
    · rw [named]
      exact names
    · exact told.status.trans (congrArg some same)

theorem Store.Story.touch (story : store.Story)
    (next : ∀ row, store.get txid = some row → row.Told store.events →
      (row.set fields).Told store.events) : (store.touch txid fields).Story where
  keyed := by rw [Store.touch_tracked]; exact story.keyed
  told := by
    intro other now here
    rw [store.get_touch] at here
    split_ifs at here with mine
    · subst mine
      obtain ⟨row, found, rfl⟩ := Option.map_eq_some_iff.mp here
      exact next row found (story.told other row found)
    · exact story.told other now here

/-- Columns that are not those of a block. -/
theorem Row.Told.set (told : row.Told events)
    (same : (row.set fields).minedColumns = row.minedColumns) : (row.set fields).Told events where
  clear unmined := by
    rw [Row.isMined, row.set_status fields] at unmined
    rw [same]
    exact told.clear unmined
  block mined := by
    rw [Row.isMined, row.set_status fields] at mined
    rw [(Prod.mk.inj same).1, row.set_txid fields]
    exact told.block mined
  status := by
    rw [row.set_status fields, row.set_txid fields]
    exact told.status

/-- The depth of a block the row is in. -/
theorem Row.Told.depth (told : row.Told events) (mined : row.isMined) (confirmations : Option Int) :
    (row.set [.confirmations confirmations]).Told events :=
  ⟨fun unmined => absurd mined unmined, fun _ => told.block mined, told.status⟩

theorem Store.Story.rebroadcast (story : store.Story) (txid : String) (ts : Nat) (why : String) :
    (store.event txid ts (.rebroadcast why)).Story where
  keyed := story.keyed
  told other row found := (story.told other row found).event _ (.inr ⟨rfl, rfl⟩)

/-- A new row is pending and clear. -/
theorem Store.Story.insert (story : store.Story)
    (inserted : store.insertAccepted row ts = some store')
    (fresh : row.status = .pending ∧ row.minedColumns = (none, none, none, none, none)) :
    store'.Story := by
  have rows := Store.insertAccepted_some inserted
  rw [Store.insertAccepted] at inserted
  split_ifs at inserted with taken
  rw [Bool.not_eq_true, Option.isSome_eq_false_iff, Option.isNone_iff_eq_none] at taken
  obtain rfl := Option.some.inj inserted
  refine ⟨?_, ?_⟩
  · rw [rows.1, List.nodup_append]
    refine ⟨story.keyed, List.nodup_singleton _, ?_⟩
    rintro txid member other new rfl
    exact rows.2.2 (List.mem_singleton.mp new ▸ member)
  · intro txid now here
    have found : (store.txs ++ [row]).find? (fun old => old.txid = txid) = some now := here
    rw [List.find?_append, Option.or_eq_some_iff] at found
    rcases found with found | ⟨_, found⟩
    · have apart : row.txid ≠ txid := by
        rintro rfl
        rw [Store.get, found] at taken
        contradiction
      have named : now.txid = txid := Store.get_txid (show store.get txid = some now from found)
      exact (story.told txid now found).event _ (.inl fun same => apart (same.trans named))
    · have mine := List.mem_of_find?_eq_some found
      obtain rfl := List.mem_singleton.mp mine
      have unmined : ¬now.isMined := by simp [Row.isMined, fresh.1]
      refine ⟨fun _ => fresh.2, fun mined => absurd mined unmined, ?_⟩
      rw [fresh.1]
      exact (lastStatus_cons ..).trans (if_pos rfl)

end

/-- The row is there and mined. -/
def Store.inBlock (store : Store) (txid : String) : Prop :=
  ∃ row ∈ store.get txid, row.status = .mined

/-- A pass works on the rows that it read at its start, and submissions go on meanwhile. -/
def Rest.rows : Rest → List Row
  | .opens rows _ => rows
  | .mined rows => rows

/-- The rows are those of different transactions, and stand where they stood. -/
structure Rest.Fits (store : Store) (rest : Rest) : Prop where
  distinct : (rest.rows.map Row.txid).Nodup
  stands : ∀ row ∈ rest.rows, match rest with
    | .opens _ _ => ¬store.hasMined row.txid
    | .mined _ => store.inBlock row.txid

/-- The row in hand is none of the others. -/
def Rest.avoids (rest : Rest) (row : Row) : Prop := row.txid ∉ rest.rows.map Row.txid

def Tick.Fits (store : Store) : Tick → Prop
  | .idle | .refreshing => True
  | .openEntry row rest inTemplate =>
    (¬store.hasMined row.txid) ∧ (Rest.opens rest inTemplate).Fits store ∧
    (Rest.opens rest inTemplate).avoids row
  | .openBlock row rest => (¬store.hasMined row.txid) ∧ rest.Fits store ∧ rest.avoids row
  | .marking row _ rest | .resending row _ rest => rest.Fits store ∧ rest.avoids row
  | .minedHeader row rest | .minedBlock row rest | .minedEntry row rest =>
    store.inBlock row.txid ∧ (Rest.mined rest).Fits store ∧ (Rest.mined rest).avoids row

structure State.Told (s : State) : Prop where
  story : s.store.Story
  tick : s.tick.Fits s.store

section

variable {cfg : Config} {s t : State} {store store' : Store} {row : Row} {rest : Rest}

theorem Store.hasMined_congr (same : store'.get txid = store.get txid) :
    store'.hasMined txid = store.hasMined txid := by
  rw [Store.hasMined, Store.hasMined, same]

theorem Store.inBlock.isMined (inside : store.inBlock txid) :
    ∀ row ∈ store.get txid, row.isMined := by
  obtain ⟨row, found, mined⟩ := inside
  intro other here
  rw [Option.mem_def] at found here
  obtain rfl := Option.some.inj (found.symm.trans here)
  simp [Row.isMined, mined]

theorem Store.byStatus_mem {sqlite : SubmittedOrder}
    (member : row ∈ store.byStatus sqlite statuses) :
    row ∈ store.txs ∧ row.status ∈ statuses := by
  rw [Store.byStatus, (sqlite.perm _).mem_iff, List.mem_filter] at member
  exact ⟨member.1, of_decide_eq_true member.2⟩

theorem Store.byStatus_nodup (keyed : store.tracked.Nodup) (sqlite : SubmittedOrder)
    (statuses : List Status) :
    ((store.byStatus sqlite statuses).map Row.txid).Nodup := by
  have order := (sqlite.perm (store.txs.filter fun row => row.status ∈ statuses)).map Row.txid
  exact order.nodup_iff.mpr (keyed.sublist (List.filter_sublist.map Row.txid))

/-- The rest of a pass when only the row in hand has changed. -/
theorem Rest.Fits.aside (fits : rest.Fits store) (avoids : rest.avoids row)
    (others : ∀ txid, txid ≠ row.txid → store'.get txid = store.get txid) : rest.Fits store' where
  distinct := fits.distinct
  stands := by
    intro other member
    have same := others other.txid fun same => avoids (same ▸ List.mem_map_of_mem member)
    have stood := fits.stands other member
    cases rest with
    | opens => exact (Store.hasMined_congr same).symm ▸ stood
    | mined =>
      rw [Store.inBlock, same]
      exact stood

/-- From the mined rows of the table on. -/
theorem Store.Story.minedFits (story : store.Story) (sqlite : SubmittedOrder) :
    (Rest.mined (store.byStatus sqlite [.mined])).Fits store where
  distinct := Store.byStatus_nodup story.keyed sqlite _
  stands row member := by
    obtain ⟨inside, status⟩ := Store.byStatus_mem member
    exact ⟨row, Store.get_of_mem story.keyed inside, List.mem_singleton.mp status⟩

theorem Store.Story.openFits (story : store.Story) (sqlite : SubmittedOrder)
    (inTemplate : List String) :
    (Rest.opens (store.byStatus sqlite openStatuses) inTemplate).Fits store where
  distinct := Store.byStatus_nodup story.keyed sqlite _
  stands row member := by
    obtain ⟨inside, status⟩ := Store.byStatus_mem member
    rw [Store.hasMined, Store.get_of_mem story.keyed inside]
    rcases List.mem_cons.mp status with pending | inTemplate
    · simp [Row.isMined, pending]
    · simp [Row.isMined, List.mem_singleton.mp inTemplate]

theorem Rest.Fits.cons_mined {later : List Row} (fits : (Rest.mined (row :: later)).Fits store) :
    store.inBlock row.txid ∧ (Rest.mined later).Fits store ∧ (Rest.mined later).avoids row := by
  obtain ⟨apart, distinct⟩ := List.nodup_cons.mp fits.distinct
  exact ⟨fits.stands row List.mem_cons_self,
    ⟨distinct, fun other member => fits.stands other (List.mem_cons_of_mem _ member)⟩, apart⟩

theorem nextRow_told (story : s.store.Story) (fits : rest.Fits s.store) :
    (nextRow cfg s rest).Told := by
  rw [nextRow.eq_def]
  split
  next row rows inTemplate =>
    obtain ⟨apart, distinct⟩ := List.nodup_cons.mp fits.distinct
    exact ⟨story, fits.stands row List.mem_cons_self,
      ⟨distinct, fun other member => fits.stands other (List.mem_cons_of_mem _ member)⟩, apart⟩
  next =>
    split
    next row rows found =>
      have mined := story.minedFits cfg.sqlite
      rw [found] at mined
      exact ⟨story, mined.cons_mined⟩
    next => exact ⟨story, trivial⟩
  next => exact ⟨story, fits.cons_mined⟩
  next => exact ⟨story, trivial⟩

/-- A status change of the row in hand, and on to the next one. -/
theorem setStatus_told (told : (s.setStatus row.txid status reason fields note).store.Story)
    (fits : rest.Fits s.store) (avoids : rest.avoids row) :
    (nextRow cfg (s.setStatus row.txid status reason fields note) rest).Told :=
  nextRow_told told (fits.aside avoids fun _ apart =>
    s.store.setStatus_other status s.now reason fields note apart)

theorem touch_told (told : (s.touch row.txid fields).store.Story) (fits : rest.Fits s.store)
    (avoids : rest.avoids row) :
    (nextRow cfg (s.touch row.txid fields) rest).Told :=
  nextRow_told told (fits.aside avoids fun _ apart =>
    (s.store.get_touch row.txid fields _).trans (if_neg apart))

theorem stop_told (told : s.Told) : (stop s).Told := ⟨told.story, trivial⟩

/-- Out of a status that is not mined, with no column of a block written. -/
theorem State.Told.leave (told : s.Told) (unmined : ¬s.store.hasMined txid)
    (distinct : fields.Pairwise fun a b => a.ctorIdx ≠ b.ctorIdx)
    (aside : ∀ row : Row, (row.set fields).minedColumns = row.minedColumns) {status : Status}
    (reason : Option String) (note : Note) (moved : status ≠ .mined ∧ status ≠ .confirmed) :
    (s.setStatus txid status reason fields note).store.Story :=
  told.story.leave distinct moved fun old statusAt found =>
    (aside (old.move status reason statusAt)).trans
      (told.story.clear_of unmined found : old.minedColumns = (none, none, none, none, none))

theorem followOpen_told (told : s.Told) (here : s.tick = .openEntry row later inTemplate)
    (reply : Reply Entry) :
    (followOpen cfg s row later inTemplate reply).Told := by
  have fits := told.tick
  rw [here] at fits
  obtain ⟨unmined, fits, avoids⟩ := fits
  have seen (fields : List Column) (distinct : fields.Pairwise fun a b => a.ctorIdx ≠ b.ctorIdx)
      (aside : ∀ row : Row, (row.set fields).minedColumns = row.minedColumns) :
      (nextRow cfg ((s.setStatus row.txid .inTemplate none fields .none).touch row.txid
        [.lastInTemplateAt (some s.now)])
        (.opens later inTemplate)).Told := by
    refine touch_told ?_ (fits.aside avoids fun _ apart => Store.setStatus_other _ _ _ _ _ _ apart)
      avoids
    exact (told.leave unmined distinct aside none .none (by decide)).touch fun _ _ told =>
      told.set rfl
  rw [followOpen]
  split
  next => exact stop_told told
  next => exact ⟨told.story, unmined, fits, avoids⟩
  next =>
    dsimp only
    split_ifs
    · exact seen [.firstInTemplateAt (some s.now)] (List.pairwise_singleton _ _) fun _ => rfl
    · exact seen [] .nil fun _ => rfl
    · exact setStatus_told (told.leave unmined .nil (fun _ => rfl) none .none (by decide)) fits
        avoids

theorem openBlock_told (told : s.Told) (here : s.tick = .openBlock row rest) (reply : Reply RawTx) :
    (openBlock s row rest reply).Told := by
  have fits := told.tick
  rw [here] at fits
  rw [openBlock]
  split
  · exact stop_told told
  · exact ⟨told.story, fits.2⟩
  · exact ⟨told.story, fits.2⟩

theorem markMined_told (told : s.Told) (here : s.tick = .marking row blockHash rest)
    (reply : Reply Header) (ours : Option Bool) (plain : Plain s (.header reply ours)) :
    (markMined cfg s row blockHash rest reply ours).Told := by
  have fits := told.tick
  rw [here] at fits
  rw [Plain, here] at plain
  rw [markMined]
  split
  next => exact stop_told told
  next header answered =>
    have unmined := plain (Reply.answers_of_orNull answered)
    exact setStatus_told (told.story.mark unmined ..) fits.1 fits.2

theorem followMined_told (told : s.Told) (here : s.tick = .minedHeader row later)
    (reply : Reply Header) :
    (followMined cfg s row later reply).Told := by
  have fits := told.tick
  rw [here] at fits
  obtain ⟨inside, fits, avoids⟩ := fits
  rw [followMined]
  split
  next => exact stop_told told
  next => exact ⟨told.story, inside, fits, avoids⟩
  next =>
    split_ifs
    · exact ⟨told.story, inside, fits, avoids⟩
    · exact setStatus_told (told.story.confirm s.now _ _ inside.isMined) fits avoids
    · exact touch_told (told.story.touch fun old found known =>
        known.depth (inside.isMined old found) _) fits avoids

theorem minedBlock_told (told : s.Told) (here : s.tick = .minedBlock row later)
    (reply : Reply RawTx) : (minedBlock s row later reply).Told := by
  have fits := told.tick
  rw [here] at fits
  rw [minedBlock]
  split
  next => exact stop_told told
  next =>
    split
    · exact ⟨told.story, fits.2⟩
    · exact ⟨told.story, fits⟩

/-- Whatever it was, a row that goes back to the mempool is clear. -/
theorem backToPending_story (story : s.store.Story) (row : Row) (why : String) :
    (backToPending s row why).store.Story :=
  story.leave (by simp [Column.ctorIdx]) (by decide) fun _ _ _ => rfl

theorem minedEntry_told (told : s.Told) (here : s.tick = .minedEntry row later)
    (reply : Reply Entry) : (minedEntry cfg s row later reply).Told := by
  have fits := told.tick
  rw [here] at fits
  obtain ⟨inside, fits, avoids⟩ := fits
  rw [minedEntry]
  split
  · exact stop_told told
  · exact setStatus_told (backToPending_story told.story row "orphaned") fits avoids
  · exact ⟨told.story, fits, avoids⟩

theorem rebroadcast_told (told : s.Told) (here : s.tick = .resending row why rest)
    (reply : Reply Unit) (plain : Plain s (.resent reply)) :
    (rebroadcast cfg s row why rest reply).Told := by
  have fits := told.tick
  rw [here] at fits
  obtain ⟨fits, avoids⟩ := fits
  cases reply with
  | unavailable => exact nextRow_told told.story fits
  | rpcError code message =>
    rw [Plain, here] at plain
    rw [rebroadcast]
    split_ifs with known
    · exact nextRow_told told.story fits
    · exact setStatus_told (told.leave (plain.resolve_left known) .nil (fun _ => rfl) (some message)
        (.after why) (by decide)) fits avoids
  | ok =>
    have touched : (s.touch row.txid [.resubmissions (row.resubmissions + 1)]).store.Story :=
      told.story.touch fun _ _ told => told.set rfl
    refine setStatus_told (backToPending_story (touched.rebroadcast row.txid s.now why) row why) ?_
      avoids
    exact fits.aside avoids fun _ apart => (s.store.get_touch row.txid _ _).trans (if_neg apart)

/-- What a pass relies on when a submission goes on. -/
theorem Tick.Fits.mono {tick : Tick} (fits : tick.Fits store)
    (unmined : ∀ txid, ¬store.hasMined txid → ¬store'.hasMined txid)
    (inside : ∀ txid, store.inBlock txid → store'.inBlock txid) : tick.Fits store' := by
  have more {rest : Rest} (fits : rest.Fits store) : rest.Fits store' := by
    refine ⟨fits.distinct, fun row member => ?_⟩
    have stood := fits.stands row member
    cases rest with
    | opens => exact unmined _ stood
    | mined => exact inside _ stood
  cases tick with
  | idle | refreshing => trivial
  | openEntry | openBlock => exact ⟨unmined _ fits.1, more fits.2.1, fits.2.2⟩
  | marking | resending => exact ⟨more fits.1, fits.2⟩
  | minedHeader | minedBlock | minedEntry => exact ⟨inside _ fits.1, more fits.2.1, fits.2.2⟩

/-- The table and the pass are as they were. -/
theorem State.Told.frame (told : s.Told) (txs : t.store.txs = s.store.txs)
    (events : t.store.events = s.store.events) (tick : t.tick = s.tick) : t.Told := by
  have get (txid : String) : t.store.get txid = s.store.get txid := congrArg (List.find? _) txs
  refine ⟨⟨?_, ?_⟩, ?_⟩
  · rw [Store.tracked, txs]
    exact told.story.keyed
  · intro txid row found
    rw [events]
    exact told.story.told txid row (get txid ▸ found)
  · rw [tick]
    refine told.tick.mono ?_ ?_
    · intro txid unmined
      rwa [Store.hasMined_congr (get txid)]
    · intro txid inside
      rwa [Store.inBlock, get txid]

theorem refuse_told (told : s.Told) (slot : Nat) (request : Request) (httpStatus : Nat)
    (reason : String) (txid : Option String) (rates : Option (ℚ × ℚ)) (took : Option String) :
    (refuse s slot request httpStatus reason txid rates took).Told :=
  told.frame rfl rfl rfl

theorem put_told (told : s.Told) (slot : Nat) (call : Call) : (s.put slot call).Told :=
  told.frame rfl rfl rfl

theorem price_told (told : s.Told) (slot : Nat) (a : Admission) : (price cfg s slot a).Told := by
  rw [price]
  split_ifs
  · exact refuse_told told ..
  · exact put_told told ..
  · exact put_told told ..

theorem admitted_told (told : s.Told) (slot : Nat) (a : Admission) :
    (admitted cfg s slot a).Told := by
  rw [admitted]
  split_ifs
  · exact put_told told ..
  · exact price_told told slot a

theorem Store.setStatus_pending (store : Store) (txid : String) (ts : Nat) (reason : Option String)
    (note : Note) :
    ¬(store.setStatus txid .pending ts reason [] note).hasMined txid := by
  rw [Store.hasMined]
  cases found : store.get txid with
  | none =>
    rw [Store.setStatus, found]
    dsimp only
    rw [found]
    exact Bool.false_ne_true
  | some row =>
    obtain ⟨statusAt, moved, _⟩ := Store.setStatus_found found .nil .pending ts reason note
    rw [moved]
    exact Bool.false_ne_true

/-- The submission of a transaction that the table does not have as mined. -/
theorem track_told (told : s.Told) (plain : p.existing.isSome → ¬s.store.hasMined p.check.txid)
    (tracks : track s p entry = some store) :
    store.Story ∧ s.tick.Fits store := by
  rw [track] at tracks
  dsimp only at tracks
  split at tracks
  next existing here =>
    obtain rfl := Option.some.inj tracks
    have unmined := plain (by rw [here]; rfl)
    generalize written : [Column.rawHex p.request.rawHex, .feeSats p.feeSats, .feeRate p.rate,
      .requiredFeeRate p.required,
      .submittedAt s.now, .submittedHeight (s.template.bind Template.height)] = fields
    have aside (row : Row) : (row.set fields).minedColumns = row.minedColumns := by
      rw [← written]; rfl
    have touched : (s.store.touch p.check.txid fields).Story :=
      told.story.touch fun row _ told => told.set (aside row)
    have clear (row : Row) (found : (s.store.touch p.check.txid fields).get p.check.txid =
      some row) :
        row.minedColumns = (none, none, none, none, none) := by
      rw [s.store.get_touch, if_pos rfl] at found
      obtain ⟨old, there, rfl⟩ := Option.map_eq_some_iff.mp found
      exact (aside old).trans (told.story.clear_of unmined there)
    have others (txid : String) (apart : txid ≠ p.check.txid) :
        ((s.store.touch p.check.txid fields).setStatus p.check.txid .pending s.now none []
          (.resubmittedBy "submitter")).get txid = s.store.get txid :=
      (Store.setStatus_other _ _ _ _ _ _ apart).trans
        ((s.store.get_touch p.check.txid fields txid).trans (if_neg apart))
    refine ⟨touched.leave .nil (by decide) fun row _ found => clear row found, told.tick.mono ?_ ?_⟩
    · intro txid before
      by_cases mine : txid = p.check.txid
      · rw [mine]
        exact Store.setStatus_pending _ _ _ _ _
      · rwa [Store.hasMined_congr (others txid mine)]
    · intro txid inside
      by_cases mine : txid = p.check.txid
      · obtain ⟨row, found, mined⟩ := inside
        rw [mine, Option.mem_def] at found
        rw [Store.hasMined, found] at unmined
        exact absurd (by simp [Row.isMined, mined]) unmined
      · rwa [Store.inBlock, others txid mine]
  next =>
    have fresh := Store.insertAccepted_some tracks
    refine ⟨told.story.insert tracks ⟨rfl, rfl⟩, ?_⟩
    have added (txid : String) : store.get txid = (s.store.get txid).or (if txid = p.check.txid
        then some (newRow s p entry) else none) := by
      rw [Store.insertAccepted] at tracks
      split_ifs at tracks
      obtain rfl := Option.some.inj tracks
      refine (List.find?_append ..).trans (congrArg ((s.store.get txid).or ·) ?_)
      by_cases mine : txid = p.check.txid
      · rw [if_pos mine]
        exact List.find?_cons_of_pos (decide_eq_true mine.symm)
      · rw [if_neg mine]
        exact List.find?_cons_of_neg fun same => mine (of_decide_eq_true same).symm
    refine told.tick.mono ?_ ?_
    · intro txid before
      rw [Store.hasMined] at before ⊢
      rw [added]
      cases found : s.store.get txid with
      | none =>
        rw [Option.none_or]
        split_ifs
        · exact Bool.false_ne_true
        · exact Bool.false_ne_true
      | some row =>
        rw [found] at before
        exact before
    · rintro txid ⟨row, found, mined⟩
      rw [Option.mem_def] at found
      exact ⟨row, by rw [added, found]; rfl, mined⟩

theorem entered_told (told : s.Told) (here : s.calls slot = .entering p took) (reply : Reply Entry)
    (plain : Plain s (.entered slot reply)) :
    (entered s slot p took reply).Told := by
  rw [Plain, here] at plain
  rw [entered]
  split
  next => exact told.frame rfl rfl rfl
  next entry answered =>
    split
    next => exact told.frame rfl rfl rfl
    next store tracks =>
      obtain ⟨story, fits⟩ := track_told told (fun had mined =>
        plain (Reply.answers_of_orNull answered) (by rw [Call.sawDropped, had, mined]; rfl)) tracks
      exact State.Told.frame (s := { s with store }) ⟨story, fits⟩ rfl rfl rfl

theorem checked_told (told : s.Told) (slot : Nat) (request : Request) (reply : Reply Check) :
    (checked cfg s slot request reply).Told := by
  cases reply with
  | rpcError code message =>
    rw [checked]
    split_ifs
    · exact refuse_told told ..
    · exact refuse_told told ..
  | unavailable => exact refuse_told told ..
  | ok check =>
    rw [checked]
    dsimp only
    split
    next => exact told.frame rfl rfl rfl
    next =>
      split_ifs
      · exact admitted_told told ..
      · exact put_told told ..
      · exact refuse_told told ..

theorem lookedUp_told (told : s.Told) (slot : Nat) (request : Request) (check : Check)
    (existing : Option Row) (reply : Reply Entry) :
    (lookedUp cfg s slot request check existing reply).Told := by
  rw [lookedUp]
  split
  · exact told.frame rfl rfl rfl
  · exact refuse_told told ..
  · exact admitted_told told ..

theorem refreshTemplate_told (told : s.Told) (reply : Reply Template) :
    (refreshTemplate s reply).Told := by
  cases reply with
  | ok | rpcError | unavailable => exact told.frame rfl rfl rfl

theorem sent_told (told : s.Told) (slot : Nat) (p : Priced) (took : Bool) (reply : Reply Unit) :
    (sent s slot p took reply).Told := by
  cases reply with
  | ok => exact put_told told ..
  | rpcError | unavailable => exact refuse_told told ..

theorem step_told (told : s.Told) (plain : Plain s event) (stepped : step cfg s event = some t) :
    t.Told := by
  cases event with
  | wait seconds =>
    obtain rfl := Option.some.inj stepped
    exact told.frame rfl rfl rfl
  | submit slot rawHex submitter =>
    simp only [step] at stepped
    split at stepped
    next =>
      obtain rfl := Option.some.inj stepped
      rw [submit]
      split_ifs
      · exact refuse_told told ..
      · exact refuse_told told ..
      · exact put_told told ..
    next => contradiction
  | checked slot reply =>
    simp only [step] at stepped
    split at stepped
    next =>
      obtain rfl := Option.some.inj stepped
      exact checked_told told ..
    next => contradiction
  | lookedUp slot reply =>
    simp only [step] at stepped
    split at stepped
    next =>
      obtain rfl := Option.some.inj stepped
      exact lookedUp_told told ..
    next => contradiction
  | refreshed slot reply =>
    simp only [step] at stepped
    split at stepped
    next =>
      obtain rfl := Option.some.inj stepped
      exact price_told (refreshTemplate_told told reply) ..
    next => contradiction
  | took slot =>
    simp only [step] at stepped
    split at stepped
    next =>
      obtain rfl := Option.some.inj stepped
      exact put_told told ..
    next => contradiction
  | sent slot reply =>
    simp only [step] at stepped
    split at stepped
    next =>
      obtain rfl := Option.some.inj stepped
      exact sent_told told ..
    next => contradiction
    next =>
      obtain rfl := Option.some.inj stepped
      exact sent_told told ..
    next => contradiction
  | entered slot reply =>
    simp only [step] at stepped
    split at stepped
    next here =>
      obtain rfl := Option.some.inj stepped
      exact entered_told told here reply plain
    next => contradiction
  | tick =>
    simp only [step] at stepped
    split at stepped
    next =>
      obtain rfl := Option.some.inj stepped
      exact ⟨told.story, trivial⟩
    next => contradiction
  | template reply =>
    simp only [step] at stepped
    split at stepped
    next template _ =>
      obtain rfl := Option.some.inj stepped
      have fresh := refreshTemplate_told told (.ok template)
      exact nextRow_told fresh.story (fresh.story.openFits _ _)
    next reply _ _ _ _ =>
      obtain rfl := Option.some.inj stepped
      exact stop_told (refreshTemplate_told told reply)
    next => contradiction
  | entry reply =>
    simp only [step] at stepped
    split at stepped
    next here =>
      obtain rfl := Option.some.inj stepped
      exact followOpen_told told here reply
    next here =>
      obtain rfl := Option.some.inj stepped
      exact minedEntry_told told here reply
    next => contradiction
  | block reply =>
    simp only [step] at stepped
    split at stepped
    next here =>
      obtain rfl := Option.some.inj stepped
      exact openBlock_told told here reply
    next here =>
      obtain rfl := Option.some.inj stepped
      exact minedBlock_told told here reply
    next => contradiction
  | header reply ours =>
    simp only [step] at stepped
    split at stepped
    next here =>
      obtain rfl := Option.some.inj stepped
      exact markMined_told told here reply ours plain
    next here =>
      obtain rfl := Option.some.inj stepped
      exact followMined_told told here reply
    next => contradiction
  | resent reply =>
    simp only [step] at stepped
    split at stepped
    next here =>
      obtain rfl := Option.some.inj stepped
      exact rebroadcast_told told here reply plain
    next => contradiction

end

theorem State.Told.start : State.start.Told :=
  ⟨⟨List.nodup_nil, fun _ _ found => by contradiction⟩, trivial⟩

/-- Every run in which no transaction that the table has as mined is found in another block or
refused when it is sent again, and none is mined when a submission that saw it dropped ends,
has in every state, after a pass or within one, a table that tells what the events tell. -/
theorem rows_tell_their_events (cfg : Config) (events : List Event)
    (plain : Along (step cfg) (fun s event _ => Plain s event) .start events) :
    Along (step cfg) (fun _ _ t => OneStory t) .start events := by
  refine Along.of_invariant ?_ State.Told.start plain
  intro s event t told plain stepped
  have kept := step_told told plain stepped
  exact ⟨kept, kept.story.oneStory⟩

def Tick.isIdle : Tick → Bool
  | .idle => true
  | _ => false

/-- A submission that ends well, and the pass that finds the transaction in block `b1`. -/
def minedRun : List Event :=
  sentRun 0 ++ [.entered 0 (.ok ⟨100, 400, 2 / 1000000⟩), .tick, .template (.ok ⟨some 101, []⟩),
    .entry (.rpcError (-5) "not in mempool"),
    .block (.ok ⟨some "b1", 1⟩), .header (.ok ⟨1, 101⟩) none, .header (.ok ⟨1, 101⟩) none]

/-- The next pass, which finds `b1` out of the chain. -/
def orphanRun : List Event :=
  minedRun ++ [.tick, .template (.ok ⟨some 101, []⟩), .header (.ok ⟨-1, 101⟩) none]

/-- The node has put the transaction back into its mempool. -/
def returnedRun : List Event :=
  orphanRun ++ [.block (.ok ⟨none, 0⟩), .entry (.ok ⟨100, 400, 2 / 1000000⟩)]

theorem rows_tell_their_events_returned :
    (∃ s ∈ run (step exactConfig) .start returnedRun,
      s.store.txs.map (fun row => (row.status, row.minedBlockHash)) = [(.pending, none)]) ∧
    Along (step exactConfig) (fun _ _ t => OneStory t) .start returnedRun := by
  have ended : (∃ s ∈ run (step exactConfig) .start returnedRun,
    s.store.txs.map (fun row => (row.status, row.minedBlockHash)) = [(.pending, none)]) ∧
      Along (step exactConfig) (fun s event _ => Plain s event) .start returnedRun := by
    decide +kernel
  exact ⟨ended.1, rows_tell_their_events exactConfig returnedRun ended.2⟩

/-- The transaction is in no block and refused when it is sent again. -/
def refusedRun : List Event :=
  orphanRun ++ [.block (.ok ⟨none, 0⟩), .entry (.rpcError (-5) "not in mempool"),
    .resent (.rpcError (-25) "bad-txns-inputs-missingorspent")]

/-- It is in another block. -/
def reminedRun : List Event :=
  orphanRun ++ [.block (.ok ⟨some "b2", 1⟩), .header (.ok ⟨1, 101⟩) none]

/-- A dropped row with its block, and a mined one with a block that no event names. -/
theorem orphaned_rows_tell_more :
    ((∃ s ∈ run (step exactConfig) .start refusedRun,
      s.store.txs.map (fun row => (row.status, row.minedBlockHash)) = [(.dropped, some "b1")]) ∧
      ¬Along (step exactConfig) (fun _ _ t => t.tick.isIdle → OneStory t) .start refusedRun) ∧
    (∃ s ∈ run (step exactConfig) .start reminedRun,
      s.store.txs.map (fun row => (row.status, row.minedBlockHash)) = [(.mined, some "b2")] ∧
        lastMined s.store.events "aa" = some (some "b1")) ∧
      ¬Along (step exactConfig) (fun _ _ t => t.tick.isIdle → OneStory t) .start reminedRun := by
  decide +kernel

end SimplePool.Slipstream
