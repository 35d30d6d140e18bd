import Mathlib.Tactic.Ring
import SimplePool.Payout.AtMostOnce

/-! The payout ledger adds up wherever a run stops: what a worker has been paid is what its
payout rows say, and no more is paid or in flight than was accrued. -/
namespace SimplePool.Payout
open Transition

/-- The amounts of one worker among rows that each have a worker and an amount. -/
def satsOf {α : Type} (worker : α → Nat) (sats : α → Int) (rows : List α) (workerId : Nat) : Int :=
  ((rows.filter fun row => worker row = workerId).map sats).sum

def Db.inFlightSats (db : Db) (workerId : Nat) : Int :=
  satsOf InFlight.workerId InFlight.sats db.inFlight workerId

def Db.payoutSats (db : Db) (workerId : Nat) : Int :=
  satsOf PayoutRow.workerId PayoutRow.sats db.payouts workerId

/-- The state with the txids that the node has reported confirmed, by their block or by an
output in the wallet. -/
structure Audited where
  state : State
  reported : List String

def reportedNow (s : State) (event : Event) : List String :=
  match s.pc, event with
  | .settling pending, .txStatus status => if status.confirmed then [pending.txid] else []
  | .checkingWallet pending _, .utxos reply =>
    if (reply.getD []).contains pending.txid then [pending.txid] else []
  | _, _ => []

def auditedStep (cfg : Config) (a : Audited) (event : Event) : Option Audited :=
  (step cfg a.state event).map fun state => ⟨state, a.reported ++ reportedNow a.state event⟩

/-- A batch goes out of the table as a whole: every row is recorded with the txid that the
node reported, and the shares of the fee add up. -/
structure Finalised (before after : Audited) : Prop where
  rows : ∃ settled, after.state.db.payouts = before.state.db.payouts ++ settled ∧
    settled.map (fun row => (row.workerId, row.sats, row.txid)) =
      before.state.db.inFlight.map (fun row => (row.workerId, row.sats, row.txid)) ∧
    (settled.map PayoutRow.feeSats).sum = txFeeSats
  paid : ∀ workerId, after.state.db.paid workerId =
    before.state.db.paid workerId + before.state.db.inFlightSats workerId
  clear : after.state.db.inFlight = []
  confirmed : ∀ row ∈ before.state.db.inFlight, row.txid ∈ before.reported

/-- What a step may do to the batch in flight. -/
inductive BatchStep (before after : Audited) : Prop where
  /-- The rows stay, up to their txid. -/
  | held (rows : after.state.db.inFlight.map (fun row => (row.id, row.workerId, row.sats)) =
      before.state.db.inFlight.map (fun row => (row.id, row.workerId, row.sats)))
  | begun (clear : before.state.db.inFlight = [])
  | aborted (clear : after.state.db.inFlight = [])

/-- Payments move only with a batch that is finalised. -/
def Moves (before after : Audited) : Prop :=
  Finalised before after ∨ after.state.db.payouts = before.state.db.payouts ∧
    (∀ workerId, after.state.db.paid workerId = before.state.db.paid workerId) ∧
    BatchStep before after

structure PayoutsConsistent (before after : Audited) : Prop where
  recorded : ∀ workerId, after.state.db.paid workerId = after.state.db.payoutSats workerId
  covered : ∀ workerId, after.state.db.paid workerId + after.state.db.inFlightSats workerId ≤
    after.state.db.accrued workerId
  single : ∀ row ∈ after.state.db.inFlight, ∀ other ∈ after.state.db.inFlight, row.txid = other.txid
  moves : Moves before after

section Sums

variable {α β : Type} {worker : α → Nat} {sats : α → Int}

theorem satsOf_eq (rows : List α) (workerId : Nat) :
    satsOf worker sats rows workerId = (rows.map fun row => if worker row = workerId then sats row
      else 0).sum := by
  induction rows with
  | nil => rfl
  | cons row rest ih =>
    rw [List.map_cons, List.sum_cons, ← ih, satsOf, List.filter_cons]
    by_cases mine : worker row = workerId
    · simp [mine, satsOf]
    · simp [mine, satsOf]

theorem satsOf_append (first rest : List α) (workerId : Nat) :
    satsOf worker sats (first ++ rest) workerId =
      satsOf worker sats first workerId + satsOf worker sats rest workerId := by
  rw [satsOf, List.filter_append, List.map_append, List.sum_append]
  rfl

/-- Only the workers and the amounts count. -/
theorem satsOf_congr {other : β → Nat} {amount : β → Int} {rows : List α} {copies : List β}
    (same : rows.map (fun row => (worker row, sats row)) =
      copies.map (fun row => (other row, amount row)))
    (workerId : Nat) : satsOf worker sats rows workerId = satsOf other amount copies workerId := by
  have pairs : ∀ {γ : Type} (w : γ → Nat) (a : γ → Int) (l : List γ), satsOf w a l workerId =
      satsOf Prod.fst Prod.snd (l.map fun row => (w row, a row)) workerId := by
    intro γ w a l
    simp only [satsOf, List.filter_map, List.map_map, Function.comp_def]
  rw [pairs worker sats rows, pairs other amount copies, same]

/-- With one row a worker, no worker has more than what bounds its own row. -/
theorem satsOf_le {rows : List α} (distinct : (rows.map worker).Nodup) {bound : Int}
    (positive : 0 ≤ bound) (each : ∀ row ∈ rows, worker row = workerId → sats row ≤ bound) :
    satsOf worker sats rows workerId ≤ bound := by
  induction rows with
  | nil => exact positive
  | cons row rest ih =>
    obtain ⟨apart, distinct⟩ := List.nodup_cons.mp distinct
    have later := ih distinct fun other member => each other (List.mem_cons_of_mem _ member)
    by_cases mine : worker row = workerId
    · have alone : (rest.filter fun other => worker other = workerId) = [] := by
        rw [List.filter_eq_nil_iff]
        intro other member same
        exact apart (mine ▸ of_decide_eq_true same ▸ List.mem_map_of_mem member)
      have here := each row List.mem_cons_self mine
      simpa [satsOf, mine, alone] using here
    · simpa [satsOf, mine] using later

end Sums

section Tables

variable {db : Db}

theorem Db.accrued_update (db : Db) (f : PpsCredit → PpsCredit)
    (key : ∀ row, (f row).workerId = row.workerId)
    (same : ∀ row, (f row).accruedSats = row.accruedSats) (workerId : Nat) :
    (((db.credits.update f key).find workerId).map PpsCredit.accruedSats).getD 0 =
      db.accrued workerId := by
  rw [Credits.find_update, Db.accrued, Option.map_map]
  congr 2
  funext row
  exact same row

theorem Db.accrued_le_accrue (db : Db) (accruing : Nat) {sats : Int} (positive : 0 < sats)
    (workerId : Nat) :
    db.accrued workerId ≤
      Db.accrued { db with credits := db.credits.accrue accruing sats } workerId := by
  simp only [Db.accrued, Credits.accrue]
  split
  next =>
    rw [Credits.find_update]
    cases db.credits.find workerId with
    | none => exact le_rfl
    | some row =>
      simp only [Option.map_some, Option.getD_some]
      split
      · exact (Int.lt_add_of_pos_right _ positive).le
      · exact le_rfl
  next =>
    simp only [Credits.find, List.find?_append, List.find?_singleton]
    cases found : db.credits.rows.find? (fun row => row.workerId = workerId) with
    | some row => exact le_rfl
    | none =>
      simp only [Option.none_or, Option.map_none, Option.getD_none]
      split
      · exact positive.le
      · exact le_rfl

theorem finalizeRows_accrued (items : List (InFlight × Int)) (db : Db) (workerId : Nat) :
    (items.foldl (finalizeRow txid nowSec) db).accrued workerId = db.accrued workerId := by
  induction items generalizing db with
  | nil => rfl
  | cons item rest ih =>
    rw [List.foldl_cons, ih]
    exact Db.accrued_update db _ (fun row => by split <;> rfl) (fun row => by split <;> rfl)
      workerId

theorem finalizeRows_payouts (items : List (InFlight × Int)) (db : Db) :
    (items.foldl (finalizeRow txid nowSec) db).payouts =
      db.payouts ++ items.map fun item => ⟨item.1.workerId, item.1.sats, item.2, txid, nowSec⟩ := by
  induction items generalizing db with
  | nil => simp
  | cons item rest ih => simp [ih, finalizeRow]

/-- The shares of the fee are the fee. -/
theorem feeShares_sum (fee : Int) (n : Nat) : (feeShares fee (n + 1)).sum = fee := by
  have rest : ∀ share : Int, ((List.range n).map fun _ => share).sum = n * share := by
    intro share
    simp
  simp only [feeShares, List.range_succ_eq_map, List.map_cons, List.map_map, List.sum_cons, if_true]
  have shares : ((fun i : Nat => if i = 0 then fee / ((n + 1 : Nat) : Int) +
      (fee - fee / ((n + 1 : Nat) : Int) * ((n + 1 : Nat) : Int))
        else fee / ((n + 1 : Nat) : Int)) ∘ Nat.succ) =
        fun _ => fee / ((n + 1 : Nat) : Int) := by
    funext i
    simp
  rw [shares, rest]
  push_cast
  ring

/-- What the tables say about each other. -/
structure Sound (db : Db) : Prop where
  known : ∀ row ∈ db.inFlight, Known db row.workerId
  recorded : ∀ workerId, db.paid workerId = db.payoutSats workerId
  backed : ∀ workerId, db.paid workerId ≤ db.accrued workerId
  covered : ∀ workerId, db.paid workerId + db.inFlightSats workerId ≤ db.accrued workerId
  single : ∀ row ∈ db.inFlight, ∀ other ∈ db.inFlight, row.txid = other.txid

/-- The batch that waits for its confirmation is all that is in flight. -/
structure Awaits (db : Db) (pending : Pending) : Prop where
  rows : pending.rows = db.inFlight
  nonempty : db.inFlight ≠ []
  stamped : ∀ row ∈ db.inFlight, row.txid = pending.txid

/-- Nothing is in flight, and the due rows are covered by the ledger. -/
structure Quoted (db : Db) (due : List DueRow) : Prop where
  clear : db.inFlight = []
  distinct : (due.map DueRow.workerId).Nodup
  known : ∀ row ∈ due, Known db row.workerId
  owed : ∀ row ∈ due, row.owedSats + db.paid row.workerId ≤ db.accrued row.workerId

/-- What the tick relies on between its awaits. -/
def Pc.Sound (db : Db) (reported : List String) : Pc → Prop
  | .idle | .nudging | .listing => True
  | .settling pending => Awaits db pending
  | .checkingWallet pending status => Awaits db pending ∧ status.confirmed = false
  | .finalizing pending => Awaits db pending ∧ pending.txid ∈ reported
  | .checkingMempool due | .checkingBalance due | .beginning due => Quoted db due
  | .calling batch | .unlocking batch | .creating batch | .signing batch _ | .submitting batch _
  | .sending batch
  | .created batch _ | .submitted batch _ | .sent batch _ =>
    db.inFlight.map InFlight.id = batch.rowIds
  | .attaching rowIds _ _ | .aborting rowIds => db.inFlight.map InFlight.id = rowIds

/-- A write that moves neither payments nor rows and takes no accrual away. -/
theorem Sound.frame (sound : Sound db) (rows : db'.inFlight = db.inFlight)
    (payouts : db'.payouts = db.payouts) (paid : ∀ workerId, db'.paid workerId = db.paid workerId)
    (accrued : ∀ workerId, db.accrued workerId ≤ db'.accrued workerId)
    (known : ∀ workerId, Known db workerId → Known db' workerId) : Sound db' where
  known row member := known _ (sound.known row (rows ▸ member))
  recorded workerId := by rw [paid, Db.payoutSats, payouts]; exact sound.recorded workerId
  backed workerId := by
    rw [paid]
    exact (sound.backed workerId).trans (accrued workerId)
  covered workerId := by
    rw [paid, Db.inFlightSats, rows]
    exact (sound.covered workerId).trans (accrued workerId)
  single := by rw [rows]; exact sound.single

theorem Pc.Sound.frame {pc : Pc} (sound : pc.Sound db reported) (rows : db'.inFlight = db.inFlight)
    (paid : ∀ workerId, db'.paid workerId = db.paid workerId)
    (accrued : ∀ workerId, db.accrued workerId ≤ db'.accrued workerId)
    (known : ∀ workerId, Known db workerId → Known db' workerId) : pc.Sound db' reported := by
  have awaits : ∀ pending, Awaits db pending → Awaits db' pending := fun pending awaits =>
    ⟨awaits.rows.trans rows.symm, rows ▸ awaits.nonempty, rows ▸ awaits.stamped⟩
  have quoted : ∀ due, Quoted db due → Quoted db' due := fun due quoted =>
    { clear := rows.trans quoted.clear
      distinct := quoted.distinct
      known := fun row member => known _ (quoted.known row member)
      owed := fun row member => by
        rw [paid]
        exact (quoted.owed row member).trans (accrued _) }
  cases pc with
  | idle | nudging | listing => trivial
  | settling pending => exact awaits pending sound
  | checkingWallet pending status | finalizing pending => exact ⟨awaits pending sound.1, sound.2⟩
  | checkingMempool due | checkingBalance due | beginning due => exact quoted due sound
  | calling batch | unlocking batch | creating batch | signing batch outputs
  | submitting batch outputs
  | sending batch | created batch txid | submitted batch txid | sent batch txid
  | attaching rowIds txid nudges
  | aborting rowIds => exact (congrArg _ rows).trans sound

theorem Pc.Sound.mono {pc : Pc} (sound : pc.Sound db reported) (more : List String) :
    pc.Sound db (reported ++ more) := by
  cases pc with
  | finalizing pending => exact ⟨sound.1, List.mem_append_left _ sound.2⟩
  | _ => exact sound

/-- With nothing in flight any more, what was paid has to be covered. -/
theorem Sound.of_clear (clear : db.inFlight = [])
    (recorded : ∀ workerId, db.paid workerId = db.payoutSats workerId)
    (backed : ∀ workerId, db.paid workerId ≤ db.accrued workerId) : Sound db where
  known := by simp [clear]
  recorded := recorded
  backed := backed
  covered workerId := by
    have nothing : db.inFlightSats workerId = 0 := by rw [Db.inFlightSats, clear]; rfl
    rw [nothing, add_zero]
    exact backed workerId
  single := by simp [clear]

theorem finalizeBatch_paid_inFlight (sound : Sound db) (workerId : Nat) :
    (finalizeBatch db db.inFlight fee txid nowSec).paid workerId =
      db.paid workerId + db.inFlightSats workerId := by
  rw [Db.inFlightSats, satsOf_eq]
  by_cases known : workerId ∈ db.credits.rows.map PpsCredit.workerId
  · exact finalizeBatch_paid known
  · -- a worker without a balance has no row in flight either
    have absent : ∀ after :
      Db, after.credits.rows.map PpsCredit.workerId = db.credits.rows.map PpsCredit.workerId →
        after.paid workerId = 0 := by
      intro after same
      have missing : after.credits.find workerId = none := by
        rw [← Option.not_isSome_iff_eq_none, Credits.find_isSome, same]
        exact known
      simp [Db.paid, missing]
    have nothing :
        (db.inFlight.map fun row => if row.workerId = workerId then row.sats else 0).sum = 0 := by
      apply List.sum_eq_zero
      intro sats member
      obtain ⟨row, inside, rfl⟩ := List.mem_map.mp member
      have other : row.workerId ≠ workerId := by
        rintro rfl
        exact known (sound.known row inside)
      rw [if_neg other]
    rw [absent _ (finalizeBatch_known db _ fee txid nowSec), absent db rfl, nothing, add_zero]

/-- The rows that finalising a batch records. -/
theorem finalizeBatch_payouts (db : Db) (rows : List InFlight) (nonempty : rows ≠ []) (fee : Int)
    (txid : String) (nowSec : Nat) :
    ∃ settled, (finalizeBatch db rows fee txid nowSec).payouts = db.payouts ++ settled ∧
      settled.map (fun row => (row.workerId, row.sats, row.txid)) =
        rows.map (fun row => (row.workerId, row.sats, txid)) ∧
      (settled.map PayoutRow.feeSats).sum = fee := by
  refine ⟨_, finalizeRows_payouts _ db, ?_, ?_⟩
  · rw [List.map_map]
    conv_rhs => rw [← zip_feeShares fee rows, List.map_map]
    rfl
  · obtain ⟨n, length⟩ :=
      Nat.exists_eq_succ_of_ne_zero (fun none => nonempty (List.length_eq_zero_iff.mp none))
    have fees : (rows.zip (feeShares fee rows.length)).map Prod.snd = feeShares fee rows.length :=
      List.map_snd_zip (feeShares_length _ _).le
    rw [List.map_map]
    calc ((rows.zip (feeShares fee rows.length)).map Prod.snd).sum
      _ = (feeShares fee rows.length).sum := by rw [fees]
      _ = fee := by rw [length, feeShares_sum]

theorem finalizeBatch_sound (sound : Sound db) (nonempty : db.inFlight ≠ []) :
    Sound (finalizeBatch db db.inFlight fee txid nowSec) := by
  refine Sound.of_clear (finalizeBatch_inFlight db fee txid nowSec) ?_ ?_
  · intro workerId
    obtain ⟨settled, payouts, same, _⟩ :=
      finalizeBatch_payouts db db.inFlight nonempty fee txid nowSec
    have pairs : settled.map (fun row => (row.workerId, row.sats)) =
        db.inFlight.map (fun row => (row.workerId, row.sats)) := by
      have both :=
        congrArg (List.map fun (triple : Nat × Int × String) => (triple.1, triple.2.1)) same
      simpa only [List.map_map, Function.comp_def] using both
    rw [finalizeBatch_paid_inFlight sound, Db.payoutSats, payouts, satsOf_append,
      satsOf_congr pairs, sound.recorded]
    rfl
  · intro workerId
    rw [finalizeBatch_paid_inFlight sound]
    exact (sound.covered workerId).trans (finalizeRows_accrued _ db workerId).ge

theorem beginBatch_sound (sound : Sound db) (quoted : Quoted db due) :
    Sound (beginBatch db (batchOf due) nowSec).2 ∧
      (beginBatch db (batchOf due) nowSec).2.inFlight.map InFlight.id =
        (beginBatch db (batchOf due) nowSec).1 := by
  have rows : (beginBatch db (batchOf due) nowSec).2.inFlight =
        batchRows db.nextRowId (batchOf due) nowSec := by
    simp [beginBatch, quoted.clear]
  have pairs :
    (batchRows db.nextRowId (batchOf due) nowSec).map (fun row => (row.workerId, row.sats)) =
      due.map (fun row => (row.workerId, row.owedSats)) := by
    rw [batchRows_map _ (fun item => (item.workerId, item.sats)) (fun _ _ _ => rfl), batchOf,
      List.map_map]
    rfl
  have listed : ∀ row ∈ batchRows db.nextRowId (batchOf due) nowSec, ∃ item ∈ due,
      item.workerId = row.workerId := by
    intro row member
    have inside := List.mem_map_of_mem (f := fun row : InFlight => (row.workerId, row.sats)) member
    rw [pairs] at inside
    obtain ⟨item, known, same⟩ := List.mem_map.mp inside
    exact ⟨item, known, congrArg Prod.fst same⟩
  have unstamped : ∀ row ∈ batchRows db.nextRowId (batchOf due) nowSec, row.txid = "" := by
    intro row member
    obtain ⟨item, _, rfl⟩ := List.mem_map.mp member
    rfl
  refine ⟨⟨?_, sound.recorded, sound.backed, ?_, ?_⟩, by rw [rows]; rfl⟩
  · intro row member
    rw [rows] at member
    obtain ⟨item, known, same⟩ := listed row member
    rw [← same]
    exact quoted.known item known
  · intro workerId
    have room : 0 ≤ db.accrued workerId - db.paid workerId :=
      Int.sub_nonneg_of_le (sound.backed workerId)
    have batched : satsOf DueRow.workerId DueRow.owedSats due workerId ≤
          db.accrued workerId - db.paid workerId := by
      refine satsOf_le quoted.distinct room ?_
      rintro row member rfl
      have owed := quoted.owed row member
      omega
    have sent : (beginBatch db (batchOf due) nowSec).2.inFlightSats workerId =
        satsOf DueRow.workerId DueRow.owedSats due workerId := by
      rw [Db.inFlightSats, rows]
      exact satsOf_congr pairs workerId
    rw [sent]
    show db.paid workerId + _ ≤ db.accrued workerId
    omega
  · rw [rows]
    intro row member other otherMember
    rw [unstamped row member, unstamped other otherMember]

theorem attachBatchTxid_sound (sound : Sound db) (rows : db.inFlight.map InFlight.id = rowIds)
    (txid : String) :
    Sound (attachBatchTxid db rowIds txid) := by
  have stamped := attachBatchTxid_inFlight rows txid
  refine ⟨?_, sound.recorded, sound.backed, ?_, ?_⟩
  · intro row member
    rw [stamped] at member
    obtain ⟨old, inside, rfl⟩ := List.mem_map.mp member
    exact sound.known old inside
  · intro workerId
    have same :
        (attachBatchTxid db rowIds txid).inFlightSats workerId = db.inFlightSats workerId := by
      rw [Db.inFlightSats, stamped]
      refine satsOf_congr ?_ workerId
      rw [List.map_map]
      rfl
    rw [same]
    exact sound.covered workerId
  · rw [stamped]
    intro row member other otherMember
    obtain ⟨_, _, rfl⟩ := List.mem_map.mp member
    obtain ⟨_, _, rfl⟩ := List.mem_map.mp otherMember
    rfl

end Tables

structure Audited.Sound (a : Audited) : Prop where
  tables : Payout.Sound a.state.db
  pc : a.state.pc.Sound a.state.db a.reported

section Steps

variable {a : Audited} {t : State} {more : List String}

/-- The step writes nothing and leaves the tick with what it relies on. -/
def Quiet (db : Db) (reported : List String) (t : State) : Prop :=
  t.db = db ∧ t.pc.Sound db reported

theorem Audited.Sound.quiet (sound : a.Sound) (quiet : Quiet a.state.db (a.reported ++ more) t) :
    Audited.Sound ⟨t, a.reported ++ more⟩ ∧ Moves a ⟨t, a.reported ++ more⟩ := by
  obtain ⟨same, pc⟩ := quiet
  refine ⟨⟨?_, ?_⟩, Or.inr ⟨?_, ?_, BatchStep.held ?_⟩⟩
  · rw [same]
    exact sound.tables
  · rw [same]
    exact pc
  · rw [same]
  · intro workerId
    rw [same]
  · rw [same]

theorem nudge_quiet (cfg : Config) (force : Bool) (s : State) (reported : List String) :
    Quiet s.db reported (nudge cfg force s) := by
  dsimp only [nudge]
  apply iteInduction
  · exact fun _ => ⟨rfl, trivial⟩
  · exact fun _ => ⟨rfl, trivial⟩

theorem blocked_quiet (cfg : Config) (pending : Pending) (state : Settlement) (s : State)
    (reported : List String) :
    Quiet s.db reported (blocked cfg pending state s) := by
  rw [blocked]
  split
  next => exact nudge_quiet cfg false s reported
  next => exact ⟨rfl, trivial⟩

theorem startBatch_quiet (cfg : Config) (s : State) (reported : List String) :
    Quiet s.db reported (startBatch cfg s) := by
  rw [startBatch]
  split
  next => exact ⟨rfl, trivial⟩
  next outstanding =>
    simp only
    split
    next => exact ⟨rfl, trivial⟩
    next started =>
      have live : cfg.dryRun = false := by
        cases dry : cfg.dryRun with
        | false => rfl
        | true => simp [dry] at started
      have chosen := selectDue_subset cfg s.memory (listDue s.db cfg.minSats cfg.maxPerTick)
      have quoted :
          Quoted s.db (selectDue cfg s.memory (listDue s.db cfg.minSats cfg.maxPerTick)) :=
        { clear := by simpa [live] using outstanding
          distinct := (listDue_nodup _ _ _).sublist (chosen.map _)
          known := fun row member => (listDue_quotes (chosen.subset member)).1
          owed := by
            intro row member
            obtain ⟨_, paid, accrued⟩ := listDue_quotes (chosen.subset member)
            rw [DueRow.owedSats, paid, accrued]
            omega }
      split
      next => exact ⟨rfl, quoted⟩
      next => exact ⟨rfl, quoted⟩

theorem firstCall_quiet (cfg : Config) {batch : Batch} {s : State} (reported : List String)
    (rows : s.db.inFlight.map InFlight.id = batch.rowIds) :
    Quiet s.db reported (firstCall cfg batch s) := by
  rw [firstCall]
  split
  next => exact ⟨rfl, rows⟩
  next =>
    split
    next => exact ⟨rfl, rows⟩
    next => exact ⟨rfl, rows⟩

/-- Finalising pays every row of the batch under the txid that was reported. -/
theorem finalize_moves (sound : a.Sound) (here : a.state.pc = .finalizing pending)
    (db : t.db = finalizeBatch a.state.db pending.rows txFeeSats pending.txid nowSec)
    (pc : t.pc = .listing) :
    Audited.Sound ⟨t, a.reported ++ more⟩ ∧ Moves a ⟨t, a.reported ++ more⟩ := by
  have holds := sound.pc
  rw [here] at holds
  obtain ⟨awaits, confirmed⟩ := holds
  rw [awaits.rows] at db
  obtain ⟨settled, payouts, same, fees⟩ :=
    finalizeBatch_payouts a.state.db a.state.db.inFlight awaits.nonempty
    txFeeSats pending.txid nowSec
  refine ⟨⟨?_, by rw [pc]; trivial⟩, Or.inl ⟨?_, ?_, ?_, ?_⟩⟩
  · rw [db]
    exact finalizeBatch_sound sound.tables awaits.nonempty
  · refine ⟨settled, by rw [db]; exact payouts, same.trans
        (List.map_congr_left fun row member => ?_), fees⟩
    rw [awaits.stamped row member]
  · rw [db]
    exact finalizeBatch_paid_inFlight sound.tables
  · rw [db]
    exact finalizeBatch_inFlight a.state.db txFeeSats pending.txid nowSec
  · intro row member
    rw [awaits.stamped row member]
    exact confirmed

theorem begin_moves (sound : a.Sound) (quoted : Quoted a.state.db due)
    (db : t.db = (beginBatch a.state.db (batchOf due) nowSec).2)
    (pc : t.pc = .calling ⟨batchOf due, (beginBatch a.state.db (batchOf due) nowSec).1⟩) :
    Audited.Sound ⟨t, a.reported ++ more⟩ ∧ Moves a ⟨t, a.reported ++ more⟩ := by
  obtain ⟨tables, rows⟩ := beginBatch_sound sound.tables quoted
  rw [← db] at tables
  refine ⟨⟨tables, ?_⟩, Or.inr ⟨?_, ?_, BatchStep.begun quoted.clear⟩⟩
  · rw [pc, db]
    exact rows
  · rw [db]
    rfl
  · intro workerId
    rw [db]
    rfl

theorem attach_moves (sound : a.Sound) (rows : a.state.db.inFlight.map InFlight.id = rowIds)
    (txid : String)
    (quiet : Quiet (attachBatchTxid a.state.db rowIds txid) (a.reported ++ more) t) :
    Audited.Sound ⟨t, a.reported ++ more⟩ ∧ Moves a ⟨t, a.reported ++ more⟩ := by
  obtain ⟨db, pc⟩ := quiet
  refine ⟨⟨?_, by rw [db]; exact pc⟩, Or.inr ⟨?_, ?_, BatchStep.held ?_⟩⟩
  · rw [db]
    exact attachBatchTxid_sound sound.tables rows txid
  · rw [db]
    rfl
  · intro workerId
    rw [db]
    rfl
  · rw [db, attachBatchTxid_inFlight rows, List.map_map]
    rfl

theorem abort_moves (sound : a.Sound) (rows : a.state.db.inFlight.map InFlight.id = rowIds)
    (db : t.db = abortBatch a.state.db rowIds) (pc : t.pc = .idle) :
    Audited.Sound ⟨t, a.reported ++ more⟩ ∧ Moves a ⟨t, a.reported ++ more⟩ := by
  have clear : t.db.inFlight = [] := by
    rw [db]
    exact abortBatch_clear rows
  refine ⟨⟨Sound.of_clear clear ?_ ?_, by rw [pc]; trivial⟩,
    Or.inr ⟨?_, ?_, BatchStep.aborted clear⟩⟩
  · rw [db]
    exact sound.tables.recorded
  · rw [db]
    exact sound.tables.backed
  · rw [db]
    rfl
  · intro workerId
    rw [db]
    rfl

theorem proceed_moves (sound : a.Sound) (stepped : proceed cfg a.state = some t) :
    Audited.Sound ⟨t, a.reported ++ more⟩ ∧ Moves a ⟨t, a.reported ++ more⟩ := by
  have pc := sound.pc
  simp only [proceed] at stepped
  split at stepped
  next pending here =>
    obtain rfl := Option.some.inj stepped
    exact finalize_moves sound here rfl rfl
  next =>
    obtain rfl := Option.some.inj stepped
    exact sound.quiet (startBatch_quiet cfg a.state _)
  next due here =>
    obtain rfl := Option.some.inj stepped
    rw [here] at pc
    exact begin_moves sound pc rfl rfl
  next batch here =>
    rw [here] at pc
    split at stepped
    next =>
      obtain rfl := Option.some.inj stepped
      exact sound.quiet ⟨rfl, pc⟩
    next =>
      obtain rfl := Option.some.inj stepped
      exact sound.quiet (firstCall_quiet cfg _ pc)
  next rowIds txid nudges here =>
    obtain rfl := Option.some.inj stepped
    rw [here] at pc
    refine attach_moves sound pc txid ?_
    split
    next =>
      exact nudge_quiet cfg true { a.state with db := attachBatchTxid a.state.db rowIds txid } _
    next => exact ⟨rfl, trivial⟩
  next rowIds here =>
    obtain rfl := Option.some.inj stepped
    rw [here] at pc
    exact abort_moves sound pc rfl rfl
  next => contradiction

/-- The answers that settle a batch are the ones that are reported. -/
theorem txStatus_moves (sound : a.Sound) (stepped : step cfg a.state (.txStatus status) = some t) :
    Audited.Sound ⟨t, a.reported ++ reportedNow a.state (.txStatus status)⟩ ∧
      Moves a ⟨t, a.reported ++ reportedNow a.state (.txStatus status)⟩ := by
  have pc := sound.pc
  simp only [step] at stepped
  split at stepped
  next pending here =>
    obtain rfl := Option.some.inj stepped
    rw [here] at pc
    have reported : reportedNow a.state (.txStatus status) = if status.confirmed then [pending.txid]
        else [] := by
      simp only [reportedNow, here]
    refine sound.quiet ⟨rfl, ?_⟩
    rw [reported]
    dsimp only
    split
    next => exact ⟨pc, List.mem_append_right _ (List.mem_singleton_self _)⟩
    next unconfirmed => exact ⟨pc, Bool.not_eq_true _ ▸ unconfirmed⟩
  next => contradiction

theorem utxos_moves (sound : a.Sound) (stepped : step cfg a.state (.utxos reply) = some t) :
    Audited.Sound ⟨t, a.reported ++ reportedNow a.state (.utxos reply)⟩ ∧
      Moves a ⟨t, a.reported ++ reportedNow a.state (.utxos reply)⟩ := by
  have pc := sound.pc
  simp only [step] at stepped
  split at stepped
  next pending status here =>
    rw [here] at pc
    have reported : reportedNow a.state (.utxos reply) =
        if (reply.getD []).contains pending.txid then [pending.txid] else [] := by
      simp only [reportedNow, here]
    split at stepped
    next decided =>
      obtain rfl := Option.some.inj stepped
      have listed : (reply.getD []).contains pending.txid = true := by
        simp only [settlementState, pc.2, Bool.false_eq_true, if_false] at decided
        split at decided
        next found => exact found
        next => split at decided <;> contradiction
      refine sound.quiet ⟨rfl, pc.1, ?_⟩
      rw [reported, if_pos listed]
      exact List.mem_append_right _ (List.mem_singleton_self _)
    next =>
      obtain rfl := Option.some.inj stepped
      exact sound.quiet (blocked_quiet cfg pending _ a.state _)
  next => contradiction

theorem step_moves (sound : a.Sound) (stepped : step cfg a.state event = some t) :
    Audited.Sound ⟨t, a.reported ++ reportedNow a.state event⟩ ∧
      Moves a ⟨t, a.reported ++ reportedNow a.state event⟩ := by
  have pc := sound.pc
  cases event with
  | txStatus status => exact txStatus_moves sound stepped
  | utxos reply => exact utxos_moves sound stepped
  | proceed => exact proceed_moves sound stepped
  | accrue workerId sats =>
    simp only [step] at stepped
    split at stepped
    next positive =>
      obtain rfl := Option.some.inj stepped
      have paid := Db.paid_accrue a.state.db workerId sats
      have accrued := Db.accrued_le_accrue a.state.db workerId positive
      have known := fun other => Credits.mem_accrue a.state.db.credits workerId sats other
      refine ⟨⟨sound.tables.frame rfl rfl paid accrued known, ?_⟩,
        Or.inr ⟨rfl, paid, BatchStep.held rfl⟩⟩
      exact (pc.mono _).frame rfl paid accrued known
    next => contradiction
  | register worker =>
    obtain rfl := Option.some.inj stepped
    refine ⟨⟨sound.tables.frame rfl rfl (fun _ => rfl) (fun _ => le_rfl) (fun _ => id), ?_⟩,
      Or.inr ⟨rfl, fun _ => rfl, BatchStep.held rfl⟩⟩
    exact (pc.mono _).frame rfl (fun _ => rfl) (fun _ => le_rfl) (fun _ => id)
  | wait ms =>
    obtain rfl := Option.some.inj stepped
    exact sound.quiet ⟨rfl, pc.mono _⟩
  | crash =>
    obtain rfl := Option.some.inj stepped
    exact sound.quiet ⟨rfl, trivial⟩
  | tick =>
    simp only [step] at stepped
    split at stepped
    next =>
      split at stepped
      next pending found =>
        obtain rfl := Option.some.inj stepped
        obtain ⟨rows, nonempty, _, stamped⟩ := pendingBatch_whole sound.tables.single found
        refine sound.quiet ⟨rfl, ?_⟩
        dsimp only
        split
        next => trivial
        next => exact ⟨rows, nonempty, stamped⟩
      next =>
        obtain rfl := Option.some.inj stepped
        exact sound.quiet ⟨rfl, trivial⟩
    next => contradiction
  | mined =>
    simp only [step] at stepped
    split at stepped
    next =>
      obtain rfl := Option.some.inj stepped
      exact sound.quiet ⟨rfl, trivial⟩
    next => contradiction
  | mempool reply =>
    simp only [step] at stepped
    split at stepped
    next due here =>
      obtain rfl := Option.some.inj stepped
      rw [here] at pc
      refine sound.quiet ⟨rfl, ?_⟩
      dsimp only
      split
      next => trivial
      next => exact pc
    next => contradiction
  | balance reply =>
    simp only [step] at stepped
    split at stepped
    next due available here =>
      obtain rfl := Option.some.inj stepped
      rw [here] at pc
      refine sound.quiet ⟨rfl, ?_⟩
      dsimp only
      split
      next => trivial
      next => exact pc
    next =>
      obtain rfl := Option.some.inj stepped
      exact sound.quiet ⟨rfl, trivial⟩
    next => contradiction
  | unlocked =>
    simp only [step] at stepped
    split at stepped
    next batch here =>
      obtain rfl := Option.some.inj stepped
      rw [here] at pc
      exact sound.quiet (firstCall_quiet cfg _ pc)
    next => contradiction
  | unsigned outputs =>
    simp only [step] at stepped
    split at stepped
    next batch here =>
      rw [here] at pc
      split at stepped
      next =>
        obtain rfl := Option.some.inj stepped
        exact sound.quiet ⟨rfl, pc⟩
      next =>
        obtain rfl := Option.some.inj stepped
        exact sound.quiet ⟨rfl, pc⟩
    next => contradiction
  | signed =>
    simp only [step] at stepped
    split at stepped
    next here =>
      obtain rfl := Option.some.inj stepped
      rw [here] at pc
      exact sound.quiet ⟨rfl, pc⟩
    next => contradiction
  | accept txid =>
    simp only [step, accept] at stepped
    split at stepped
    next => contradiction
    next =>
      split at stepped
      case h_4 => contradiction
      all_goals
        next here =>
          obtain rfl := Option.some.inj stepped
          rw [here] at pc
          exact sound.quiet ⟨rfl, pc⟩
  | replied =>
    simp only [step, replied] at stepped
    split at stepped
    case h_4 => contradiction
    all_goals
      next here =>
        obtain rfl := Option.some.inj stepped
        rw [here] at pc
        exact sound.quiet ⟨rfl, pc⟩
  | lost =>
    simp only [step, lost] at stepped
    split at stepped
    case h_4 => contradiction
    all_goals
      next here =>
        obtain rfl := Option.some.inj stepped
        rw [here] at pc
        exact sound.quiet ⟨rfl, pc⟩
  | failed =>
    simp only [step, failed] at stepped
    split at stepped
    case h_10 => contradiction
    case h_1 here | h_2 here | h_3 here | h_4 here | h_5 here =>
      obtain rfl := Option.some.inj stepped
      rw [here] at pc
      exact sound.quiet ⟨rfl, pc⟩
    all_goals
      obtain rfl := Option.some.inj stepped
      exact sound.quiet ⟨rfl, trivial⟩

end Steps

/-- Nobody has been paid yet. -/
structure Unpaid (s : State) : Prop where
  credits : ∀ row ∈ s.db.credits.rows, row.paidSats = 0 ∧ 0 ≤ row.accruedSats
  inFlight : s.db.inFlight = []
  payouts : s.db.payouts = []
  idle : s.pc = .idle

theorem Unpaid.sound {s : State} (unpaid : Unpaid s) : Audited.Sound ⟨s, []⟩ := by
  have ledger : ∀ workerId, s.db.paid workerId = 0 ∧ 0 ≤ s.db.accrued workerId := by
    intro workerId
    rw [Db.paid, Db.accrued]
    cases found : s.db.credits.find workerId with
    | none => exact ⟨rfl, le_rfl⟩
    | some row => exact unpaid.credits row (List.mem_of_find?_eq_some found)
  refine ⟨Sound.of_clear unpaid.inFlight ?_ ?_, by rw [unpaid.idle]; trivial⟩
  · intro workerId
    rw [(ledger workerId).1, Db.payoutSats, unpaid.payouts]
    rfl
  · intro workerId
    rw [(ledger workerId).1]
    exact (ledger workerId).2

/-- Along every run of ticks that do not overlap, with accruals, lost and failed calls and
crashes in any order, the ledger is consistent. -/
theorem payouts_consistent (cfg : Config) (s : State) (events : List Event) (unpaid : Unpaid s) :
    Along (auditedStep cfg) (fun before _ after => PayoutsConsistent before after)
      ⟨s, []⟩ events := by
  refine Along.always ?_ unpaid.sound
  intro before event after sound stepped
  obtain ⟨t, taken, rfl⟩ := Option.map_eq_some_iff.mp stepped
  obtain ⟨later, moves⟩ := step_moves sound taken
  exact ⟨later, later.tables.recorded, later.tables.covered, later.tables.single, moves⟩

/-- Three workers on the enforcer's wallet. -/
def threeWorkers : State where
  db := ⟨[⟨1, some "tb1qa"⟩, ⟨2, some "tb1qb"⟩, ⟨3, some "tb1qc"⟩], ⟨[], List.nodup_nil⟩, [], [], 1⟩
  accepted := []
  nowMs := 0
  memory := .fresh
  pc := .idle

/-- A batch is sent, and its process dies before the txid is confirmed. More is accrued
meanwhile, and the wallet shows the change of the batch after the restart. -/
def batchRun : List Event :=
  [.accrue 1 20000, .accrue 2 30000, .accrue 3 10000] ++ sendTick ++ [.accept "a1", .replied,
    .proceed, .crash,
    .accrue 1 500, .tick, .txStatus ⟨false, false, false⟩, .utxos (some ["a1"]), .proceed]

theorem payouts_consistent_batch :
    (run (auditedStep enforcerConfig) ⟨threeWorkers, []⟩ batchRun).map
        (fun a => (a.reported, a.state.db.payouts, a.state.db.credits.rows)) =
      some (["a1"], [⟨2, 30000, 34, "a1", 0⟩, ⟨1, 20000, 33, "a1", 0⟩, ⟨3, 10000, 33, "a1", 0⟩],
        [⟨1, 20500, 20000⟩, ⟨2, 30000, 30000⟩, ⟨3, 10000, 10000⟩]) ∧
    Along (auditedStep enforcerConfig) (fun before _ after => PayoutsConsistent before after)
      ⟨threeWorkers, []⟩ batchRun :=
  ⟨by decide +kernel, payouts_consistent enforcerConfig threeWorkers batchRun
    ⟨nofun, rfl, rfl, rfl⟩⟩

end SimplePool.Payout
