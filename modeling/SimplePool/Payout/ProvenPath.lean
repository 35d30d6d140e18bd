import SimplePool.Payout.Overlap
import SimplePool.Payout.PaidTo

/-! When a batch may have several addresses. On the Thunder rail `runOnce` learns from each
transfer that comes back whether the node signs and sends on its own, and pays one address at
a time until a transfer has come back that was split. -/
namespace SimplePool.Payout
open Transition

/-- A call of `runOnce` goes on: where it was, and with what. -/
structure Move where
  slot : Nat
  pc : Pc
  event : Event

/-- The process and what its calls did since it started, the latest first. -/
structure Remembered where
  pool : Pool
  past : List Move

def remember (p : Pool) (past : List Move) : PoolEvent → List Move
  | .world _ => past
  | .crash => []
  | .tick slot event => ⟨slot, p.ticks slot, event⟩ :: past

def rememberingStep (cfg : Config) (r : Remembered) (event : PoolEvent) : Option Remembered :=
  (r.pool.step cfg event).map fun p => ⟨p, remember r.pool r.past event⟩

/-- The node left the transfer of this batch unsigned, with outputs that can be split. -/
def Built (slot : Nat) (past : List Move) (batch : Batch) : Prop :=
  ∃ outputs, (splice batch outputs).isSome ∧ ⟨slot, .creating batch, .unsigned outputs⟩ ∈ past

/-- A call in this context has been answered to a transaction that it had split. -/
def Proven (context : Caller) (past : List Move) : Prop :=
  ∃ slot batch outputs txid, caller slot = context ∧ (splice batch outputs).isSome ∧
    [⟨slot, .submitted batch txid, .replied⟩,
      ⟨slot, .creating batch, .unsigned outputs⟩].Sublist past

/-- The batch that the node is asked to pay. -/
def Pc.pays : Pc → Option Batch
  | .calling batch | .unlocking batch | .creating batch | .created batch _ | .signing batch _
  | .submitting batch _
  | .submitted batch _ | .sending batch | .sent batch _ => some batch
  | _ => none

/-- A call pays one address, or its context has been proven. -/
def OnlyProven (r : Remembered) : Prop :=
  ∀ slot, ∀ batch ∈ (r.pool.ticks slot).pays, batch.oneAddress ∨ Proven (caller slot) r.past

def oneRecipient (due : List DueRow) : Prop := (due.map DueRow.thunderAddress).dedup.length = 1

/-- What holds of a call, over what its context has proven and what the node has built for it. -/
def Pc.Vouched (proven : Prop) (built : Batch → Prop) : Pc → Prop
  | .checkingMempool due | .checkingBalance due | .beginning due => oneRecipient due ∨ proven
  | .calling batch | .unlocking batch | .creating batch | .created batch _ =>
    batch.oneAddress ∨ proven
  | .signing batch _ | .submitting batch _ | .submitted batch _ =>
    (batch.oneAddress ∨ proven) ∧ built batch
  | .sending _ | .sent _ _ => False
  | _ => True

structure State.Vouched (s : State) (proven : Prop) (built : Batch → Prop) : Prop where
  flag : s.memory.nodeBroadcastsOnCreate = some false → proven
  pc : s.pc.Vouched proven built

section

variable {cfg : Config} {s t : State} {proven proven' : Prop} {built built' : Batch → Prop}

theorem Pc.Vouched.mono {pc : Pc} (vouched : pc.Vouched proven built) (more : proven → proven')
    (kept : ∀ batch, built batch → built' batch) :
    pc.Vouched proven' built' := by
  cases pc with
  | checkingMempool | checkingBalance | beginning | calling | unlocking | creating | created =>
    exact vouched.imp_right more
  | signing | submitting | submitted => exact ⟨vouched.1.imp_right more, kept _ vouched.2⟩
  | sending | sent => exact vouched
  | _ => trivial

theorem State.Vouched.mono (vouched : s.Vouched proven built) (more : proven → proven')
    (kept : ∀ batch, built batch → built' batch) : s.Vouched proven' built' :=
  ⟨fun flag => more (vouched.flag flag), vouched.pc.mono more kept⟩

theorem Pc.Vouched.pays {pc : Pc} (vouched : pc.Vouched proven built)
    (paid : pc.pays = some batch) :
    batch.oneAddress ∨ proven := by
  cases pc with
  | calling | unlocking | creating | created =>
    obtain rfl := Option.some.inj paid
    exact vouched
  | signing | submitting | submitted =>
    obtain rfl := Option.some.inj paid
    exact vouched.1
  | sending | sent => exact vouched.elim
  | _ => contradiction

theorem oneAddress_batchOf (one : oneRecipient due) (rowIds : List Nat) :
    (Batch.mk (batchOf due) rowIds).oneAddress := by
  rw [Batch.oneAddress, batchOf, List.map_map]
  exact one

/-- The rows of a group have the address of the group. -/
theorem largestGroup_address (due : List DueRow) :
    ∃ address, ∀ row ∈ largestGroup due, row.thunderAddress = address := by
  simp only [largestGroup]
  cases head : List.head? _ with
  | none => exact ⟨"", by simp⟩
  | some group =>
    have member := List.mem_of_mem_head? head
    rw [List.mem_insertionSort] at member
    obtain ⟨address, _, rfl⟩ := List.mem_map.mp member
    refine ⟨address, fun row inside => ?_⟩
    rw [Option.getD_some] at inside
    exact of_decide_eq_true (List.mem_filter.mp inside).2

theorem oneRecipient_largestGroup (someone : due ≠ []) : oneRecipient (largestGroup due) := by
  obtain ⟨address, same⟩ := largestGroup_address due
  have all : (largestGroup due).map DueRow.thunderAddress =
        List.replicate (largestGroup due).length address :=
    List.eq_replicate_iff.mpr ⟨List.length_map _, by simpa using same⟩
  have filled : (largestGroup due).length ≠ 0 :=
    fun empty => largestGroup_ne_nil someone (List.length_eq_zero_iff.mp empty)
  rw [oneRecipient, all, List.replicate_dedup filled, List.length_singleton]

/-- Without a proof the largest group is chosen. -/
theorem selectDue_vouched (thunder : cfg.rail = .thunder)
    (flag : memory.nodeBroadcastsOnCreate = some false → proven)
    (someone : allDue ≠ []) : oneRecipient (selectDue cfg memory allDue) ∨ proven := by
  rw [selectDue]
  split
  next may =>
    rw [canBatchAcrossAddresses, thunder] at may
    exact .inr (flag (by simpa using may))
  next => exact .inl (oneRecipient_largestGroup someone)

theorem nudge_vouched (cfg : Config) (force : Bool)
    (flag : s.memory.nodeBroadcastsOnCreate = some false → proven) :
    (nudge cfg force s).Vouched proven built := by
  dsimp only [nudge]
  split_ifs
  · exact ⟨flag, trivial⟩
  · exact ⟨flag, trivial⟩

theorem blocked_vouched (cfg : Config) (pending : Pending) (state : Settlement)
    (flag : s.memory.nodeBroadcastsOnCreate = some false → proven) :
    (blocked cfg pending state s).Vouched proven built := by
  rw [blocked]
  split
  next => exact nudge_vouched cfg false flag
  next => exact ⟨flag, trivial⟩

theorem startBatch_vouched (thunder : cfg.rail = .thunder)
    (flag : s.memory.nodeBroadcastsOnCreate = some false → proven) :
    (startBatch cfg s).Vouched proven built := by
  rw [startBatch, thunder]
  split
  next => exact ⟨flag, trivial⟩
  next =>
    dsimp only
    split
    next => exact ⟨flag, trivial⟩
    next started =>
      have someone : listDue s.db cfg.minSats cfg.maxPerTick ≠ [] :=
        fun nobody => started (by simp [nobody])
      exact ⟨flag, selectDue_vouched thunder flag someone⟩

theorem firstCall_vouched (thunder : cfg.rail = .thunder)
    (flag : s.memory.nodeBroadcastsOnCreate = some false → proven)
    (paid : batch.oneAddress ∨ proven) : (firstCall cfg batch s).Vouched proven built := by
  rw [firstCall, thunder]
  split
  next => exact ⟨flag, trivial⟩
  next => exact ⟨flag, paid⟩

theorem proceed_vouched (thunder : cfg.rail = .thunder) (vouched : s.Vouched proven built)
    (stepped : proceed cfg s = some t) :
    t.Vouched proven built := by
  have held := vouched.pc
  simp only [proceed] at stepped
  split at stepped
  next =>
    obtain rfl := Option.some.inj stepped
    exact ⟨vouched.flag, trivial⟩
  next =>
    obtain rfl := Option.some.inj stepped
    exact startBatch_vouched thunder vouched.flag
  next due here =>
    rw [here] at held
    obtain rfl := Option.some.inj stepped
    exact ⟨vouched.flag, held.imp_left fun one => oneAddress_batchOf one _⟩
  next batch here =>
    rw [here] at held
    split at stepped
    next =>
      obtain rfl := Option.some.inj stepped
      exact ⟨vouched.flag, held⟩
    next =>
      obtain rfl := Option.some.inj stepped
      exact firstCall_vouched thunder vouched.flag held
  next nudges _ =>
    obtain rfl := Option.some.inj stepped
    cases nudges with
    | true => exact nudge_vouched cfg true vouched.flag
    | false => exact ⟨vouched.flag, trivial⟩
  next =>
    obtain rfl := Option.some.inj stepped
    exact ⟨vouched.flag, trivial⟩
  next => contradiction

theorem accept_vouched (vouched : s.Vouched proven built) (stepped : accept s txid = some t) :
    t.Vouched proven built := by
  have held := vouched.pc
  simp only [accept] at stepped
  split at stepped
  next => contradiction
  next =>
    split at stepped
    next batch here =>
      rw [here] at held
      obtain rfl := Option.some.inj stepped
      exact ⟨vouched.flag, held⟩
    next batch outputs here =>
      rw [here] at held
      obtain rfl := Option.some.inj stepped
      exact ⟨vouched.flag, held⟩
    next batch here =>
      rw [here] at held
      exact held.elim
    next => contradiction

/-- Only the answer to a transaction that was split sets the flag to false. -/
theorem replied_vouched (vouched : s.Vouched proven built)
    (learned : ∀ batch txid, s.pc = .submitted batch txid → proven)
    (stepped : replied s = some t) : t.Vouched proven built := by
  have held := vouched.pc
  simp only [replied] at stepped
  split at stepped
  next =>
    obtain rfl := Option.some.inj stepped
    exact ⟨fun flag => by simp at flag, trivial⟩
  next batch txid here =>
    obtain rfl := Option.some.inj stepped
    exact ⟨fun _ => learned batch txid here, trivial⟩
  next batch txid here =>
    rw [here] at held
    exact held.elim
  next => contradiction

theorem lost_vouched (vouched : s.Vouched proven built) (stepped : lost s = some t) :
    t.Vouched proven built := by
  simp only [lost] at stepped
  split at stepped
  case h_4 => contradiction
  all_goals
    obtain rfl := Option.some.inj stepped
    exact ⟨vouched.flag, trivial⟩

theorem failed_vouched (vouched : s.Vouched proven built) (stepped : failed s = some t) :
    t.Vouched proven built := by
  simp only [failed] at stepped
  split at stepped
  case h_10 => contradiction
  all_goals
    obtain rfl := Option.some.inj stepped
    exact ⟨vouched.flag, trivial⟩

theorem unsigned_vouched (vouched : s.Vouched proven built)
    (grown : ∀ batch, s.pc = .creating batch → (splice batch outputs).isSome → built batch)
    (stepped : step cfg s (.unsigned outputs) = some t) : t.Vouched proven built := by
  have held := vouched.pc
  simp only [step] at stepped
  split at stepped
  next batch here =>
    rw [here] at held
    split at stepped
    next parts spliced =>
      obtain rfl := Option.some.inj stepped
      exact ⟨vouched.flag, held, grown batch here (by rw [spliced]; rfl)⟩
    next =>
      obtain rfl := Option.some.inj stepped
      exact ⟨vouched.flag, trivial⟩
  next => contradiction

/-- The step of a call, with what it adds to what is known of the node. -/
theorem step_vouched (thunder : cfg.rail = .thunder) (vouched : s.Vouched proven built)
    (grown : ∀ batch outputs, s.pc = .creating batch → event = .unsigned outputs →
      (splice batch outputs).isSome → built batch)
    (learned : ∀ batch txid, s.pc = .submitted batch txid → event = .replied → proven)
    (stepped : step cfg s event = some t) : t.Vouched proven built := by
  have held := vouched.pc
  cases event with
  | accrue workerId sats =>
    simp only [step] at stepped
    split at stepped
    next =>
      obtain rfl := Option.some.inj stepped
      exact ⟨vouched.flag, held⟩
    next => contradiction
  | register | wait =>
    obtain rfl := Option.some.inj stepped
    exact ⟨vouched.flag, held⟩
  | crash =>
    obtain rfl := Option.some.inj stepped
    exact ⟨fun flag => by contradiction, trivial⟩
  | tick =>
    simp only [step] at stepped
    split at stepped
    next =>
      split at stepped
      next =>
        obtain rfl := Option.some.inj stepped
        exact ⟨vouched.flag, by dsimp only; split <;> trivial⟩
      next =>
        obtain rfl := Option.some.inj stepped
        exact ⟨vouched.flag, trivial⟩
    next => contradiction
  | txStatus status =>
    simp only [step] at stepped
    split at stepped
    next =>
      obtain rfl := Option.some.inj stepped
      exact ⟨vouched.flag, by dsimp only; split <;> trivial⟩
    next => contradiction
  | utxos reply =>
    simp only [step] at stepped
    split at stepped
    next pending _ _ =>
      split at stepped
      next =>
        obtain rfl := Option.some.inj stepped
        exact ⟨vouched.flag, trivial⟩
      next =>
        obtain rfl := Option.some.inj stepped
        exact blocked_vouched cfg pending _ vouched.flag
    next => contradiction
  | mined =>
    simp only [step] at stepped
    split at stepped
    next =>
      obtain rfl := Option.some.inj stepped
      exact ⟨vouched.flag, trivial⟩
    next => contradiction
  | mempool reply =>
    simp only [step] at stepped
    split at stepped
    next due here =>
      rw [here] at held
      obtain rfl := Option.some.inj stepped
      refine ⟨vouched.flag, ?_⟩
      dsimp only
      split
      next => trivial
      next => exact held
    next => contradiction
  | balance reply =>
    simp only [step] at stepped
    split at stepped
    next due available here =>
      rw [here] at held
      obtain rfl := Option.some.inj stepped
      refine ⟨vouched.flag, ?_⟩
      dsimp only
      split
      next => trivial
      next => exact held
    next =>
      obtain rfl := Option.some.inj stepped
      exact ⟨vouched.flag, trivial⟩
    next => contradiction
  | unlocked =>
    simp only [step] at stepped
    split at stepped
    next batch here =>
      rw [here] at held
      obtain rfl := Option.some.inj stepped
      exact firstCall_vouched thunder vouched.flag held
    next => contradiction
  | unsigned outputs =>
    exact unsigned_vouched vouched (fun batch here => grown batch outputs here rfl) stepped
  | signed =>
    simp only [step] at stepped
    split at stepped
    next batch outputs here =>
      rw [here] at held
      obtain rfl := Option.some.inj stepped
      exact ⟨vouched.flag, held⟩
    next => contradiction
  | proceed => exact proceed_vouched thunder vouched stepped
  | accept txid => exact accept_vouched vouched stepped
  | replied =>
    exact replied_vouched vouched (fun batch txid here => learned batch txid here rfl) stepped
  | lost => exact lost_vouched vouched stepped
  | failed => exact failed_vouched vouched stepped

end

theorem Proven.cons (proven : Proven context past) (move : Move) :
    Proven context (move :: past) := by
  obtain ⟨slot, batch, outputs, txid, same, splits, within⟩ := proven
  exact ⟨slot, batch, outputs, txid, same, splits, within.cons move⟩

theorem Built.cons (built : Built slot past batch) (move : Move) :
    Built slot (move :: past) batch := by
  obtain ⟨outputs, splits, member⟩ := built
  exact ⟨outputs, splits, List.mem_cons_of_mem move member⟩

def Remembered.Vouched (r : Remembered) : Prop :=
  ∀ slot, (r.pool.view slot).Vouched (Proven (caller slot) r.past) (Built slot r.past)

theorem Remembered.Vouched.start (db : Db) : Remembered.Vouched ⟨Pool.start db, []⟩ :=
  fun _ => ⟨fun flag => by contradiction, trivial⟩

theorem Remembered.Vouched.onlyProven {r : Remembered} (vouched : r.Vouched) : OnlyProven r :=
  fun slot _ paid => (vouched slot).pc.pays paid

/-- The call at `slot` goes on, and the others see at most the memory of their context change. -/
theorem Remembered.Vouched.tick {r : Remembered} (thunder : cfg.rail = .thunder)
    (vouched : r.Vouched) (taken : Payout.step cfg (r.pool.view slot) event = some t) :
    Remembered.Vouched ⟨r.pool.put slot event t, ⟨slot, r.pool.ticks slot, event⟩ :: r.past⟩ := by
  let move : Move := ⟨slot, r.pool.ticks slot, event⟩
  have before : (r.pool.view slot).Vouched (Proven (caller slot) (move :: r.past))
      (Built slot (move :: r.past)) :=
    (vouched slot).mono (fun proven => proven.cons move) fun _ built => built.cons move
  have held := (vouched slot).pc
  have after : t.Vouched (Proven (caller slot) (move :: r.past)) (Built slot (move :: r.past)) := by
    refine step_vouched thunder before ?_ ?_ taken
    · rintro batch outputs here rfl splits
      exact ⟨outputs, splits, List.mem_cons.mpr (.inl (congrArg (Move.mk slot · _) here.symm))⟩
    · rintro batch txid here rfl
      rw [here] at held
      obtain ⟨outputs, splits, member⟩ := held.2
      refine ⟨slot, batch, outputs, txid, rfl, splits, ?_⟩
      rw [show move = ⟨slot, .submitted batch txid, .replied⟩ from congrArg (Move.mk slot · _) here]
      exact (List.singleton_sublist.mpr member).cons_cons _
  intro other
  by_cases same : other = slot
  · subst same
    refine ⟨?_, ?_⟩
    · simpa [Pool.view, Pool.put] using after.flag
    · simpa [Pool.view, Pool.put] using after.pc
  · have mine :=
      (vouched other).mono (fun proven => proven.cons move) fun _ built => built.cons move
    refine ⟨?_, ?_⟩
    · by_cases context : caller other = caller slot
      · rw [context]
        simpa [Pool.view, Pool.put, context] using after.flag
      · simpa [Pool.view, Pool.put, context] using mine.flag
    · simpa [Pool.view, Pool.put, Function.update_of_ne same] using mine.pc

theorem Remembered.Vouched.step {r after : Remembered} (thunder : cfg.rail = .thunder)
    (vouched : r.Vouched) (stepped : rememberingStep cfg r event = some after) : after.Vouched := by
  obtain ⟨p, taken, rfl⟩ := Option.map_eq_some_iff.mp stepped
  cases event with
  | world event =>
    rw [Pool.step] at taken
    split at taken
    next =>
      obtain ⟨t, _, rfl⟩ := Option.map_eq_some_iff.mp taken
      exact fun slot => ⟨(vouched slot).flag, (vouched slot).pc⟩
    next => contradiction
  | crash =>
    obtain rfl := Option.some.inj taken
    exact fun _ => ⟨fun flag => by contradiction, trivial⟩
  | tick slot event =>
    rw [Pool.step] at taken
    split at taken
    next =>
      obtain ⟨t, moved, rfl⟩ := Option.map_eq_some_iff.mp taken
      exact vouched.tick thunder moved
    next => contradiction

/-- Whatever the node answers, and however calls of either context overlap, fail and start
again after a crash: in every state a call pays one address, or an earlier call in its context
and since the last start had a transfer split, submitted and answered. -/
theorem several_addresses_only_proven (cfg : Config) (thunder : cfg.rail = .thunder) (db : Db)
    (events : List PoolEvent) :
    Along (rememberingStep cfg) (fun _ _ after => OnlyProven after) ⟨Pool.start db, []⟩ events := by
  refine Along.always ?_ (Remembered.Vouched.start db)
  intro r event after vouched stepped
  have kept := vouched.step thunder stepped
  exact ⟨kept, kept.onlyProven⟩

/-- The run of one tick after another that `provenRun` is, as the calls of the loop. -/
def provenPoolRun : List PoolEvent :=
  provenRun.map fun event => if event.outside then .world event else .tick 0 event

/-- Two addresses are paid at the end of it. -/
theorem several_addresses_only_proven_two :
    (∃ after ∈ run (rememberingStep thunderConfig) ⟨Pool.start twoWorkers.db, []⟩ provenPoolRun,
      ∃ batch ∈ (after.pool.ticks 0).pays, ¬batch.oneAddress) ∧
    Along (rememberingStep thunderConfig) (fun _ _ after => OnlyProven after)
      ⟨Pool.start twoWorkers.db, []⟩ provenPoolRun :=
  ⟨by decide +kernel, several_addresses_only_proven thunderConfig rfl twoWorkers.db provenPoolRun⟩

end SimplePool.Payout
