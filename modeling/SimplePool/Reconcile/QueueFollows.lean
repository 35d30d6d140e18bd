import SimplePool.Reconcile.OnePerHeight
import SimplePool.Reconcile.Restore
import SimplePool.Store.BlockHashIndex
import SimplePool.Store.FractionLedger

/-! Whether the payout queue follows the chain. The set of a block is added to the queue or
discarded at the first verdict that a pass settles it by, and what is discarded does not come
back with its block. -/
namespace SimplePool.Reconcile
open Store Transition

/-- How the node takes a query. -/
inductive Service where
  | answers | fails | unsupported
deriving DecidableEq, Repr

def nodeOf (chain : Chain) (service : Nat → Service) (i : Nat) (height : Int) : BlockHashReply :=
  match service i with
  | .answers => answer chain height
  | .fails => .failed
  | .unsupported => .unsupported

/-- What a pass makes of a row. -/
def judgedAt (node : Nat → Int → BlockHashReply) (cap : Nat) (tipHeight : Int) (gbh : GbhState)
    (db : Db) (row : BlockFound) :
    BlockFound :=
  let told := (answersOf node cap tipHeight gbh db).foldl (judgeBy tipHeight) row
  if goesByTemplates node cap tipHeight gbh db then
    impossible tipHeight (resolve db.templates tipHeight told)
  else told

theorem judgedAt_names (node : Nat → Int → BlockHashReply) (cap : Nat) (tipHeight : Int)
    (gbh : GbhState) (db : Db)
    (row : BlockFound) : (judgedAt node cap tipHeight gbh db row).hash = row.hash ∧
      (judgedAt node cap tipHeight gbh db row).height = row.height := by
  obtain ⟨hash, height, _⟩ :=
    foldl_judgeBy_names tipHeight (answersOf node cap tipHeight gbh db) row
  rw [judgedAt]
  split
  · obtain ⟨hash', height'⟩ := impossible_names tipHeight
      (resolve db.templates tipHeight
        ((answersOf node cap tipHeight gbh db).foldl (judgeBy tipHeight) row))
    obtain ⟨height'', hash''⟩ := resolve_names db.templates tipHeight
      ((answersOf node cap tipHeight gbh db).foldl (judgeBy tipHeight) row)
    exact ⟨hash'.trans (hash''.trans hash), height'.trans (height''.trans height)⟩
  · exact ⟨hash, height⟩

/-- The statuses of a pass, which change nothing else. -/
theorem settleStatusesAt_judged {c : Connection} (stored : Stored c)
    (node : Nat → Int → BlockHashReply) (cap : Nat) (tip : 0 < tipHeight) (gbh : GbhState) :
    (settleStatusesAt node cap tipHeight gbh c).2.working = none ∧
      { (settleStatusesAt node cap tipHeight gbh c).2.committed with
        blocksFound := c.committed.blocksFound } = c.committed ∧
      (settleStatusesAt node cap tipHeight gbh c).2.committed.blocksFound.rows =
        c.committed.blocksFound.rows.map (judgedAt node cap tipHeight gbh c.committed) := by
  obtain ⟨mid, closed, frame, rows, after⟩ := settleStatusesAt_rows stored node cap tipHeight gbh
  have templates : mid.committed.templates = c.committed.templates :=
    (congrArg Db.templates frame :)
  rw [after]
  cases chosen : goesByTemplates node cap tipHeight gbh c.committed with
  | true =>
    simp only [if_true, Connection.write, closed, storeReconcileBlocksFromTemplates, if_pos tip]
    refine ⟨trivial, frame, ?_⟩
    simp only [BlockTable.update, rows, List.map_map, templates]
    congr 1
    funext row
    simp only [judgedAt, chosen, if_true, Function.comp]
  | false =>
    simp only [Bool.false_eq_true, if_false]
    refine ⟨closed, frame, rows.trans ?_⟩
    congr 1
    funext row
    simp only [judgedAt, chosen, Bool.false_eq_true, if_false]

theorem answer_sized {chain : Chain} {hash : String} (answered : answer chain height = .ok hash) :
    hash.toList.length ≤ hashDigits := by
  rw [answer] at answered
  split_ifs at answered
  split at answered
  next here found =>
    cases answered
    exact chain.sized _ (List.mem_of_getElem? found)
  next => contradiction

theorem answersFrom_told {node : Nat → Int → BlockHashReply} {reply : BlockFound × String} (i : Nat)
    (rows : List BlockFound)
    (member : reply ∈ answersFrom node i rows) : ∃ j, node j reply.1.height = .ok reply.2 := by
  induction rows generalizing i with
  | nil => cases member
  | cons row rest ih =>
    rw [answersFrom] at member
    cases told : node i row.height with
    | ok hash =>
      rw [told] at member
      rcases List.mem_cons.mp member with rfl | later
      · exact ⟨i, told⟩
      · exact ih (i + 1) later
    | unsupported =>
      rw [told] at member
      cases member
    | failed =>
      rw [told] at member
      cases member

/-- An answer of the node confirms exactly the blocks of its chain. -/
theorem own_iff_onChain {chain : Chain} {reply : BlockFound × String}
    (member : reply ∈ answersOf (nodeOf chain service) cap tipHeight gbh db) :
    own reply = onChain chain reply.1 := by
  rw [answersOf] at member
  split at member
  · cases member
  · obtain ⟨j, told⟩ := answersFrom_told 0 _ member
    have answered : answer chain reply.1.height = .ok reply.2 := by
      rw [nodeOf] at told
      cases serving : service j with
      | answers => rwa [serving] at told
      | fails =>
        rw [serving] at told
        contradiction
      | unsupported =>
        rw [serving] at told
        contradiction
    rw [own, onChain, answered, buffer_eq (lt_of_le_of_lt (answer_sized answered) (by decide))]

/-- What the pass has to go by for a row is true of the chain. -/
structure Sighted (chain : Chain) (service : Nat → Service) (tipHeight : Int) (gbh : GbhState)
    (db : Db) (row : BlockFound) : Prop where
  /-- The templates pass takes a block over its tip for impossible. -/
  above : goesByTemplates (nodeOf chain service) reconcileMaxPerTick tipHeight gbh db = true →
    tipHeight < row.height →
    onChain chain row = false
  /-- The newest template over the block names it if it is on the chain, and only then. -/
  named : goesByTemplates (nodeOf chain service) reconcileMaxPerTick tipHeight gbh db = true →
    row.height ≤ tipHeight →
    ∀ hash, observed db.templates (row.height + 1) = some hash →
      (hash = row.hash ↔ onChain chain row = true)
  /-- A verdict from before that the pass leaves as it is. -/
  kept : row ∉ (answersOf (nodeOf chain service) reconcileMaxPerTick tipHeight gbh db).map
    Prod.fst →
    (goesByTemplates (nodeOf chain service) reconcileMaxPerTick tipHeight gbh db = true →
      observed db.templates (row.height + 1) = none) →
    (row.status = .confirmed → onChain chain row = true) ∧
    (row.status = .orphaned → onChain chain row = false)

instance (chain : Chain) (service : Nat → Service) (tipHeight : Int) (gbh : GbhState) (db : Db)
    (row : BlockFound) :
    Decidable (Sighted chain service tipHeight gbh db row) :=
  decidable_of_iff
    ((goesByTemplates (nodeOf chain service) reconcileMaxPerTick tipHeight gbh db = true →
      tipHeight < row.height →
        onChain chain row = false) ∧
      (goesByTemplates (nodeOf chain service) reconcileMaxPerTick tipHeight gbh db = true →
        row.height ≤ tipHeight →
        ∀ hash ∈ observed db.templates (row.height + 1),
          (hash = row.hash ↔ onChain chain row = true)) ∧
      (row ∉ (answersOf (nodeOf chain service) reconcileMaxPerTick tipHeight gbh db).map Prod.fst →
        (goesByTemplates (nodeOf chain service) reconcileMaxPerTick tipHeight gbh db = true →
          observed db.templates (row.height + 1) = none) →
        (row.status = .confirmed → onChain chain row = true) ∧
        (row.status = .orphaned → onChain chain row = false)))
    ⟨fun ⟨above, named, kept⟩ => ⟨above, named, kept⟩,
      fun ⟨above, named, kept⟩ => ⟨above, named, kept⟩⟩

/-- What the templates pass goes by for a row. -/
theorem templates_status (templates : List Template) (tipHeight : Int) {told : BlockFound}
    (positive : 0 < told.height) :
    ((impossible tipHeight (resolve templates tipHeight told)).status = .confirmed →
      told.height ≤ tipHeight ∧ (observed templates (told.height + 1) = some told.hash ∨
        observed templates (told.height + 1) = none ∧ told.status = .confirmed)) ∧
    ((impossible tipHeight (resolve templates tipHeight told)).status = .orphaned →
      tipHeight < told.height ∨
      told.height ≤ tipHeight ∧
      ((∃ hash, hash ≠ told.hash ∧ observed templates (told.height + 1) = some hash) ∨
        observed templates (told.height + 1) = none ∧ told.status = .orphaned)) := by
  obtain ⟨height, _⟩ := resolve_names templates tipHeight told
  by_cases high : tipHeight < told.height
  · refine ⟨fun confirmed => ?_, fun _ => .inl high⟩
    rw [impossible] at confirmed
    split at confirmed
    next => contradiction
    next possible =>
      exact absurd ⟨by rw [confirmed]; decide, .inr (by rw [height]; exact high)⟩ possible
  · have possible : impossible tipHeight (resolve templates tipHeight told) =
          resolve templates tipHeight told := by
      rw [impossible, if_neg]
      rintro ⟨_, low | above⟩ <;> omega
    rw [possible, resolve]
    split
    next rejected => simp [rejected]
    next alive =>
      cases seen : observed templates (told.height + 1) with
      | none =>
        constructor
        · exact fun confirmed => ⟨not_lt.mp high, .inr ⟨rfl, confirmed⟩⟩
        · exact fun orphaned => .inr ⟨not_lt.mp high, .inr ⟨rfl, orphaned⟩⟩
      | some hash =>
        dsimp only
        split
        next same =>
          constructor
          · exact fun _ => ⟨not_lt.mp high, .inl (congrArg some same)⟩
          · intro orphaned
            contradiction
        next other =>
          constructor
          · intro confirmed
            contradiction
          · exact fun _ => .inr ⟨not_lt.mp high, .inl ⟨hash, other, rfl⟩⟩

/-- A block that is judged by what is true of the chain is judged rightly. -/
theorem Sighted.status {chain : Chain} {db : Db} {row : BlockFound}
    (sighted : Sighted chain service tipHeight gbh db row)
    (distinct : (db.blocksFound.rows.map BlockFound.hash).Nodup)
    (member : row ∈ db.blocksFound.rows) (positive : 0 < row.height) :
    ((judgedAt (nodeOf chain service) reconcileMaxPerTick tipHeight gbh db row).status =
      .confirmed → onChain chain row = true) ∧
      ((judgedAt (nodeOf chain service) reconcileMaxPerTick tipHeight gbh db row).status =
        .orphaned → onChain chain row = false) := by
  obtain ⟨known, told⟩ :=
    answersOf_known (nodeOf chain service) reconcileMaxPerTick tipHeight gbh distinct
  -- what the answers leave of the row, where the templates say nothing of it
  have node : (goesByTemplates (nodeOf chain service) reconcileMaxPerTick tipHeight gbh db = true →
        observed db.templates (row.height + 1) = none) →
      (((answersOf (nodeOf chain service) reconcileMaxPerTick tipHeight gbh db).foldl
        (judgeBy tipHeight) row).status = .confirmed →
        onChain chain row = true) ∧
      (((answersOf (nodeOf chain service) reconcileMaxPerTick tipHeight gbh db).foldl
        (judgeBy tipHeight) row).status = .orphaned →
        onChain chain row = false) := by
    intro unseen
    by_cases inside : row ∈
        (answersOf (nodeOf chain service) reconcileMaxPerTick tipHeight gbh db).map Prod.fst
    · obtain ⟨reply, there, rfl⟩ := List.mem_map.mp inside
      rw [foldl_judgeBy_answered told there rfl, own_iff_onChain there]
      cases onChain chain reply.1 <;> simp
    · have apart :
        row.hash ∉ (answersOf (nodeOf chain service) reconcileMaxPerTick tipHeight gbh db).map
          fun reply => reply.1.hash := by
        intro named
        obtain ⟨reply, there, hash⟩ := List.mem_map.mp named
        have equal := List.inj_on_of_nodup_map distinct (known reply there) member hash
        exact inside (equal ▸ List.mem_map_of_mem there)
      rw [foldl_judgeBy_unanswered apart]
      exact sighted.kept inside unseen
  obtain ⟨hash, height, _⟩ := foldl_judgeBy_names tipHeight
    (answersOf (nodeOf chain service) reconcileMaxPerTick tipHeight gbh db) row
  rw [judgedAt]
  cases chosen : goesByTemplates (nodeOf chain service) reconcileMaxPerTick tipHeight gbh db with
  | false => exact node (by simp [chosen])
  | true =>
    rw [if_pos rfl]
    rw [chosen] at node
    have above := sighted.above chosen
    have named := sighted.named chosen
    obtain ⟨confirms, orphans⟩ :=
      templates_status db.templates tipHeight (positive.trans_eq height.symm)
    rw [height, hash] at confirms orphans
    constructor
    · intro confirmed
      obtain ⟨low, seen | ⟨unseen, before⟩⟩ := confirms confirmed
      · exact (named low _ seen).mp rfl
      · exact (node fun _ => unseen).1 before
    · intro orphaned
      rcases orphans orphaned with high | ⟨low, ⟨other, differs, seen⟩ | ⟨unseen, before⟩⟩
      · exact above high
      · exact Bool.eq_false_iff.mpr fun standing => differs ((named low other seen).mpr standing)
      · exact (node fun _ => unseen).2 before

/-- The node's chain, the store with what was staged in it and settled, and whether the node is
known to answer. -/
structure QueueState where
  chain : Chain
  fractions : FractionState
  gbh : GbhState

def QueueState.db (s : QueueState) : Db := s.fractions.conn.db

def QueueState.start (chain : Chain) (gbh : GbhState) : QueueState := ⟨chain, freshFractions, gbh⟩

inductive QueueEvent where
  /-- The node switches to another chain. -/
  | switch (chain : Chain)
  | template (t : Template)
  /-- The deltas of a block that is about to be recorded. -/
  | stage (hash : String) (deltas : List FractionDelta)
  | found (height : Int) (hash : String) (rewardSats feeSats : Int) (refused : Bool)
    (pplnsWindowDiff : ℚ)
  /-- `main`: the templates judge every block, the index is rebuilt and the node is asked anew. -/
  | restart (tipHeight : Int)
  | pass (service : Nat → Service) (tipHeight : Int)

/-- A statement that has nothing to do with the payout queue. -/
def QueueState.write (s : QueueState) (f : Db → Db) : QueueState :=
  { s with fractions := { s.fractions with conn := s.fractions.conn.write f } }

/-- A pass, with the blocks it settled. -/
def QueueState.pass (cfg : PassConfig) (oracle : Oracle) (s : QueueState) (service : Nat → Service)
    (tipHeight : Int) : QueueState :=
  let (gbh, conn) := reconcileBlocksPassAt cfg oracle (nodeOf s.chain service) reconcileMaxPerTick
    tipHeight s.gbh s.fractions.conn
  let judged := (settleStatusesAt (nodeOf s.chain service) reconcileMaxPerTick tipHeight s.gbh
    s.fractions.conn).2
  { s with
    gbh
    fractions := { s.fractions with
      conn
      settled := if tipHeight ≤ 0 then s.fractions.settled
        else s.fractions.settled ++ settledNow judged.db conn.db } }

def queueStep (cfg : PassConfig) (oracle : Oracle) (retentionDays : Int) (s : QueueState) :
    QueueEvent → Option QueueState
  | .switch chain => some { s with chain }
  | .template t => some (s.write (storeRecordTemplate retentionDays t))
  | .stage hash deltas =>
    (fractionStep oracle s.fractions (.stage hash deltas)).map fun fractions => { s with fractions }
  | .found height hash rewardSats feeSats refused pplnsWindowDiff =>
    if hash.toList.length ≤ hashDigits then
      let status := if refused then BlockStatus.rejected else .pending
      some (s.write (storeRecordBlock height hash rewardSats feeSats status pplnsWindowDiff))
    else none
  | .restart tipHeight =>
    some { s.write fun db => storeFinalizeBlockHashIndex
        (storeReconcileBlocksFromTemplates tipHeight db).2 with gbh := .notAsked }
  | .pass service tipHeight => some (s.pass cfg oracle service tipHeight)

/-- The block is on the node's chain, at its height. -/
def OnFinal (s : QueueState) (hash : String) : Prop :=
  ∃ row ∈ s.db.blocksFound.rows, row.hash = hash ∧ onChain s.chain row = true

instance (s : QueueState) (hash : String) : Decidable (OnFinal s hash) :=
  inferInstanceAs (Decidable (∃ row ∈ _, _ ∧ _))

/-- The sets of the staged blocks that are on the chain. -/
def chainSets (s : QueueState) : List PendingFraction :=
  s.fractions.staged.flatMap fun set => if OnFinal s set.1 then set.2 else []

/-- When every set is settled, each worker is owed what the blocks on the chain say. -/
def FollowsChain (s : QueueState) : Prop :=
  s.db.pendingFractions = [] → ∀ workerId,
  owedFraction s.db workerId = deltaOf (chainSets s) workerId

/-- No block leaves the chain after its set was added to the queue. -/
def KeepsConfirmed (s : QueueState) : QueueEvent → Prop
  | .switch chain => ∀ row ∈ s.db.blocksFound.rows, (row.hash, true) ∈ s.fractions.settled →
      onChain s.chain row = true → onChain chain row = true
  | _ => True

/-- No block comes back after its set was discarded, and no set is settled by what is not true
of the chain. -/
def KeepsDiscarded (s : QueueState) : QueueEvent → Prop
  | .switch chain => ∀ row ∈ s.db.blocksFound.rows, (row.hash, false) ∈ s.fractions.settled →
      onChain s.chain row = false → onChain chain row = false
  | .pass service tipHeight => 0 < tipHeight → ∀ row ∈ s.db.blocksFound.rows,
      row.hash ∈ s.db.pendingFractions.map PendingFraction.blockHash →
        Sighted s.chain service tipHeight s.gbh s.db row
  | _ => True

instance (s : QueueState) : (event : QueueEvent) → Decidable (KeepsConfirmed s event)
  | .switch chain => inferInstanceAs (Decidable (∀ row ∈ s.db.blocksFound.rows,
      (row.hash, true) ∈ s.fractions.settled →
      onChain s.chain row = true → onChain chain row = true))
  | .template .. | .stage .. | .found .. | .restart .. | .pass .. => .isTrue trivial

instance (s : QueueState) : (event : QueueEvent) → Decidable (KeepsDiscarded s event)
  | .switch chain => inferInstanceAs (Decidable (∀ row ∈ s.db.blocksFound.rows,
      (row.hash, false) ∈ s.fractions.settled →
      onChain s.chain row = false → onChain chain row = false))
  | .pass service tipHeight =>
    inferInstanceAs (Decidable (0 < tipHeight → ∀ row ∈ s.db.blocksFound.rows,
      row.hash ∈ s.db.pendingFractions.map PendingFraction.blockHash →
        Sighted s.chain service tipHeight s.gbh s.db row))
  | .template .. | .stage .. | .found .. | .restart .. => .isTrue trivial

structure Following (s : QueueState) : Prop where
  ledger : Ledger s.fractions
  stored : Stored s.fractions.conn
  stands : ∀ hash stood, (hash, stood) ∈ s.fractions.settled →
    ∃ row ∈ s.fractions.conn.committed.blocksFound.rows, row.hash = hash ∧
    onChain s.chain row = stood

theorem onChain_congr {row other : BlockFound} (hash : row.hash = other.hash)
    (height : row.height = other.height) (chain : Chain) :
    onChain chain row = onChain chain other := by
  rw [onChain, onChain, hash, height]

/-- The rows of `before` are still there, under their names. -/
def Carried (before after : Db) : Prop :=
  ∀ row ∈ before.blocksFound.rows, ∃ later ∈ after.blocksFound.rows, later.hash = row.hash ∧
  later.height = row.height

theorem carried_of_labels {before after : Db} (same : labels after = labels before) :
    Carried before after := by
  intro row member
  have shown : (row.hash, row.height) ∈ labels after := by
    rw [same]
    exact List.mem_map_of_mem member
  obtain ⟨later, there, equal⟩ := List.mem_map.mp shown
  exact ⟨later, there, Prod.mk.inj equal⟩

section Follow

variable {s t : QueueState}

theorem Following.db (following : Following s) : s.db = s.fractions.conn.committed :=
  following.ledger.db

theorem Following.stands_of_carried (following : Following s) {after : Db}
    (carried : Carried s.fractions.conn.committed after) {hash : String} {stood : Bool}
    (settled : (hash, stood) ∈ s.fractions.settled) :
    ∃ row ∈ after.blocksFound.rows, row.hash = hash ∧ onChain s.chain row = stood := by
  obtain ⟨row, member, named, standing⟩ := following.stands hash stood settled
  obtain ⟨later, there, hash, height⟩ := carried row member
  exact ⟨later, there, hash.trans named, (onChain_congr hash height s.chain).trans standing⟩

theorem Following.write (following : Following s) {f : Db → Db}
    (kept : ∀ db, (f db).pplnsFractions = db.pplnsFractions ∧
      (f db).pendingFractions = db.pendingFractions)
    (stored : Stored (s.fractions.conn.write f))
    (carried : Carried s.fractions.conn.committed (f s.fractions.conn.committed)) :
    Following (s.write f) := by
  obtain ⟨ledger, committed⟩ := following.ledger.write kept
  refine ⟨ledger, stored, fun hash stood settled => ?_⟩
  change ∃ row ∈ (s.fractions.conn.write f).committed.blocksFound.rows, _
  rw [committed]
  exact following.stands_of_carried carried settled

/-- Every set is settled, so the sets added to the queue are those of the chain. -/
theorem Following.applied_eq (following : Following s) (settled : s.db.pendingFractions = []) :
    applied s.fractions = chainSets s := by
  rw [applied, chainSets]
  refine List.flatMap_congr fun set member => ?_
  by_cases empty : set.2 = []
  · rw [empty, ite_self, ite_self]
  · have known : set.1 ∈ s.fractions.settled.map Prod.fst := by
      by_contra fresh
      have waiting := following.ledger.pending_of_fresh member fresh empty
      rw [← following.db, settled] at waiting
      exact List.not_mem_nil waiting
    obtain ⟨⟨hash, stood⟩, inside, same⟩ := List.mem_map.mp known
    obtain rfl : hash = set.1 := same
    obtain ⟨row, there, named, standing⟩ := following.stands _ stood inside
    cases stood with
    | true =>
      have final : OnFinal s set.1 := ⟨row, following.db ▸ there, named, standing⟩
      rw [if_pos inside, if_pos final]
    | false =>
      have unapplied : (set.1, true) ∉ s.fractions.settled := by
        intro twice
        have one := List.inj_on_of_nodup_map following.ledger.once inside twice rfl
        cases one
      have off : ¬OnFinal s set.1 := by
        rintro ⟨other, present, same, on⟩
        rw [following.db] at present
        have one :=
          List.inj_on_of_nodup_map following.stored.distinct present there (same.trans named.symm)
        rw [one, standing] at on
        contradiction
      rw [if_neg unapplied, if_neg off]

theorem Following.follows (following : Following s) : FollowsChain s := by
  intro settled workerId
  rw [← following.applied_eq settled, following.db]
  exact following.ledger.owed workerId

theorem mem_settledNow_pending {before after : Db} {hash : String} {stood : Bool}
    (member : (hash, stood) ∈ settledNow before after) :
    hash ∈ before.pendingFractions.map PendingFraction.blockHash := by
  simp only [settledNow, List.mem_filterMap, Option.map_eq_some_iff, Prod.mk.injEq] at member
  obtain ⟨_, listed, _, _, rfl, _⟩ := member
  exact List.mem_dedup.mp (List.mem_filter.mp listed).1

/-- The second half settles, and then writes neither the queue nor the staging table. -/
theorem creditSettled_settles (cfg : PassConfig) (oracle : Oracle) {f : FractionState}
    (closed : f.conn.working = none) :
    ∃ conn, fractionStep oracle f .settle =
      some { f with conn, settled := f.settled ++ settledNow f.conn.db conn.db } ∧
      (creditSettled cfg oracle f.conn).2.2.working = none ∧
      (creditSettled cfg oracle f.conn).2.2.committed.pplnsFractions =
        conn.committed.pplnsFractions ∧
      (creditSettled cfg oracle f.conn).2.2.committed.pendingFractions =
        conn.committed.pendingFractions := by
  cases settled : storeSettleBlockFractions oracle f.conn with
  | mk totals conn =>
    have whole : f.conn.Keeps Db.blocksFound f.conn.committed.blocksFound :=
      ⟨rfl, fun db opened => by rw [closed] at opened; cases opened⟩
    obtain ⟨still, _⟩ := storeSettleBlockFractions_keeps closed whole settled
    refine ⟨conn, ?_, ?_⟩
    · rw [fractionStep, settled]
    · simp only [creditSettled, settled]
      split
      · cases distributed : storePplnsDistribute oracle pplnsMaturityConfs cfg.feeBps conn with
        | mk distribution final =>
          have view : conn.Keeps (fun db => (db.pplnsFractions, db.pendingFractions))
              (conn.committed.pplnsFractions, conn.committed.pendingFractions) :=
            ⟨rfl, fun db opened => by rw [still] at opened; cases opened⟩
          obtain ⟨still, kept⟩ :=
            storePplnsDistribute_keeps (fun _ _ => rfl) (fun _ _ => rfl) still view distributed
          exact ⟨still, Prod.mk.inj kept.1⟩
      · exact ⟨still, rfl, rfl⟩

theorem settledNow_congr {before after other : Db}
    (pending : after.pendingFractions = other.pendingFractions) :
    settledNow before after = settledNow before other := by
  rw [settledNow, settledNow, pending]

/-- A set that a pass settles is settled by what is true of the chain. -/
theorem Following.fate (following : Following s)
    (sighted : KeepsDiscarded s (.pass service tipHeight)) (tip : 0 < tipHeight)
    {hash : String} {stood : Bool}
    (waited : hash ∈ s.db.pendingFractions.map PendingFraction.blockHash)
    {row : BlockFound} (member : row ∈ s.db.blocksFound.rows) (named : row.hash = hash)
    (status :
      (judgedAt (nodeOf s.chain service) reconcileMaxPerTick tipHeight s.gbh s.db row).status =
      if stood then .confirmed else .orphaned) : onChain s.chain row = stood := by
  have seen := sighted tip row member (named ▸ waited)
  rw [following.db] at seen member status
  obtain ⟨confirms, orphans⟩ :=
    seen.status following.stored.distinct member (following.stored.positive row member)
  cases stood with
  | true => exact confirms status
  | false => exact orphans status

theorem Following.pass (following : Following s)
    (reads : ∀ position, oracle (.step .settledHashes) position ≠ .rolledBack)
    (sighted : KeepsDiscarded s (.pass service tipHeight)) :
    Following (s.pass cfg oracle service tipHeight) := by
  by_cases tip : 0 < tipHeight
  · obtain ⟨closed, frame, rows⟩ := settleStatusesAt_judged following.stored
      (nodeOf s.chain service) reconcileMaxPerTick tip s.gbh
    generalize judgedConn : (settleStatusesAt (nodeOf s.chain service) reconcileMaxPerTick tipHeight
      s.gbh s.fractions.conn).2 = judged
      at closed frame rows
    have judgedLedger : Ledger { s.fractions with conn := judged } :=
      following.ledger.same closed (congrArg Db.pplnsFractions frame :)
        (congrArg Db.pendingFractions frame :)
    obtain ⟨conn, stepped, done, fractions, pending⟩ :=
      creditSettled_settles cfg oracle (f := { s.fractions with conn := judged }) closed
    obtain ⟨ledger, fates, _⟩ := fractionStep_spec reads judgedLedger stepped
    obtain ⟨_, unlatchedSame⟩ :=
      creditSettled_keeps (fun _ _ => unlatched_congr) unlatched_markDistributed cfg oracle closed
    dsimp only at done fractions pending
    have same : labels (creditSettled cfg oracle judged).2.2.committed =
          labels s.fractions.conn.committed := by
      refine (labels_unlatched unlatchedSame).trans ?_
      rw [rows, labels, List.map_map]
      apply List.map_congr_left
      intro row _
      obtain ⟨hash, height⟩ := judgedAt_names (nodeOf s.chain service) reconcileMaxPerTick tipHeight
        s.gbh s.fractions.conn.committed row
      exact Prod.ext hash height
    have now : settledNow judged.db (creditSettled cfg oracle judged).2.2.db =
          settledNow judged.db conn.db := by
      apply settledNow_congr
      rw [ledger.db, Connection.db, done, Option.getD_none, pending]
    have shape : (s.pass cfg oracle service tipHeight).fractions = { s.fractions with
        conn := (creditSettled cfg oracle judged).2.2, settled :=
          s.fractions.settled ++ settledNow judged.db conn.db } := by
      simp only [QueueState.pass, reconcileBlocksPassAt, if_neg (not_le.mpr tip), judgedConn, now]
    constructor
    · rw [shape]
      exact ledger.same done fractions pending
    · rw [shape]
      exact following.stored.of_labels done same
    · rw [shape]
      intro hash stood inside
      change ∃ row ∈ _, row.hash = hash ∧ onChain s.chain row = stood
      by_cases old : (hash, stood) ∈ s.fractions.settled
      · exact following.stands_of_carried (carried_of_labels same) old
      · obtain ⟨row, there, named, status⟩ := fates hash stood inside old
        dsimp only at there
        rw [rows] at there
        obtain ⟨before, member, rfl⟩ := List.mem_map.mp there
        have waited := mem_settledNow_pending ((List.mem_append.mp inside).resolve_left old)
        have pendingSame : judged.db.pendingFractions = s.db.pendingFractions := by
          rw [judgedLedger.db, following.db]
          exact (congrArg Db.pendingFractions frame :)
        rw [pendingSame] at waited
        have known := (judgedAt_names (nodeOf s.chain service) reconcileMaxPerTick tipHeight s.gbh
          s.fractions.conn.committed before).1
        rw [← following.db] at member named status known
        have standing := following.fate sighted tip waited member (known.symm.trans named) status
        obtain ⟨later, present, hash, height⟩ :=
          carried_of_labels same before (following.db ▸ member)
        exact ⟨later, present, hash.trans (known.symm.trans named),
          (onChain_congr hash height s.chain).trans standing⟩
  · have same : s.pass cfg oracle service tipHeight = s := by
      simp only [QueueState.pass, reconcileBlocksPassAt, if_pos (not_lt.mp tip)]
    rw [same]
    exact following

theorem carried_found (height : Int) (hash : String) (rewardSats feeSats : Int)
    (status : BlockStatus) (window : ℚ) (db : Db) :
    Carried db (storeRecordBlock height hash rewardSats feeSats status window db) := by
  intro row member
  rcases storeRecordBlock_rows height hash rewardSats feeSats status window db with
    ⟨same, _⟩ | ⟨new, rows, _⟩
  · exact ⟨row, same ▸ member, rfl, rfl⟩
  · exact ⟨row, rows ▸ List.mem_append_left _ member, rfl, rfl⟩

theorem Following.switch (following : Following s) (chain : Chain)
    (standing : KeepsConfirmed s (.switch chain))
    (gone : KeepsDiscarded s (.switch chain)) : Following { s with chain } := by
  refine ⟨following.ledger, following.stored, ?_⟩
  intro hash stood settled
  obtain ⟨row, member, rfl, on⟩ := following.stands hash stood settled
  have here : row ∈ s.db.blocksFound.rows := following.db ▸ member
  refine ⟨row, member, rfl, ?_⟩
  cases stood with
  | true => exact standing row here settled on
  | false => exact gone row here settled on

theorem Following.stage (following : Following s)
    (reads : ∀ position, oracle (.step .settledHashes) position ≠ .rolledBack)
    {hash : String} {deltas : List FractionDelta} {fractions : FractionState}
    (staged : fractionStep oracle s.fractions (.stage hash deltas) = some fractions) :
    Following { s with fractions } := by
  obtain ⟨ledger, fates, _⟩ := fractionStep_spec reads following.ledger staged
  have tables := fractionStep_chainTables reads following.ledger staged nofun
  have blocks : fractions.conn.committed.blocksFound = s.fractions.conn.committed.blocksFound :=
    (Prod.mk.inj tables).1
  have same : labels fractions.conn.committed = labels s.fractions.conn.committed := by
    rw [labels, labels, blocks]
  refine ⟨ledger, following.stored.of_labels ledger.closed same, ?_⟩
  intro hash stood settled
  have unsettled : fractions.settled = s.fractions.settled := by
    rw [fractionStep] at staged
    split at staged
    · split at staged
      · obtain rfl := Option.some.inj staged
        rfl
      · obtain rfl := Option.some.inj staged
        rfl
    · contradiction
  exact following.stands_of_carried (carried_of_labels same) (unsettled ▸ settled)

theorem Following.restart (following : Following s) (tipHeight : Int) : Following (s.write fun db =>
    storeFinalizeBlockHashIndex (storeReconcileBlocksFromTemplates tipHeight db).2) := by
  have judged := labels_of_names (names_templates tipHeight s.fractions.conn.committed)
  have rows :=
    storeFinalizeBlockHashIndex_rows (distinct_of_labels judged following.stored.distinct)
  have same : labels (storeFinalizeBlockHashIndex
    (storeReconcileBlocksFromTemplates tipHeight s.fractions.conn.committed).2) =
      labels s.fractions.conn.committed := by
    rw [← judged, labels, labels, rows]
  refine following.write (fun _ => ⟨rfl, rfl⟩) (following.stored.of_labels ?_ ?_)
    (carried_of_labels same)
  · simp only [Connection.write, following.stored.closed]
  · simp only [Connection.write, following.stored.closed]
    exact same

theorem queueStep_following (following : Following s)
    (reads : ∀ position, oracle (.step .settledHashes) position ≠ .rolledBack)
    (standing : KeepsConfirmed s event) (kept : KeepsDiscarded s event)
    (stepped : queueStep cfg oracle retentionDays s event = some t) : Following t := by
  cases event with
  | switch chain =>
    obtain rfl := Option.some.inj stepped
    exact following.switch chain standing kept
  | template row =>
    obtain rfl := Option.some.inj stepped
    refine following.write (storeRecordTemplate_queue retentionDays row)
      (following.stored.template retentionDays row)
      (carried_of_labels ?_)
    rw [labels, labels, storeRecordTemplate_blocksFound]
  | stage hash deltas =>
    obtain ⟨fractions, staged, rfl⟩ := Option.map_eq_some_iff.mp stepped
    exact following.stage reads staged
  | found height hash rewardSats feeSats refused window =>
    simp only [queueStep, Option.ite_none_right_eq_some, Option.some.injEq] at stepped
    obtain ⟨digits, rfl⟩ := stepped
    exact following.write (storeRecordBlock_queue _ _ _ _ _ _)
      (following.stored.found digits _ _ _ _ _) (carried_found _ _ _ _ _ _ _)
  | restart tipHeight =>
    obtain rfl := Option.some.inj stepped
    obtain ⟨ledger, stored, stands⟩ := following.restart tipHeight
    exact ⟨ledger, stored, stands⟩
  | pass service tipHeight =>
    obtain rfl := Option.some.inj stepped
    exact following.pass reads kept

end Follow

theorem following_start (chain : Chain) (gbh : GbhState) : Following (.start chain gbh) :=
  ⟨freshFractions_ledger, ⟨rfl, List.nodup_nil, List.forall_mem_nil _, List.forall_mem_nil _⟩,
    fun _ _ => nofun⟩

/-- In every run in which no block leaves the chain after its set was added to the queue, comes
back after it was discarded, or is settled by what is not true of the chain: whenever every set
is settled, the queue follows the chain. -/
theorem queue_follows_chain (cfg : PassConfig) (oracle : Oracle) (retentionDays : Int)
    (chain : Chain) (gbh : GbhState) (events : List QueueEvent)
    (reads : ∀ position, oracle (.step .settledHashes) position ≠ .rolledBack)
    (standing : Along (queueStep cfg oracle retentionDays) (fun s event _ => KeepsConfirmed s event)
      (.start chain gbh) events)
    (kept : Along (queueStep cfg oracle retentionDays) (fun s event _ => KeepsDiscarded s event)
      (.start chain gbh) events) :
    Along (queueStep cfg oracle retentionDays) (fun _ _ t => FollowsChain t)
      (.start chain gbh) events := by
  refine Along.of_invariant (I := Following) ?_ (following_start chain gbh) (standing.and kept)
  rintro s event t following ⟨standing, kept⟩ stepped
  have later := queueStep_following following reads standing kept stepped
  exact ⟨later, later.follows⟩

/-- A block of the pool whose coinbase paid the second worker out of the first one's share. -/
def rotation (hash : String) (height : Int) : List QueueEvent :=
  [.stage hash [⟨1, 1 / 2⟩, ⟨2, -(1 / 2)⟩], .found height hash 5000000000 0 false 0]

/-- One block is confirmed and stays, another was never on the chain. -/
def settledRun : List QueueEvent :=
  rotation "a1" 1 ++ rotation "c1" 1 ++ [.pass (fun _ => .answers) 1, .switch returnChain,
    .pass (fun _ => .fails) 3]

theorem queue_follows_chain_settled :
    ((run (queueStep ⟨false, 100⟩ .served 30) (.start firstChain .notAsked) settledRun).map fun t =>
      (t.db.pendingFractions, owedFraction t.db 1)) = some ([], 1 / 2) ∧
    Along (queueStep ⟨false, 100⟩ .served 30) (fun _ _ t => FollowsChain t)
      (.start firstChain .notAsked) settledRun := by
  obtain ⟨ran, standing, kept⟩ :
      ((run (queueStep ⟨false, 100⟩ .served 30) (.start firstChain .notAsked) settledRun).map
        fun t =>
        (t.db.pendingFractions, owedFraction t.db 1)) = some ([], 1 / 2) ∧
      Along (queueStep ⟨false, 100⟩ .served 30) (fun s event _ => KeepsConfirmed s event)
        (.start firstChain .notAsked) settledRun ∧
      Along (queueStep ⟨false, 100⟩ .served 30) (fun s event _ => KeepsDiscarded s event)
        (.start firstChain .notAsked) settledRun := by
    decide +kernel
  refine ⟨ran,
    queue_follows_chain ⟨false, 100⟩ .served 30 firstChain .notAsked settledRun ?_ standing kept⟩
  intro position served
  contradiction

/-- The chain of a block is overtaken and comes back. -/
def returnedRun : List QueueEvent :=
  rotation "a1" 1 ++ [.switch rivalChain, .pass (fun _ => .answers) 2, .switch returnChain,
    .pass (fun _ => .answers) 3]

/-- A pass for an older tip is made when the block is found, and then the tip is named. -/
def earlyRun : List QueueEvent :=
  rotation "b2" 2 ++ [.pass (fun _ => .unsupported) 1, .template (polled 1 3 "b2"),
    .pass (fun _ => .unsupported) 2]

/-- Both blocks are on the chain, and their sets were discarded. -/
theorem discarded_of_chain_block :
    (Along (queueStep ⟨false, 100⟩ .served 30) (fun s event _ => KeepsConfirmed s event)
      (.start firstChain .notAsked) returnedRun ∧
      ¬Along (queueStep ⟨false, 100⟩ .served 30) (fun _ _ t => FollowsChain t)
        (.start firstChain .notAsked) returnedRun) ∧
    Along (queueStep ⟨false, 100⟩ .served 30) (fun s event _ => KeepsConfirmed s event)
      (.start rivalChain .notAsked) earlyRun ∧
      ¬Along (queueStep ⟨false, 100⟩ .served 30) (fun _ _ t => FollowsChain t)
        (.start rivalChain .notAsked) earlyRun := by
  have first : Along (queueStep ⟨false, 100⟩ .served 30) (fun s event _ => KeepsConfirmed s event)
    (.start firstChain .notAsked) returnedRun ∧
      ¬Along (queueStep ⟨false, 100⟩ .served 30) (fun _ _ t => t.db.pendingFractions = [] →
        owedFraction t.db 1 =
          deltaOf (chainSets t) 1) (.start firstChain .notAsked) returnedRun := by
    decide +kernel
  have second : Along (queueStep ⟨false, 100⟩ .served 30) (fun s event _ => KeepsConfirmed s event)
    (.start rivalChain .notAsked) earlyRun ∧
      ¬Along (queueStep ⟨false, 100⟩ .served 30) (fun _ _ t => t.db.pendingFractions = [] →
        owedFraction t.db 1 = deltaOf (chainSets t) 1) (.start rivalChain .notAsked) earlyRun := by
    decide +kernel
  refine ⟨⟨first.1, fun along => first.2 ?_⟩, second.1, fun along => second.2 ?_⟩
  · exact along.imp fun _ _ _ _ follows settled => follows settled 1
  · exact along.imp fun _ _ _ _ follows settled => follows settled 1

end SimplePool.Reconcile
