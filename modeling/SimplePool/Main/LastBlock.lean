import SimplePool.Main.OwnWindow
import SimplePool.Reconcile.TemplateRun

/-! What the window of the first job on top of a pool block knows of that block, with a node
that does not serve getblockhash. A block is confirmed by the template that names it, and that
template is taken in only after its own job is out. -/
namespace SimplePool.Main
open Wire Coinbase Stratum Transition
open Store (Db Oracle FractionState PendingFraction PplnsWindow Ledger applied deltaOf)
open Reconcile (BlockHashReply GbhState)

/-- The node never answers with a hash. -/
def Silent (node : Int → BlockHashReply) : Prop := ∀ height hash, node height ≠ .ok hash

theorem checkCandidates_silent {node : Int → BlockHashReply} (silent : Silent node)
    (tipHeight : Int)
    (checked : Reconcile.Checked) (c : Store.Connection) (cands : List Store.BlockCandidate) :
    (Reconcile.checkCandidates node tipHeight checked c cands).2 = c := by
  cases cands with
  | nil => rfl
  | cons first rest =>
    rw [Reconcile.checkCandidates]
    split
    next => rfl
    next => rfl
    next hash answered => exact absurd answered (silent first.height hash)

theorem settleStatuses_silent {node : Int → BlockHashReply} (silent : Silent node) (tipHeight : Int)
    (gbh : GbhState)
    (c : Store.Connection) : (Reconcile.settleStatuses node tipHeight gbh c).2 = c ∨
      (Reconcile.settleStatuses node tipHeight gbh c).2 =
        c.write fun db => (Store.storeReconcileBlocksFromTemplates tipHeight db).2 := by
  have looped := checkCandidates_silent silent tipHeight ⟨false, gbh, 0⟩ c
    (Store.storeListUnresolvedBlocks tipHeight Reconcile.blockFinalDepth
      Reconcile.reconcileMaxPerTick c.db)
  rw [Reconcile.settleStatuses]
  by_cases refused : gbh = .unsupported
  · rw [if_pos refused]
    exact .inr rfl
  · rw [if_neg refused]
    dsimp only
    rw [looped]
    split
    · exact .inl rfl
    · split
      · exact .inl rfl
      · exact .inr rfl

/-- The templates, and the blocks that are confirmed, go back to tips that were taken in. -/
structure Named (named : List String) (db : Db) : Prop where
  templates : ∀ t ∈ db.templates, t.prevHash ∈ named
  confirmed : ∀ row ∈ db.blocksFound.rows, row.status = .confirmed → row.hash ∈ named

section

variable {named : List String} {db : Db}

theorem Named.congr (known : Named named db) {after : Db}
    (same : Store.chainTables after = Store.chainTables db) :
    Named named after := by
  obtain ⟨blocks, templates⟩ := Prod.mk.inj same
  constructor
  · rw [templates]
    exact known.templates
  · rw [blocks]
    exact known.confirmed

theorem Named.reconciled (known : Named named db) (tipHeight : Int) :
    Named named (Store.storeReconcileBlocksFromTemplates tipHeight db).2 where
  templates := known.templates
  confirmed := by
    intro row member confirmed
    obtain ⟨before, there, _, hash, _, seen | ⟨_, already⟩⟩ :=
      Reconcile.confirmed_by_templates member confirmed
    · obtain ⟨t, inside, _, names⟩ := Reconcile.observed_mem seen
      rw [← names]
      exact known.templates t inside
    · rw [← hash]
      exact known.confirmed before there already

theorem Named.indexed (known : Named named db) :
    Named named (Store.storeFinalizeBlockHashIndex db) where
  templates := known.templates
  confirmed := by
    intro row member confirmed
    obtain ⟨first, ⟨⟨there, _⟩, _⟩, rfl⟩ := (Store.mem_storeFinalizeBlockHashIndex db row).mp member
    rw [(Store.promote_keeps _ first).2.1]
    rw [Store.promote] at confirmed
    split at confirmed
    next pending =>
      split at confirmed
      next verdict found =>
        obtain ⟨same, ⟨inside, _⟩, _⟩ := Store.BlockTable.earliest_spec found
        rw [← same]
        exact known.confirmed verdict inside confirmed
      next => exact known.confirmed first there confirmed
    next => exact known.confirmed first there confirmed

theorem Named.recorded (known : Named named db) (retentionDays : Int) (t : Store.Template) :
    Named (t.prevHash :: named) (Store.storeRecordTemplate retentionDays t db) where
  templates := by
    intro row member
    rcases Reconcile.mem_storeRecordTemplate member with ⟨_, same⟩ | ⟨old, inside, _, same⟩
    · rw [same]
      exact List.mem_cons_self
    · rw [same]
      exact List.mem_cons_of_mem _ (known.templates old inside)
  confirmed := by
    intro row member confirmed
    rw [Store.storeRecordTemplate_blocksFound] at member
    exact List.mem_cons_of_mem _ (known.confirmed row member confirmed)

theorem Named.found (known : Named named db) (window : ℚ) (block : Stratum.BlockFound) :
    Named named (Reconcile.onBlockFoundCb window block db) where
  templates := by
    rw [Reconcile.onBlockFoundCb, Store.storeRecordBlock_templates]
    exact known.templates
  confirmed := by
    intro row member confirmed
    rw [Reconcile.onBlockFoundCb] at member
    rcases Store.storeRecordBlock_rows block.height.toInt32.toInt (text block.blockHash)
      block.rewardSats block.feeSats
      (if block.accepted then .pending else .rejected) window db with ⟨same, _⟩ | ⟨new, rows, _, _,
        _, _, status, _⟩
    · rw [same] at member
      exact known.confirmed row member confirmed
    · rw [rows] at member
      rcases List.mem_append.mp member with old | last
      · exact known.confirmed row old confirmed
      · obtain rfl := List.mem_singleton.mp last
        rw [status] at confirmed
        split at confirmed <;> contradiction

end

theorem mem_takeEntries {oracle : Oracle} {entry : Store.WindowEntry} (cap calls : Nat)
    (out rest : List Store.WindowEntry)
    (member : entry ∈ (Store.takeEntries oracle cap calls out rest).1) :
    entry ∈ out ∨ entry ∈ rest := by
  induction rest generalizing calls out with
  | nil => exact .inl member
  | cons first rest ih =>
    rw [Store.takeEntries] at member
    split_ifs at member
    · exact .inl member
    · exact .inl member
    · rcases ih _ _ member with shown | later
      · rcases List.mem_append.mp shown with old | new
        · exact .inl old
        · exact .inr (List.mem_singleton.mp new ▸ List.mem_cons_self)
      · exact .inr (List.mem_cons_of_mem _ later)

/-- Every entry carries what its worker is owed. -/
theorem storePplnsWindow_owed {oracle : Oracle} {window : PplnsWindow}
    (read : Store.storePplnsWindow oracle fuel db size cap = some (.ok window)) :
    ∀ entry ∈ window.entries, entry.owedFraction = Store.owedFraction db entry.workerId := by
  intro entry member
  rw [Store.storePplnsWindow] at read
  split at read
  · cases read
  split at read
  · cases read
  split at read
  · cases read
  split at read
  next => cases read
  next => cases read
  next walk calls walked =>
    split at read
    · cases read
    simp only [Option.some.injEq, Except.ok.injEq] at read
    subst read
    have shown := (mem_takeEntries _ _ _ _ member).resolve_left List.not_mem_nil
    rw [Store.payeesQuery, List.mem_insertionSort] at shown
    obtain ⟨w, _, group⟩ := List.mem_filterMap.mp shown
    rw [Store.windowGroup] at group
    split_ifs at group
    obtain rfl := Option.some.inj group
    rfl

structure Evident (named : List String) (s : FractionState) : Prop where
  ledger : Ledger s
  tables : Named named s.conn.committed
  settled : ∀ hash, (hash, true) ∈ s.settled → hash ∈ named

section

variable {oracle : Oracle} {named : List String} {s : FractionState}

/-- A statement that takes in what it adds. -/
theorem Evident.write (evident : Evident named s) {f : Db → Db} {more : List String}
    (wider : named ⊆ more)
    (kept : ∀ db, (f db).pplnsFractions = db.pplnsFractions ∧
      (f db).pendingFractions = db.pendingFractions)
    (tables : Named more (f s.conn.committed)) :
    Evident more { s with conn := s.conn.write f } := by
  obtain ⟨ledger, committed⟩ := evident.ledger.write kept
  refine ⟨ledger, ?_, fun hash inside => wider (evident.settled hash inside)⟩
  rw [committed]
  exact tables

/-- A block is settled as standing only if it is confirmed then. -/
theorem Evident.fraction (evident : Evident named s)
    (reads : ∀ position, oracle (.step .settledHashes) position ≠ .rolledBack)
    (stepped : Store.fractionStep oracle s event = some t)
    (still : ∀ table, event ≠ .blocks table) : Evident named t := by
  obtain ⟨ledger, fate, _⟩ := Store.fractionStep_spec reads evident.ledger stepped
  refine ⟨ledger,
    evident.tables.congr (Store.fractionStep_chainTables reads evident.ledger stepped still), ?_⟩
  intro hash inside
  by_cases old : (hash, true) ∈ s.settled
  · exact evident.settled hash old
  · obtain ⟨row, member, rfl, confirmed⟩ := fate hash true inside old
    exact evident.tables.confirmed row member confirmed

theorem Evident.judged (evident : Evident named s) {node : Int → BlockHashReply}
    (silent : Silent node) (tipHeight : Int) (gbh : GbhState) :
    Evident named { s with conn := (Reconcile.settleStatuses node tipHeight gbh s.conn).2 } := by
  rcases settleStatuses_silent silent tipHeight gbh s.conn with same | written
  · rw [same]
    exact evident
  · rw [written]
    exact evident.write (List.Subset.refl _) (fun _ => ⟨rfl, rfl⟩)
      (evident.tables.reconciled tipHeight)

end

section

variable {fp : Fpu} {oracle : Oracle} {cfg : Config} {s : Watcher}

/-- The pass settles after it judges, and distributes nothing in this mode. -/
theorem Watcher.reconcileBlocks_fractions (oracle : Oracle) (s : Watcher)
    (mode : cfg.poolMode = .pplnsCoinbase) (node : Int → BlockHashReply)
    (tipHeight : Int) : (s.reconcileBlocks oracle cfg node tipHeight).fractions = s.fractions ∨
      Store.fractionStep oracle { s.fractions with
        conn := (Reconcile.settleStatuses node tipHeight s.gbh s.fractions.conn).2 } .settle =
          some (s.reconcileBlocks oracle cfg node tipHeight).fractions := by
  have undistributed : (passConfig cfg).pplns = false := by simp [passConfig, mode]
  by_cases low : tipHeight ≤ 0
  · left
    simp only [Watcher.reconcileBlocks, Reconcile.reconcileBlocksPass, if_pos low]
  · right
    simp only [Watcher.reconcileBlocks, Reconcile.reconcileBlocksPass, if_neg low, undistributed,
      Bool.false_eq_true, if_false, Store.fractionStep]

theorem Watcher.reconcileBlocks_evident (evident : Evident s.named s.fractions)
    (mode : cfg.poolMode = .pplnsCoinbase)
    (reads : ∀ position, oracle (.step .settledHashes) position ≠ .rolledBack)
    {node : Int → BlockHashReply} (silent : Silent node) (tipHeight : Int) :
    Evident s.named (s.reconcileBlocks oracle cfg node tipHeight).fractions := by
  rcases s.reconcileBlocks_fractions oracle mode node tipHeight with same | settled
  · rw [same]
    exact evident
  · exact (evident.judged silent tipHeight s.gbh).fraction reads settled nofun

theorem Watcher.caughtUp_evident (evident : Evident s.named s.fractions)
    (mode : cfg.poolMode = .pplnsCoinbase)
    (reads : ∀ position, oracle (.step .settledHashes) position ≠ .rolledBack)
    {node : Int → BlockHashReply} (silent : Silent node) (t : BlockTemplate) :
    Evident (s.caughtUp oracle cfg t node).named (s.caughtUp oracle cfg t node).fractions := by
  rw [Watcher.caughtUp]
  split
  · exact Watcher.reconcileBlocks_evident evident mode reads silent (t.height - 1)
  · exact evident

theorem Watcher.refresh_evident (fp : Fpu) (cfg : Config) (evident : Evident s.named s.fractions)
    (t : BlockTemplate) (nowS : Int) (rate : ℚ) :
    Evident (text t.prevHashHex :: s.named) (s.refreshPpsRate fp cfg t nowS rate).fractions :=
  evident.write (List.subset_cons_self _ _) (Store.storeRecordTemplate_queue _ _)
    (evident.tables.recorded _ (templateRow fp cfg t nowS rate))

theorem Watcher.boot_evident (fp : Fpu) (cfg : Config) (evident : Evident s.named s.fractions)
    (t : BlockTemplate) (nowMs : UInt64) (nowS : Int) (rate : ℚ) :
    Evident (text t.prevHashHex :: s.named) (s.boot fp cfg t nowMs nowS rate).fractions := by
  have indexed := evident.write (f := fun db =>
    Store.storeFinalizeBlockHashIndex (Store.storeReconcileBlocksFromTemplates (t.height - 1) db).2)
      (List.Subset.refl _)
    (fun _ => ⟨rfl, rfl⟩) (evident.tables.reconciled (t.height - 1)).indexed
  exact indexed.write (List.subset_cons_self _ _) (Store.storeRecordTemplate_queue _ _)
    (indexed.tables.recorded _ (templateRow fp cfg t nowS rate))

/-- No poll is answered with a hash. -/
def WatcherEvent.Unserved : WatcherEvent → Prop
  | .poll _ node _ _ => Silent node
  | _ => True

theorem Watcher.step_evident {after : Watcher} (evident : Evident s.named s.fractions)
    (mode : cfg.poolMode = .pplnsCoinbase)
    (reads : ∀ position, oracle (.step .settledHashes) position ≠ .rolledBack)
    (unserved : event.Unserved)
    (stepped : s.step fp oracle cfg event = some after) : Evident after.named after.fractions := by
  cases event with
  | start t nowMs mono nowS rate =>
    have booted := Watcher.boot_evident fp cfg evident t nowMs nowS rate
    simp only [Watcher.step] at stepped
    split at stepped
    next => contradiction
    next =>
      split at stepped
      next built made =>
        obtain rfl := Option.some.inj stepped
        obtain ⟨before, _⟩ := Watcher.build_spec made
        change Evident built.before.named built.before.fractions
        rw [before]
        exact booted
      next =>
        obtain rfl := Option.some.inj stepped
        exact booted
  | poll t node nowMs mono =>
    have caught := Watcher.caughtUp_evident evident mode reads unserved t
    simp only [Watcher.step] at stepped
    split_ifs at stepped
    split at stepped
    next built made =>
      obtain rfl := Option.some.inj stepped
      rw [Watcher.publishes] at made
      split_ifs at made
      obtain ⟨before, _⟩ := Watcher.build_spec made
      change Evident built.before.named built.before.fractions
      rw [before]
      exact caught
    next =>
      obtain rfl := Option.some.inj stepped
      exact caught
  | refresh nowMs nowS rate =>
    obtain ⟨t, _, rfl⟩ := Option.map_eq_some_iff.mp stepped
    exact Watcher.refresh_evident fp cfg evident t nowS rate
  | stage hash deltas =>
    obtain ⟨fractions, staged, rfl⟩ := Option.map_eq_some_iff.mp stepped
    exact evident.fraction reads staged fun _ same => by cases same
  | found jobId block =>
    simp only [Watcher.step] at stepped
    split at stepped
    next => contradiction
    next =>
      split_ifs at stepped
      obtain rfl := Option.some.inj stepped
      exact evident.write (List.Subset.refl _) (Store.storeRecordBlock_queue _ _ _ _ _ _)
        (evident.tables.found _ _)
  | shares workers table =>
    obtain rfl := Option.some.inj stepped
    exact evident.write (List.Subset.refl _) (fun _ => ⟨rfl, rfl⟩)
      ⟨evident.tables.templates, evident.tables.confirmed⟩

/-- The rows that were staged for a block. -/
def stagedFor (s : FractionState) (hash : String) : List PendingFraction :=
  (s.staged.filter fun set => set.1 = hash).flatMap Prod.snd

/-- The window reads what the settled blocks say, and the block is one of them. -/
structure Informed (s : FractionState) (hash : String) (window : PplnsWindow) : Prop where
  read : ∀ entry ∈ window.entries, entry.owedFraction = deltaOf (applied s) entry.workerId
  included : ∀ row ∈ stagedFor s hash, row ∈ applied s

theorem Evident.informed_iff {named : List String} {s : FractionState} {window : PplnsWindow}
    (evident : Evident named s) {hash : String} (first : hash ∉ named)
    (read : Store.storePplnsWindow oracle fuel s.conn.db size cap = some (.ok window)) :
    Informed s hash window ↔ stagedFor s hash = [] := by
  constructor
  · intro informed
    rw [List.eq_nil_iff_forall_not_mem]
    intro row member
    obtain ⟨set, inside, staged⟩ := List.mem_flatMap.mp (informed.included row member)
    obtain ⟨own, there, shown⟩ := List.mem_flatMap.mp member
    obtain ⟨there, named⟩ := List.mem_filter.mp there
    split at staged
    next stood =>
      have same : set.1 = hash := by
        rw [← evident.ledger.marked set inside row staged,
          evident.ledger.marked own there row shown]
        exact of_decide_eq_true named
      exact first (evident.settled hash (same ▸ stood))
    next => exact absurd staged List.not_mem_nil
  · intro nothing
    refine ⟨?_, ?_⟩
    · intro entry member
      rw [storePplnsWindow_owed read entry member, evident.ledger.db]
      exact evident.ledger.owed entry.workerId
    · rw [nothing]
      exact List.forall_mem_nil _

theorem Watcher.caughtUp_staged (oracle : Oracle) (cfg : Config) (s : Watcher) (t : BlockTemplate)
    (node : Int → BlockHashReply) :
    (s.caughtUp oracle cfg t node).named = s.named ∧
    (s.caughtUp oracle cfg t node).fractions.staged = s.fractions.staged := by
  rw [Watcher.caughtUp]
  split <;> exact ⟨rfl, rfl⟩

theorem Watcher.informed_iff {built : Built} (evident : Evident s.named s.fractions)
    (mode : cfg.poolMode = .pplnsCoinbase)
    (reads : ∀ position, oracle (.step .settledHashes) position ≠ .rolledBack)
    {node : Int → BlockHashReply} (silent : Silent node)
    (made : s.publishes fp oracle cfg (.poll t node nowMs mono) = some built)
    (attached : built.reading = some reading) {hash : String} (first : hash ∉ s.named) :
    Informed built.before.fractions hash reading.window ↔ stagedFor s.fractions hash = [] := by
  rw [Watcher.publishes] at made
  split_ifs at made
  obtain ⟨before, _, read⟩ := Watcher.build_spec made
  obtain ⟨_, _, _, window⟩ := read reading attached
  obtain ⟨named, staged⟩ := s.caughtUp_staged oracle cfg t node
  have caught := Watcher.caughtUp_evident evident mode reads silent t
  rw [named] at caught
  rw [before, caught.informed_iff first window, stagedFor, stagedFor, staged]

theorem fresh_evident : Evident Watcher.fresh.named Watcher.fresh.fractions :=
  ⟨Store.freshFractions_ledger, ⟨List.forall_mem_nil _, List.forall_mem_nil _⟩,
    fun _ => False.elim ∘ List.not_mem_nil⟩

/-- In every run with a node that does not serve getblockhash: the window of the first job on
top of a block knows what the block did to the payout queue exactly when it did nothing. -/
theorem last_block_known_iff (fp : Fpu) (oracle : Oracle) (cfg : Config)
    (events : List WatcherEvent) (mode : cfg.poolMode = .pplnsCoinbase)
    (reads : ∀ position, oracle (.step .settledHashes) position ≠ .rolledBack)
    (unserved : ∀ event ∈ events, event.Unserved) :
    Along (Watcher.step fp oracle cfg) (fun s event _ => ∀ t node nowMs mono built reading,
      event = .poll t node nowMs mono →
      s.publishes fp oracle cfg event = some built → built.reading = some reading →
      text t.prevHashHex ∉ s.named →
      (Informed built.before.fractions (text t.prevHashHex) reading.window ↔
        stagedFor s.fractions (text t.prevHashHex) = []))
      .fresh events := by
  have silent :
      Along (Watcher.step fp oracle cfg) (fun _ event _ => event.Unserved) .fresh events :=
    (Along.always (I := fun _ => True) (P := fun _ _ _ => True) (fun _ _ _ _ _ =>
      ⟨trivial, trivial⟩) trivial).imp
      fun _ event _ member _ => unserved event member
  refine Along.of_invariant (I := fun s => Evident s.named s.fractions) ?_ fresh_evident silent
  intro s event after evident unheard stepped
  refine ⟨Watcher.step_evident evident mode reads unheard stepped, ?_⟩
  rintro t node nowMs mono built reading rfl made attached first
  exact Watcher.informed_iff evident mode reads unheard made attached first

end

/-- The name that the template after `mined` gives to its tip. -/
def tipName : Bytes := List.replicate 64 0x31

/-- A block on the first job, which paid the second worker out of the first one's share. -/
def minedBlock : List WatcherEvent :=
  [.stage (text tipName) [⟨1, 1 / 2⟩, ⟨2, -(1 / 2)⟩],
    .found (some (hexText 1)) ⟨[], [], 3, 100, tipName, 5000000000, 0, true, ""⟩]

theorem last_block_known_iff_mined :
    (run (Watcher.step .exact .served (plainConfig .pplnsCoinbase)) .fresh
      (mined ++ minedBlock ++ [advance easyTarget])).isSome ∧
    Along (Watcher.step .exact .served (plainConfig .pplnsCoinbase))
      (fun s event _ => ∀ t node nowMs mono built reading,
      event = .poll t node nowMs mono →
      s.publishes .exact .served (plainConfig .pplnsCoinbase) event = some built →
      built.reading = some reading → text t.prevHashHex ∉ s.named →
      (Informed built.before.fractions (text t.prevHashHex) reading.window ↔
        stagedFor s.fractions (text t.prevHashHex) = []))
      .fresh (mined ++ minedBlock ++ [advance easyTarget]) := by
  refine ⟨by
    decide +kernel, last_block_known_iff .exact .served (plainConfig .pplnsCoinbase) _ rfl ?_ ?_⟩
  · intro position served
    contradiction
  · intro event member
    simp only [mined, minedBlock, List.cons_append, List.nil_append, List.mem_cons,
      List.not_mem_nil, or_false] at member
    rcases member with rfl | rfl | rfl | rfl | rfl
    · trivial
    · trivial
    · trivial
    · trivial
    · intro height hash answered
      contradiction

/-- The job on top of the block is split as if the block had not been found: the first worker
is owed half a reward, and the window reads nothing. -/
theorem last_block_unknown :
    ¬Along (Watcher.step .exact .served (plainConfig .pplnsCoinbase))
      (fun s event _ => ∀ t node nowMs mono built reading,
      event = .poll t node nowMs mono →
      s.publishes .exact .served (plainConfig .pplnsCoinbase) event = some built →
      built.reading = some reading → text t.prevHashHex ∉ s.named →
      Informed built.before.fractions (text t.prevHashHex) reading.window)
      .fresh (mined ++ minedBlock ++ [advance easyTarget]) := by
  intro along
  have ended : ∃ s ∈ run (Watcher.step .exact .served (plainConfig .pplnsCoinbase)) .fresh
    (mined ++ minedBlock),
      (s.step .exact .served (plainConfig .pplnsCoinbase) (advance easyTarget)).isSome ∧
      text tipName ∉ s.named ∧
      ∃ built ∈ s.publishes .exact .served (plainConfig .pplnsCoinbase) (advance easyTarget),
        ∃ reading ∈ built.reading,
        (⟨1, "tb1qw508d6qejxtdg4y5r3zarvary0c5xw7kxpjzsx", 1, 0⟩ : Store.WindowEntry) ∈
          reading.window.entries ∧
        ∃ row ∈ stagedFor built.before.fractions (text tipName),
          row ∉ applied built.before.fractions := by
    decide +kernel
  obtain ⟨s, ran, steps, first, built, made, reading, attached, _, row, staged, apart⟩ := ended
  obtain ⟨after, stepped⟩ := Option.isSome_iff_exists.mp steps
  obtain ⟨informed, _⟩ := along.after ran after stepped
  exact apart ((informed _ _ _ _ built reading rfl made attached first).included row staged)

end SimplePool.Main
