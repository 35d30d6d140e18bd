import SimplePool.Bitcoind.Rpc
import SimplePool.Lib.Transition
import SimplePool.Reconcile.Verdicts
import SimplePool.Stratum.Acceptance
import SimplePool.Stratum.Server

/-! Which blocks end up `rejected`. The status is written once, from the node's answer to
submitblock, and no later pass writes it or takes it back. -/
namespace SimplePool.Reconcile
open Store Transition Wire Bitcoind

/-- `on_block_cb`. -/
def onBlockCb (client : Option (Bytes → Exchange)) (blockHex : Bytes) : Except String Unit :=
  match client with
  | none => .error "no bitcoind client"
  | some send =>
    match submitBlock (send blockHex) with
    | .ok () => .ok ()
    | .error failure => .error failure.message

/-- `on_block_found_cb`. -/
def onBlockFoundCb (pplnsWindowDiff : ℚ) (block : Stratum.BlockFound) : Db → Db :=
  storeRecordBlock block.height.toInt32.toInt (Coinbase.text block.blockHash) block.rewardSats
    block.feeSats
    (if block.accepted then .pending else .rejected) pplnsWindowDiff

/-- What no pass changes: the rows in their order, with their names, and which of them
are rejected. -/
def names (db : Db) : List (String × Int × Bool) :=
  db.blocksFound.rows.map fun row => (row.hash, row.height, decide (row.status = .rejected))

theorem names_update (t : BlockTable) (f : BlockFound → BlockFound)
    (key : ∀ row, (f row).id = row.id)
    (kept : ∀ row ∈ t.rows, (f row).hash = row.hash ∧ (f row).height = row.height ∧
      ((f row).status = .rejected ↔ row.status = .rejected)) (db : Db) (here : db.blocksFound = t) :
    names { db with blocksFound := t.update f key } = names db := by
  subst here
  simp only [names, BlockTable.update, List.map_map]
  apply List.map_congr_left
  intro row member
  obtain ⟨hash, height, status⟩ := kept row member
  simp only [Function.comp, hash, height, status]

theorem resolve_rejected (templates : List Template) (tipHeight : Int) (row : BlockFound) :
    (resolve templates tipHeight row).status = .rejected ↔ row.status = .rejected := by
  simp only [resolve]
  split
  next rejected => rfl
  next alive =>
    split
    next => rfl
    next => split <;> simp [alive]

theorem impossible_rejected (tipHeight : Int) (row : BlockFound) :
    (impossible tipHeight row).status = .rejected ↔ row.status = .rejected := by
  simp only [impossible]
  split
  next alive => simp [alive.1]
  next => rfl

theorem names_templates (tipHeight : Int) (db : Db) :
    names (storeReconcileBlocksFromTemplates tipHeight db).2 = names db := by
  have resolved : names { db with
    blocksFound := db.blocksFound.update (resolve db.templates tipHeight) (resolve_id _ _) } =
      names db := by
    refine names_update db.blocksFound _ _ (fun row _ => ?_) db rfl
    obtain ⟨height, hash⟩ := resolve_names db.templates tipHeight row
    exact ⟨hash, height, resolve_rejected db.templates tipHeight row⟩
  rw [storeReconcileBlocksFromTemplates]
  dsimp only
  split_ifs
  · rw [← resolved]
    refine names_update _ _ _ (fun row _ => ?_) { db with
      blocksFound := db.blocksFound.update _ (resolve_id _ _) } rfl
    obtain ⟨hash, height⟩ := impossible_names tipHeight row
    exact ⟨hash, height, impossible_rejected tipHeight row⟩
  · exact resolved

/-- No rejected row has this hash. -/
def Alive (hash : String) (db : Db) : Prop :=
  ∀ row ∈ db.blocksFound.rows, row.hash = hash → row.status ≠ .rejected

theorem alive_congr {hash : String} (same : names db' = names db) (alive : Alive hash db) :
    Alive hash db' := by
  intro row member named rejected
  have shown : (row.hash, row.height, true) ∈ names db := by
    rw [← same]
    exact List.mem_map.mpr ⟨row, member, by simp [rejected]⟩
  obtain ⟨old, known, equal⟩ := List.mem_map.mp shown
  simp only [Prod.mk.injEq, decide_eq_true_eq] at equal
  exact alive old known (equal.1.trans named) equal.2.2

theorem names_setBlockStatus {hash : String} {status : BlockStatus} (alive : Alive hash db)
    (verdict : status ≠ .rejected) (confirmations : Int) (via : Option CheckedVia) :
    names (storeSetBlockStatus hash status confirmations via db) = names db := by
  refine names_update db.blocksFound _ _ (fun row member => ?_) db rfl
  split
  next same => exact ⟨rfl, rfl, iff_of_false verdict (alive row member same)⟩
  next => exact ⟨rfl, rfl, Iff.rfl⟩

/-- Whatever the node answers. -/
theorem checkCandidates_names (getBlockHash : Int → BlockHashReply) (tipHeight : Int)
    (cands : List BlockCandidate) (checked : Checked) {c : Connection} (closed : c.working = none)
    (alive : ∀ cand ∈ cands, Alive cand.hash c.committed) :
    (checkCandidates getBlockHash tipHeight checked c cands).2.working = none ∧
      names (checkCandidates getBlockHash tipHeight checked c cands).2.committed =
        names c.committed := by
  induction cands generalizing checked c with
  | nil => exact ⟨closed, rfl⟩
  | cons cand rest ih =>
    rw [checkCandidates]
    split
    next => exact ⟨closed, rfl⟩
    next => exact ⟨closed, rfl⟩
    next have_ _ =>
      dsimp only
      have verdict : (if sameHash (buffer 80 have_) cand.hash then BlockStatus.confirmed
          else .orphaned) ≠ .rejected := by
        split <;> decide
      generalize (if sameHash (buffer 80 have_) cand.hash then BlockStatus.confirmed
        else .orphaned) = status at verdict ⊢
      generalize (if sameHash (buffer 80 have_) cand.hash then tipHeight - cand.height + 1 else 0) =
          confirmations
      have written :
        (c.write (storeSetBlockStatus cand.hash status confirmations (some .node))).working = none ∧
          names (c.write (storeSetBlockStatus cand.hash status confirmations
            (some .node))).committed = names c.committed := by
        simp only [Connection.write, closed, true_and]
        exact names_setBlockStatus (alive cand List.mem_cons_self) verdict _ _
      obtain ⟨still, same⟩ :=
        ih { checked with gbh := .serves, checkedViaNode := checked.checkedViaNode + 1 } written.1
        fun other member => alive_congr written.2 (alive other (List.mem_cons_of_mem _ member))
      exact ⟨still, same.trans written.2⟩

/-- The rows the node is asked about are pending or confirmed. -/
theorem candidates_alive {c : Connection} (stored : Stored c) (tipHeight finalDepth : Int)
    (cap : Nat) :
    ∀ cand ∈ storeListUnresolvedBlocks tipHeight finalDepth cap c.committed,
      Alive cand.hash c.committed := by
  intro cand member row known named rejected
  obtain ⟨asked, listed, rfl⟩ := List.mem_map.mp member
  obtain ⟨inside, unsettled⟩ :=
    List.mem_filter.mp ((List.mem_insertionSort _).mp (List.mem_of_mem_take listed))
  rw [buffer_eq (lt_of_le_of_lt (stored.sized asked inside) (by decide))] at named
  have same : row = asked := List.inj_on_of_nodup_map stored.distinct known inside named
  rw [← same] at unsettled
  simp [unresolved, rejected] at unsettled

theorem settleStatuses_names (getBlockHash : Int → BlockHashReply) (tipHeight : Int)
    (gbh : GbhState) {c : Connection}
    (stored : Stored c) : (settleStatuses getBlockHash tipHeight gbh c).2.working = none ∧
      names (settleStatuses getBlockHash tipHeight gbh c).2.committed = names c.committed := by
  have templates : ∀ before :
    Connection, before.working = none → names before.committed = names c.committed →
      (before.write fun db => (storeReconcileBlocksFromTemplates tipHeight db).2).working = none ∧
      names (before.write fun db => (storeReconcileBlocksFromTemplates tipHeight db).2).committed =
        names c.committed := by
    intro before closed same
    simp only [Connection.write, closed, true_and]
    rw [names_templates, same]
  have looped := checkCandidates_names getBlockHash tipHeight
    (storeListUnresolvedBlocks tipHeight blockFinalDepth reconcileMaxPerTick c.committed)
      ⟨false, gbh, 0⟩ stored.closed
    (candidates_alive stored tipHeight blockFinalDepth reconcileMaxPerTick)
  rw [settleStatuses]
  dsimp only
  rw [stored.db]
  split_ifs
  · contradiction
  · exact templates c stored.closed rfl
  · exact looped
  · exact templates _ looped.1 looped.2
  · exact looped
  · exact templates _ looped.1 looped.2

theorem names_markDistributed (blockId : Nat) (db : Db) :
    names (markDistributed blockId db) = names db := by
  refine names_update db.blocksFound _ _ (fun row _ => ?_) db rfl
  split <;> exact ⟨rfl, rfl, Iff.rfl⟩

theorem names_congr {db db' : Db} (same : db.blocksFound = db'.blocksFound) :
    names db = names db' := by
  rw [names, names, same]

/-- Whatever the node answers, and whichever statements fail. -/
theorem reconcileBlocksPass_names {c after : Connection} (stored : Stored c)
    (ran : reconcileBlocksPass cfg oracle getBlockHash tipHeight gbh c = (result, gbh', after)) :
    after.working = none ∧ names after.committed = names c.committed := by
  by_cases tip : 0 < tipHeight
  · have halves := reconcileBlocksPass_halves cfg oracle getBlockHash gbh c tip
    rw [ran, Prod.mk.injEq] at halves
    obtain ⟨_, rfl⟩ := halves
    obtain ⟨still, same⟩ := settleStatuses_names getBlockHash tipHeight gbh stored
    obtain ⟨closed, kept⟩ :=
      creditSettled_keeps (fun _ _ => names_congr) names_markDistributed cfg oracle still
    exact ⟨closed, kept.trans same⟩
  · rw [reconcileBlocksPass, if_pos (not_lt.mp tip), Prod.mk.injEq, Prod.mk.injEq] at ran
    obtain ⟨_, _, rfl⟩ := ran
    exact ⟨stored.closed, rfl⟩

theorem labels_of_names {db db' : Db} (same : names db = names db') : labels db = labels db' := by
  have shown := congrArg (List.map fun entry : String × Int × Bool => (entry.1, entry.2.1)) same
  simpa only [names, labels, List.map_map, Function.comp_def] using shown

theorem Stored.of_names {c after : Connection} (stored : Stored c) (closed : after.working = none)
    (same : names after.committed = names c.committed) : Stored after :=
  stored.of_labels closed (labels_of_names same)

/-- What is written to the database after a block was recorded. -/
inductive LaterEvent where
  | found (height : Int) (hash : String) (rewardSats feeSats : Int) (status : BlockStatus)
    (pplnsWindowDiff : ℚ)
  | template (t : Template)
  | pass (getBlockHash : Int → BlockHashReply) (tipHeight : Int)

structure StoreState where
  conn : Connection
  gbh : GbhState

def laterStep (cfg : PassConfig) (oracle : Oracle) (retentionDays : Int) (s : StoreState) :
    LaterEvent → Option StoreState
  | .found height hash rewardSats feeSats status pplnsWindowDiff =>
    if hash.toList.length ≤ hashDigits then
      some { s with conn := s.conn.write (storeRecordBlock height hash rewardSats feeSats status
          pplnsWindowDiff) }
    else none
  | .template t => some { s with conn := s.conn.write (storeRecordTemplate retentionDays t) }
  | .pass getBlockHash tipHeight =>
    let (_, gbh, conn) := reconcileBlocksPass cfg oracle getBlockHash tipHeight s.gbh s.conn
    some ⟨conn, gbh⟩

/-- Whatever is written later, the rows there are keep their names, and stay rejected or
not. -/
theorem laterStep_kept {s t : StoreState} (stored : Stored s.conn)
    (stepped : laterStep cfg oracle retentionDays s e = some t) :
    Stored t.conn ∧ names s.conn.committed ⊆ names t.conn.committed := by
  cases e with
  | found height hash rewardSats feeSats status window =>
    simp only [laterStep, Option.ite_none_right_eq_some, Option.some.injEq] at stepped
    obtain ⟨digits, rfl⟩ := stepped
    refine ⟨stored.found digits _ _ _ _ _, ?_⟩
    simp only [Connection.write, stored.closed]
    rcases storeRecordBlock_rows height hash rewardSats feeSats status window s.conn.committed with
      ⟨same, _⟩ | ⟨row, rows, _⟩
    · rw [names, names, same]
      exact List.Subset.refl _
    · rw [names, names, rows, List.map_append]
      exact List.subset_append_left _ _
  | template t =>
    obtain rfl := Option.some.inj stepped
    refine ⟨stored.template retentionDays t, ?_⟩
    simp only [Connection.write, stored.closed, names, storeRecordTemplate_blocksFound]
    exact List.Subset.refl _
  | pass getBlockHash tipHeight =>
    cases ran : reconcileBlocksPass cfg oracle getBlockHash tipHeight s.gbh s.conn with
    | mk result rest =>
      obtain ⟨gbh, after⟩ := rest
      simp only [laterStep, ran, Option.some.injEq] at stepped
      subst stepped
      obtain ⟨closed, same⟩ := reconcileBlocksPass_names stored ran
      refine ⟨stored.of_names closed same, ?_⟩
      rw [same]
      exact List.Subset.refl _

theorem run_kept {s t : StoreState} (stored : Stored s.conn)
    (ran : run (laterStep cfg oracle retentionDays) s events = some t) :
    Stored t.conn ∧ names s.conn.committed ⊆ names t.conn.committed := by
  induction events generalizing s with
  | nil =>
    obtain rfl := Option.some.inj ran
    exact ⟨stored, List.Subset.refl _⟩
  | cons e rest ih =>
    obtain ⟨next, stepped, later⟩ := Option.bind_eq_some_iff.mp ran
    obtain ⟨stored, kept⟩ := laterStep_kept stored stepped
    obtain ⟨stored, more⟩ := ih stored later
    exact ⟨stored, List.Subset.trans kept more⟩

/-- The node took the block, and the pool does not hear that it did. -/
def Unheard : NodeBehaviour → Bool
  | .acceptsUnheard _ | .duplicate | .inconclusive => true
  | .accepts | .refuses _ _ | .unreached _ => false

/-- The block went out to the node. -/
def Sent (o : Stratum.Outcome) : Bool :=
  o.observed.any fun
    | .block _ => true
    | _ => false

/-- The job that is submitted for has transactions that can be put into a block. -/
def Assembles (server : Stratum.Server) (params : Stratum.Json) : Prop :=
  ∃ sub job, params.submission = some sub ∧ Stratum.findJob server.jobs sub.jobId = some job ∧
    (job.txHexList.mapM Coinbase.hexPairs).isSome = true

/-- The pool, with a client whose node behaves like this. -/
def withNode (behaviour : NodeBehaviour) (env : Stratum.Env) : Stratum.Env :=
  { env with onBlock := onBlockCb (some fun _ => behaviour.exchange) }

/-- The block's row says rejected. -/
def Rejected (hash : String) (db : Db) : Prop :=
  ∃ row ∈ db.blocksFound.rows, row.hash = hash ∧ row.status = .rejected

instance (hash : String) (db : Db) : Decidable (Rejected hash db) :=
  inferInstanceAs (Decidable (∃ row ∈ db.blocksFound.rows, row.hash = hash ∧
    row.status = .rejected))

/-- The pool cannot tell that the node has the block: a row of the hash was rejected
before, or there is none yet and the node's answer is lost or is not the plain one. -/
def Misread (db : Db) (hash : String) (behaviour : NodeBehaviour) : Prop :=
  if hash ∈ db.blocksFound.rows.map BlockFound.hash then behaviour.took = true ∧ Rejected hash db
  else Unheard behaviour = true

theorem onBlockCb_ok_iff (behaviour : NodeBehaviour) (hex : Bytes) :
    onBlockCb (some fun _ => behaviour.exchange) hex = .ok () ↔ behaviour = .accepts := by
  rw [← submitBlock_ok_iff, onBlockCb]
  cases submitBlock behaviour.exchange with
  | ok => simp
  | error => simp

theorem submitBlock_accepted (behaviour : NodeBehaviour) (env : Stratum.Env)
    (blockHex : Option Bytes) :
    (Stratum.submitBlock (withNode behaviour env) blockHex).1 = true ↔
      blockHex.isSome = true ∧ behaviour = .accepts := by
  cases blockHex with
  | none => simp [Stratum.submitBlock]
  | some hex =>
    have answer := onBlockCb_ok_iff behaviour hex
    rw [Stratum.submitBlock]
    simp only [withNode, Option.isSome_some, true_and]
    rw [← answer]
    cases onBlockCb (some fun _ => behaviour.exchange) hex with
    | ok => simp
    | error => simp

/-- What the credit of a block puts out before it and after it. -/
theorem credit_block {hash : Bytes} {verdict : Stratum.Verdict} {block : Stratum.BlockFound}
    (found : .blockFound block ∈
      (Stratum.credit fp env s c job coinbase header hash verdict).observed) :
    Stratum.blockFound env s.cfg c job hash (Stratum.assembleBlockHex job coinbase header) =
      .ok block ∧ Sent (Stratum.credit fp env s c job coinbase header hash verdict) =
        (Stratum.assembleBlockHex job coinbase header).isSome := by
  simp only [Stratum.credit] at found
  split_ifs at found with isBlock
  · have reported : Stratum.blockFound env s.cfg c job hash
        (Stratum.assembleBlockHex job coinbase header) = .ok block := by
      simpa [Stratum.reportBlock_blockFound] using found
    refine ⟨reported, ?_⟩
    cases assembled : Stratum.assembleBlockHex job coinbase header with
    | none =>
      rw [assembled] at reported
      simp [Sent, Stratum.credit, isBlock, assembled, reported, Stratum.reportBlock]
    | some hex =>
      rw [assembled] at reported
      simp [Sent, Stratum.credit, isBlock, assembled, reported, Stratum.reportBlock]
  · simp at found

/-- A block that a submit reports is named by its hash. It went out if it could be
assembled, and is accepted exactly when the node then said that it took it. -/
theorem handleSubmit_blockFound {behaviour : NodeBehaviour} {block : Stratum.BlockFound}
    (found : .blockFound block ∈
      (Stratum.handleSubmit fp (withNode behaviour env) s c params).observed) :
    (∃ header, block.blockHash = Coinbase.hexEncode (Stratum.hashHeader header)) ∧
      (Sent (Stratum.handleSubmit fp (withNode behaviour env) s c params) = true ↔
        Assembles s params) ∧
      (block.accepted = true ↔ Sent (Stratum.handleSubmit fp (withNode behaviour env) s c params) =
        true ∧ behaviour = .accepts) := by
  rcases Stratum.handleSubmit_cases fp (withNode behaviour env) s c params with
    ⟨w, r, reaches, rendered, done⟩ | ⟨_, unhashed⟩
  · rw [done] at found ⊢
    rcases Stratum.submitHash_cases rendered fp (withNode behaviour env) s with
      ⟨_, out⟩ | ⟨_, ⟨_, out⟩ | ⟨verdict, _, out⟩⟩
    · simp [out, Stratum.refuseObserved] at found
    · simp [out, Stratum.refuseObserved] at found
    · rw [out] at found ⊢
      obtain ⟨reported, sent⟩ := credit_block found
      obtain ⟨_, _, rfl⟩ := Stratum.blockFound_ok reported
      rw [sent]
      refine ⟨⟨_, rfl⟩, ?_, submitBlock_accepted behaviour env _⟩
      rw [Stratum.assembleBlockHex, Option.isSome_map]
      constructor
      · intro assembled
        exact ⟨w.sub, w.job, reaches.submission, reaches.job, assembled⟩
      · rintro ⟨sub, job, submission, here, assembled⟩
        obtain rfl := Option.some.inj (reaches.submission.symm.trans submission)
        obtain rfl := Option.some.inj (reaches.job.symm.trans here)
        exact assembled
  · exact absurd found (unhashed.unfound block)

theorem text_hash_length (header : Bytes) :
    (Coinbase.text (Coinbase.hexEncode (Stratum.hashHeader header))).toList.length =
      hashDigits := by
  have bytes : ∀ xs : Bytes, (Coinbase.hexEncode xs).length = 2 * xs.length := by
    intro xs
    simp [Coinbase.hexEncode, List.length_flatMap, mul_comm]
  simp [Coinbase.text, bytes, Stratum.hashHeader_length, hashDigits]

/-- In a stored database the entry of a hash tells whether its row is rejected. -/
theorem rejected_iff {hash : String} (stored : Stored c)
    (entry : (hash, height, rejected) ∈ names c.committed) :
    Rejected hash c.committed ↔ rejected = true := by
  obtain ⟨row, member, equal⟩ := List.mem_map.mp entry
  simp only [Prod.mk.injEq] at equal
  obtain ⟨named, _, rfl⟩ := equal
  rw [decide_eq_true_eq]
  constructor
  · rintro ⟨other, known, same, status⟩
    have one : other = row :=
      List.inj_on_of_nodup_map stored.distinct known member (same.trans named.symm)
    exact one ▸ status
  · intro status
    exact ⟨row, member, named, status⟩

theorem entry_of_hash {hash : String} {db : Db}
    (known : hash ∈ db.blocksFound.rows.map BlockFound.hash) :
    ∃ height rejected, (hash, height, rejected) ∈ names db := by
  obtain ⟨row, member, rfl⟩ := List.mem_map.mp known
  exact ⟨_, _, List.mem_map.mpr ⟨row, member, rfl⟩⟩

/-- The row that a reported block has once it is recorded: the old one, or one that is
rejected unless the block was accepted. -/
theorem onBlockFoundCb_rejected {block : Stratum.BlockFound} (window : ℚ) (db : Db)
    (digits : (Coinbase.text block.blockHash).toList.length ≤ hashDigits)
    (recorded : Coinbase.text block.blockHash ∈
      (onBlockFoundCb window block db).blocksFound.rows.map BlockFound.hash) :
    Rejected (Coinbase.text block.blockHash) (onBlockFoundCb window block db) ↔
      if Coinbase.text block.blockHash ∈ db.blocksFound.rows.map BlockFound.hash then
        Rejected (Coinbase.text block.blockHash) db
      else block.accepted = false := by
  have whole : buffer hashStrMax (Coinbase.text block.blockHash) = Coinbase.text block.blockHash :=
    buffer_eq (lt_of_le_of_lt digits (by decide))
  rcases storeRecordBlock_rows block.height.toInt32.toInt (Coinbase.text block.blockHash)
    block.rewardSats block.feeSats
    (if block.accepted then .pending else .rejected) window db with
    ⟨same, _⟩ | ⟨row, rows, _, _, named, fresh, status, _⟩
  · rw [onBlockFoundCb, same] at recorded
    rw [if_pos recorded, Rejected, onBlockFoundCb, same, Rejected]
  · rw [whole] at named
    rw [named] at fresh
    rw [if_neg fresh, Rejected, onBlockFoundCb, rows]
    constructor
    · rintro ⟨other, member, same, rejected⟩
      rcases List.mem_append.mp member with old | new
      · exact absurd (List.mem_map.mpr ⟨other, old, same⟩) fresh
      · obtain rfl := List.mem_singleton.mp new
        rw [status] at rejected
        split at rejected
        next => contradiction
        next refused => exact Bool.not_eq_true _ ▸ refused
    · intro refused
      refine ⟨row, List.mem_append_right _ List.mem_cons_self, named, ?_⟩
      rw [status, if_neg (by simp [refused])]

/-- For every submit that solves a block, every behaviour of the node, every history of the
database before it and after it: a row of the block that is rejected in the end means that
the node did not take the block, unless the block could be sent and the answer is misread. -/
theorem rejected_only_if_refused (behaviour : NodeBehaviour) (window : ℚ)
    {block : Stratum.BlockFound}
    (reached : run (laterStep cfg oracle retentionDays) ⟨⟨.empty, none, 0⟩, gbh⟩ before = some s)
    (found : .blockFound block ∈
      (Stratum.handleSubmit fp (withNode behaviour env) server c params).observed)
    (recorded : Coinbase.text block.blockHash ∈
      (s.conn.write (onBlockFoundCb window block)).committed.blocksFound.rows.map BlockFound.hash)
    (ran : run (laterStep cfg oracle retentionDays) { s with
      conn := s.conn.write (onBlockFoundCb window block) } later = some t) :
    (Rejected (Coinbase.text block.blockHash) t.conn.committed →
      ¬(Sent (Stratum.handleSubmit fp (withNode behaviour env) server c params) = true ∧
        behaviour.took = true)) ↔
    ¬(Assembles server params ∧
      Misread s.conn.committed (Coinbase.text block.blockHash) behaviour) := by
  obtain ⟨⟨header, named⟩, sent, accepted⟩ := handleSubmit_blockFound found
  have digits : (Coinbase.text block.blockHash).toList.length ≤ hashDigits := by
    rw [named, text_hash_length]
  have fresh : Stored ⟨.empty, none, 0⟩ :=
    ⟨rfl, List.nodup_nil, List.forall_mem_nil _, List.forall_mem_nil _⟩
  obtain ⟨stored, _⟩ := run_kept fresh reached
  have storedAfter : Stored (s.conn.write (onBlockFoundCb window block)) :=
    stored.found digits _ _ _ _ _
  obtain ⟨storedLater, kept⟩ := run_kept storedAfter ran
  obtain ⟨height, rejected, entry⟩ := entry_of_hash recorded
  rw [rejected_iff storedLater (kept entry), ← rejected_iff storedAfter entry]
  simp only [Connection.write, stored.closed] at recorded ⊢
  rw [onBlockFoundCb_rejected window s.conn.committed digits recorded, Misread]
  rw [sent] at accepted ⊢
  generalize Assembles server params = assembles at accepted ⊢
  split
  next => tauto
  next =>
    rw [← Bool.not_eq_true, accepted]
    cases behaviour with
    | accepts => simp [NodeBehaviour.took, Unheard]
    | acceptsUnheard loss => simp [NodeBehaviour.took, Unheard]
    | duplicate => simp [NodeBehaviour.took, Unheard]
    | inconclusive => simp [NodeBehaviour.took, Unheard]
    | refuses reason some => simp [NodeBehaviour.took, Unheard]
    | unreached error => simp [NodeBehaviour.took, Unheard]

/-- The submit that solves the block of the small server. -/
def solve (behaviour : NodeBehaviour) : Stratum.Outcome :=
  Stratum.handleSubmit .exact (withNode behaviour Stratum.soloEnv)
    (Stratum.soloPool Stratum.authorizeOnce).server
    (Stratum.soloConn Stratum.authorizeOnce)
      (Stratum.soloRequest "mining.submit" (Stratum.soloSubmit "00000004")).params

def solved (accepted : Bool) (submitError : String) : Stratum.BlockFound :=
  ⟨Stratum.firstAddress, Stratum.firstAddress, 0, 1,
    Coinbase.ascii "4ba9c2402df9393dfd82b2f1d55d9bf8fc7797791b71f2fab28c7932fec44f68", 5000000000,
    0, accepted, submitError⟩

def emptyStore : StoreState := ⟨⟨.empty, none, 0⟩, .notAsked⟩

/-- The block is recorded, and a pass then finds it in the chain. -/
def settleSolved (block : Stratum.BlockFound) : Option StoreState :=
  run (laterStep ⟨false, 0⟩ .served 30) { emptyStore with
    conn := emptyStore.conn.write (onBlockFoundCb 0 block) }
    [.pass (fun _ => .ok (Coinbase.text block.blockHash)) 1]

/-- A node that accepts and says so. -/
theorem rejected_only_if_refused_accepts : ∃ t, settleSolved (solved true "") = some t ∧
    .blockFound (solved true "") ∈ (solve .accepts).observed ∧ Sent (solve .accepts) = true ∧
    ¬Rejected (Coinbase.text (solved true "").blockHash) t.conn.committed := by
  obtain ⟨found, sent⟩ :
      .blockFound (solved true "") ∈ (solve .accepts).observed ∧ Sent (solve .accepts) = true := by
    decide +kernel
  have starts : run (laterStep ⟨false, 0⟩ .served 30) emptyStore [] = some emptyStore := rfl
  have ends : (settleSolved (solved true "")).isSome := by decide +kernel
  obtain ⟨t, ran⟩ := Option.isSome_iff_exists.mp ends
  refine ⟨t, ran, found, sent, fun rejected => ?_⟩
  have claim := rejected_only_if_refused .accepts 0 starts found (by decide +kernel) ran
  refine claim.mpr ?_ rejected ⟨sent, rfl⟩
  rintro ⟨_, misread⟩
  rw [Misread, if_neg (by simp [emptyStore, Db.empty])] at misread
  exact Bool.false_ne_true misread

/-- A node that accepts and whose answer times out: the block is in the chain, and the
pass leaves its row rejected. -/
theorem lost_reply_rejects : ∃ t, settleSolved (solved false "curl: Timeout was reached") = some t ∧
    .blockFound (solved false "curl: Timeout was reached") ∈
      (solve (.acceptsUnheard (.curl "Timeout was reached"))).observed ∧
    ¬(Rejected (Coinbase.text (solved false "").blockHash) t.conn.committed →
      ¬(Sent (solve (.acceptsUnheard (.curl "Timeout was reached"))) = true ∧
        (NodeBehaviour.acceptsUnheard (.curl "Timeout was reached")).took = true)) := by
  have ends : ((settleSolved (solved false "curl: Timeout was reached")).map fun t =>
      decide (Rejected (Coinbase.text (solved false "").blockHash) t.conn.committed)) =
          some true := by decide +kernel
  obtain ⟨t, ran, rejected⟩ := Option.map_eq_some_iff.mp ends
  obtain ⟨found, sent⟩ : .blockFound (solved false "curl: Timeout was reached") ∈
      (solve (.acceptsUnheard (.curl "Timeout was reached"))).observed ∧
      Sent (solve (.acceptsUnheard (.curl "Timeout was reached"))) = true := by
    decide +kernel
  exact ⟨t, ran, found, fun claim => claim (of_decide_eq_true rejected) ⟨sent, rfl⟩⟩

end SimplePool.Reconcile
