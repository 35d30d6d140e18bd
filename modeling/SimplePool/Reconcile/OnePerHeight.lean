import SimplePool.Reconcile.Interrupted
import SimplePool.Reconcile.Rejected
import SimplePool.Reconcile.TemplateRun
import SimplePool.Store.BlockHashIndex

/-! How many blocks of one height are confirmed. The templates pass judges a height as a whole.
The node is asked about one block after the other, and a pass may end between two blocks of
the same height. -/
namespace SimplePool.Reconcile
open Store Transition

/-- No two rows of one height are confirmed. -/
def OnePerHeight (db : Db) : Prop :=
  ∀ x ∈ db.blocksFound.rows, ∀ y ∈ db.blocksFound.rows, x.height = y.height →
    x.status = .confirmed →
    y.status = .confirmed → x = y

instance (db : Db) : Decidable (OnePerHeight db) :=
  inferInstanceAs (Decidable (∀ x ∈ _, ∀ y ∈ _, _ → _ → _ → x = y))

/-- The answers of a pass that tell of one height tell the same, and when one of them confirms
a block, every block of its height that is confirmed has an answer too. -/
structure Thorough (replies : List (BlockFound × String)) (db : Db) : Prop where
  agree : ∀ x ∈ replies, ∀ y ∈ replies, x.1.height = y.1.height → x.2 = y.2
  complete : ∀ y ∈ replies, own y = true → ∀ x ∈ db.blocksFound.rows, x.height = y.1.height →
    x.status = .confirmed →
    x ∈ replies.map Prod.fst

instance (replies : List (BlockFound × String)) (db : Db) : Decidable (Thorough replies db) :=
  decidable_of_iff ((∀ x ∈ replies, ∀ y ∈ replies, x.1.height = y.1.height → x.2 = y.2) ∧
      ∀ y ∈ replies, own y = true → ∀ x ∈ db.blocksFound.rows, x.height = y.1.height →
        x.status = .confirmed →
        x ∈ replies.map Prod.fst)
    ⟨fun ⟨agree, complete⟩ => ⟨agree, complete⟩, fun ⟨agree, complete⟩ => ⟨agree, complete⟩⟩

/-- A hash is written in lower case. -/
def Lower (hash : String) : Prop := hash.toList.map Char.toLower = hash.toList

instance (hash : String) : Decidable (Lower hash) := inferInstanceAs (Decidable (_ = _))

/-- What holds of the database between the passes. -/
structure Judged (db : Db) : Prop where
  distinct : (db.blocksFound.rows.map BlockFound.hash).Nodup
  lower : ∀ row ∈ db.blocksFound.rows, Lower row.hash
  one : OnePerHeight db

section Judged

variable {db after : Db}

theorem lower_of_labels (same : labels after = labels db)
    (lower : ∀ row ∈ db.blocksFound.rows, Lower row.hash) :
    ∀ row ∈ after.blocksFound.rows, Lower row.hash := by
  intro row member
  have shown : (row.hash, row.height) ∈ labels db := by
    rw [← same]
    exact List.mem_map_of_mem member
  obtain ⟨old, known, equal⟩ := List.mem_map.mp shown
  rw [← (Prod.mk.inj equal).1]
  exact lower old known

theorem distinct_of_labels (same : labels after = labels db)
    (distinct : (db.blocksFound.rows.map BlockFound.hash).Nodup) :
    (after.blocksFound.rows.map BlockFound.hash).Nodup := by
  have hashes := congrArg (List.map Prod.fst) same
  simp only [labels, List.map_map, Function.comp_def] at hashes
  exact hashes ▸ distinct

/-- What is confirmed was confirmed before. -/
theorem Judged.of_origins (judged : Judged db) (same : labels after = labels db)
    (origin : ∀ row ∈ after.blocksFound.rows, row.status = .confirmed →
      ∃ old ∈ db.blocksFound.rows, old.hash = row.hash ∧ old.height = row.height ∧
      old.status = .confirmed) : Judged after := by
  have distinct := distinct_of_labels same judged.distinct
  refine ⟨distinct, lower_of_labels same judged.lower, ?_⟩
  intro x xMember y yMember level xConfirmed yConfirmed
  obtain ⟨a, aMember, aHash, aHeight, aConfirmed⟩ := origin x xMember xConfirmed
  obtain ⟨b, bMember, bHash, bHeight, bConfirmed⟩ := origin y yMember yConfirmed
  have one :=
    judged.one a aMember b bMember (aHeight.trans (level.trans bHeight.symm)) aConfirmed bConfirmed
  apply List.inj_on_of_nodup_map distinct xMember yMember
  rw [← aHash, one, bHash]

/-- The templates confirm the block that the newest of them names, and no other of its height. -/
theorem Judged.templates (judged : Judged db) (tipHeight : Int) :
    Judged (storeReconcileBlocksFromTemplates tipHeight db).2 := by
  have same := labels_of_names (names_templates tipHeight db)
  have distinct := distinct_of_labels same judged.distinct
  refine ⟨distinct, lower_of_labels same judged.lower, ?_⟩
  intro x xMember y yMember level xConfirmed yConfirmed
  obtain ⟨a, aMember, aHeight, aHash, _, xEvidence⟩ := confirmed_by_templates xMember xConfirmed
  obtain ⟨b, bMember, bHeight, bHash, _, yEvidence⟩ := confirmed_by_templates yMember yConfirmed
  rw [level] at xEvidence
  apply List.inj_on_of_nodup_map distinct xMember yMember
  rcases xEvidence with xSeen | ⟨unseen, xBefore⟩
  · rcases yEvidence with ySeen | ⟨unseen, _⟩
    · exact Option.some.inj (xSeen.symm.trans ySeen)
    · rw [unseen] at xSeen
      contradiction
  · rcases yEvidence with ySeen | ⟨_, yBefore⟩
    · rw [unseen] at ySeen
      contradiction
    · have one :=
        judged.one a aMember b bMember (aHeight.trans (level.trans bHeight.symm)) xBefore yBefore
      rw [← aHash, one, bHash]

theorem sameHash_lower {reply a b : String} (one : sameHash reply a = true)
    (other : sameHash reply b = true) (la : Lower a) (lb : Lower b) : a = b := by
  simp only [sameHash, decide_eq_true_eq] at one other
  rw [Lower] at la lb
  exact String.toList_inj.mp (la.symm.trans (one.symm.trans (other.trans lb)))

/-- Every block the answers confirm is the only one of its height. -/
theorem Judged.answers (judged : Judged db) {replies : List (BlockFound × String)}
    (known : ∀ reply ∈ replies, reply.1 ∈ db.blocksFound.rows)
    (distinct : (replies.map fun reply => reply.1.hash).Nodup) (thorough : Thorough replies db)
    (rows : after.blocksFound.rows = db.blocksFound.rows.map (replies.foldl (judgeBy tipHeight))) :
    Judged after := by
  have same := labels_answers rows
  refine ⟨distinct_of_labels same judged.distinct, lower_of_labels same judged.lower, ?_⟩
  have told : ∀ row, row ∈ replies.map Prod.fst → (replies.foldl (judgeBy tipHeight) row).status =
      .confirmed →
      ∃ reply ∈ replies, reply.1 = row ∧ own reply = true := by
    intro row member confirmed
    obtain ⟨reply, inside, rfl⟩ := List.mem_map.mp member
    rw [foldl_judgeBy_answered distinct inside rfl] at confirmed
    refine ⟨reply, inside, rfl, ?_⟩
    by_contra foreign
    rw [if_neg foreign] at confirmed
    contradiction
  have untold : ∀ row ∈ db.blocksFound.rows, row ∉ replies.map Prod.fst →
      replies.foldl (judgeBy tipHeight) row = row := by
    intro row member apart
    apply foldl_judgeBy_unanswered
    intro named
    obtain ⟨reply, inside, hash⟩ := List.mem_map.mp named
    have equal := List.inj_on_of_nodup_map judged.distinct (known reply inside) member hash
    exact apart (equal ▸ List.mem_map_of_mem inside)
  -- an answer that confirms a block leaves no other of its height without one
  have answeredToo : ∀ a ∈ db.blocksFound.rows, ∀ b ∈ db.blocksFound.rows, a.height = b.height →
      (replies.foldl (judgeBy tipHeight) a).status = .confirmed →
        (replies.foldl (judgeBy tipHeight) b).status = .confirmed →
      a ∈ replies.map Prod.fst → b ∈ replies.map Prod.fst := by
    intro a aMember b bMember level aConfirmed bConfirmed inside
    by_contra apart
    obtain ⟨reply, there, rfl, confirms⟩ := told a inside aConfirmed
    rw [untold b bMember apart] at bConfirmed
    exact apart (thorough.complete reply there confirms b bMember level.symm bConfirmed)
  intro x xMember y yMember level xConfirmed yConfirmed
  rw [rows] at xMember yMember
  obtain ⟨a, aMember, rfl⟩ := List.mem_map.mp xMember
  obtain ⟨b, bMember, rfl⟩ := List.mem_map.mp yMember
  rw [(foldl_judgeBy_names tipHeight replies a).2.1, (foldl_judgeBy_names tipHeight replies b).2.1]
    at level
  have both := answeredToo a aMember b bMember level xConfirmed yConfirmed
  have both' := answeredToo b bMember a aMember level.symm yConfirmed xConfirmed
  have one : a = b := by
    by_cases inside : a ∈ replies.map Prod.fst
    · obtain ⟨reply, there, rfl, confirms⟩ := told a inside xConfirmed
      obtain ⟨other, otherThere, rfl, confirmsOther⟩ := told b (both inside) yConfirmed
      rw [own, thorough.agree reply there other otherThere level] at confirms
      have hash :=
        sameHash_lower confirms confirmsOther (judged.lower _ aMember) (judged.lower _ bMember)
      exact List.inj_on_of_nodup_map judged.distinct aMember bMember hash
    · have outside := fun there => inside (both' there)
      rw [untold a aMember inside] at xConfirmed
      rw [untold b bMember outside] at yConfirmed
      exact judged.one a aMember b bMember level xConfirmed yConfirmed
  rw [one]

end Judged

inductive HeightEvent where
  | found (height : Int) (hash : String) (rewardSats feeSats : Int) (refused : Bool)
    (pplnsWindowDiff : ℚ)
  | template (t : Template)
  /-- `main`: the templates judge every block, the index is rebuilt and the node is asked anew. -/
  | restart (tipHeight : Int)
  | pass (node : Nat → Int → BlockHashReply) (cap : Nat) (tipHeight : Int)

def heightStep (cfg : PassConfig) (oracle : Oracle) (retentionDays : Int) (s : StoreState) :
    HeightEvent → Option StoreState
  | .found height hash rewardSats feeSats refused pplnsWindowDiff =>
    if hash.toList.length ≤ hashDigits ∧ Lower hash then
      let status := if refused then BlockStatus.rejected else .pending
      some { s with conn := s.conn.write (storeRecordBlock height hash rewardSats feeSats status
          pplnsWindowDiff) }
    else none
  | .template t => some { s with conn := s.conn.write (storeRecordTemplate retentionDays t) }
  | .restart tipHeight =>
    some ⟨s.conn.write fun db =>
      storeFinalizeBlockHashIndex (storeReconcileBlocksFromTemplates tipHeight db).2, .notAsked⟩
  | .pass node cap tipHeight =>
    let (gbh, conn) := reconcileBlocksPassAt cfg oracle node cap tipHeight s.gbh s.conn
    some ⟨conn, gbh⟩

/-- A pass that asks the node is thorough. -/
def ThoroughPass (s : StoreState) : HeightEvent → Prop
  | .pass node cap tipHeight =>
    0 < tipHeight → Thorough (answersOf node cap tipHeight s.gbh s.conn.db) s.conn.db
  | _ => True

instance (s : StoreState) : (event : HeightEvent) → Decidable (ThoroughPass s event)
  | .pass _ _ tipHeight => inferInstanceAs (Decidable (0 < tipHeight → _))
  | .found .. | .template .. | .restart .. => .isTrue trivial

section Runs

variable {cfg : PassConfig} {oracle : Oracle} {s t : StoreState} {c : Connection}

theorem Judged.of_unlatched {db after : Db} (judged : Judged db)
    (same : unlatched after = unlatched db) : Judged after := by
  refine judged.of_origins (labels_unlatched same) ?_
  intro row member confirmed
  obtain ⟨seen, there, equal⟩ := (mem_of_unlatched same).1 row member
  obtain ⟨status, _, hash, height, _⟩ := onChain_unlatch equal
  exact ⟨seen, there, hash, height, status.trans confirmed⟩

theorem statuses_judged (stored : Stored c) (judged : Judged c.committed)
    (thorough : Thorough (answersOf node cap tipHeight gbh c.committed) c.committed) :
    (settleStatusesAt node cap tipHeight gbh c).2.working = none ∧
      labels (settleStatusesAt node cap tipHeight gbh c).2.committed = labels c.committed ∧
      Judged (settleStatusesAt node cap tipHeight gbh c).2.committed := by
  obtain ⟨mid, closed, _, rows, after⟩ := settleStatusesAt_rows stored node cap tipHeight gbh
  obtain ⟨known, distinct⟩ := answersOf_known node cap tipHeight gbh judged.distinct
  have told := judged.answers known distinct thorough rows
  rw [after]
  split
  · simp only [Connection.write, closed]
    exact ⟨trivial, (labels_of_names (names_templates _ _)).trans (labels_answers rows),
      told.templates tipHeight⟩
  · exact ⟨closed, labels_answers rows, told⟩

theorem pass_judged (stored : Stored c) (judged : Judged c.committed)
    (thorough : 0 < tipHeight →
      Thorough (answersOf node cap tipHeight gbh c.committed) c.committed) :
    Stored (reconcileBlocksPassAt cfg oracle node cap tipHeight gbh c).2 ∧
      Judged (reconcileBlocksPassAt cfg oracle node cap tipHeight gbh c).2.committed := by
  rw [reconcileBlocksPassAt]
  by_cases tip : 0 < tipHeight
  · rw [if_neg (not_le.mpr tip)]
    obtain ⟨still, same, settled⟩ := statuses_judged stored judged (thorough tip)
    obtain ⟨closed, kept⟩ :=
      creditSettled_keeps (fun _ _ => unlatched_congr) unlatched_markDistributed cfg oracle still
    exact ⟨stored.of_labels closed ((labels_unlatched kept).trans same), settled.of_unlatched kept⟩
  · rw [if_pos (not_lt.mp tip)]
    exact ⟨stored, judged⟩

theorem found_judged (stored : Stored c) (judged : Judged c.committed) {hash : String}
    (digits : hash.toList.length ≤ hashDigits)
    (lower : Lower hash) (height rewardSats feeSats : Int) {status : BlockStatus}
    (undecided : status ≠ .confirmed) (window : ℚ) :
    Judged (c.write (storeRecordBlock height hash rewardSats feeSats status window)).committed := by
  have whole : buffer hashStrMax hash = hash := buffer_eq (lt_of_le_of_lt digits (by decide))
  have after := stored.found digits height rewardSats feeSats status window
  have written :
    (c.write (storeRecordBlock height hash rewardSats feeSats status window)).committed =
      storeRecordBlock height hash rewardSats feeSats status window c.committed := by
    simp only [Connection.write, stored.closed]
  have origin : ∀ row ∈ (c.write
    (storeRecordBlock height hash rewardSats feeSats status window)).committed.blocksFound.rows,
      row ∈ c.committed.blocksFound.rows ∨ row.hash = hash ∧ row.status = status := by
    intro row member
    rw [written] at member
    rcases storeRecordBlock_rows height hash rewardSats feeSats status window c.committed with
      ⟨same, _⟩ | ⟨new, rows, _, _, named, _, state, _⟩
    · exact .inl (same ▸ member)
    · rw [rows] at member
      rcases List.mem_append.mp member with old | last
      · exact .inl old
      · obtain rfl := List.mem_singleton.mp last
        exact .inr ⟨named.trans whole, state⟩
  refine ⟨after.distinct, ?_, ?_⟩
  · intro row member
    rcases origin row member with old | ⟨named, _⟩
    · exact judged.lower row old
    · rw [named]
      exact lower
  · intro x xMember y yMember level xConfirmed yConfirmed
    rcases origin x xMember with xOld | ⟨_, state⟩
    · rcases origin y yMember with yOld | ⟨_, state⟩
      · exact judged.one x xOld y yOld level xConfirmed yConfirmed
      · exact absurd (state.symm.trans yConfirmed) undecided
    · exact absurd (state.symm.trans xConfirmed) undecided

theorem restart_judged (stored : Stored c) (judged : Judged c.committed) (tipHeight : Int) :
    Stored (c.write fun db =>
      storeFinalizeBlockHashIndex (storeReconcileBlocksFromTemplates tipHeight db).2) ∧
      Judged (c.write fun db => storeFinalizeBlockHashIndex
        (storeReconcileBlocksFromTemplates tipHeight db).2).committed := by
  have settled := judged.templates tipHeight
  have rows := storeFinalizeBlockHashIndex_rows settled.distinct
  have same : labels
    (storeFinalizeBlockHashIndex (storeReconcileBlocksFromTemplates tipHeight c.committed).2) =
      labels (storeReconcileBlocksFromTemplates tipHeight c.committed).2 := by
    rw [labels, labels, rows]
  refine ⟨stored.of_labels ?_ ?_, ?_⟩
  · simp only [Connection.write, stored.closed]
  · simp only [Connection.write, stored.closed]
    exact same.trans (labels_of_names (names_templates _ _))
  · simp only [Connection.write, stored.closed]
    refine settled.of_origins same fun row member confirmed => ?_
    rw [rows] at member
    exact ⟨row, member, rfl, rfl, confirmed⟩

theorem heightStep_judged (stored : Stored s.conn) (judged : Judged s.conn.committed)
    (thorough : ThoroughPass s event)
    (stepped : heightStep cfg oracle retentionDays s event = some t) :
    Stored t.conn ∧ Judged t.conn.committed := by
  cases event with
  | found height hash rewardSats feeSats refused window =>
    simp only [heightStep, Option.ite_none_right_eq_some, Option.some.injEq] at stepped
    obtain ⟨⟨digits, lower⟩, rfl⟩ := stepped
    refine ⟨stored.found digits _ _ _ _ _, found_judged stored judged digits lower _ _ _ ?_ _⟩
    split <;> decide
  | template t =>
    obtain rfl := Option.some.inj stepped
    refine ⟨stored.template retentionDays t, ?_⟩
    simp only [Connection.write, stored.closed]
    refine judged.of_origins ?_ ?_
    · rw [labels, labels, storeRecordTemplate_blocksFound]
    · intro row member confirmed
      rw [storeRecordTemplate_blocksFound] at member
      exact ⟨row, member, rfl, rfl, confirmed⟩
  | restart tipHeight =>
    obtain rfl := Option.some.inj stepped
    exact restart_judged stored judged tipHeight
  | pass node cap tipHeight =>
    obtain rfl := Option.some.inj stepped
    rw [ThoroughPass, stored.db] at thorough
    exact pass_judged stored judged thorough

/-- In every run whose passes are thorough, no height ever has two confirmed blocks. -/
theorem one_confirmed_per_height (cfg : PassConfig) (oracle : Oracle) (retentionDays : Int)
    (gbh : GbhState) (events : List HeightEvent)
    (thorough : Along (heightStep cfg oracle retentionDays) (fun s event _ => ThoroughPass s event)
      ⟨⟨.empty, none, 0⟩, gbh⟩ events) :
    Along (heightStep cfg oracle retentionDays) (fun _ _ t => OnePerHeight t.conn.db)
      ⟨⟨.empty, none, 0⟩, gbh⟩ events := by
  refine Along.of_invariant (I := fun s => Stored s.conn ∧ Judged s.conn.committed) ?_ ?_ thorough
  · rintro s event t ⟨stored, judged⟩ complete stepped
    obtain ⟨stored', judged'⟩ := heightStep_judged stored judged complete stepped
    refine ⟨⟨stored', judged'⟩, ?_⟩
    rw [stored'.db]
    exact judged'.one
  · exact ⟨⟨rfl, List.nodup_nil, List.forall_mem_nil _, List.forall_mem_nil _⟩,
      ⟨List.nodup_nil, List.forall_mem_nil _, List.forall_mem_nil _⟩⟩

end Runs

/-- A block is confirmed, and the pool finds the one that replaces it at its height. -/
def replacedBlock : List HeightEvent :=
  [.found 1 "a1" 5000000000 0 false 0, .pass (fun _ _ => .ok "a1") reconcileMaxPerTick 1,
    .found 1 "b1" 5000000000 0 false 0]

theorem one_confirmed_per_height_replaced :
    (run (heightStep ⟨false, 100⟩ .served 30) ⟨⟨.empty, none, 0⟩, .notAsked⟩
      (replacedBlock ++ [.pass (fun _ _ => .ok "b1") reconcileMaxPerTick 1])).isSome ∧
    Along (heightStep ⟨false, 100⟩ .served 30) (fun _ _ t => OnePerHeight t.conn.db)
      ⟨⟨.empty, none, 0⟩, .notAsked⟩
      (replacedBlock ++ [.pass (fun _ _ => .ok "b1") reconcileMaxPerTick 1]) := by
  obtain ⟨ran, thorough⟩ : (run (heightStep ⟨false, 100⟩ .served 30) ⟨⟨.empty, none, 0⟩, .notAsked⟩
      (replacedBlock ++ [.pass (fun _ _ => .ok "b1") reconcileMaxPerTick 1])).isSome ∧
      Along (heightStep ⟨false, 100⟩ .served 30) (fun s event _ => ThoroughPass s event)
        ⟨⟨.empty, none, 0⟩, .notAsked⟩
        (replacedBlock ++ [.pass (fun _ _ => .ok "b1") reconcileMaxPerTick 1]) := by
    decide +kernel
  exact ⟨ran, one_confirmed_per_height ⟨false, 100⟩ .served 30 .notAsked _ thorough⟩

/-- The newer block is asked about first. It is confirmed, and then a failure, or the limit of
the batch, keeps the older one from being orphaned. -/
theorem height_confirmed_twice :
    ¬Along (heightStep ⟨false, 100⟩ .served 30) (fun _ _ t => OnePerHeight t.conn.db)
      ⟨⟨.empty, none, 0⟩, .notAsked⟩
      (replacedBlock ++
        [.pass (fun i _ => if i = 0 then .ok "b1" else .failed) reconcileMaxPerTick 1]) ∧
    ¬Along (heightStep ⟨false, 100⟩ .served 30) (fun _ _ t => OnePerHeight t.conn.db)
      ⟨⟨.empty, none, 0⟩, .notAsked⟩
      (replacedBlock ++ [.pass (fun _ _ => .ok "b1") 1 1]) := by
  decide +kernel

end SimplePool.Reconcile
