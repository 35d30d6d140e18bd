import SimplePool.Lib.Transition
import SimplePool.Reconcile.Verdicts

/-! Blocks that return to the chain after a second reorganisation. The batch that the
node is asked about holds no orphans, so only a pass over the templates can restore one. -/
namespace SimplePool.Reconcile
open Store Transition

inductive ReorgEvent where
  /-- The node switches to another chain. -/
  | switch (chain : Chain)
  | found (height : Int) (hash : String) (rewardSats feeSats : Int) (refused : Bool)
    (pplnsWindowDiff : ℚ)
  | template (t : Template)
  | pass

def ReorgEvent.isPass : ReorgEvent → Bool
  | .pass => true
  | _ => false

def reorgStep (cfg : PassConfig) (oracle : Oracle) (retentionDays : Int) (s : PassState) :
    ReorgEvent → Option PassState
  | .switch chain => some { s with chain }
  | .found height hash rewardSats feeSats refused pplnsWindowDiff =>
    if hash.toList.length ≤ hashDigits then
      let status := if refused then BlockStatus.rejected else .pending
      some { s with conn := s.conn.write (storeRecordBlock height hash rewardSats feeSats status
          pplnsWindowDiff) }
    else none
  | .template t => some { s with conn := s.conn.write (storeRecordTemplate retentionDays t) }
  | .pass =>
    let (_, gbh, conn) :=
      reconcileBlocksPass cfg oracle (answer s.chain) s.chain.tipHeight s.gbh s.conn
    some { s with conn, gbh }

/-- The row was orphaned, and its block is on the chain again and not yet mature. -/
def Returned (chain : Chain) (row : BlockFound) : Prop :=
  row.status = .orphaned ∧ onChain chain row = true ∧ depth chain row < pplnsMaturityConfs

instance (chain : Chain) (row : BlockFound) : Decidable (Returned chain row) :=
  inferInstanceAs (Decidable (_ ∧ _))

/-- Every such row is confirmed by the pass. -/
def Restored (before after : PassState) : Prop :=
  ∀ row ∈ before.conn.db.blocksFound.rows, Returned before.chain row →
    ∃ final ∈ after.conn.db.blocksFound.rows, final.hash = row.hash ∧ final.status = .confirmed

instance (before after : PassState) : Decidable (Restored before after) :=
  inferInstanceAs (Decidable (∀ row ∈ _, _ → _))

/-- The statuses of the pass come from the templates, and the newest template above every
such row was built on its block. -/
def Restorable (s : PassState) : Prop :=
  ∀ row ∈ s.conn.db.blocksFound.rows, Returned s.chain row →
    asksNode s.gbh s.chain.tipHeight s.conn.db = false ∧
    observed s.conn.db.templates (row.height + 1) = some row.hash

theorem onChain_le {chain : Chain} (standing : onChain chain row = true) :
    row.height ≤ chain.tipHeight := by
  rw [onChain, answer] at standing
  split_ifs at standing with below
  split at standing
  next hash answered =>
    split at answered
    next found =>
      obtain ⟨bound, _⟩ := List.getElem?_eq_some_iff.mp found
      rw [Chain.tipHeight]
      omega
    next => contradiction
  next => contradiction

/-- What a pass makes of a row that returned. -/
theorem judged_returned {chain : Chain} {db : Db}
    (distinct : (db.blocksFound.rows.map BlockFound.hash).Nodup)
    (positive : 0 < row.height) (member : row ∈ db.blocksFound.rows)
    (returned : Returned chain row) :
    (judged chain gbh db row).status = .confirmed ↔
      asksNode gbh chain.tipHeight db = false ∧
      observed db.templates (row.height + 1) = some row.hash := by
  obtain ⟨orphaned, standing, _⟩ := returned
  have below := onChain_le standing
  have outside : row ∉ batch chain.tipHeight db := by
    intro inside
    have unsettled := (batch_sublist inside).2
    simp [unresolved, orphaned] at unsettled
  rw [judged]
  cases asks : asksNode gbh chain.tipHeight db with
  | true =>
    rw [if_pos rfl, foldl_judge_outside distinct member outside, orphaned]
    simp
  | false =>
    have possible : ∀ other :
        BlockFound, other.height = row.height → impossible chain.tipHeight other = other := by
      intro other height
      rw [impossible, if_neg]
      rintro ⟨_, low | high⟩ <;> omega
    rw [if_neg Bool.false_ne_true, possible _ (resolve_names ..).1, resolve,
      if_neg (by simp [orphaned])]
    cases observed db.templates (row.height + 1) with
    | none => simp [orphaned]
    | some tip =>
      dsimp only
      split_ifs with same
      · simp [same]
      · simp [same]

theorem pass_restores_iff (stored : Stored s.conn) (tip : 0 < s.chain.tipHeight)
    (ran : reconcileBlocksPass cfg oracle (answer s.chain) s.chain.tipHeight s.gbh s.conn =
      (result, gbh, after)) :
    Restorable s ↔ Restored s { s with conn := after, gbh } := by
  obtain ⟨closed, _, rows⟩ := reconcileBlocksPass_rows stored tip ran
  have kept := stored.pass closed rows
  obtain ⟨down, up⟩ := mem_of_unlatched rows
  simp only [Restorable, Restored, stored.db, kept.db]
  refine forall₃_congr fun row member returned => ?_
  rw [← judged_returned stored.distinct (stored.positive row member) member returned]
  constructor
  · intro confirmed
    obtain ⟨final, shown, same⟩ := up _ (List.mem_map_of_mem member)
    obtain ⟨status, _, hash, _, _⟩ := onChain_unlatch same
    exact ⟨final, shown, hash.trans (judged_names ..).1, status.trans confirmed⟩
  · rintro ⟨final, shown, named, confirmed⟩
    obtain ⟨seen, inside, same⟩ := down final shown
    obtain ⟨other, known, rfl⟩ := List.mem_map.mp inside
    obtain ⟨status, _, hash, _, _⟩ := onChain_unlatch same
    have equal : other = row := by
      apply List.inj_on_of_nodup_map stored.distinct known member
      rw [← (judged_names s.chain s.gbh s.conn.committed other).1, hash, named]
    rw [← equal, status, confirmed]

/-- No row can have returned to a chain of one block. -/
theorem not_returned_of_tip {s : PassState} (stored : Stored s.conn) (tip : ¬0 < s.chain.tipHeight)
    (member : row ∈ s.conn.db.blocksFound.rows) : ¬Returned s.chain row := by
  rintro ⟨_, standing, _⟩
  rw [stored.db] at member
  have positive := stored.positive row member
  have below := onChain_le standing
  omega

theorem reorgStep_spec (stored : Stored s.conn)
    (stepped : reorgStep cfg oracle retentionDays s e = some t) :
    Stored t.conn ∧ ((e.isPass = true → Restorable s) ↔ (e.isPass = true → Restored s t)) := by
  cases e with
  | switch chain =>
    obtain rfl := Option.some.inj stepped
    exact ⟨stored, by simp [ReorgEvent.isPass]⟩
  | found height hash rewardSats feeSats refused window =>
    simp only [reorgStep, Option.ite_none_right_eq_some, Option.some.injEq] at stepped
    obtain ⟨digits, rfl⟩ := stepped
    exact ⟨stored.found digits _ _ _ _ _, by simp [ReorgEvent.isPass]⟩
  | template t =>
    obtain rfl := Option.some.inj stepped
    exact ⟨stored.template retentionDays t, by simp [ReorgEvent.isPass]⟩
  | pass =>
    cases ran : reconcileBlocksPass cfg oracle (answer s.chain) s.chain.tipHeight s.gbh s.conn with
    | mk result rest =>
      obtain ⟨gbh, after⟩ := rest
      simp only [reorgStep, ran, Option.some.injEq] at stepped
      subst stepped
      simp only [ReorgEvent.isPass, forall_const]
      by_cases tip : 0 < s.chain.tipHeight
      · obtain ⟨closed, _, rows⟩ := reconcileBlocksPass_rows stored tip ran
        exact ⟨stored.pass closed rows, pass_restores_iff stored tip ran⟩
      · have nothing : Restorable s ∧ Restored s { s with conn := after, gbh } :=
          ⟨fun row member returned => absurd returned (not_returned_of_tip stored tip member),
            fun row member returned => absurd returned (not_returned_of_tip stored tip member)⟩
        rw [reconcileBlocksPass, if_pos (not_lt.mp tip), Prod.mk.injEq, Prod.mk.injEq] at ran
        obtain ⟨_, rfl, rfl⟩ := ran
        exact ⟨stored, iff_of_true nothing.1 nothing.2⟩

/-- In every run of reorganisations, found blocks, templates and passes with a node that
answers: every pass restores the rows that returned exactly when every such row was
restorable before it. -/
theorem orphans_restored_iff (cfg : PassConfig) (oracle : Oracle) (retentionDays : Int)
    (chain : Chain) (gbh : GbhState) (events : List ReorgEvent) :
    Along (reorgStep cfg oracle retentionDays) (fun s e _ => e.isPass = true → Restorable s)
      ⟨chain, ⟨.empty, none, 0⟩, gbh⟩ events ↔
    Along (reorgStep cfg oracle retentionDays) (fun s e t => e.isPass = true → Restored s t)
      ⟨chain, ⟨.empty, none, 0⟩, gbh⟩ events := by
  apply along_iff_of_invariant
  · intro s e t stored stepped
    exact reorgStep_spec stored stepped
  · exact ⟨rfl, List.nodup_nil, List.forall_mem_nil _, List.forall_mem_nil _⟩

theorem firstChain_nonempty : ["00", "a1"] ≠ [] := by decide

theorem firstChain_sized : ∀ hash ∈ ["00", "a1"], hash.toList.length ≤ hashDigits := by
  decide +kernel

theorem rivalChain_sized : ∀ hash ∈ ["00", "b1", "b2"], hash.toList.length ≤ hashDigits := by
  decide +kernel

def firstChain : Chain := ⟨["00", "a1"], firstChain_nonempty, firstChain_sized⟩
def rivalChain : Chain := ⟨["00", "b1", "b2"], by decide, rivalChain_sized⟩
def returnChain : Chain := ⟨["00", "a1", "a2", "a3"], by decide, by decide +kernel⟩

/-- A block is confirmed by the node, orphaned by a longer chain, and stays orphaned when
its own chain overtakes that one. -/
theorem orphan_left_behind :
    ¬Along (reorgStep ⟨false, 100⟩ .served 30) (fun s e t => e.isPass = true → Restored s t)
      ⟨firstChain, ⟨.empty, none, 0⟩, .notAsked⟩
      [.found 1 "a1" 5000000000 0 false 0, .pass, .switch rivalChain, .pass, .switch returnChain,
        .pass] := by
  decide +kernel

end SimplePool.Reconcile
