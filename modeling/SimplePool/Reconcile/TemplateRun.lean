import SimplePool.Lib.Transition
import SimplePool.Reconcile.Pass

/-! Confirmation from templates alone, over whole histories of the node's chain. The
evidence for a block is a template built on it; nothing ever withdraws evidence. -/
namespace SimplePool.Reconcile
open Store Transition

/-- The proxy's database beside the node's chain. `tips` remembers every tip a
template was recorded for; the database itself may have trimmed the row. -/
structure TemplateState where
  chain : Chain
  db : Db
  tips : List (Int × String)

inductive TemplateEvent where
  /-- The node switches to another chain. -/
  | switch (chain : Chain)
  /-- A poll; height and parent of the template are the node's own. -/
  | template (t : Template)
  /-- A share met the network target; the node accepted the block or refused it. -/
  | found (height : Int) (hash : String) (rewardSats feeSats : Int) (refused : Bool)
    (pplnsWindowDiff : ℚ)
  | reconcile

def templateStep (retentionDays : Int) (s : TemplateState) : TemplateEvent → Option TemplateState
  | .switch chain =>
    if s.chain.blocks.length < chain.blocks.length ∧ (s.chain.tipHeight, s.chain.tipHash) ∈ s.tips
      then
      some { s with chain }
    else none
  | .template t =>
    if t.height = s.chain.tipHeight + 1 ∧ t.prevHash = s.chain.tipHash then
      some { s with
        db := storeRecordTemplate retentionDays t s.db
        tips := (s.chain.tipHeight, s.chain.tipHash) :: s.tips }
    else none
  | .found height hash rewardSats feeSats refused pplnsWindowDiff =>
    let status := if refused then BlockStatus.rejected else .pending
    some { s with
      db := storeRecordBlock height hash rewardSats feeSats status pplnsWindowDiff s.db }
  | .reconcile => some { s with db := (storeReconcileBlocksFromTemplates s.chain.tipHeight s.db).2 }

/-- Confirmed rows name blocks of the current chain, and no row whose block is off
the chain is confirmed. -/
def Sound (s : TemplateState) : Prop :=
  (∀ row ∈ s.db.blocksFound.rows, row.status = .confirmed → s.chain.Has row.height row.hash) ∧
    ∀ row ∈ s.db.blocksFound.rows, row.height ≤ s.chain.tipHeight →
      ¬ s.chain.Has row.height row.hash → row.status ≠ .confirmed

/-- No block the pool found and the node once built on has left the chain. -/
def Standing (s : TemplateState) : Prop :=
  ∀ row ∈ s.db.blocksFound.rows, row.status ≠ .rejected → (row.height, row.hash) ∈ s.tips →
    s.chain.Has row.height row.hash

instance (s : TemplateState) : Decidable (Standing s) :=
  inferInstanceAs (Decidable (∀ row ∈ _, _ → _ → _))

/-- Templates and confirmed rows both go back to a tip that was observed. -/
structure Evidenced (s : TemplateState) : Prop where
  templates : ∀ t ∈ s.db.templates, (t.height - 1, t.prevHash) ∈ s.tips
  confirmed : ∀ row ∈ s.db.blocksFound.rows, row.status = .confirmed →
    (row.height, row.hash) ∈ s.tips

def TemplateState.start (chain : Chain) (db : Db) : TemplateState := ⟨chain, db, []⟩

theorem mem_storeRecordTemplate {db : Db}
    (member : row ∈ (storeRecordTemplate retentionDays t db).templates) :
    (row.height = t.height ∧ row.prevHash = t.prevHash) ∨
      ∃ old ∈ db.templates, row.height = old.height ∧ row.prevHash = old.prevHash := by
  have fresh : row ∈ storeRecordTemplate.opened retentionDays t db →
      (row.height = t.height ∧ row.prevHash = t.prevHash) ∨
        ∃ old ∈ db.templates, row.height = old.height ∧ row.prevHash = old.prevHash := by
    intro shown
    have known : row ∈ db.templates ++ [{ t with lastSeen := t.ts, polls := 1 }] := by
      simp only [storeRecordTemplate.opened] at shown
      split at shown
      · exact List.mem_of_mem_filter shown
      · exact shown
    rcases List.mem_append.mp known with old | new
    · exact Or.inr ⟨row, old, rfl, rfl⟩
    · obtain rfl := List.mem_singleton.mp new
      exact Or.inl ⟨rfl, rfl⟩
  simp only [storeRecordTemplate] at member
  split at member
  next last newest =>
    split at member
    · rcases List.mem_append.mp member with old | folded
      · exact Or.inr ⟨row, (List.dropLast_sublist _).mem old, rfl, rfl⟩
      · obtain rfl := List.mem_singleton.mp folded
        exact Or.inr ⟨last, List.mem_of_getLast? newest, rfl, rfl⟩
    · exact fresh member
  next => exact fresh member

theorem observed_mem (seen : observed templates height = some tip) :
    ∃ t ∈ templates, t.height = height ∧ t.prevHash = tip := by
  obtain ⟨t, last, rfl⟩ := Option.map_eq_some_iff.mp seen
  obtain ⟨member, same⟩ := List.mem_filter.mp (List.mem_of_getLast? last)
  exact ⟨t, member, by simpa only [decide_eq_true_eq] using same, rfl⟩

/-- A row is confirmed by the newest template on its height, or was confirmed before
and there is none. -/
theorem resolve_confirmed (confirmed : (resolve templates tipHeight row).status = .confirmed) :
    row.status ≠ .rejected ∧
      (observed templates (row.height + 1) = some row.hash ∨
        observed templates (row.height + 1) = none ∧ row.status = .confirmed) := by
  simp only [resolve] at confirmed
  split at confirmed
  next rejected => simp [rejected] at confirmed
  next kept =>
    refine ⟨kept, ?_⟩
    split at confirmed
    next unseen => exact Or.inr ⟨unseen, confirmed⟩
    next tip seen =>
      split at confirmed
      next same => exact Or.inl (seen.trans (congrArg some same))
      · cases confirmed

/-- A row confirmed by a pass named the same block before it, and was confirmed then
or is built on by the newest template of its height. -/
theorem confirmed_by_templates {db : Db}
    (member : row ∈ (storeReconcileBlocksFromTemplates tipHeight db).2.blocksFound.rows)
    (confirmed : row.status = .confirmed) :
    ∃ before ∈ db.blocksFound.rows, before.height = row.height ∧ before.hash = row.hash ∧
      before.status ≠ .rejected ∧
      (observed db.templates (row.height + 1) = some row.hash ∨
        observed db.templates (row.height + 1) = none ∧ before.status = .confirmed) := by
  obtain ⟨before, known, resolved⟩ :
      ∃ before ∈ db.blocksFound.rows, resolve db.templates tipHeight before = row := by
    simp only [storeReconcileBlocksFromTemplates, BlockTable.update] at member
    split at member
    · obtain ⟨mid, midMember, rfl⟩ := List.mem_map.mp member
      have same : impossible tipHeight mid = mid := by
        simp only [impossible] at confirmed ⊢
        split at confirmed
        · cases confirmed
        next possible => rw [if_neg possible]
      rw [same]
      exact List.mem_map.mp midMember
    · exact List.mem_map.mp member
  subst resolved
  obtain ⟨kept, evidence⟩ := resolve_confirmed confirmed
  obtain ⟨height, hash⟩ := resolve_names db.templates tipHeight before
  rw [height, hash]
  exact ⟨before, known, rfl, rfl, kept, evidence⟩

/-- Every step keeps the evidence, and a reconcile that finds the pool's blocks
standing is sound. -/
theorem templateStep_evidenced (evidenced : Evidenced s)
    (standing : event = .reconcile → Standing s)
    (stepped : templateStep retentionDays s event = some t) :
    Evidenced t ∧ (event = .reconcile → Sound t) := by
  cases event with
  | switch chain =>
    simp only [templateStep, Option.ite_none_right_eq_some, Option.some.injEq] at stepped
    obtain ⟨_, rfl⟩ := stepped
    exact ⟨⟨evidenced.templates, evidenced.confirmed⟩, fun other => by cases other⟩
  | template row =>
    simp only [templateStep, Option.ite_none_right_eq_some, Option.some.injEq] at stepped
    obtain ⟨⟨height, prevHash⟩, rfl⟩ := stepped
    refine ⟨⟨fun seen member => ?_, fun block member confirmed => ?_⟩, fun other => by cases other⟩
    · rcases mem_storeRecordTemplate member with ⟨sameHeight, sameHash⟩ | ⟨old, known, sameHeight,
        sameHash⟩
      · rw [sameHeight, sameHash, height, prevHash, add_sub_cancel_right]
        exact List.mem_cons_self
      · rw [sameHeight, sameHash]
        exact List.mem_cons_of_mem _ (evidenced.templates old known)
    · rw [storeRecordTemplate_blocksFound] at member
      exact List.mem_cons_of_mem _ (evidenced.confirmed block member confirmed)
  | found height hash rewardSats feeSats refused window =>
    simp only [templateStep, Option.some.injEq] at stepped
    subst stepped
    refine ⟨⟨fun seen member => ?_, fun block member confirmed => ?_⟩, fun other => by cases other⟩
    · rw [storeRecordBlock_templates] at member
      exact evidenced.templates seen member
    · rcases storeRecordBlock_rows height hash rewardSats feeSats
        (if refused then .rejected else .pending)
        window s.db with ⟨same, _⟩ | ⟨row, rows, _, _, _, _, status, _⟩
      · exact evidenced.confirmed block (same ▸ member) confirmed
      · rw [rows] at member
        rcases List.mem_append.mp member with old | new
        · exact evidenced.confirmed block old confirmed
        · obtain rfl := List.mem_singleton.mp new
          rw [status] at confirmed
          cases refused <;> cases confirmed
  | reconcile =>
    simp only [templateStep, Option.some.injEq] at stepped
    subst stepped
    have tip :
      ∀ row ∈ (storeReconcileBlocksFromTemplates s.chain.tipHeight s.db).2.blocksFound.rows,
        row.status = .confirmed → (row.height, row.hash) ∈ s.tips ∧
        s.chain.Has row.height row.hash := by
      intro row member confirmed
      obtain ⟨before, known, height, hash, kept, evidence⟩ :=
        confirmed_by_templates member confirmed
      have seen : (row.height, row.hash) ∈ s.tips := by
        rcases evidence with seen | ⟨_, already⟩
        · obtain ⟨t, tMember, tHeight, tHash⟩ := observed_mem seen
          have tip := evidenced.templates t tMember
          rwa [tHeight, tHash, add_sub_cancel_right] at tip
        · rw [← height, ← hash]
          exact evidenced.confirmed before known already
      refine ⟨seen, ?_⟩
      have stands := standing rfl before known kept
      rw [height, hash] at stands
      exact stands seen
    refine ⟨⟨evidenced.templates, fun row member confirmed => (tip row member confirmed).1⟩,
      fun _ => ⟨?_, ?_⟩⟩
    · exact fun row member confirmed => (tip row member confirmed).2
    · exact fun row member _ off confirmed => off (tip row member confirmed).2

/-- In every history in which no block of the pool that templates were built on has
left the chain when a pass is made, every pass is sound. -/
theorem reconcile_from_templates_sound (retentionDays : Int) (chain : Chain) (db : Db)
    (fresh : db.blocksFound.rows = [] ∧ db.templates = []) (events : List TemplateEvent)
    (standing : Along (templateStep retentionDays)
      (fun s event _ => event = .reconcile → Standing s) (.start chain db) events) :
    Along (templateStep retentionDays) (fun _ event t => event = .reconcile → Sound t)
      (.start chain db) events := by
  have initial : Evidenced (.start chain db) := by
    constructor
    · simp [TemplateState.start, fresh.2]
    · simp [TemplateState.start, fresh.1]
  exact Along.of_invariant (fun _ _ _ evidenced standing stepped =>
    templateStep_evidenced evidenced standing stepped) initial standing

/-- A template at `ts` that builds `height` on `prevHash`. -/
def polled (ts height : Int) (prevHash : String) : Template :=
  ⟨ts, height, prevHash, "1d00ffff", 1, 5000000000, 0, 0, .enforcer, 1, 2, true, 0, ts, 1⟩

def raceChain : Chain := ⟨["00", "a1"], by decide, by decide +kernel⟩

/-- The pool's block `a1` is the tip and is confirmed. -/
def raceFound : List TemplateEvent :=
  [.found 1 "a1" 5000000000 0 false 0, .template (polled 100 2 "a1"), .reconcile]

/-- The ordinary extension of the chain by `a2` keeps the pool's block. -/
theorem reconcile_extension_sound :
    Along (templateStep 30) (fun _ event t => event = .reconcile → Sound t)
    (.start raceChain .empty)
    (raceFound ++ [.switch ⟨["00", "a1", "a2"], by decide, by decide +kernel⟩, .reconcile]) := by
  apply reconcile_from_templates_sound 30 raceChain .empty ⟨rfl, rfl⟩
  refine (along_cons_iff rfl).mpr ⟨nofun, (along_cons_iff rfl).mpr ⟨nofun, ?_⟩⟩
  refine (along_cons_iff rfl).mpr ⟨fun _ => by decide +kernel, (along_cons_iff rfl).mpr ⟨nofun, ?_⟩⟩
  exact (along_cons_iff rfl).mpr ⟨fun _ => by decide +kernel, trivial⟩

/-- The node drops `a1` for the longer chain through `b1`. Height 2 is never polled
again, so the template on `a1` stays the newest evidence for height 1, and the
reorganised block stays confirmed. -/
theorem reconcile_reorg_unsound : ∃ t, run (templateStep 30) (.start raceChain .empty)
    (raceFound ++ [.switch ⟨["00", "b1", "b2"], by decide, by decide +kernel⟩,
      .template (polled 200 3 "b2"), .reconcile]) = some t ∧
    ¬ Sound t := by
  refine ⟨_, rfl, fun sound => ?_⟩
  have stands := sound.1 ⟨1, 1, "a1", some 5000000000, none, .confirmed, 2, 0, false, some .tips⟩
    (by decide +kernel) rfl
  revert stands
  decide +kernel

end SimplePool.Reconcile
