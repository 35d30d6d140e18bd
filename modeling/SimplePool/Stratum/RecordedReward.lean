import SimplePool.Reconcile.Rejected
import SimplePool.Store.Distribute
import SimplePool.Stratum.WindowFractions

/-! What a found block is recorded to be worth, against what its coinbase pays. The record
is made from the value that the template came with, and the coinbase from the transaction
that the server dictates, when it dictates one. -/
namespace SimplePool.Stratum
open Wire Coinbase Transition

/-- `coinbasetxn` in the answer to getblocktemplate. -/
structure CoinbaseTxn where
  data : Option Bytes
  fee : Option Int

/-- The fields that say what a block is worth. A number has lost its fraction. -/
structure CoinbaseFields where
  coinbasevalue : Option Int
  coinbasetxn : Option CoinbaseTxn

/-- The value and the transaction that `bitcoind_get_block_template` keeps. A fee is the
negated sum of the outputs, all of them. -/
def CoinbaseFields.kept (fields : CoinbaseFields) : Except String (Int × Option Bytes) :=
  match fields.coinbasevalue, fields.coinbasetxn with
  | some value, _ => .ok (value, none)
  | none, none => .error "missing coinbasevalue/coinbasetxn"
  | none, some txn =>
    match txn.data with
    | none => .error "coinbasetxn missing data"
    | some hex => .ok ((txn.fee.map Neg.neg).getD 0, some hex)

/-- What the only spendable output of the server's transaction holds, as the builder has it. -/
def spendableValue (hex : Bytes) : Result Int := do
  let tx ← decodeTemplateHex hex
  let t ← parseTemplate tx
  let rewardIdx ← orUndefined t.scan.rewardIdx
  let rewardOut ← orUndefined t.scan.outs[rewardIdx]?
  .ok (toInt64 rewardOut.value)

/-- The job is worth what the transaction says. -/
def Job.AsValued (job : Job) : Prop :=
  match job.coinbasetxnHex with
  | none => 0 ≤ job.valueSats
  | some hex => spendableValue hex = .ok (max 0 job.valueSats)

/-- What stands where the reward was. -/
structure Replaced where
  reward : Int
  miners : List ReplOut
  operator : Option ReplOut

def Replaced.outs (r : Replaced) : List ReplOut := r.miners ++ r.operator.toList

def Replaced.total (r : Replaced) : Int := (r.outs.map ReplOut.sats).sum

/-- The second half of a coinbase that has the outputs in the place of the reward. -/
def PlacedIn (job : Job) (r : Replaced) (cb2 : Bytes) : Prop :=
  match job.coinbasetxnHex with
  | none => r.reward = job.valueSats ∧ ∃ commitment : Option Bytes,
      cb2 = pushU32Le 0xffffffff ++
        pushVarint (r.outs.map pushReplOut ++ commitment.toList.map (pushOutput 0)).length ++
        (r.outs.map pushReplOut ++ commitment.toList.map (pushOutput 0)).flatten ++ pushU32Le 0
  | some hex =>
    spendableValue hex = .ok r.reward ∧ ∃ tx t i outputs,
      decodeTemplateHex hex = .ok tx ∧ parseTemplate tx = .ok t ∧
      t.scan.rewardIdx = some i ∧ emitOutputs tx i r.outs t.scan.outs 0 = .ok outputs ∧
      cb2 = pushU32Le t.sequence ++ pushVarint (sizeT (t.scan.outs.length - 1 + r.outs.length)) ++
        outputs ++ pushU32Le t.locktime

/-- The builder made these outputs out of the reward, the operator's by its own rule. -/
structure Replaces (cfg : Cfg) (job : Job) (cb2 : Bytes) (r : Replaced) : Prop where
  miners : r.miners ≠ []
  operator : positiveFee r.reward cfg.operatorAddress cfg.feeBps = .ok r.operator
  balanced : r.total = r.reward
  placed : PlacedIn job r cb2

theorem Replaced.total_eq (r : Replaced) :
    r.total = (r.miners.map ReplOut.sats).sum + feeOf r.operator := by
  rw [Replaced.total, Replaced.outs, List.map_append, List.sum_append, feeOf_add]

theorem resolveWindowOutputs_laid
    (resolved : resolveWindowOutputs scale value payees operatorAddress feeBps maxBytes fixedBytes
      floor cap = .ok (outs, result)) :
      ∃ miners operator, miners ≠ [] ∧ positiveFee value operatorAddress feeBps = .ok operator ∧
        outs = miners ++ Option.toList operator := by
  obtain ⟨positive, operator, p, miners, spread, fee, _, down, someone, redistributed, added⟩ :=
    resolveWindowOutputs_ok resolved
  have sound : p.Sound := payDown_sound (dust_le_effectiveFloor floor) ⟨by simp, rfl, rfl⟩ down
  refine ⟨miners, operator, ?_, ?_, (withOperator_ok added).1⟩
  · rintro rfl
    have none : p.outs = [] := List.map_eq_nil_iff.mp (spreadDropped_scripts redistributed).symm
    exact someone (by rw [sound.paidCount, none, List.length_nil])
  · rw [positiveFee, if_pos positive]
    exact fee

theorem replSingle_laid (resolved : replSingle reward miner operatorAddress feeBps = .ok outs) :
    ∃ miners operator, miners ≠ [] ∧ positiveFee reward operatorAddress feeBps = .ok operator ∧
      outs = miners ++ Option.toList operator := by
  rw [replSingle] at resolved
  obtain ⟨operator, fee, resolved⟩ := bind_ok resolved
  obtain ⟨spk, _, resolved⟩ := bind_ok resolved
  obtain rfl := Except.ok.inj resolved
  exact ⟨[_], operator, by simp, fee, rfl⟩

theorem buildFromTemplate_replaces {job : Job} {hex : Bytes}
    (dictated : job.coinbasetxnHex = some hex)
    (laid : ∀ reward fixedBytes repl, resolver.resolve scale reward fixedBytes = .ok repl →
      ∃ miners operator, miners ≠ [] ∧
      positiveFee reward cfg.operatorAddress cfg.feeBps = .ok operator ∧
        repl = miners ++ Option.toList operator)
    (built : buildFromTemplate scale resolver hex coinbaseTag jobSalt size1 size2 =
      .ok (parts, hasWitness)) :
    ∃ r, Replaces cfg job parts.cb2 r := by
  rw [buildFromTemplate] at built
  obtain ⟨buf, decoded, built⟩ := bind_ok built
  obtain ⟨t, parsed, built⟩ := bind_ok built
  obtain ⟨i, found, built⟩ := bind_ok built
  obtain ⟨c, scanned, built⟩ := bind_ok built
  obtain ⟨repl, resolved, built⟩ := bind_ok built
  obtain ⟨_, _, built⟩ := bind_ok built
  obtain ⟨total, summed, built⟩ := bind_ok built
  obtain ⟨_, balanced, built⟩ := bind_ok built
  obtain ⟨_, _, built⟩ := bind_ok built
  obtain ⟨prevout, _, built⟩ := bind_ok built
  obtain ⟨scriptSig, _, built⟩ := bind_ok built
  obtain ⟨outputs, emitted, built⟩ := bind_ok built
  obtain ⟨rfl, _⟩ := Prod.mk.inj (Except.ok.inj built)
  obtain ⟨miners, operator, someone, fee, rfl⟩ := laid _ _ _ resolved
  refine ⟨⟨toInt64 c.value, miners, operator⟩, someone, fee, ?_, ?_⟩
  · exact (int64_ok summed).1.symm.trans (ensure_ok balanced)
  · rw [PlacedIn, dictated]
    refine ⟨?_, buf, t, i, outputs, decoded, parsed, orUndefined_ok found, emitted, rfl⟩
    simp only [spendableValue, decoded, parsed, found, scanned, bind, Except.bind]

theorem buildSplit_replaces {job : Job} (scratch : job.coinbasetxnHex = none)
    (built : buildSplit height job.valueSats miner cfg.operatorAddress cfg.feeBps commitmentHex
      coinbaseTag jobSalt size1 size2 = .ok result) : ∃ r, Replaces cfg job result.parts.cb2 r := by
  rw [buildSplit] at built
  obtain ⟨spk, script, built⟩ := bind_ok built
  obtain ⟨operator, fee, built⟩ := bind_ok built
  obtain ⟨commitment, decoded, built⟩ := bind_ok built
  obtain ⟨_, _, built⟩ := bind_ok built
  obtain rfl := Except.ok.inj built
  refine ⟨⟨job.valueSats, [⟨spk, job.valueSats - feeOf operator⟩], operator⟩, by simp, fee, ?_, ?_⟩
  · rw [Replaced.total_eq]
    simp
  · rw [PlacedIn, scratch]
    exact ⟨rfl, commitment, rfl⟩

theorem buildWindow_replaces {job : Job} (scratch : job.coinbasetxnHex = none)
    (built : buildWindow scale height job.valueSats payees cfg.operatorAddress cfg.feeBps
      commitmentHex coinbaseTag jobSalt
      size1 size2 maxBytes floor = .ok (parts, result)) : ∃ r, Replaces cfg job parts.cb2 r := by
  obtain ⟨repl, commitment, ssLen, window, balanced, _, _, _, rfl⟩ := buildWindow_ok built
  obtain ⟨miners, operator, someone, fee, rfl⟩ := resolveWindowOutputs_laid window
  refine ⟨⟨job.valueSats, miners, operator⟩, someone, fee, balanced, ?_⟩
  rw [PlacedIn, scratch]
  exact ⟨rfl, commitment, rfl⟩

theorem renderSingle_replaces (rendered : renderSingle fp cfg job address = .ok parts) :
    ∃ r, Replaces cfg job parts.cb2 r := by
  rw [renderSingle] at rendered
  split at rendered
  next hex dictated =>
    obtain ⟨⟨parts, hasWitness⟩, built, rfl⟩ := map_ok rendered
    refine buildFromTemplate_replaces dictated ?_ built
    intro reward fixedBytes repl resolved
    exact replSingle_laid resolved
  next scratch =>
    obtain ⟨result, built, rfl⟩ := map_ok rendered
    exact buildSplit_replaces scratch built

/-- Whoever a coinbase pays, it pays out the reward. -/
theorem renderFresh_replaces {c : Conn} (rendered : renderFresh fp cfg c job = .ok parts) :
    ∃ r, Replaces cfg job parts.cb2 r := by
  rw [renderFresh] at rendered
  split_ifs at rendered
  · rw [renderWindowCoinbase] at rendered
    split at rendered
    next hex dictated =>
      obtain ⟨⟨parts, hasWitness⟩, built, rfl⟩ := map_ok rendered
      refine buildFromTemplate_replaces dictated ?_ built
      intro reward fixedBytes repl resolved
      obtain ⟨⟨outs, result⟩, window, rfl⟩ := map_ok resolved
      exact resolveWindowOutputs_laid window
    next scratch =>
      obtain ⟨⟨parts, result⟩, built, rfl⟩ := map_ok rendered
      exact buildWindow_replaces scratch built
  · exact renderSingle_replaces rendered
  · exact renderSingle_replaces rendered

/-- The row agrees with the outputs. -/
structure Matches (row : Store.BlockFound) (r : Replaced) : Prop where
  gross : Store.gross row = r.total
  fee : row.feeSats.getD 0 = feeOf r.operator

/-- The row that a found block adds. -/
def Adds (found : BlockFound) (row : Store.BlockFound) : Prop :=
  ∃ window db, row ∈ (Reconcile.onBlockFoundCb window found db).blocksFound.rows ∧
  row ∉ db.blocksFound.rows

theorem Adds.amounts (adds : Adds found row) :
    row.rewardSats = (if 0 < found.rewardSats then some found.rewardSats else none) ∧
    row.feeSats = if 0 < found.feeSats then some found.feeSats else none := by
  obtain ⟨window, db, member, fresh⟩ := adds
  obtain ⟨reward, fee, _⟩ := Store.storeRecordBlock_added member fresh
  exact ⟨reward, fee⟩

/-- What is reported is nothing, or the part that is not dust. -/
theorem reportedFee_ok (reported : reportedFee cfg job = .ok feeSats) :
    feeSats = 0 ∨ dustSats ≤ feeSats ∧ feeSats = (job.valueSats * cfg.feeBps.bps).tdiv 10000 := by
  rw [reportedFee] at reported
  split at reported
  · exact .inl (Except.ok.inj reported).symm
  · split at reported
    · exact .inl (Except.ok.inj reported).symm
    · obtain ⟨product, computed, reported⟩ := bind_ok reported
      obtain ⟨rfl, _⟩ := int64_ok computed
      obtain rfl := Except.ok.inj reported
      split_ifs with dust
      · exact .inl rfl
      · exact .inr ⟨not_lt.mp dust, rfl⟩

theorem reportedFee_nonpos (worthless : job.valueSats ≤ 0)
    (reported : reportedFee cfg job = .ok feeSats) : feeSats = 0 := by
  rcases reportedFee_ok reported with none | ⟨enough, part⟩
  · exact none
  · have product : job.valueSats * cfg.feeBps.bps ≤ 0 :=
      Int.mul_nonpos_of_nonpos_of_nonneg worthless (by omega)
    have fee : 0 ≤ (-(job.valueSats * cfg.feeBps.bps)).tdiv 10000 :=
      Int.tdiv_nonneg (by omega) (by decide)
    rw [Int.neg_tdiv, ← part] at fee
    rw [dustSats] at enough
    omega

/-- The dust rule is the builder's own, and so is the product. -/
theorem reportedFee_of_operatorFee
    (fee : operatorFee job.valueSats cfg.operatorAddress cfg.feeBps = .ok operator) :
    reportedFee cfg job = .ok (feeOf operator) := by
  rw [operatorFee] at fee
  rw [reportedFee]
  cases present : nonEmpty cfg.operatorAddress with
  | none =>
    rw [present] at fee
    obtain rfl := Except.ok.inj fee
    rfl
  | some address =>
    rw [present] at fee
    dsimp only at fee ⊢
    split at fee
    next free =>
      obtain rfl := Except.ok.inj fee
      rw [if_pos free]
      rfl
    next rated =>
      obtain ⟨product, computed, fee⟩ := bind_ok fee
      rw [if_neg rated, computed]
      split at fee
      next dust =>
        obtain rfl := Except.ok.inj fee
        simp [dust, feeOf, bind, Except.bind]
      next paid =>
        obtain ⟨spk, _, fee⟩ := bind_ok fee
        obtain rfl := Except.ok.inj fee
        simp [paid, feeOf, bind, Except.bind]

theorem reportedFee_eq
    (fee : positiveFee job.valueSats cfg.operatorAddress cfg.feeBps = .ok operator)
    (reported : reportedFee cfg job = .ok feeSats) : feeSats = feeOf operator := by
  rw [positiveFee] at fee
  split at fee
  next => exact Except.ok.inj (reported.symm.trans (reportedFee_of_operatorFee fee))
  next worthless =>
    obtain rfl := Except.ok.inj fee
    exact reportedFee_nonpos (not_lt.mp worthless) reported

/-- The fee is at most a tenth. -/
theorem reportedFee_bounds (worth : 0 < job.valueSats)
    (reported : reportedFee cfg job = .ok feeSats) :
    0 ≤ feeSats ∧ feeSats < job.valueSats := by
  have rate : (cfg.feeBps.bps : Int) ≤ 1000 := by exact_mod_cast cfg.feeBps.checked
  have product : 0 ≤ job.valueSats * cfg.feeBps.bps := Int.mul_nonneg worth.le (by omega)
  have part : job.valueSats * cfg.feeBps.bps ≤ job.valueSats * 1000 :=
    Int.mul_le_mul_of_nonneg_left rate worth.le
  rcases reportedFee_ok reported with rfl | ⟨enough, rfl⟩
  · exact ⟨le_rfl, worth⟩
  · rw [Int.tdiv_eq_ediv_of_nonneg product]
    omega

/-- The two columns of a job's row, with NULL read as nothing. -/
theorem recorded_amounts (reported : reportedFee cfg job = .ok found.feeSats)
    (reward : found.rewardSats = job.valueSats - found.feeSats) (adds : Adds found row) :
    Store.gross row = max 0 job.valueSats ∧ row.feeSats.getD 0 = found.feeSats := by
  obtain ⟨rewardSats, feeSats⟩ := adds.amounts
  rw [Store.gross, rewardSats, feeSats, reward]
  rcases lt_or_ge 0 job.valueSats with worth | worthless
  · obtain ⟨nonneg, less⟩ := reportedFee_bounds worth reported
    rw [if_pos (by omega), max_eq_right worth.le]
    rcases nonneg.lt_or_eq with some | none
    · rw [if_pos some]
      exact ⟨Int.sub_add_cancel .., rfl⟩
    · rw [← none]
      simp
  · rw [reportedFee_nonpos worthless reported, if_neg (by omega), max_eq_left worthless]
    simp

theorem Replaces.reward {job : Job} (replaces : Replaces cfg job cb2 r) :
    r.reward = max 0 job.valueSats ↔ job.AsValued := by
  have placed := replaces.placed
  rw [PlacedIn] at placed
  rw [Job.AsValued]
  cases dictated : job.coinbasetxnHex with
  | none =>
    rw [dictated] at placed
    dsimp only at placed ⊢
    rw [placed.1]
    exact ⟨fun same => by omega, fun nonneg => (max_eq_right nonneg).symm⟩
  | some hex =>
    rw [dictated] at placed
    dsimp only at placed ⊢
    rw [placed.1]
    exact ⟨fun same => congrArg Except.ok same, Except.ok.inj⟩

/-- A row agrees with the coinbase exactly when the job is worth what the transaction says. -/
theorem Replaces.matches_iff {job : Job} (replaces : Replaces cfg job cb2 r)
    (reported : reportedFee cfg job = .ok found.feeSats)
    (reward : found.rewardSats = job.valueSats - found.feeSats)
    (adds : Adds found row) : Matches row r ↔ job.AsValued := by
  obtain ⟨gross, feeSats⟩ := recorded_amounts reported reward adds
  rw [← replaces.reward]
  constructor
  · intro agrees
    rw [← replaces.balanced, ← agrees.gross, gross]
  · intro same
    refine ⟨by rw [gross, replaces.balanced, same], ?_⟩
    have operator := replaces.operator
    rw [same] at operator
    rw [feeSats]
    rcases lt_or_ge 0 job.valueSats with worth | worthless
    · rw [max_eq_right worth.le] at operator
      exact reportedFee_eq operator reported
    · rw [max_eq_left worthless, positiveFee, if_neg (lt_irrefl 0)] at operator
      rw [reportedFee_nonpos worthless reported, ← Except.ok.inj operator]
      rfl

/-- The fee of a job that is worth what the transaction says stays in range. -/
theorem Replaces.reported {job : Job} (replaces : Replaces cfg job cb2 r) (valued : job.AsValued)
    (nonneg : 0 ≤ job.valueSats) : reportedFee cfg job = .ok (feeOf r.operator) := by
  have operator := replaces.operator
  rw [replaces.reward.mpr valued, max_eq_right nonneg, positiveFee] at operator
  split at operator
  next => exact reportedFee_of_operatorFee operator
  next worthless =>
    have none : job.valueSats = 0 := by omega
    rw [← Except.ok.inj operator, reportedFee, none, Int.zero_mul]
    cases nonEmpty cfg.operatorAddress with
    | none => rfl
    | some =>
      dsimp only
      split_ifs <;> rfl

/-- The step solves a block on the job, with these halves, and the row is added for it. -/
def Recorded (fp : Fpu) (p : Pool) (event : Event) (job : Job) (parts : Parts)
    (row : Store.BlockFound) : Prop :=
  ∃ i env request c w found, event = .message i env request ∧ methodOf request.method = .submit ∧
  p.conns i = some c ∧
    Reaches fp env p.server c request.params w ∧ w.job = job ∧ w.parts = parts ∧
    .blockFound found ∈ (handleMessage fp env p.server c request).observed ∧ Adds found row

/-- The row says what the builder paid out in place of the reward, and to the operator. -/
def RecordedAsPaid (cfg : Cfg) (job : Job) (parts : Parts) (row : Store.BlockFound) : Prop :=
  ∃ r, Replaces cfg job parts.cb2 r ∧ Matches row r

theorem handleSubmit_amounts (reaches : Reaches fp env s c params w)
    (observed : .blockFound found ∈ (handleSubmit fp env s c params).observed) :
    reportedFee s.cfg w.job = .ok found.feeSats ∧
    found.rewardSats = w.job.valueSats - found.feeSats := by
  rcases handleSubmit_cases fp env s c params with ⟨w', r, reaches', rendered, done⟩ | ⟨unreached,
    _⟩
  · have job : w.job = w'.job := by
      have sub := Option.some.inj (reaches.submission.symm.trans reaches'.submission)
      exact Option.some.inj (reaches.job.symm.trans (sub ▸ reaches'.job))
    rw [done] at observed
    rcases submitHash_cases rendered fp env s with ⟨_, out⟩ | ⟨_, ⟨_, out⟩ | ⟨verdict, _, out⟩⟩
    · simp [out, refuseObserved] at observed
    · simp [out, refuseObserved] at observed
    · rw [out] at observed
      obtain ⟨found, _⟩ := Reconcile.credit_block observed
      obtain ⟨feeSats, reported, rfl⟩ := blockFound_ok found
      rw [job]
      exact ⟨reported, rfl⟩
  · exact absurd reaches (unreached w)

theorem Watched.Caches.recorded {w : Watched} (caches : w.Caches fp cfg)
    (recorded : Recorded fp w.pool event job parts row) :
    RecordedAsPaid cfg job parts row ↔ job.AsValued := by
  obtain ⟨i, env, request, c, work, found, rfl, called, here, reaches, rfl, rfl, observed, adds⟩ :=
    recorded
  obtain ⟨k, _, place⟩ := caches.follows.jobs.find reaches.job
  obtain ⟨address, rendered⟩ :=
    (caches.conns i c here).coinbaseFor caches.follows.distinct (List.mem_of_getElem? place)
    (caches.settings ▸ reaches.parts)
  rw [handleMessage, called] at observed
  obtain ⟨reported, reward⟩ := handleSubmit_amounts reaches observed
  rw [caches.settings] at reported
  constructor
  · rintro ⟨r, replaces, agrees⟩
    exact (replaces.matches_iff reported reward adds).mp agrees
  · intro valued
    obtain ⟨r, replaces⟩ := renderFresh_replaces rendered
    exact ⟨r, replaces, (replaces.matches_iff reported reward adds).mpr valued⟩

/-- In every run that publishes its jobs under distinct names, what is recorded of a block is
what its coinbase pays exactly when the job was worth what the transaction says. -/
theorem reward_recorded_as_paid_iff (fp : Fpu) (cfg : Cfg) (seed : UInt32) (events : List Event)
    (distinct : (events.filterMap Event.published).Nodup)
    (named : [] ∉ events.filterMap Event.published) :
    Along (Watched.step fp) (fun w event _ => ∀ job parts row,
      Recorded fp w.pool event job parts row →
      (RecordedAsPaid cfg job parts row ↔ job.AsValued)) (.start cfg seed) events := by
  apply Along.of_invariant _ (Watched.Caches.start fp cfg seed) (newId_of_distinct distinct named)
  intro w event after caches new stepped
  refine ⟨caches.step new stepped, ?_⟩
  intro job parts row recorded
  exact caches.recorded recorded

def feeCfg : Cfg := { soloCfg with operatorAddress := some firstAddress, feeBps := .onePercent }

/-- The job of a template with these fields. -/
def dictatedJob (fields : CoinbaseFields) : Job :=
  match fields.kept with
  | .error _ => regtestJob
  | .ok (value, hex) =>
    .new (ascii "1") 0x20000000 zeros32 value none extranonce1Size extranonce2Size [] 0x207fffff
      0x65000000
      regtestTarget 1 [] hex false 0

def dictatedStart (fields : CoinbaseFields) : List Event :=
  [.setJob 0 (dictatedJob fields) true, .connect 0 [] ⟨0, 0, 0, 0, 0⟩,
    soloMessage "mining.subscribe" [], soloMessage "mining.authorize" [firstAddress]]

/-- Both commitments hold nothing. -/
def commitmentFields : CoinbaseFields :=
  ⟨none, some ⟨some (hexEncode commitmentTx.write), some (-5000000000)⟩⟩

theorem reward_recorded_as_paid_dictated :
    ((dictatedStart commitmentFields ++
      [soloMessage "mining.submit" (soloSubmit "00000001")]).filterMap Event.published).Nodup ∧
      [] ∉ (dictatedStart commitmentFields ++
        [soloMessage "mining.submit" (soloSubmit "00000001")]).filterMap Event.published ∧
      Along (Watched.step .exact) (fun w event _ => ∀ job parts row,
        Recorded .exact w.pool event job parts row →
        (RecordedAsPaid feeCfg job parts row ↔ job.AsValued)) (.start feeCfg 0)
        (dictatedStart commitmentFields ++
          [soloMessage "mining.submit" (soloSubmit "00000001")]) := by
  obtain ⟨distinct, named⟩ :
      ((dictatedStart commitmentFields ++
        [soloMessage "mining.submit" (soloSubmit "00000001")]).filterMap Event.published).Nodup ∧
      [] ∉ (dictatedStart commitmentFields ++
        [soloMessage "mining.submit" (soloSubmit "00000001")]).filterMap Event.published := by
    decide +kernel
  exact ⟨distinct, named, reward_recorded_as_paid_iff .exact feeCfg 0 _ distinct named⟩

/-- A commitment that holds a thousand satoshi, which the fee of the transaction counts. -/
def valuedTx : Tx :=
  { commitmentTx with
    outputs := [⟨1000, [0x6a, 0x01, 0xab]⟩, ⟨5000000000, [0x51]⟩]
    witness := none }

def valuedFields : CoinbaseFields :=
  ⟨none, some ⟨some (hexEncode valuedTx.write), some (-5000001000)⟩⟩

def valuedWatched : Watched :=
  (run (Watched.step .exact) (.start feeCfg 0) (dictatedStart valuedFields)).getD (.start feeCfg 0)

def valuedConn : Conn := (valuedWatched.pool.conns 0).getD (Conn.new feeCfg [])

/-- A submit that solved a block on the job it names. -/
theorem Recorded.of_observed {p : Pool} {job : Job} {found : BlockFound} {row : Store.BlockFound}
    (called : methodOf request.method = .submit) (here : p.conns i = some c)
    (observed : .blockFound found ∈ (handleMessage fp env p.server c request).observed)
    (named : (request.params.submission.bind fun sub => findJob p.server.jobs sub.jobId) = some job)
    (adds : Adds found row) :
    ∃ parts, Recorded fp p (.message i env request) job parts row := by
  have hashed : ∃ w, Reaches fp env p.server c request.params w := by
    rw [handleMessage, called] at observed
    rcases handleSubmit_cases fp env p.server c request.params with
      ⟨w, _, reaches, _⟩ | ⟨_, unhashed⟩
    · exact ⟨w, reaches⟩
    · exact absurd observed (unhashed.unfound found)
  obtain ⟨w, reaches⟩ := hashed
  rw [reaches.submission, Option.bind_some, reaches.job] at named
  exact ⟨w.parts, i, env, request, c, w, found, rfl, called, here, reaches, Option.some.inj named,
    rfl, observed, adds⟩

/-- The first row of an empty table. -/
theorem adds_first {found : BlockFound} (high : ¬found.height.toInt32.toInt ≤ 0) :
    ∃ row, Adds found row := by
  rcases Store.storeRecordBlock_rows found.height.toInt32.toInt (text found.blockHash)
    found.rewardSats found.feeSats
    (if found.accepted then .pending else .rejected) 0 .empty with ⟨_, low | known⟩ | ⟨row, rows, _⟩
  · exact absurd low high
  · exact absurd known List.not_mem_nil
  · refine ⟨row, 0, .empty, ?_, List.not_mem_nil⟩
    rw [Reconcile.onBlockFoundCb, rows]
    exact List.mem_append_right _ (List.mem_singleton.mpr rfl)

/-- The thousand satoshi are recorded as a part of the reward, and a hundredth of them as fee. -/
theorem commitment_recorded_as_reward : ¬Along (Watched.step .exact)
    (fun w event _ => ∀ job parts row, Recorded .exact w.pool event job parts row →
      RecordedAsPaid feeCfg job parts row)
    (.start feeCfg 0)
      (dictatedStart valuedFields ++ [soloMessage "mining.submit" (soloSubmit "00000001")]) := by
  intro along
  have ended : (run (Watched.step .exact) (.start feeCfg 0) (dictatedStart valuedFields)).isSome ∧
      (valuedWatched.pool.conns 0).isSome ∧
      methodOf (soloRequest "mining.submit" (soloSubmit "00000001")).method = .submit ∧
      ((soloRequest "mining.submit" (soloSubmit "00000001")).params.submission.bind fun sub =>
        findJob valuedWatched.pool.server.jobs sub.jobId) = some (dictatedJob valuedFields) ∧
      (dictatedJob valuedFields).coinbasetxnHex = some (hexEncode valuedTx.write) ∧
      spendableValue (hexEncode valuedTx.write) ≠ .ok (max 0 (dictatedJob valuedFields).valueSats) ∧
      ∃ found ∈ foundBlocks (handleMessage .exact soloEnv valuedWatched.pool.server valuedConn
          (soloRequest "mining.submit" (soloSubmit "00000001"))).observed,
        ¬found.height.toInt32.toInt ≤ 0 ∧
        reportedFee feeCfg (dictatedJob valuedFields) = .ok found.feeSats ∧
        found.rewardSats = (dictatedJob valuedFields).valueSats - found.feeSats := by
    decide +kernel
  obtain ⟨runs, there, called, named, dictated, less, found, observed, high, reported, reward⟩ :=
    ended
  have ran : run (Watched.step .exact) (.start feeCfg 0) (dictatedStart valuedFields) =
        some valuedWatched := eq_some_getD runs _
  have here : valuedWatched.pool.conns 0 = some valuedConn := eq_some_getD there _
  have steps : ∃ after, valuedWatched.step .exact
      (soloMessage "mining.submit" (soloSubmit "00000001")) = some after := by
    simp only [soloMessage, Watched.step, Pool.step, here, Option.map_some]
    exact ⟨_, rfl⟩
  obtain ⟨after, stepped⟩ := steps
  obtain ⟨row, adds⟩ := adds_first high
  obtain ⟨parts, recorded⟩ := Recorded.of_observed called here (mem_foundBlocks observed) named adds
  obtain ⟨asPaid, _⟩ := along.after ran after stepped
  obtain ⟨r, replaces, agrees⟩ := asPaid _ _ _ recorded
  have valued := (replaces.matches_iff reported reward adds).mp agrees
  rw [Job.AsValued, dictated] at valued
  exact less valued

end SimplePool.Stratum
