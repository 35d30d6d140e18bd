import SimplePool.Coinbase.TemplateRewrite
import SimplePool.Coinbase.WindowValue

/-! The byte budget of a coinbase that pays a window: what the builders predict before
they know the outputs, against what they then write. -/
namespace SimplePool.Coinbase
open Wire

/-- The configured size of a coinbase, or the default. -/
def byteLimit (maxBytes : Nat) : Nat := if maxBytes = 0 then defaultMaxBytes else maxBytes

theorem payoutBudget_eq (maxBytes fixedBytes : Nat) :
    payoutBudget maxBytes fixedBytes = byteLimit maxBytes - fixedBytes := rfl

theorem sizeT_eq (small : n < 2 ^ 64) : sizeT n = n := Nat.mod_eq_of_lt small

theorem length_pushVarint (n : Nat) :
    (pushVarint n).length = if n < 253 then 1 else if n ≤ 0xffff then 3 else if n ≤ 0xffffffff
      then 5 else 9 := by
  rw [pushVarint]
  split_ifs <;> simp [pushU32Le_eq, pushU64Le_eq]

theorem length_pushOutput (value : Nat) (spk : Bytes) :
    (pushOutput value spk).length = 8 + (pushVarint spk.length).length + spk.length := by
  simp [pushOutput, pushU64Le_eq, Nat.add_assoc]

theorem outSerSize_le (n : Nat) : outSerSize n ≤ 8 + (pushVarint n).length + n := by
  rw [outSerSize, length_pushVarint]
  split_ifs <;> omega

theorem outSerSize_eq (small : n < 2 ^ 32) : outSerSize n = 8 + (pushVarint n).length + n := by
  rw [outSerSize, length_pushVarint]
  split_ifs <;> omega

/-- The bytes of the outputs that replace the reward. -/
def replBytes (repl : List ReplOut) : Nat := (repl.map fun out => outSerSize out.spk.length).sum

theorem length_replBytes (scripts : ∀ out ∈ repl, out.spk.length ≤ spkCap) :
    (repl.flatMap pushReplOut).length = replBytes repl := by
  induction repl with
  | nil => rfl
  | cons out rest ih =>
    have small := scripts out List.mem_cons_self
    rw [List.flatMap_cons, List.length_append,
      ih fun other member => scripts other (List.mem_cons_of_mem _ member),
      pushReplOut, length_pushOutput, ← outSerSize_eq (by rw [spkCap] at small; omega), replBytes,
      replBytes, List.map_cons, List.sum_cons]

/-- The longest script an address stands for. -/
theorem addressToScript_size (resolved : addressToScript addr cap = .ok spk) : spk.length ≤ 34 := by
  rw [addressToScript, segwitToScript, base58ToScript] at resolved
  simp only [fail] at resolved
  repeat' (split at resolved)
  all_goals first
    | contradiction
    | (obtain rfl := Except.ok.inj resolved
       simp only [List.length_append, List.length_cons, List.length_nil, List.length_take]
       omega)

/-- How many of the sizes are taken, and what they come to: down the list, each that still
fits. One place is kept for the operator. -/
def fill (cap budget : Nat) : List Nat → Nat × Nat → Nat × Nat
  | [], taken => taken
  | size :: rest, (count, bytes) =>
    if count + 1 < cap ∧ bytes + size ≤ budget then fill cap budget rest (count + 1, bytes + size)
    else fill cap budget rest (count, bytes)

theorem fill_le (cap budget : Nat) (sizes : List Nat) (count bytes : Nat) (within : bytes ≤ budget)
    (room : count < cap) :
    (fill cap budget sizes (count, bytes)).2 ≤ budget ∧
    (fill cap budget sizes (count, bytes)).1 < cap := by
  induction sizes generalizing count bytes with
  | nil => exact ⟨within, room⟩
  | cons size rest ih =>
    rw [fill]
    split
    next fits => exact ih _ _ fits.2 fits.1
    next => exact ih _ _ within room

/-- What paying this one takes. -/
def payeeBytes (payee : Payee) : Nat :=
  match addressToScript (payee.address.getD []) spkCap with
  | .ok spk => outSerSize spk.length
  | .error _ => 0

/-- The outputs that the floor lets through. -/
def payoutSizes (floor : Int) (payees : List Payee) : List Nat :=
  (payees.filter fun payee => decide (floor ≤ payee.sats)).map payeeBytes

theorem payDown_fill (measured : p.payoutBytes = replBytes p.outs)
    (done : payDown floor cap budget payees k p = .ok q) :
    q.payoutBytes = replBytes q.outs ∧
      (q.outs.length, q.payoutBytes) = fill cap budget (payoutSizes floor payees)
        (p.outs.length, p.payoutBytes) := by
  induction payees generalizing k p with
  | nil =>
    obtain rfl := Except.ok.inj done
    exact ⟨measured, rfl⟩
  | cons payee rest ih =>
    simp only [payDown] at done
    split at done
    next small =>
      obtain ⟨bytes, filled⟩ := ih (p := p.belowFloor payee) measured done
      refine ⟨bytes, ?_⟩
      rw [filled, payoutSizes, payoutSizes, List.filter_cons_of_neg (by simpa using small)]
      rfl
    next enough =>
      rw [payoutSizes, List.filter_cons_of_pos (by simpa using enough), List.map_cons,
        ← payoutSizes, fill]
      split at done
      next full =>
        obtain ⟨bytes, filled⟩ := ih (p := p.capped payee) measured done
        rw [if_neg (by omega)]
        exact ⟨bytes, filled⟩
      next open_ =>
        obtain ⟨spk, script, done⟩ := bind_ok done
        rw [payeeBytes, script]
        dsimp only
        split at done
        next big =>
          obtain ⟨bytes, filled⟩ := ih (p := p.capped payee) measured done
          rw [if_neg (by omega)]
          exact ⟨bytes, filled⟩
        next fits =>
          have grown : (p.paid k payee spk).payoutBytes = replBytes (p.paid k payee spk).outs := by
            simp [Paying.paid, replBytes, measured]
          obtain ⟨bytes, filled⟩ := ih (p := p.paid k payee spk) grown done
          rw [if_pos (by omega), filled]
          refine ⟨bytes, ?_⟩
          simp [Paying.paid]

theorem addAt_scripts (outs : List ReplOut) (i : Nat) (sats : Int) :
    (addAt outs i sats).map ReplOut.spk = outs.map ReplOut.spk := by
  induction outs generalizing i with
  | nil => simp [addAt]
  | cons out rest ih =>
    cases i with
    | zero => simp [addAt]
    | succ i => simpa [addAt] using ih i

/-- Amounts do not change the size of an output. -/
theorem spreadDropped_scripts (spread : spreadDropped scale payable p = .ok (outs, result)) :
    outs.map ReplOut.spk = p.outs.map ReplOut.spk := by
  rw [spreadDropped] at spread
  split at spread
  next =>
    obtain ⟨scaled, redistributed, spread⟩ := bind_ok spread
    obtain ⟨rfl, _⟩ := Prod.mk.inj (Except.ok.inj spread)
    simp only [redistribute] at redistributed
    obtain ⟨assigned, _, redistributed⟩ := bind_ok redistributed
    split at redistributed
    next =>
      obtain rfl := Except.ok.inj redistributed
      rw [addAt_scripts]
      simp
    next =>
      split at redistributed
      next => cases redistributed
      next =>
        obtain rfl := Except.ok.inj redistributed
        simp
  next =>
    obtain ⟨rfl, _⟩ := Prod.mk.inj (Except.ok.inj spread)
    rfl

theorem replBytes_congr (same : outs.map ReplOut.spk = outs'.map ReplOut.spk) :
    replBytes outs = replBytes outs' := by
  have sizes := congrArg (List.map fun spk => outSerSize spk.length) same
  simp only [List.map_map] at sizes
  exact congrArg List.sum sizes

/-- The payouts that a window comes to under a budget. -/
def payouts (floor : Int) (maxBytes fixedBytes : Nat) (payees : List Payee) : Nat × Nat :=
  fill maxReplOuts (payoutBudget maxBytes fixedBytes) (payoutSizes (effectiveFloor floor) payees)
    (0, 0)

theorem payouts_le (floor : Int) (maxBytes fixedBytes : Nat) (payees : List Payee) :
    (payouts floor maxBytes fixedBytes payees).2 ≤ payoutBudget maxBytes fixedBytes ∧
      (payouts floor maxBytes fixedBytes payees).1 < maxReplOuts :=
  fill_le _ _ _ 0 0 (Nat.zero_le _) (by decide)

/-- The outputs of a window: its payouts, and the operator's output beside them. -/
theorem resolveWindowOutputs_bytes
    (resolved : resolveWindowOutputs scale value payees operatorAddress feeBps maxBytes fixedBytes
      floor maxReplOuts = .ok (outs, result)) :
    ∃ operator, operatorFee value operatorAddress feeBps = .ok operator ∧
      replBytes outs = (payouts floor maxBytes fixedBytes payees).2 + replBytes operator.toList ∧
      outs.length = (payouts floor maxBytes fixedBytes payees).1 + operator.toList.length ∧
      9 ≤ (payouts floor maxBytes fixedBytes payees).2 := by
  obtain ⟨_, operator, p, miners, spread, fee, claims, down, someone, redistributed, added⟩ :=
    resolveWindowOutputs_ok resolved
  have sound : p.Sound := payDown_sound (dust_le_effectiveFloor floor) ⟨by simp, rfl, rfl⟩ down
  obtain ⟨measured, filled⟩ := payDown_fill rfl down
  have scripts := spreadDropped_scripts redistributed
  have length : miners.length = p.outs.length := by simpa using congrArg List.length scripts
  obtain ⟨rfl, _⟩ := withOperator_ok added
  have taken : (p.outs.length, p.payoutBytes) = payouts floor maxBytes fixedBytes payees := filled
  rw [← taken]
  refine ⟨operator, fee, ?_, ?_, ?_⟩
  · rw [measured, ← replBytes_congr scripts, replBytes, List.map_append, List.sum_append, replBytes,
      replBytes]
  · rw [List.length_append, length]
  · rw [sound.paidCount] at someone
    rw [measured]
    cases present : p.outs with
    | nil => exact absurd (congrArg List.length present) someone
    | cons first rest =>
      rw [replBytes, List.map_cons, List.sum_cons, outSerSize]
      dsimp only
      split_ifs <;> omega

/-- The serialised coinbase, extranonces and all. -/
def Parts.size (parts : Parts) (extranonce1Size extranonce2Size : Nat) : Nat :=
  parts.cb1.length + extranonce1Size + extranonce2Size + parts.cb2.length

/-- What is reserved for the witness commitment. -/
def commitmentBytes (hex : Option Bytes) : Nat :=
  match nonEmpty hex with
  | none => 0
  | some hex => if hex.length / 2 = 0 then 0 else outSerSize (hex.length / 2)

theorem decodeCommitment_bytes (decoded : decodeCommitment hex = .ok commitment) :
    (commitment.toList.map (pushOutput 0)).flatten.length = commitmentBytes hex ∧
    commitment.toList.length ≤ 1 ∧
      commitmentBytes hex < 300 := by
  rw [decodeCommitment] at decoded
  rw [commitmentBytes]
  cases present : nonEmpty hex with
  | none =>
    rw [present] at decoded
    obtain rfl := Except.ok.inj decoded
    simp
  | some text =>
    rw [present] at decoded
    obtain ⟨bytes, read, decoded⟩ := bind_ok decoded
    obtain rfl := Except.ok.inj decoded
    have some : text.length ≠ 0 := by
      unfold nonEmpty at present
      split at present
      next => simp [← Option.some.inj present]
      next => cases present
    have pairs := need_ok read
    rw [hexDecode] at pairs
    split at pairs
    next => cases pairs
    next even =>
      split at pairs
      next => cases pairs
      next short =>
        have length := hexPairs_length pairs
        have small : bytes.length < 2 ^ 32 := by omega
        dsimp only
        rw [if_neg (by omega), ← length]
        refine ⟨?_, by simp, ?_⟩
        · rw [outSerSize_eq small]
          simp [length_pushOutput]
        · rw [outSerSize]
          split_ifs <;> omega

/-- The operator's output is no larger than what is reserved for it. -/
theorem operatorFee_bytes (paid : operatorFee value operatorAddress feeBps = .ok operator) :
    replBytes operator.toList ≤ (if (nonEmpty operatorAddress).isSome then outSerSize 34 else 0) ∧
    operator.toList.length ≤ 1 := by
  rw [operatorFee] at paid
  cases present : nonEmpty operatorAddress with
  | none =>
    rw [present] at paid
    obtain rfl := Except.ok.inj paid
    simp [replBytes]
  | some address =>
    rw [present] at paid
    dsimp only at paid
    split at paid
    next =>
      obtain rfl := Except.ok.inj paid
      simp [replBytes]
    next =>
      obtain ⟨product, _, paid⟩ := bind_ok paid
      split at paid
      next =>
        obtain rfl := Except.ok.inj paid
        simp [replBytes]
      next =>
        obtain ⟨spk, script, paid⟩ := bind_ok paid
        obtain rfl := Except.ok.inj paid
        have size := addressToScript_size script
        refine ⟨?_, by simp⟩
        simp only [replBytes, Option.toList_some, List.map_singleton, List.sum_singleton,
          Option.isSome_some, if_true, outSerSize]
        split_ifs <;> omega

theorem checkScriptSig_ok (checked : checkScriptSig length height tag extranonces = .ok u) :
    length ≤ 100 := by
  rw [checkScriptSig] at checked
  split at checked
  next => cases checked
  next ranged => omega

/-- What the builder has established when it succeeds. -/
theorem buildWindow_ok
    (built : buildWindow scale height value payees operatorAddress feeBps witnessCommitment
      coinbaseTag jobSalt size1 size2 maxBytes floor = .ok (parts, result)) :
    ∃ repl commitment ssLen,
      resolveWindowOutputs scale value payees operatorAddress feeBps maxBytes
        (sizeT (envelopeBytes (sizeT ((bip34HeightPush height).length +
          (cbTagPush coinbaseTag jobSalt).length + size1 + size2)) +
          commitmentBytes witnessCommitment + if (nonEmpty operatorAddress).isSome
            then outSerSize 34 else 0))
        floor maxReplOuts = .ok (repl, result) ∧
      (repl.map ReplOut.sats).sum = value ∧
      decodeCommitment witnessCommitment = .ok commitment ∧
      ssLen = sizeT ((bip34HeightPush height).length + (cbTagPush coinbaseTag jobSalt).length +
        sizeT (size1 + size2)) ∧
      ssLen ≤ 100 ∧
      parts = assembleParts 2 (bip34HeightPush height) (cbTagPush coinbaseTag jobSalt) ssLen
        (repl.map pushReplOut ++ commitment.toList.map (pushOutput 0)) := by
  rw [buildWindow] at built
  obtain ⟨⟨repl, resolved⟩, window, built⟩ := bind_ok built
  obtain ⟨emitted, summed, built⟩ := bind_ok built
  obtain ⟨commitment, decoded, built⟩ := bind_ok built
  dsimp only at built
  split at built
  next => cases built
  next balanced =>
    obtain ⟨u, checked, built⟩ := bind_ok built
    obtain ⟨rfl, rfl⟩ := Prod.mk.inj (Except.ok.inj built)
    rw [cbTagPushLen_eq] at window
    exact ⟨repl, commitment, _, window, (int64_ok summed).1.symm.trans (not_not.mp balanced),
      decoded, rfl, checkScriptSig_ok checked, rfl⟩

theorem assembleParts_size (version : Nat) (heightPush push : Bytes) (ssLen size1 size2 : Nat)
    (outputs : List Bytes)
    (short : ssLen ≤ 100) : (assembleParts version heightPush push ssLen outputs).size size1 size2 =
      50 + heightPush.length + push.length + size1 + size2 + (pushVarint outputs.length).length +
        outputs.flatten.length := by
  have ssBytes : (pushVarint ssLen).length = 1 := by
    rw [length_pushVarint, if_pos (by omega)]
  have oneBytes : (pushVarint 1).length = 1 := rfl
  simp only [Parts.size, assembleParts, List.length_append, pushU32Le_eq, length_encode,
    List.length_replicate, ssBytes, oneBytes]
  omega

/-- A coinbase from scratch stays within its limit. -/
theorem buildWindow_within
    (built : buildWindow scale height value payees operatorAddress feeBps witnessCommitment
      coinbaseTag jobSalt size1 size2
      maxBytes floor = .ok (parts, result)) (fits : parts.size size1 size2 < 2 ^ 64) :
    parts.size size1 size2 ≤ byteLimit maxBytes := by
  obtain ⟨repl, commitment, ssLen, window, _, decoded, same, short, rfl⟩ := buildWindow_ok built
  have scripts : ∀ out ∈ repl, out.spk.length ≤ spkCap :=
    fun out member => ((resolveWindowOutputs_payable window).2 out member).spk
  have whole : (bip34HeightPush height).length + (cbTagPush coinbaseTag jobSalt).length + size1 +
        size2 = ssLen := by
    rw [assembleParts_size _ _ _ _ _ _ _ short] at fits
    rw [same, sizeT_eq (n := size1 + size2) (by omega), sizeT_eq (by omega)]
    omega
  obtain ⟨committed, commitments, small⟩ := decodeCommitment_bytes decoded
  have written : (repl.map pushReplOut ++ commitment.toList.map (pushOutput 0)).flatten.length =
      replBytes repl + commitmentBytes witnessCommitment := by
    rw [List.flatten_append, List.length_append, committed, ← List.flatMap_def,
      length_replBytes scripts]
  rw [whole, sizeT_eq (n := ssLen) (by omega), envelopeBytes, if_pos (by omega)] at window
  have reserved : (if (nonEmpty operatorAddress).isSome = true then outSerSize 34 else 0) ≤ 43 := by
    split
    next => exact Nat.le_refl _
    next => omega
  rw [sizeT_eq (by omega)] at window
  obtain ⟨operator, fee, bytes, count, some⟩ := resolveWindowOutputs_bytes window
  obtain ⟨operatorFits, operatorCount⟩ := operatorFee_bytes fee
  obtain ⟨within, places⟩ := payouts_le floor maxBytes
    (4 + 1 + 36 + 1 + ssLen + 4 + 3 + 4 + commitmentBytes witnessCommitment +
      if (nonEmpty operatorAddress).isSome = true then outSerSize 34 else 0) payees
  have counted :
      (pushVarint (repl.map pushReplOut ++ commitment.toList.map (pushOutput 0)).length).length ≤
        3 := by
    rw [length_pushVarint, List.length_append, List.length_map, List.length_map]
    rw [maxReplOuts, maxPayoutOutputs] at places
    split_ifs <;> omega
  rw [payoutBudget_eq] at within
  rw [assembleParts_size _ _ _ _ _ _ _ short, written]
  omega

/-- What a preserved output takes. -/
def copyBytes (out : CbOut) : Nat := 8 + (pushVarint out.spkLen).length + out.spkLen

theorem copyOutput_length (copied : copyOutput tx out = .ok bytes) :
    bytes.length = copyBytes out := by
  obtain ⟨spk, sliced, copied⟩ := bind_ok copied
  obtain rfl := Except.ok.inj copied
  have length := (slice_length (orUndefined_ok sliced)).1
  rw [length_pushOutput, copyBytes, length]

theorem emitOutputs_others_length (away : rewardIdx < i)
    (emitted : emitOutputs tx rewardIdx repl outs i = .ok bytes) :
    bytes.length = (outs.map copyBytes).sum := by
  induction outs generalizing i bytes with
  | nil =>
    obtain rfl := Except.ok.inj emitted
    rfl
  | cons out rest ih =>
    rw [emitOutputs, decide_eq_false (by omega)] at emitted
    obtain ⟨here, copied, emitted⟩ := bind_ok emitted
    obtain ⟨more, later, emitted⟩ := bind_ok emitted
    obtain rfl := Except.ok.inj emitted
    rw [List.length_append, copyOutput_length copied, ih (by omega) later, List.map_cons,
      List.sum_cons]

/-- The outputs that are written: the replacements, and every output but the reward. -/
theorem emitOutputs_length (scripts : ∀ out ∈ repl, out.spk.length ≤ spkCap)
    (inside : k < outs.length) (emitted : emitOutputs tx (i + k) repl outs i = .ok bytes) :
    bytes.length = replBytes repl + ((outs.eraseIdx k).map copyBytes).sum := by
  induction outs generalizing i k bytes with
  | nil => simp at inside
  | cons out rest ih =>
    cases k with
    | zero =>
      rw [emitOutputs, decide_eq_true (by omega)] at emitted
      obtain ⟨here, copied, emitted⟩ := bind_ok emitted
      obtain ⟨more, later, emitted⟩ := bind_ok emitted
      obtain rfl := Except.ok.inj emitted
      obtain rfl := Except.ok.inj copied
      rw [List.length_append, length_replBytes scripts, emitOutputs_others_length (by omega) later,
        List.eraseIdx_zero, List.tail_cons]
    | succ k =>
      rw [emitOutputs, decide_eq_false (by omega)] at emitted
      obtain ⟨here, copied, emitted⟩ := bind_ok emitted
      obtain ⟨more, later, emitted⟩ := bind_ok emitted
      obtain rfl := Except.ok.inj emitted
      have rest := ih (i := i + 1) (k := k) (Nat.lt_of_succ_lt_succ inside)
        (by rwa [Nat.add_comm k 1, ← Nat.add_assoc] at later)
      rw [List.length_append, copyOutput_length copied, rest, List.eraseIdx_cons_succ,
        List.map_cons, List.sum_cons]
      omega

/-- Whether an operator's output, with the count of all outputs, still fits beside the
payouts: `others` are the outputs of the template that stay. The budget has three bytes for
the count. -/
def OperatorFits (floor : Int) (maxBytes fixedBytes others : Nat) (payees : List Payee)
    (operator : Option ReplOut) : Prop :=
  (payouts floor maxBytes fixedBytes payees).2 + replBytes operator.toList +
    (pushVarint
      (others + (payouts floor maxBytes fixedBytes payees).1 + operator.toList.length)).length ≤
      payoutBudget maxBytes fixedBytes + 3

/-- It always does when there is no such output, and the count is not that of a giant. -/
theorem operatorFits_none (few : others < 0xff00) :
    OperatorFits floor maxBytes fixedBytes others payees none := by
  obtain ⟨within, places⟩ := payouts_le floor maxBytes fixedBytes payees
  rw [maxReplOuts, maxPayoutOutputs] at places
  have counted :
      (pushVarint (others + (payouts floor maxBytes fixedBytes payees).1 + 0)).length ≤ 3 := by
    rw [length_pushVarint]
    split_ifs <;> omega
  simp only [OperatorFits, Option.toList_none, replBytes, List.map_nil, List.sum_nil,
    List.length_nil]
  omega

theorem sum_copyBytes_ge (outs : List CbOut) :
    (outs.map fun out => outSerSize out.spkLen).sum ≤ (outs.map copyBytes).sum ∧
    9 * outs.length ≤ (outs.map copyBytes).sum := by
  induction outs with
  | nil => exact ⟨Nat.le_refl _, Nat.le_refl _⟩
  | cons out rest ih =>
    have one := outSerSize_le out.spkLen
    have nine : 1 ≤ (pushVarint out.spkLen).length := by
      rw [length_pushVarint]
      split_ifs <;> omega
    simp only [List.map_cons, List.sum_cons, List.length_cons, copyBytes] at ih ⊢
    omega

/-- In a coinbase that is not larger than a script can be, the prediction is exact. -/
theorem sum_copyBytes_eq (outs : List CbOut)
    (small : (outs.map fun out => outSerSize out.spkLen).sum < 2 ^ 32) :
    (outs.map copyBytes).sum = (outs.map fun out => outSerSize out.spkLen).sum := by
  induction outs with
  | nil => rfl
  | cons out rest ih =>
    simp only [List.map_cons, List.sum_cons] at small ⊢
    have length : out.spkLen < 2 ^ 32 := by
      have : out.spkLen ≤ outSerSize out.spkLen := by
        rw [outSerSize]
        omega
      omega
    rw [ih (by omega), copyBytes, ← outSerSize_eq length]

/-- The size of a rewritten coinbase, against what was predicted for it. -/
theorem template_size {parts : Parts} {t : Template} {push prevout scriptSig outputs : Bytes}
    (cb1 : parts.cb1 = pushU32Le t.version ++ pushVarint 1 ++ prevout ++ pushVarint ssLen ++
      scriptSig ++ push)
    (cb2 : parts.cb2 = pushU32Le t.sequence ++ counter ++ outputs ++ pushU32Le t.locktime)
    (short : ssLen ≤ 100) (prevoutSize : prevout.length = 36) :
    parts.size size1 size2 =
      50 + (scriptSig.length + push.length + size1 + size2) + counter.length + outputs.length := by
  have ssBytes : (pushVarint ssLen).length = 1 := by
    rw [length_pushVarint, if_pos (by omega)]
  have oneBytes : (pushVarint 1).length = 1 := rfl
  simp only [Parts.size, cb1, cb2, List.length_append, pushU32Le_eq, length_encode, ssBytes,
    oneBytes, prevoutSize]
  omega

/-- On every template that is parsed, the operator's output fits if one is due. -/
def TemplateFits (payees : List Payee) (operatorAddress : Option Bytes) (feeBps : FeeBps)
    (maxBytes : Nat) (floor : Int)
    (hex : Bytes) (coinbaseTag : Option Bytes) (jobSalt : UInt32) (size1 size2 : Nat) : Prop :=
  ∀ buf t i c operator, hexPairs hex = some buf → parseTemplate buf = .ok t →
    t.scan.rewardIdx = some i →
    t.scan.outs[i]? = some c → operatorFee (toInt64 c.value) operatorAddress feeBps = .ok operator →
    OperatorFits floor maxBytes (templateFixedBytes t i
      (newScriptSigLen t.ssLen (cbTagPushLen coinbaseTag jobSalt) size1 size2))
      (t.scan.outs.length - 1) payees operator

/-- A coinbase from a template stays within its limit exactly when the operator's output
fits. The limit is a C `int`, and the coinbase an object in memory. -/
theorem buildFromTemplate_within_iff
    (built : buildFromTemplate scale (.window payees operatorAddress feeBps maxBytes floor) hex
      coinbaseTag jobSalt size1 size2 = .ok (parts, hasWitness)) (limit : maxBytes < 2 ^ 31)
      (fits : parts.size size1 size2 < 2 ^ 64) :
    parts.size size1 size2 ≤ byteLimit maxBytes ↔
      TemplateFits payees operatorAddress feeBps maxBytes floor hex coinbaseTag jobSalt size1
        size2 := by
  obtain ⟨buf, t, i, c, repl, scriptSig, prevout, outputs, pairs, parse, found, scanned, rfl,
    resolved, short, _,
    prevoutSlice, scriptSigSlice, emitted, cb1, cb2⟩ := buildFromTemplate_spec built
  obtain ⟨⟨repl, result⟩, window, rfl⟩ :
    ∃ pair, resolveWindowOutputs scale (toInt64 c.value) payees operatorAddress feeBps
      maxBytes (templateFixedBytes t i
        (newScriptSigLen t.ssLen (cbTagPushLen coinbaseTag jobSalt) size1 size2)) floor
      maxReplOuts = .ok pair ∧ pair.1 = repl := by
    simp only [Resolver.resolve] at resolved
    cases window : resolveWindowOutputs scale (toInt64 c.value) payees operatorAddress feeBps
      maxBytes
        (templateFixedBytes t i (newScriptSigLen t.ssLen (cbTagPushLen coinbaseTag jobSalt) size1
          size2)) floor maxReplOuts with
    | error failure =>
      rw [window] at resolved
      cases resolved
    | ok pair =>
      rw [window] at resolved
      exact ⟨pair, rfl, Except.ok.inj resolved⟩
  dsimp only at emitted cb2
  obtain ⟨inside, _⟩ := List.getElem?_eq_some_iff.mp scanned
  have scripts : ∀ out ∈ repl, out.spk.length ≤ spkCap :=
    fun out member => ((resolveWindowOutputs_payable window).2 out member).spk
  have written := emitOutputs_length (i := 0) scripts inside (by rwa [Nat.zero_add])
  obtain ⟨atLeast, nine⟩ := sum_copyBytes_ge (t.scan.outs.eraseIdx i)
  have ssSize := (slice_length scriptSigSlice).1
  rw [template_size cb1 cb2 short (slice_length prevoutSlice).1] at fits ⊢
  -- nothing wraps, since the coinbase itself is as large as all of this
  have whole : newScriptSigLen t.ssLen (cbTagPush coinbaseTag jobSalt).length size1 size2 =
      t.ssLen + (cbTagPush coinbaseTag jobSalt).length + size1 + size2 := by
    rw [newScriptSigLen, sizeT_eq (n := size1 + size2) (by omega), sizeT_eq (by omega)]
    omega
  obtain ⟨operator, fee, bytes, count, some⟩ := resolveWindowOutputs_bytes window
  have fixed : templateFixedBytes t i
    (newScriptSigLen t.ssLen (cbTagPushLen coinbaseTag jobSalt) size1 size2) =
      53 + (t.ssLen + (cbTagPush coinbaseTag jobSalt).length + size1 + size2) +
        ((t.scan.outs.eraseIdx i).map fun out => outSerSize out.spkLen).sum := by
    rw [cbTagPushLen_eq, whole, templateFixedBytes, envelopeBytes, if_pos (by omega),
      sizeT_eq (by omega)]
    omega
  have key : 50 + (scriptSig.length + (cbTagPush coinbaseTag jobSalt).length + size1 + size2) +
        (pushVarint (sizeT (t.scan.outs.length - 1 + repl.length))).length + outputs.length ≤
          byteLimit maxBytes ↔
      OperatorFits floor maxBytes (templateFixedBytes t i
        (newScriptSigLen t.ssLen (cbTagPushLen coinbaseTag jobSalt) size1 size2))
        (t.scan.outs.length - 1) payees operator := by
    obtain ⟨within, places⟩ := payouts_le floor maxBytes
      (templateFixedBytes t i
        (newScriptSigLen t.ssLen (cbTagPushLen coinbaseTag jobSalt) size1 size2)) payees
    generalize templateFixedBytes t i
      (newScriptSigLen t.ssLen (cbTagPushLen coinbaseTag jobSalt) size1 size2) = fixedBytes
      at window bytes count some fixed within places ⊢
    have limited : byteLimit maxBytes < 2 ^ 31 := by
      rw [byteLimit, defaultMaxBytes]
      split <;> omega
    have operatorCount := (operatorFee_bytes fee).2
    rw [payoutBudget_eq] at within
    rw [maxReplOuts, maxPayoutOutputs] at places
    have exact_ := sum_copyBytes_eq (t.scan.outs.eraseIdx i) (by omega)
    rw [List.length_eraseIdx_of_lt inside] at nine
    rw [OperatorFits, payoutBudget_eq, sizeT_eq (by omega), Nat.add_assoc (t.scan.outs.length - 1),
      ← count]
    omega
  constructor
  · intro small buf' t' i' c' operator' pairs' parse' found' scanned' fee'
    obtain rfl := Option.some.inj (pairs.symm.trans pairs')
    obtain rfl := Except.ok.inj (parse.symm.trans parse')
    obtain rfl := Option.some.inj (found.symm.trans found')
    obtain rfl := Option.some.inj (scanned.symm.trans scanned')
    obtain rfl := Except.ok.inj (fee.symm.trans fee')
    exact key.mp small
  · intro room
    exact key.mpr (room buf t i c operator pairs parse found scanned fee)

/-- Both builders against the limit: from scratch it is always kept, and from a template
exactly when the operator's output fits. -/
theorem window_budget (scale : Scale) (height : UInt32) (value : Int) (payees : List Payee)
    (operatorAddress : Option Bytes)
    (feeBps : FeeBps) (witnessCommitment : Option Bytes) (hex : Bytes) (coinbaseTag : Option Bytes)
    (jobSalt : UInt32) (size1 size2 maxBytes : Nat) (floor : Int) (limit : maxBytes < 2 ^ 31) :
    (∀ parts result, buildWindow scale height value payees operatorAddress feeBps witnessCommitment
      coinbaseTag jobSalt size1
      size2 maxBytes floor = .ok (parts, result) → parts.size size1 size2 < 2 ^ 64 →
      parts.size size1 size2 ≤ byteLimit maxBytes) ∧
    ∀ parts hasWitness, buildFromTemplate scale
      (.window payees operatorAddress feeBps maxBytes floor) hex coinbaseTag jobSalt
      size1 size2 = .ok (parts, hasWitness) → parts.size size1 size2 < 2 ^ 64 →
      (parts.size size1 size2 ≤ byteLimit maxBytes ↔
        TemplateFits payees operatorAddress feeBps maxBytes floor hex coinbaseTag jobSalt size1
          size2) := by
  constructor
  · intro parts result built fits
    exact buildWindow_within built fits
  · intro parts hasWitness built fits
    exact buildFromTemplate_within_iff built limit fits

/-- Three miners with a third each of what a one percent fee leaves. -/
def thirds : List Payee := List.replicate 3 ⟨some crowdAddress, 1650000000⟩

/-- The coinbase that pays them, and the operator, from a template. -/
def payThirds (maxBytes : Nat) : Result (Parts × Bool) :=
  buildFromTemplate .exact (.window thirds (some crowdAddress) .onePercent maxBytes 0)
    (hexEncode commitmentTx.write)
    (some (ascii "pool")) 7 4 8

theorem payThirds_size (maxBytes size : Nat)
    (measured : (payThirds maxBytes).toOption.map (fun built => built.1.size 4 8) = some size) :
    ∃ parts hasWitness, payThirds maxBytes = .ok (parts, hasWitness) ∧ parts.size 4 8 = size := by
  cases built : payThirds maxBytes with
  | error failure =>
    rw [built] at measured
    cases measured
  | ok pair =>
    rw [built] at measured
    exact ⟨pair.1, pair.2, rfl, Option.some.inj measured⟩

/-- With room for one output more, the operator's fits. -/
theorem window_budget_thirds :
    ∃ parts hasWitness, payThirds 230 = .ok (parts, hasWitness) ∧ parts.size 4 8 = 226 ∧
    TemplateFits thirds (some crowdAddress) ⟨100, by decide⟩ 230 0 (hexEncode commitmentTx.write)
      (some (ascii "pool")) 7 4 8 := by
  obtain ⟨parts, hasWitness, built, size⟩ := payThirds_size 230 226 (by decide +kernel)
  have budget := (window_budget .exact 0 0 thirds (some crowdAddress) ⟨100, by decide⟩ none
    (hexEncode commitmentTx.write)
    (some (ascii "pool")) 7 4 8 230 0 (by decide)).2 parts hasWitness built
  rw [size] at budget
  exact ⟨parts, hasWitness, built, size, (budget (by decide)).mp (by decide)⟩

/-- Under a limit of 200 bytes the payouts take all there is, and the operator's output
comes on top. -/
theorem operator_over_budget :
    ∃ parts hasWitness, payThirds 200 = .ok (parts, hasWitness) ∧
    ¬parts.size 4 8 ≤ byteLimit 200 := by
  obtain ⟨parts, hasWitness, built, size⟩ := payThirds_size 200 226 (by decide +kernel)
  exact ⟨parts, hasWitness, built, by rw [size]; decide⟩

end SimplePool.Coinbase
