import SimplePool.Coinbase.TemplateRewrite
import SimplePool.Main.WindowJob

/-! A template coinbase is read three times: by the builder, by the counter of its outputs,
and by the probe that asks the builder for the reward. The readings agree. -/
namespace SimplePool.Main
open Wire Coinbase

/-- `build_from_template_impl`: the builder for any resolver, which may keep something of
what it is handed. -/
def buildFromTemplateImpl {κ : Type} (replFn : Int → Nat → Result (List ReplOut × κ))
    (coinbaseTxHex : Bytes)
    (coinbaseTag : Option Bytes) (jobSalt : UInt32) (extranonce1Size extranonce2Size : Nat) :
    Result (Parts × Bool × κ) := do
  let tx ← decodeTemplateHex coinbaseTxHex
  let t ← parseTemplate tx
  let rewardIdx ← orUndefined t.scan.rewardIdx
  let rewardOut ← orUndefined t.scan.outs[rewardIdx]?
  let reward := toInt64 rewardOut.value
  let ssProbe :=
    newScriptSigLen t.ssLen (cbTagPushLen coinbaseTag jobSalt) extranonce1Size extranonce2Size
  let (repl, kept) ← replFn reward (templateFixedBytes t rewardIdx ssProbe)
  ensure (repl ≠ []) "resolver produced no outputs"
  let replTotal ← int64 (repl.map ReplOut.sats).sum
  ensure (replTotal = reward) ("replacement outputs sum to " ++ toString replTotal ++
    ", template reward is " ++ toString reward)
  let push := cbTagPush coinbaseTag jobSalt
  let newSsLen := newScriptSigLen t.ssLen push.length extranonce1Size extranonce2Size
  ensure (2 ≤ newSsLen ∧
    newSsLen ≤ 100) ("coinbase scriptSig length " ++ toString newSsLen ++ " out of range")
  let prevout ← orUndefined (slice tx t.prevoutOff 36)
  let scriptSig ← orUndefined (slice tx t.ssOff t.ssLen)
  let outputs ← emitOutputs tx rewardIdx repl t.scan.outs 0
  let newVout := sizeT (t.scan.outs.length - 1 + repl.length)
  let cb1 :=
    pushU32Le t.version ++ pushVarint 1 ++ prevout ++ pushVarint newSsLen ++ scriptSig ++ push
  let cb2 := pushU32Le t.sequence ++ pushVarint newVout ++ outputs ++ pushU32Le t.locktime
  .ok (⟨cb1, cb2⟩, t.hasWitness, kept)

/-- A resolver that notes the reward it is handed. -/
def noting (replFn : Int → Nat → Result (List ReplOut)) (reward : Int) (fixedBytes : Nat) :
    Result (List ReplOut × Int) := do
  let repl ← replFn reward fixedBytes
  .ok (repl, reward)

/-- `cb_reward_probe` -/
def cbRewardProbe (reward : Int) (_ : Nat) : Result (List ReplOut × Int) :=
  .ok ([⟨[0x51], reward⟩], reward)

theorem map_bind_result {α β γ : Type} (x : Result α) (next : α → Result β) (f : β → γ) :
    (x >>= next).map f = x >>= fun a => (next a).map f := by
  cases x with
  | error failure => rfl
  | ok a => rfl

theorem bind_map_result {α β γ : Type} (x : Result α) (f : α → β) (next : β → Result γ) :
    (x.map f >>= next) = x >>= fun a => next (f a) := by
  cases x with
  | error failure => rfl
  | ok a => rfl

/-- The builder of the model is this one, with a resolver that keeps nothing. -/
theorem buildFromTemplate_impl (scale : Scale) (resolver : Resolver) :
    buildFromTemplate scale resolver hex coinbaseTag jobSalt size1 size2 =
      (buildFromTemplateImpl (fun reward fixedBytes =>
        (resolver.resolve scale reward fixedBytes).map fun repl => (repl, ()))
        hex coinbaseTag jobSalt size1 size2).map fun (parts, hasWitness, _) =>
          (parts, hasWitness) := by
  rw [buildFromTemplate, buildFromTemplateImpl]
  simp only [map_bind_result, bind_map_result]
  rfl

/-- What the builder has read when it succeeds. -/
theorem buildFromTemplateImpl_spec {replFn : Int → Nat → Result (List ReplOut × κ)}
    (accepted : buildFromTemplateImpl replFn hex coinbaseTag jobSalt size1 size2 =
      .ok (parts, hasWitness, kept)) :
    ∃ buf t i c repl fixedBytes, decodeTemplateHex hex = .ok buf ∧ parseTemplate buf = .ok t ∧
    t.scan.rewardIdx = some i ∧
      t.scan.outs[i]? = some c ∧ replFn (toInt64 c.value) fixedBytes = .ok (repl, kept) ∧
      2 ≤ newScriptSigLen t.ssLen (cbTagPush coinbaseTag jobSalt).length size1 size2 ∧
      newScriptSigLen t.ssLen (cbTagPush coinbaseTag jobSalt).length size1 size2 ≤ 100 ∧
      ∃ scriptSig, slice buf t.ssOff t.ssLen = some scriptSig := by
  rw [buildFromTemplateImpl] at accepted
  obtain ⟨buf, decoded, accepted⟩ := bind_ok accepted
  obtain ⟨t, parsed, accepted⟩ := bind_ok accepted
  obtain ⟨i, found, accepted⟩ := bind_ok accepted
  obtain ⟨c, scanned, accepted⟩ := bind_ok accepted
  obtain ⟨⟨repl, kept'⟩, resolved, accepted⟩ := bind_ok accepted
  obtain ⟨_, _, accepted⟩ := bind_ok accepted
  obtain ⟨_, _, accepted⟩ := bind_ok accepted
  obtain ⟨_, _, accepted⟩ := bind_ok accepted
  obtain ⟨_, ranged, accepted⟩ := bind_ok accepted
  obtain ⟨_, _, accepted⟩ := bind_ok accepted
  obtain ⟨scriptSig, scriptSigSlice, accepted⟩ := bind_ok accepted
  obtain ⟨_, _, accepted⟩ := bind_ok accepted
  cases accepted
  obtain ⟨low, high⟩ := ensure_ok ranged
  exact ⟨buf, t, i, c, repl, _, decoded, parsed, orUndefined_ok found, orUndefined_ok scanned,
    resolved, low, high, scriptSig, orUndefined_ok scriptSigSlice⟩

theorem need_message {message message' : String} {value : Option α}
    (got : need message value = .ok a) :
    need message' value = .ok a := by
  rw [need_ok got]
  rfl

theorem skip_message {message message' : String} (skipped : skip message tx off n = .ok off') :
    skip message' tx off n = .ok off' := by
  rw [skip] at skipped ⊢
  split at skipped
  next => cases skipped
  next fits => rwa [if_neg fits]

/-- The counter finds the spendable outputs that the builder finds. -/
theorem countLoop_agrees (n : Nat) (read : readOutputs tx n scan = .ok scan')
    (spendable opReturns : Int32) :
    ∃ found opReturns', scan'.rewardCount = scan.rewardCount + found ∧
      countLoop tx n scan.off (spendable, opReturns) =
        .ok (spendable + Int32.ofNat found, opReturns') := by
  induction n generalizing scan spendable opReturns with
  | zero =>
    cases read
    exact ⟨0, opReturns, rfl, by rw [countLoop]; simp⟩
  | succ n ih =>
    rw [readOutputs] at read
    obtain ⟨⟨out, off⟩, readOut, read⟩ := bind_ok read
    obtain ⟨next, added, read⟩ := bind_ok read
    rw [readOutput] at readOut
    obtain ⟨⟨value, off₁⟩, readValue, readOut⟩ := bind_ok readOut
    obtain ⟨⟨spkLen, off₂⟩, readLen, readOut⟩ := bind_ok readOut
    obtain ⟨off₃, skipped, readOut⟩ := bind_ok readOut
    obtain ⟨opReturn, marked, readOut⟩ := bind_ok readOut
    cases readOut
    have here : countLoop tx (n + 1) scan.off (spendable, opReturns) =
        countLoop tx n off (if opReturn then (spendable, opReturns + 1)
          else (spendable + 1, opReturns)) := by
      rw [countLoop, need_message readValue]
      change (need "" (rdVarint tx off₁) >>= _) = _
      rw [need_message readLen]
      change (skip "" tx off₂ spkLen >>= _) = _
      rw [skip_message skipped]
      change (startsWithReturn tx off₂ spkLen >>= _) = _
      rw [marked]
      rfl
    rw [Scan.add] at added
    split at added
    next returns =>
      cases added
      obtain ⟨found, opReturns', grows, counted⟩ := ih read spendable (opReturns + 1)
      refine ⟨found, opReturns', grows, ?_⟩
      dsimp only at returns counted
      rw [here, if_pos returns, counted]
    next kept =>
      split at added
      next => cases added
      next =>
        cases added
        obtain ⟨found, opReturns', grows, counted⟩ := ih read (spendable + 1) opReturns
        dsimp only at grows kept counted
        refine ⟨1 + found, opReturns', by omega, ?_⟩
        rw [here, if_neg kept, counted, Int32.ofNat_add, ← Int32.add_assoc]
        rfl

theorem skip_ok (skipped : skip message tx off n = .ok off') :
    off' = sizeT (off + n) ∧ off' ≤ tx.length := by
  rw [skip] at skipped
  split at skipped
  next => cases skipped
  next fits =>
    cases skipped
    exact ⟨rfl, Nat.le_of_not_lt fits⟩

theorem rdFixed_ok (read : rdFixed width tx off = some (v, off')) :
    off' = off + width ∧ sizeT (off + width) ≤ tx.length := by
  rw [rdFixed] at read
  split at read
  next => cases read
  next fits =>
    cases read
    exact ⟨rfl, Nat.le_of_not_lt fits⟩

/-- ScriptSig and sequence in one step are the two steps, where the scriptSig is inside. -/
theorem skip_sequence (fits : Fits tx) (scriptSig : slice tx ssOff ssLen = some bytes)
    (skipped : skip message tx ssOff ssLen = .ok off) (sequence : rdU32 tx off = some (v, off')) :
    skip "" tx ssOff (ssLen + 4) = .ok off' := by
  have inside := slice_inside scriptSig
  have bound := fits
  rw [Fits] at bound
  have noWrap : sizeT (ssOff + ssLen + 4) = ssOff + ssLen + 4 := Nat.mod_eq_of_lt (by omega)
  obtain ⟨rfl, _⟩ := skip_ok skipped
  rw [fits.sizeT inside] at sequence
  obtain ⟨rfl, room⟩ := rdFixed_ok sequence
  rw [skip, ← Nat.add_assoc, noWrap, if_neg (by omega)]

/-- What the builder parses, the counter counts. -/
theorem coinbaseCountOutputs_agrees (fits : Fits tx) (decoded : decodeTemplateHex hex = .ok tx)
    (parsed : parseTemplate tx = .ok t) (scriptSig : slice tx t.ssOff t.ssLen = some bytes) :
    ∃ opReturns, coinbaseCountOutputs hex = .ok (1, opReturns) := by
  rw [parseTemplate] at parsed
  obtain ⟨⟨version, off₁⟩, readVersion, parsed⟩ := bind_ok parsed
  obtain ⟨⟨vin, off₂⟩, readVin, parsed⟩ := bind_ok parsed
  obtain ⟨_, one, parsed⟩ := bind_ok parsed
  obtain ⟨off₃, skipPrevout, parsed⟩ := bind_ok parsed
  obtain ⟨⟨ssLen, ssOff⟩, readSsLen, parsed⟩ := bind_ok parsed
  obtain ⟨off₄, skipScriptSig, parsed⟩ := bind_ok parsed
  obtain ⟨⟨sequence, off₅⟩, readSequence, parsed⟩ := bind_ok parsed
  obtain ⟨⟨vout, off₆⟩, readVout, parsed⟩ := bind_ok parsed
  obtain ⟨_, _, parsed⟩ := bind_ok parsed
  obtain ⟨_, _, parsed⟩ := bind_ok parsed
  obtain ⟨scan, readScan, parsed⟩ := bind_ok parsed
  obtain ⟨_, _, parsed⟩ := bind_ok parsed
  obtain ⟨⟨_, _⟩, _, parsed⟩ := bind_ok parsed
  obtain ⟨_, _, parsed⟩ := bind_ok parsed
  obtain ⟨_, single, parsed⟩ := bind_ok parsed
  cases parsed
  obtain rfl : vin = 1 := ensure_ok one
  have count : scan.rewardCount = 1 := ensure_ok single
  have behind := skip_sequence fits scriptSig skipScriptSig (need_ok readSequence)
  have inputs : skipInputs tx 1 off₂ = .ok off₅ := by
    rw [skipInputs, skip_message skipPrevout]
    change (need "" (rdVarint tx off₃) >>= _) = _
    rw [need_message readSsLen]
    change (skip "" tx ssOff (ssLen + 4) >>= _) = _
    rw [behind]
    rfl
  obtain ⟨found, opReturns, grows, counted⟩ := countLoop_agrees vout readScan 0 0
  obtain rfl : found = 1 := by
    dsimp only at grows
    omega
  refine ⟨opReturns, ?_⟩
  rw [coinbaseCountOutputs, decoded]
  change (need "" (rdU32 tx 0) >>= _) = _
  rw [need_message readVersion]
  change (need "" (rdVarint tx _) >>= _) = _
  rw [need_message readVin]
  change (skipInputs tx 1 off₂ >>= _) = _
  rw [inputs]
  change (need "" (rdVarint tx off₅) >>= _) = _
  rw [need_message readVout]
  exact counted

/-- The model's probe returns what the builder hands its probe. -/
theorem coinbaseTemplateReward_probe (counted : coinbaseCountOutputs hex = .ok (1, opReturns))
    (probed : buildFromTemplateImpl cbRewardProbe hex none 0 4 4 = .ok (parts, hasWitness, reward))
    (nonneg : 0 ≤ reward) :
    coinbaseTemplateReward hex = .ok reward := by
  obtain ⟨buf, t, i, c, repl, fixedBytes, decoded, parsed, found, scanned, handed, low, high, _⟩ :=
    buildFromTemplateImpl_spec probed
  cases handed
  rw [coinbaseTemplateReward, counted]
  change (decodeTemplateHex hex >>= _) = _
  rw [decoded]
  change (parseTemplate buf >>= _) = _
  rw [parsed]
  change (orUndefined t.scan.rewardIdx >>= _) = _
  rw [found]
  change (orUndefined t.scan.outs[i]? >>= _) = _
  rw [scanned]
  change (ensure _ "" >>= _) = _
  rw [ensure, if_pos ⟨low, high⟩]
  change (ensure _ "" >>= _) = _
  rw [ensure, if_pos nonneg]
  rfl

/-- The three readings of a template coinbase agree: what the builder hands its resolver,
the counter counts once and the probe returns. The string is an object in memory. -/
theorem template_readings_agree (replFn : Int → Nat → Result (List ReplOut)) (hex : Bytes)
    (coinbaseTag : Option Bytes)
    (jobSalt : UInt32) (size1 size2 : Nat) (parts : Parts) (hasWitness : Bool) (reward : Int)
    (inMemory : hex.length < 2 ^ 64)
    (accepted : buildFromTemplateImpl (noting replFn) hex coinbaseTag jobSalt size1 size2 =
      .ok (parts, hasWitness, reward)) :
    (∃ opReturns, coinbaseCountOutputs hex = .ok (1, opReturns)) ∧
      ∀ value, coinbaseTemplateReward hex = .ok value → value = reward := by
  obtain ⟨buf, t, i, c, repl, fixedBytes, decoded, parsed, found, scanned, handed, _, _, scriptSig,
      inside⟩ :=
    buildFromTemplateImpl_spec accepted
  obtain ⟨repl', _, handed⟩ := bind_ok handed
  cases handed
  have fits : Fits buf := by
    rw [Fits, hexPairs_length (decodeTemplateHex_ok.mp decoded)]
    omega
  refine ⟨coinbaseCountOutputs_agrees fits decoded parsed inside, fun value read => ?_⟩
  rw [coinbaseTemplateReward] at read
  obtain ⟨⟨_, _⟩, _, read⟩ := bind_ok read
  obtain ⟨_, _, read⟩ := bind_ok read
  obtain ⟨buf', decoded', read⟩ := bind_ok read
  obtain rfl := Except.ok.inj (decoded.symm.trans decoded')
  obtain ⟨t', parsed', read⟩ := bind_ok read
  obtain rfl := Except.ok.inj (parsed.symm.trans parsed')
  obtain ⟨i', found', read⟩ := bind_ok read
  obtain rfl := Option.some.inj (found.symm.trans (orUndefined_ok found'))
  obtain ⟨c', scanned', read⟩ := bind_ok read
  obtain rfl := Option.some.inj (scanned.symm.trans (orUndefined_ok scanned'))
  obtain ⟨_, _, read⟩ := bind_ok read
  obtain ⟨_, _, read⟩ := bind_ok read
  exact (Except.ok.inj read).symm

def commitmentReading : Parts × Bool × Int :=
  match buildFromTemplateImpl (noting fun reward _ => .ok [⟨[0x51], reward⟩])
    (hexEncode commitmentTx.write)
    (some (ascii "pool")) 7 4 8 with
  | .ok reading => reading
  | .error _ => (⟨[], []⟩, false, 0)

theorem commitment_readings_agree :
    (∃ opReturns, coinbaseCountOutputs (hexEncode commitmentTx.write) = .ok (1, opReturns)) ∧
    ∀ value, coinbaseTemplateReward (hexEncode commitmentTx.write) = .ok value →
    value = 5000000000 :=
  template_readings_agree (fun reward _ => .ok [⟨[0x51], reward⟩]) (hexEncode commitmentTx.write)
    (some (ascii "pool")) 7 4 8
    commitmentReading.1 commitmentReading.2.1 5000000000 (by decide +kernel) (by decide +kernel)

end SimplePool.Main
