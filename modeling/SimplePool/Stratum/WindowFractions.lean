import Mathlib.Algebra.BigOperators.Ring.Finset
import Mathlib.Tactic.Positivity
import SimplePool.Coinbase.Budget
import SimplePool.Coinbase.WindowValue
import SimplePool.Lib.Proportion
import SimplePool.Store.Fractions
import SimplePool.Stratum.HeaderAgreement

/-! What a block does to the payout queue. When the node takes a block that pays the window,
the split is made once more, and every payee's share of the window is set against its share
of what the coinbase paid. -/
namespace SimplePool.Stratum
open Wire Coinbase Transition
open Store (FractionDelta)

/-- The one call of the resolver from the template builder. -/
def templateWindow (scale : Scale) (payees : List Payee) (operatorAddress : Option Bytes)
    (feeBps : FeeBps) (maxCoinbaseBytes : Nat) (payoutFloorSats : Int) (coinbaseTxHex : Bytes)
    (coinbaseTag : Option Bytes) (jobSalt : UInt32)
    (extranonce1Size extranonce2Size : Nat) : Result (List ReplOut × WindowResult) := do
  let tx ← decodeTemplateHex coinbaseTxHex
  let t ← parseTemplate tx
  let rewardIdx ← orUndefined t.scan.rewardIdx
  let rewardOut ← orUndefined t.scan.outs[rewardIdx]?
  let ssProbe :=
    newScriptSigLen t.ssLen (cbTagPushLen coinbaseTag jobSalt) extranonce1Size extranonce2Size
  resolveWindowOutputs scale (toInt64 rewardOut.value) payees operatorAddress feeBps
    maxCoinbaseBytes
    (templateFixedBytes t rewardIdx ssProbe) payoutFloorSats maxReplOuts

/-- `coinbase_build_window_from_template`: the resolver's context keeps its result. -/
def buildWindowFromTemplate (scale : Scale) (payees : List Payee) (operatorAddress : Option Bytes)
    (feeBps : FeeBps) (maxCoinbaseBytes : Nat) (payoutFloorSats : Int) (coinbaseTxHex : Bytes)
    (coinbaseTag : Option Bytes) (jobSalt : UInt32)
    (extranonce1Size extranonce2Size : Nat) : Result (Parts × WindowResult) := do
  let (parts, _) ← buildFromTemplate scale
    (.window payees operatorAddress feeBps maxCoinbaseBytes payoutFloorSats)
    coinbaseTxHex coinbaseTag jobSalt extranonce1Size extranonce2Size
  let (_, result) ← templateWindow scale payees operatorAddress feeBps maxCoinbaseBytes
    payoutFloorSats coinbaseTxHex
    coinbaseTag jobSalt extranonce1Size extranonce2Size
  .ok (parts, result)

/-- The builder that is run again for a found block. -/
def rebuildWindow (fp : Fpu) (cfg : Cfg) (c : Conn) (job : Job) : Result (Parts × WindowResult) :=
  match job.coinbasetxnHex with
  | some hex =>
    buildWindowFromTemplate fp.scale job.payees cfg.operatorAddress cfg.feeBps
      (connCoinbaseBudget cfg c)
      cfg.payoutFloorSats hex cfg.coinbaseTag job.cbSalt job.en1Size job.en2Size
  | none =>
    buildWindow fp.scale job.height job.valueSats job.payees cfg.operatorAddress cfg.feeBps
      job.wcHex
      cfg.coinbaseTag job.cbSalt job.en1Size job.en2Size (connCoinbaseBudget cfg c)
        cfg.payoutFloorSats

def cbwinWasPaid (result : WindowResult) (i : Nat) : Bool :=
  i < maxPayoutOutputs && result.paidPayee.contains i

def satsAt (payees : List Payee) (i : Nat) : Int := (payees[i]?.map Payee.sats).getD 0

def entitledTotal (payees : List Payee) : Int :=
  ((List.range payees.length).map (satsAt payees)).sum

def survivorsOwn (payees : List Payee) (result : WindowResult) : Int :=
  (((List.range payees.length).filter (cbwinWasPaid result)).map (satsAt payees)).sum

/-- A claim over a sum of claims, in double precision. -/
def claimOver (fp : Fpu) (sats total : Int) : ℚ := fp.div (fp.round sats) (fp.round total)

/-- What the payee was entitled to out of the block, less what it got. -/
def fractionDelta (fp : Fpu) (payees : List Payee) (result : WindowResult) (i : Nat) : ℚ :=
  let entitled := claimOver fp (satsAt payees i) (entitledTotal payees)
  let got :=
    if cbwinWasPaid result i then claimOver fp (satsAt payees i) (survivorsOwn payees result) else 0
  fp.round (entitled - got)

/-- The constant 1e-12. -/
def fractionNoise (fp : Fpu) : ℚ := fp.round (1 / 10 ^ 12)

def worthStaging (fp : Fpu) (delta : ℚ) : Bool :=
  fractionNoise fp < delta || delta < -fractionNoise fp

/-- The loop over the payees, which stops when its array is full. The sums of the claims have
passed the resolver's own check, so they do not overflow here. -/
def windowFractions (fp : Fpu) (job : Job) (result : WindowResult) : List FractionDelta :=
  if 0 < entitledTotal job.payees ∧ 0 < survivorsOwn job.payees result then
    (((List.range job.payees.length).filter fun i =>
      worthStaging fp (fractionDelta fp job.payees result i)).take
      maxPayoutOutputs).map fun i => ⟨job.payeeWorkerIds[i]?.getD 0,
        fractionDelta fp job.payees result i⟩
  else []

/-- The arguments of `on_window_fractions` for a block that was found, on the connection as
the retarget left it. The callback is not made for an empty list. -/
def stagedFractions (fp : Fpu) (cfg : Cfg) (c : Conn) (job : Job) (found : BlockFound) :
    List FractionDelta :=
  if found.accepted && cfg.coinbasePaysWindow && !job.payees.isEmpty then
    match rebuildWindow fp cfg c job with
    | .ok (_, result) =>
      if !job.payeeWorkerIds.isEmpty && 0 < result.paidSats then windowFractions fp job result else
        []
    | .error _ => []
  else []

theorem emitOutputs_carries (inside : k < outs.length)
    (emitted : emitOutputs tx (i + k) repl outs i = .ok bytes) :
    repl.flatMap pushReplOut <:+: bytes := by
  induction outs generalizing i k bytes with
  | nil => simp at inside
  | cons out rest ih =>
    cases k with
    | zero =>
      rw [emitOutputs, decide_eq_true (by omega)] at emitted
      obtain ⟨here, copied, emitted⟩ := bind_ok emitted
      obtain ⟨more, _, emitted⟩ := bind_ok emitted
      obtain rfl := Except.ok.inj emitted
      obtain rfl := Except.ok.inj copied
      exact (List.prefix_append ..).isInfix
    | succ k =>
      rw [emitOutputs, decide_eq_false (by omega)] at emitted
      obtain ⟨here, _, emitted⟩ := bind_ok emitted
      obtain ⟨more, later, emitted⟩ := bind_ok emitted
      obtain rfl := Except.ok.inj emitted
      have carried := ih (i := i + 1) (k := k) (Nat.lt_of_succ_lt_succ inside)
        (by rwa [Nat.add_comm k 1, ← Nat.add_assoc] at later)
      exact carried.trans (List.suffix_append ..).isInfix

/-- The resolver's outcome behind a coinbase. -/
def Resolves (fp : Fpu) (cfg : Cfg) (c : Conn) (job : Job) (parts : Parts) (outs : List ReplOut)
    (result : WindowResult) : Prop :=
  outs.flatMap pushReplOut <:+: parts.cb2 ∧ ∃ value fixedBytes,
    resolveWindowOutputs fp.scale value job.payees cfg.operatorAddress cfg.feeBps
      (connCoinbaseBudget cfg c) fixedBytes
      cfg.payoutFloorSats maxReplOuts = .ok (outs, result)

theorem buildFromTemplate_resolves
    (built : buildFromTemplate scale (.window payees operatorAddress feeBps maxBytes floor) hex
      coinbaseTag jobSalt size1 size2 =
      .ok (parts, hasWitness)) : ∃ outs result, outs.flatMap pushReplOut <:+: parts.cb2 ∧
        templateWindow scale payees operatorAddress feeBps maxBytes floor hex coinbaseTag jobSalt
          size1 size2 = .ok (outs, result) ∧
        ∃ value fixedBytes, resolveWindowOutputs scale value payees operatorAddress feeBps maxBytes
          fixedBytes floor maxReplOuts = .ok (outs, result) := by
  rw [buildFromTemplate] at built
  obtain ⟨buf, decoded, built⟩ := bind_ok built
  obtain ⟨t, parsed, built⟩ := bind_ok built
  obtain ⟨i, found, built⟩ := bind_ok built
  obtain ⟨c, scanned, built⟩ := bind_ok built
  obtain ⟨repl, resolved, built⟩ := bind_ok built
  obtain ⟨_, _, built⟩ := bind_ok built
  obtain ⟨_, _, built⟩ := bind_ok built
  obtain ⟨_, _, built⟩ := bind_ok built
  obtain ⟨_, _, built⟩ := bind_ok built
  obtain ⟨prevout, _, built⟩ := bind_ok built
  obtain ⟨scriptSig, _, built⟩ := bind_ok built
  obtain ⟨outputs, emitted, built⟩ := bind_ok built
  obtain ⟨rfl, _⟩ := Prod.mk.inj (Except.ok.inj built)
  obtain ⟨⟨outs, result⟩, window, rfl⟩ := map_ok resolved
  have inside := (List.getElem?_eq_some_iff.mp (orUndefined_ok scanned)).1
  refine ⟨outs, result, ?_, ?_, _, _, window⟩
  · have carried := emitOutputs_carries (i := 0) inside (by rwa [Nat.zero_add])
    exact carried.trans ⟨_, _, rfl⟩
  · simp only [templateWindow, decoded, parsed, found, scanned, bind, Except.bind, window]

theorem buildWindow_resolves
    (built : buildWindow scale height value payees operatorAddress feeBps witnessCommitment
      coinbaseTag jobSalt size1 size2
      maxBytes floor = .ok (parts, result)) : ∃ outs, outs.flatMap pushReplOut <:+: parts.cb2 ∧
        ∃ fixedBytes, resolveWindowOutputs scale value payees operatorAddress feeBps maxBytes
          fixedBytes floor maxReplOuts = .ok (outs, result) := by
  obtain ⟨repl, commitment, ssLen, window, _, _, _, _, rfl⟩ := buildWindow_ok built
  refine ⟨repl, ⟨pushU32Le 0xffffffff ++
      pushVarint (repl.map pushReplOut ++ commitment.toList.map (pushOutput 0)).length,
    (commitment.toList.map (pushOutput 0)).flatten ++ pushU32Le 0, ?_⟩, _, window⟩
  simp only [assembleParts, List.flatten_append, List.flatMap_def, List.append_assoc]

/-- A coinbase that was rendered for the window is the one that is built again. -/
theorem rebuildWindow_of_render {c : Conn}
    (rendered : renderWindowCoinbase fp cfg c job = .ok parts) :
    ∃ outs result, rebuildWindow fp cfg c job = .ok (parts, result) ∧
    Resolves fp cfg c job parts outs result := by
  rw [renderWindowCoinbase] at rendered
  cases dictated : job.coinbasetxnHex with
  | some hex =>
    rw [dictated] at rendered
    obtain ⟨⟨parts, hasWitness⟩, built, rfl⟩ := map_ok rendered
    obtain ⟨outs, result, carried, window, value, fixedBytes, resolved⟩ :=
      buildFromTemplate_resolves built
    refine ⟨outs, result, ?_, carried, value, fixedBytes, resolved⟩
    simp only [rebuildWindow, dictated, buildWindowFromTemplate, built, window, bind, Except.bind]
  | none =>
    rw [dictated] at rendered
    obtain ⟨⟨parts, result⟩, built, rfl⟩ := map_ok rendered
    obtain ⟨outs, carried, fixedBytes, resolved⟩ := buildWindow_resolves built
    refine ⟨outs, result, ?_, carried, job.valueSats, fixedBytes, resolved⟩
    simp only [rebuildWindow, dictated, built]

/-- The output goes to the payee's address. -/
def Receives (payees : List Payee) (k : Nat) (out : ReplOut) : Prop :=
  ∃ payee, payees[k]? = some payee ∧ addressToScript (payee.address.getD []) spkCap = .ok out.spk

/-- The outcome of the resolver, as far as the deltas depend on it. -/
structure PaidWindow (payees : List Payee) (outs : List ReplOut) (result : WindowResult)
    (paid : List Nat) : Prop where
  recipients : ∃ miners operator, outs = miners ++ Option.toList operator ∧
  List.Forall₂ (Receives payees) paid miners
  increasing : paid.Pairwise (· < ·)
  flags : result.paidPayee = paid.filter (· < maxPayoutOutputs)
  someone : paid ≠ []
  inside : ∀ k ∈ paid, k < payees.length
  flagged : ∀ k ∈ result.paidPayee, 0 < satsAt payees k
  claims : ∀ payee ∈ payees, 0 ≤ payee.sats
  total : entitledTotal payees < 2 ^ 63
  paidSats : 0 < result.paidSats

theorem map_satsAt (payees : List Payee) :
    (List.range payees.length).map (satsAt payees) = payees.map Payee.sats := by
  apply List.ext_getElem
  · simp
  · intro i _ inside
    rw [List.length_map] at inside
    simp [satsAt, List.getElem?_eq_getElem inside]

theorem entitledTotal_eq (payees : List Payee) :
    entitledTotal payees = (payees.map Payee.sats).sum := by
  rw [entitledTotal, map_satsAt]

theorem claimedSats_lt (within : claimed < 2 ^ 63)
    (summed : claimedSats payees i claimed = .ok total) : total < 2 ^ 63 := by
  induction payees generalizing i claimed with
  | nil =>
    obtain rfl := Except.ok.inj summed
    exact within
  | cons payee rest ih =>
    simp only [claimedSats] at summed
    split at summed
    next => cases summed
    next =>
      split at summed
      next => cases summed
      next =>
        obtain ⟨more, added, summed⟩ := bind_ok summed
        obtain ⟨rfl, _, fits⟩ := int64_ok added
        exact ih fits summed

/-- Scripts of the outputs that were paid down, whatever was spread over them. -/
theorem receives_of_scripts (recipients : List.Forall₂ (PaidTo floor payees) paid outs)
    (same : outs'.map ReplOut.spk = outs.map ReplOut.spk) :
    List.Forall₂ (Receives payees) paid outs' := by
  induction recipients generalizing outs' with
  | nil =>
    rw [List.map_nil, List.map_eq_nil_iff] at same
    rw [same]
    exact .nil
  | cons first rest ih =>
    obtain ⟨out, others, rfl, script, later⟩ :=
      List.map_eq_cons_iff.mp (same.trans (List.map_cons ..))
    obtain ⟨payee, here, spk, _⟩ := first
    exact .cons ⟨payee, here, script ▸ spk⟩ (ih later)

theorem satsAt_append_length (seen rest : List Payee) (payee : Payee) :
    satsAt (seen ++ payee :: rest) seen.length = payee.sats := by
  rw [satsAt, List.getElem?_append_right le_rfl]
  simp

/-- A flag is set for a claim over the floor. -/
theorem payDown_flagged (seen : List Payee)
    (known : ∀ k ∈ p.result.paidPayee, floor ≤ satsAt (seen ++ payees) k)
    (done : payDown floor cap budget payees seen.length p = .ok q) :
    ∀ k ∈ q.result.paidPayee, floor ≤ satsAt (seen ++ payees) k := by
  induction payees generalizing seen p with
  | nil =>
    obtain rfl := Except.ok.inj done
    exact known
  | cons payee rest ih =>
    have length : (seen ++ [payee]).length = seen.length + 1 := by simp
    have here := satsAt_append_length seen rest payee
    rw [List.append_cons] at known here ⊢
    simp only [payDown] at done
    rw [← length] at done
    split at done
    next => exact ih (seen ++ [payee]) (p := p.belowFloor payee) known done
    next enough =>
      split at done
      next => exact ih (seen ++ [payee]) (p := p.capped payee) known done
      next =>
        obtain ⟨spk, script, done⟩ := bind_ok done
        split at done
        next => exact ih (seen ++ [payee]) (p := p.capped payee) known done
        next =>
          apply ih (seen ++ [payee]) (p := p.paid seen.length payee spk) _ done
          intro k flagged
          simp only [Paying.paid] at flagged
          split at flagged
          next =>
            rcases List.mem_append.mp flagged with old | new
            · exact known k old
            · obtain rfl := List.mem_singleton.mp new
              rw [here]
              exact not_lt.mp enough
          next => exact known k flagged

theorem resolveWindowOutputs_paid
    (resolved : resolveWindowOutputs scale value payees operatorAddress feeBps maxBytes fixedBytes
      floor cap = .ok (outs, result)) : ∃ paid, PaidWindow payees outs result paid := by
  obtain ⟨_, operator, p, miners, spread, _, claims, down, someone, redistributed, added⟩ :=
    resolveWindowOutputs_ok resolved
  obtain ⟨sum, nonneg⟩ := claimedSats_sum claims
  obtain ⟨paid, books⟩ := payDown_accounts (.start _) nonneg down
  have sound : p.Sound := payDown_sound (dust_le_effectiveFloor floor) ⟨by simp, rfl, rfl⟩ down
  have flagged := payDown_flagged [] (by simp) down
  have scripts := spreadDropped_scripts redistributed
  obtain ⟨rfl, rfl⟩ := withOperator_ok added
  have value := books.value
  have summed := sound.paidSats
  have positive := sound.paidSats_pos someone
  rw [List.nil_append] at value
  have kept : spread.paidPayee = p.result.paidPayee ∧ 0 < spread.paidSats := by
    rw [spreadDropped] at redistributed
    split at redistributed
    next some =>
      obtain ⟨scaled, _, redistributed⟩ := bind_ok redistributed
      obtain ⟨_, rfl⟩ := Prod.mk.inj (Except.ok.inj redistributed)
      exact ⟨rfl, by dsimp only; omega⟩
    next =>
      obtain ⟨_, rfl⟩ := Prod.mk.inj (Except.ok.inj redistributed)
      exact ⟨rfl, positive⟩
  refine ⟨paid, ?_⟩
  constructor
  · exact ⟨miners, operator, rfl, receives_of_scripts books.outs scripts⟩
  · exact books.increasing
  · exact kept.1.trans books.flags
  · rintro rfl
    exact someone books.paidCount
  · exact fun k member => books.inside k member
  · intro k member
    rw [kept.1] at member
    exact lt_of_lt_of_le (lt_of_lt_of_le (by decide) (dust_le_effectiveFloor floor))
      (flagged k member)
  · exact nonneg
  · rw [entitledTotal_eq]
    have within := claimedSats_lt (by decide) claims
    omega
  · exact kept.2

/-- Rounding to a double: in order, final, and exact where it should be. -/
structure Fpu.Ieee (fp : Fpu) : Prop where
  monotone : Monotone fp.round
  twice : ∀ q, fp.round (fp.round q) = fp.round q
  zero : fp.round 0 = 0
  power : ∀ k : ℤ, -1022 ≤ k → k ≤ 1023 → fp.round (2 ^ k) = 2 ^ k

theorem Fpu.Ieee.exact : Fpu.exact.Ieee := ⟨fun _ _ le => le, fun _ => rfl, rfl, fun _ _ _ => rfl⟩

theorem Fpu.Ieee.one_le {fp : Fpu} (ieee : fp.Ieee) {n : Int} (positive : 0 < n) :
    1 ≤ fp.round n := by
  have one := ieee.power 0 (by decide) (by decide)
  rw [zpow_zero] at one
  rw [← one]
  exact ieee.monotone (by exact_mod_cast positive)

/-- A claim of one satoshi over all the satoshis there can be is no underflow. -/
theorem Fpu.Ieee.claimOver_pos {fp : Fpu} (ieee : fp.Ieee) {sats total : Int} (claim : 0 < sats)
    (positive : 0 < total) (small : total < 2 ^ 63) : 0 < claimOver fp sats total := by
  have least := ieee.power (-63) (by decide) (by decide)
  have most := ieee.power 63 (by decide) (by decide)
  have below : fp.round total ≤ 2 ^ (63 : ℤ) := by
    rw [← most]
    exact ieee.monotone (by exact_mod_cast small.le)
  have above := ieee.one_le positive
  have share : (2 : ℚ) ^ (-63 : ℤ) ≤ fp.round sats / fp.round total := by
    rw [le_div_iff₀ (by linarith)]
    calc (2 : ℚ) ^ (-63 : ℤ) * fp.round total ≤ 2 ^ (-63 : ℤ) * 2 ^ (63 : ℤ) := by gcongr
      _ = 1 := by norm_num
      _ ≤ fp.round sats := ieee.one_le claim
  calc (0 : ℚ) < 2 ^ (-63 : ℤ) := by positivity
    _ = fp.round (2 ^ (-63 : ℤ)) := least.symm
    _ ≤ claimOver fp sats total := ieee.monotone share

/-- The fewer share, the larger the part. -/
theorem Fpu.Ieee.claimOver_le {fp : Fpu} (ieee : fp.Ieee) {sats own total : Int} (claim : 0 ≤ sats)
    (positive : 0 < own)
    (part : own ≤ total) : claimOver fp sats total ≤ claimOver fp sats own := by
  have least := ieee.one_le positive
  have order : fp.round own ≤ fp.round total := ieee.monotone (by exact_mod_cast part)
  have nonneg : 0 ≤ fp.round sats := fp.nonneg _ (by exact_mod_cast claim)
  exact ieee.monotone (by gcongr)

theorem satsAt_nonneg (claims : ∀ payee ∈ payees, 0 ≤ payee.sats) (i : Nat) :
    0 ≤ satsAt payees i := by
  rw [satsAt]
  cases here : payees[i]? with
  | none => exact le_rfl
  | some payee => exact claims payee (List.mem_of_getElem? here)

theorem survivorsOwn_le (claims : ∀ payee ∈ payees, 0 ≤ payee.sats) (result : WindowResult) :
    survivorsOwn payees result ≤ entitledTotal payees := by
  refine List.Sublist.sum_le_sum (List.Sublist.map _ List.filter_sublist) ?_
  intro sats member
  obtain ⟨i, _, rfl⟩ := List.mem_map.mp member
  exact satsAt_nonneg claims i

theorem PaidWindow.wasPaid (window : PaidWindow payees outs result paid) (i : Nat) :
    cbwinWasPaid result i = true ↔ i ∈ paid ∧ i < maxPayoutOutputs := by
  rw [cbwinWasPaid, window.flags, Bool.and_eq_true, List.contains_iff_mem, List.mem_filter,
    decide_eq_true_eq]
  tauto

theorem PaidWindow.survivorsOwn_pos (window : PaidWindow payees outs result paid)
    (member : i ∈ paid) (reported : i < maxPayoutOutputs) : 0 < survivorsOwn payees result := by
  have flag := (window.wasPaid i).mpr ⟨member, reported⟩
  have here : satsAt payees i ∈ ((List.range payees.length).filter (cbwinWasPaid result)).map
      (satsAt payees) :=
    List.mem_map_of_mem (List.mem_filter.mpr ⟨List.mem_range.mpr (window.inside i member), flag⟩)
  have claim : i ∈ result.paidPayee := by
    rw [window.flags, List.mem_filter, decide_eq_true_eq]
    exact ⟨member, reported⟩
  refine lt_of_lt_of_le (window.flagged i claim) (List.single_le_sum ?_ _ here)
  intro sats among
  obtain ⟨i, _, rfl⟩ := List.mem_map.mp among
  exact satsAt_nonneg window.claims i

theorem PaidWindow.reported (window : PaidWindow payees outs result paid)
    (capacity : payees.length ≤ maxPayoutOutputs) :
    0 < survivorsOwn payees result := by
  obtain ⟨k, member⟩ := List.exists_mem_of_ne_nil paid window.someone
  exact window.survivorsOwn_pos member (lt_of_lt_of_le (window.inside k member) capacity)

theorem sum_cast_satsAt (payees : List Payee) (items : List Nat) :
    (items.map fun i => (satsAt payees i : ℚ)).sum = ((items.map (satsAt payees)).sum : Int) := by
  rw [Int.cast_list_sum, List.map_map]
  rfl

/-- Without rounding the deltas are parts that move between the payees. -/
theorem fractionDelta_exact {fp : Fpu} (exact_ : fp.round = id) (payees : List Payee)
    (result : WindowResult) (i : Nat) :
    fractionDelta fp payees result i =
      Proportion.moved (List.range payees.length) (fun i => (satsAt payees i : ℚ))
        (cbwinWasPaid result) i := by
  simp only [fractionDelta, claimOver, Fpu.div, exact_, id, Proportion.moved, entitledTotal,
    survivorsOwn, sum_cast_satsAt]

theorem PaidWindow.sum_fractionDelta (window : PaidWindow payees outs result paid)
    (capacity : payees.length ≤ maxPayoutOutputs) {fp : Fpu} (exact_ : fp.round = id) :
    ((List.range payees.length).map (fractionDelta fp payees result)).sum = 0 := by
  have own := window.reported capacity
  have total := lt_of_lt_of_le own (survivorsOwn_le window.claims result)
  rw [List.map_congr_left fun i _ => fractionDelta_exact exact_ payees result i]
  apply Proportion.sum_moved
  · rw [sum_cast_satsAt]
    exact_mod_cast total.ne'
  · rw [sum_cast_satsAt]
    exact_mod_cast own.ne'

/-- A coinbase against the deltas that are staged for its block: `paid` are the payees that
have an output in it. -/
structure Redistributes (fp : Fpu) (job : Job) (parts : Parts) (staged : List FractionDelta)
    (outs : List ReplOut) (paid : List Nat) (delta : Nat → ℚ) : Prop where
  carried : outs.flatMap pushReplOut <:+: parts.cb2
  recipients : ∃ miners operator, outs = miners ++ Option.toList operator ∧
  List.Forall₂ (Receives job.payees) paid miners
  increasing : paid.Pairwise (· < ·)
  each : ∀ d ∈ staged, ∃ i < job.payees.length, d = ⟨job.payeeWorkerIds[i]?.getD 0, delta i⟩
  skipped : ∀ i < job.payees.length, i ∉ paid →
    delta i = claimOver fp (satsAt job.payees i) (entitledTotal job.payees) ∧
    (0 < satsAt job.payees i → 0 < delta i)
  survived : ∀ i ∈ paid, i < maxPayoutOutputs → delta i ≤ 0
  staged : job.payees.length ≤ maxPayoutOutputs →
    staged = ((List.range job.payees.length).filter fun i => worthStaging fp (delta i)).map
      fun i => ⟨job.payeeWorkerIds[i]?.getD 0, delta i⟩
  balanced : job.payees.length ≤ maxPayoutOutputs → fp.round = id →
    ((List.range job.payees.length).map delta).sum = 0

theorem fractionDelta_skipped {fp : Fpu} (ieee : fp.Ieee)
    (window : PaidWindow payees outs result paid) (skipped : i ∉ paid) :
    fractionDelta fp payees result i = claimOver fp (satsAt payees i) (entitledTotal payees) := by
  have unpaid : ¬cbwinWasPaid result i = true := fun flag => skipped ((window.wasPaid i).mp flag).1
  rw [fractionDelta, if_neg unpaid, sub_zero]
  exact ieee.twice _

theorem fractionDelta_survived {fp : Fpu} (ieee : fp.Ieee)
    (window : PaidWindow payees outs result paid) (member : i ∈ paid)
    (reported : i < maxPayoutOutputs) (own : 0 < survivorsOwn payees result) :
    fractionDelta fp payees result i ≤ 0 := by
  have part :=
    ieee.claimOver_le (satsAt_nonneg window.claims i) own (survivorsOwn_le window.claims result)
  rw [fractionDelta, if_pos ((window.wasPaid i).mpr ⟨member, reported⟩), ← ieee.zero]
  exact ieee.monotone (sub_nonpos.mpr part)

theorem windowFractions_redistributes {c : Conn} {fp : Fpu} (ieee : fp.Ieee)
    (resolves : Resolves fp cfg c job parts outs result)
    (window : PaidWindow job.payees outs result paid) :
    Redistributes fp job parts (windowFractions fp job result) outs paid
      (fractionDelta fp job.payees result) where
  carried := resolves.1
  recipients := window.recipients
  increasing := window.increasing
  each := by
    intro d member
    rw [windowFractions] at member
    split at member
    next =>
      obtain ⟨i, taken, rfl⟩ := List.mem_map.mp member
      exact ⟨i, List.mem_range.mp (List.mem_filter.mp (List.mem_of_mem_take taken)).1, rfl⟩
    next => contradiction
  skipped := by
    intro i inside skipped
    have share := fractionDelta_skipped ieee window skipped
    refine ⟨share, fun claim => ?_⟩
    rw [share]
    apply ieee.claimOver_pos claim (lt_of_lt_of_le claim (List.single_le_sum ?_ _ ?_)) window.total
    · intro sats among
      obtain ⟨i, _, rfl⟩ := List.mem_map.mp among
      exact satsAt_nonneg window.claims i
    · exact List.mem_map_of_mem (List.mem_range.mpr inside)
  survived := fun i member reported => fractionDelta_survived ieee window member reported
    (window.survivorsOwn_pos member reported)
  staged := by
    intro capacity
    have own := window.reported capacity
    rw [windowFractions, if_pos ⟨lt_of_lt_of_le own (survivorsOwn_le window.claims result), own⟩,
      List.take_of_length_le]
    calc _ ≤ (List.range job.payees.length).length := List.length_filter_le ..
      _ ≤ maxPayoutOutputs := by rwa [List.length_range]
  balanced := fun capacity exact_ => window.sum_fractionDelta capacity exact_

/-- The deltas of a found block come from the outcome that its coinbase was rendered from. -/
theorem stagedFractions_redistributes {c c' : Conn} {fp : Fpu} (ieee : fp.Ieee)
    (accepted : found.accepted = true)
    (paysWindow : cfg.coinbasePaysWindow = true) (payees : job.payees ≠ [])
    (workers : job.payeeWorkerIds ≠ []) (budget : c'.polMaxCoinbaseBytes = c.polMaxCoinbaseBytes)
    (rendered : renderAs fp cfg c address job = .ok parts) :
    ∃ outs paid delta,
      Redistributes fp job parts (stagedFractions fp cfg c' job found) outs paid delta := by
  have now : renderWindowCoinbase fp cfg c' job = .ok parts := by
    rw [← renderAs_congr budget, renderAs, renderFresh, if_pos (by simp [paysWindow, payees])]
      at rendered
    exact rendered
  obtain ⟨outs, result, rebuilt, resolves⟩ := rebuildWindow_of_render now
  obtain ⟨value, fixedBytes, resolved⟩ := resolves.2
  obtain ⟨paid, window⟩ := resolveWindowOutputs_paid resolved
  have staged : stagedFractions fp cfg c' job found = windowFractions fp job result := by
    rw [stagedFractions, if_pos (by simp [accepted, paysWindow, payees]), rebuilt]
    dsimp only
    rw [if_pos (by simp [workers, window.paidSats])]
  rw [staged]
  exact ⟨outs, paid, _, windowFractions_redistributes ieee resolves window⟩

def Conn.Caches (fp : Fpu) (cfg : Cfg) (published : List Job) (c : Conn) : Prop :=
  c.cbForJobId ≠ [] → ∃ job ∈ published, job.jobId = c.cbForJobId ∧ ∃ address,
  renderAs fp cfg c address job = .ok c.cb

theorem Conn.Caches.new (fp : Fpu) (cfg : Cfg) (published : List Job) (peerIp : Bytes)
    (pol : Listener) :
    ((Conn.new cfg peerIp).applyListener pol).Caches fp cfg published :=
  fun cached => absurd rfl cached

theorem Conn.Caches.of_same {c c' : Conn} (caches : c.Caches fp cfg published)
    (same : c.SameCache c') :
    c'.Caches fp cfg published := by
  rw [Conn.Caches, same.cbForJobId, same.cb]
  intro cached
  obtain ⟨job, member, named, address, rendered⟩ := caches cached
  exact ⟨job, member, named, address, (renderAs_congr same.budget ..).trans rendered⟩

theorem Conn.Caches.publish {c : Conn} (caches : c.Caches fp cfg published) (job : Job) :
    c.Caches fp cfg (job :: published) := by
  intro cached
  obtain ⟨old, member, rest⟩ := caches cached
  exact ⟨old, List.mem_cons_of_mem _ member, rest⟩

/-- The coinbase of a job that is rendered, now or before. -/
theorem Conn.Caches.render {c r : Conn} (caches : c.Caches fp cfg published)
    (distinct : Distinct published)
    (member : job ∈ published) (drawn : connRenderCoinbase fp cfg c job = some r) :
    ∃ address, renderAs fp cfg c address job = .ok r.cb := by
  have id := connRenderCoinbase_cbForJobId drawn
  rw [connRenderCoinbase] at drawn
  split_ifs at drawn
  · obtain rfl := Option.some.inj drawn
    obtain ⟨other, known, same, address, before⟩ :=
      caches (by rw [id]; exact distinct.named job member)
    obtain rfl : other = job := List.inj_on_of_nodup_map distinct.nodup known member (same.trans id)
    exact ⟨address, before⟩
  · split at drawn
    next parts fresh =>
      obtain rfl := Option.some.inj drawn
      exact ⟨c.payoutAddress, fresh⟩
    next => contradiction

theorem Conn.Caches.notify {jobs : Jobs} {c : Conn} (caches : c.Caches fp cfg published)
    (distinct : Distinct published) (current : jobs.current = published.head?) (clean : Bool) :
    (sendCurrentNotify fp cfg jobs c clean).1.Caches fp cfg published := by
  rw [sendCurrentNotify]
  split
  next => exact caches
  next job here =>
    have member : job ∈ published := List.mem_of_mem_head? (current.symm.trans here)
    split
    next => exact caches
    next r drawn =>
      obtain ⟨address, rendered⟩ := caches.render distinct member drawn
      have kept := connRenderCoinbase_eq drawn
      apply Conn.Caches.of_same _ (connRecordJobDifficulty_sameCache r job.jobId r.difficulty)
      intro _
      refine ⟨job, member, (connRenderCoinbase_cbForJobId drawn).symm, address, ?_⟩
      rw [← rendered]
      exact renderAs_congr (by rw [kept]) ..

theorem Conn.Caches.coinbaseFor {c : Conn} {parts : Parts} (caches : c.Caches fp cfg published)
    (distinct : Distinct published)
    (member : job ∈ published) (found : Stratum.coinbaseFor fp cfg c job = some parts) :
    ∃ address, renderAs fp cfg c address job = .ok parts := by
  obtain ⟨r, drawn, rfl⟩ := Option.map_eq_some_iff.mp found
  exact caches.render distinct member drawn

/-- What a submit that is hashed leaves in the cache. -/
theorem submitHash_sameCache {c r : Conn} {w : Work} (rendered : c.Rendered r w.job w.parts)
    (fp : Fpu) (env : Env) (s : Server) :
    r.SameCache (submitHash fp env s r w.job w.en2 w.version w.ntime w.nonce).conn := by
  rcases submitHash_cases rendered fp env s with ⟨_, out⟩ | ⟨_, ⟨_, out⟩ | ⟨verdict, _, out⟩⟩
  · rw [out]
    exact .refl r
  · rw [out]
    exact .refl r
  · rw [out]
    have counted : r.SameCache (r.countShare fp w.job (w.hash c)) := ⟨rfl, rfl, rfl, rfl⟩
    exact counted.trans (vardiffMaybeRetarget_sameCache ..)

theorem Conn.Caches.submit {c : Conn} (caches : c.Caches fp cfg published)
    (distinct : Distinct published) {s : Server}
    (settings : s.cfg = cfg) (jobs : s.jobs.Retains published) (env : Env) (params : Json) :
    (handleSubmit fp env s c params).conn.Caches fp cfg published := by
  rcases handleSubmit_cases fp env s c params with ⟨w, r, reaches, rendered, done⟩ | ⟨_, unhashed⟩
  · obtain ⟨k, _, place⟩ := jobs.find reaches.job
    have member := List.mem_of_getElem? place
    obtain ⟨address, drawn⟩ := caches.coinbaseFor distinct member (settings ▸ reaches.parts)
    rw [done]
    apply Conn.Caches.of_same _ (submitHash_sameCache rendered fp env s)
    intro _
    refine ⟨w.job, member, rendered.cbForJobId.symm, address, ?_⟩
    rw [rendered.cb, ← drawn]
    exact renderAs_congr rendered.budget ..
  · have same := unhashed.conn
    exact caches.of_same ⟨same.extranonce1, same.cb, same.cbForJobId, same.budget⟩

theorem Conn.Caches.message {c : Conn} (caches : c.Caches fp cfg published)
    (distinct : Distinct published) {s : Server}
    (settings : s.cfg = cfg) (jobs : s.jobs.Retains published) (env : Env) (request : Request) :
    (handleMessage fp env s c request).conn.Caches fp cfg published := by
  rw [handleMessage]
  cases methodOf request.method with
  | configure =>
    apply caches.of_same
    simp only [handleConfigure]
    split_ifs <;> exact ⟨rfl, rfl, rfl, rfl⟩
  | subscribe => exact caches
  | suggestDifficulty =>
    apply caches.of_same
    rw [handleSuggestDifficulty]
    by_cases asked : 0 < (request.params.items[0]?.bind Json.valuedouble).getD 0
    · rw [if_neg (not_not.mpr asked)]
      exact applyRequestedDiff_sameCache ..
    · rw [if_pos asked]
      exact .refl c
  | authorize =>
    dsimp only
    cases handleAuthorize_notifies fp env s c request.params with
    | granted ready same conn lines =>
      rw [conn, settings]
      exact (caches.of_same same).notify distinct jobs.current true
    | refused same code message lines => exact caches.of_same same
  | submit => exact caches.submit distinct settings jobs env request.params
  | unknown => exact caches

structure Watched.Caches (fp : Fpu) (cfg : Cfg) (w : Watched) : Prop where
  settings : w.pool.server.cfg = cfg
  follows : w.Follows
  conns : ∀ i c, w.pool.conns i = some c → c.Caches fp cfg w.published

theorem Watched.Caches.start (fp : Fpu) (cfg : Cfg) (seed : UInt32) :
    (Watched.start cfg seed).Caches fp cfg where
  settings := rfl
  follows := .start cfg seed
  conns := fun _ _ none => nomatch none

theorem Watched.Caches.step {w t : Watched} (caches : w.Caches fp cfg) (new : NewId w e t)
    (stepped : w.step fp e = some t) :
    t.Caches fp cfg := by
  have follows := caches.follows.step new stepped
  obtain ⟨pool, moved, rfl⟩ := Option.map_eq_some_iff.mp stepped
  cases e with
  | connect i peerIp pol =>
    simp only [Pool.step] at moved
    split at moved
    next => contradiction
    next =>
      obtain rfl := Option.some.inj moved
      refine ⟨caches.settings, follows, ?_⟩
      intro j c here
      rcases conns_update here with ⟨rfl, placed⟩ | ⟨_, there⟩
      · obtain rfl := Option.some.inj placed
        rw [caches.settings]
        exact .new fp cfg w.published peerIp pol
      · exact caches.conns j c there
  | disconnect i =>
    obtain rfl := Option.some.inj moved
    refine ⟨caches.settings, follows, ?_⟩
    intro j c here
    rcases conns_update here with ⟨_, gone⟩ | ⟨_, there⟩
    · contradiction
    · exact caches.conns j c there
  | message i env request =>
    simp only [Pool.step] at moved
    split at moved
    next => contradiction
    next c here =>
      obtain rfl := Option.some.inj moved
      have settings := (handleMessage_jobs fp env w.pool.server c request).1
      refine ⟨settings.trans caches.settings, follows, ?_⟩
      intro j c' there
      rcases conns_update there with ⟨rfl, left⟩ | ⟨_, there⟩
      · split_ifs at left
        obtain rfl := Option.some.inj left
        exact (caches.conns j c here).message caches.follows.distinct caches.settings
          caches.follows.jobs env request
      · exact caches.conns j c' there
  | setJob mono job clean =>
    obtain rfl := Option.some.inj moved
    refine ⟨caches.settings, follows, ?_⟩
    intro i c here
    obtain ⟨before, there, rfl⟩ := Option.map_eq_some_iff.mp here
    have published := (caches.conns i before there).publish job
    rw [notifyConn, caches.settings]
    split_ifs
    · exact published.notify follows.distinct follows.jobs.current clean
    · exact published

/-- For a block that was found on a job that pays the window, and that the node took: the
deltas that are staged are those of the coinbase the block was hashed with. -/
def FractionsMatch (fp : Fpu) (p : Pool) (event : Event) : Prop :=
  match event with
  | .message i env request => methodOf request.method = .submit → ∀ c w found, p.conns i = some c →
      Reaches fp env p.server c request.params w →
      .blockFound found ∈ (handleMessage fp env p.server c request).observed →
        found.accepted = true →
      p.server.cfg.coinbasePaysWindow = true → w.job.payees ≠ [] → w.job.payeeWorkerIds ≠ [] →
      ∃ outs paid delta, Redistributes fp w.job w.parts
        (stagedFractions fp p.server.cfg (handleMessage fp env p.server c request).conn w.job found)
          outs paid delta
  | _ => True

theorem Watched.Caches.fractionsMatch {w : Watched} {fp : Fpu} (ieee : fp.Ieee)
    (caches : w.Caches fp cfg) (event : Event) :
    FractionsMatch fp w.pool event := by
  cases event with
  | connect => trivial
  | disconnect => trivial
  | setJob => trivial
  | message i env request =>
    intro called c work found here reaches _ accepted paysWindow payees workers
    obtain ⟨k, _, place⟩ := caches.follows.jobs.find reaches.job
    obtain ⟨address, rendered⟩ :=
      (caches.conns i c here).coinbaseFor caches.follows.distinct (List.mem_of_getElem? place)
      (caches.settings ▸ reaches.parts)
    have budget : (handleMessage fp env w.pool.server c request).conn.polMaxCoinbaseBytes =
          c.polMaxCoinbaseBytes := by
      rw [handleMessage, called]
      rcases handleSubmit_cases fp env w.pool.server c request.params with
        ⟨w', r, _, drawn, done⟩ | ⟨_, unhashed⟩
      · dsimp only
        rw [done]
        exact (submitHash_sameCache drawn fp env w.pool.server).budget.trans drawn.budget
      · exact unhashed.conn.budget
    rw [← caches.settings] at rendered
    exact stagedFractions_redistributes ieee accepted paysWindow payees workers budget rendered

/-- In every run that publishes its jobs under distinct names. -/
theorem fractions_match_coinbase (fp : Fpu) (ieee : fp.Ieee) (cfg : Cfg) (seed : UInt32)
    (events : List Event) (distinct : (events.filterMap Event.published).Nodup)
    (named : [] ∉ events.filterMap Event.published) :
    Along (Watched.step fp) (fun w event _ => FractionsMatch fp w.pool event)
      (.start cfg seed) events := by
  apply Along.of_invariant _ (Watched.Caches.start fp cfg seed) (newId_of_distinct distinct named)
  intro w event after caches new stepped
  exact ⟨caches.step new stepped, caches.fractionsMatch ieee event⟩

def windowCfg : Cfg := { soloCfg with coinbasePaysWindow := true }

/-- A claim of one satoshi, one at the dust limit, and one of all the rest. -/
def windowJob : Job :=
  regtestJob.setWindow [⟨some firstAddress, 1⟩, ⟨some secondAddress, 546⟩,
    ⟨some firstAddress, 4999999453⟩] fun i => i + 1

def windowStart : List Event :=
  [.setJob 0 windowJob true, .connect 0 [] ⟨0, 0, 0, 0, 0⟩, soloMessage "mining.subscribe" [],
    soloMessage "mining.authorize" [firstAddress]]

theorem fractions_match_coinbase_found :
    Fpu.exact.Ieee ∧ ((windowStart ++
      [soloMessage "mining.submit" (soloSubmit "00000002")]).filterMap Event.published).Nodup ∧
      [] ∉ (windowStart ++ [soloMessage "mining.submit" (soloSubmit "00000002")]).filterMap
        Event.published ∧
      Along (Watched.step .exact) (fun w event _ => FractionsMatch .exact w.pool event)
        (.start windowCfg 0)
        (windowStart ++ [soloMessage "mining.submit" (soloSubmit "00000002")]) := by
  have distinct : ((windowStart ++ [soloMessage "mining.submit" (soloSubmit "00000002")]).filterMap
      Event.published).Nodup := by
    decide +kernel
  have named : [] ∉ (windowStart ++ [soloMessage "mining.submit" (soloSubmit "00000002")]).filterMap
      Event.published := by
    decide +kernel
  exact ⟨.exact, distinct, named,
    fractions_match_coinbase .exact .exact windowCfg 0 _ distinct named⟩

/-- What is staged for every block the node took sums to zero. -/
def FractionsBalance (fp : Fpu) (p : Pool) (event : Event) : Prop :=
  match event with
  | .message i env request => methodOf request.method = .submit → ∀ c w found, p.conns i = some c →
      Reaches fp env p.server c request.params w →
      .blockFound found ∈ (handleMessage fp env p.server c request).observed →
        found.accepted = true →
      p.server.cfg.coinbasePaysWindow = true → w.job.payees ≠ [] → w.job.payeeWorkerIds ≠ [] →
      w.job.payees.length ≤ maxPayoutOutputs →
      ((stagedFractions fp p.server.cfg (handleMessage fp env p.server c request).conn w.job
        found).map FractionDelta.delta).sum = 0
  | _ => True

def foundBlocks (observed : List Observed) : List BlockFound :=
  observed.filterMap fun
    | .blockFound found => some found
    | _ => none

theorem mem_foundBlocks (member : found ∈ foundBlocks observed) : .blockFound found ∈ observed := by
  obtain ⟨observation, inside, same⟩ := List.mem_filterMap.mp member
  split at same
  next =>
    obtain rfl := Option.some.inj same
    exact inside
  next => contradiction

theorem FractionsBalance.sum {p : Pool} (balance : FractionsBalance fp p (.message i env request))
    (called : methodOf request.method = .submit) (here : p.conns i = some c)
    (observed : .blockFound found ∈ (handleMessage fp env p.server c request).observed)
    (named : (request.params.submission.bind fun sub => findJob p.server.jobs sub.jobId) = some job)
    (accepted : found.accepted = true) (paysWindow : p.server.cfg.coinbasePaysWindow = true)
    (payees : job.payees ≠ [])
    (workers : job.payeeWorkerIds ≠ []) (capacity : job.payees.length ≤ maxPayoutOutputs) :
    ((stagedFractions fp p.server.cfg (handleMessage fp env p.server c request).conn job found).map
      FractionDelta.delta).sum = 0 := by
  have hashed : ∃ w, Reaches fp env p.server c request.params w := by
    rw [handleMessage, called] at observed
    rcases handleSubmit_cases fp env p.server c request.params with
      ⟨w, _, reaches, _⟩ | ⟨_, unhashed⟩
    · exact ⟨w, reaches⟩
    · exact absurd observed (unhashed.unfound found)
  obtain ⟨w, reaches⟩ := hashed
  rw [reaches.submission, Option.bind_some, reaches.job] at named
  obtain rfl := Option.some.inj named
  exact balance called c w found here reaches observed accepted paysWindow payees workers capacity

def windowWatched : Watched :=
  (run (Watched.step .exact) (.start windowCfg 0) windowStart).getD (.start windowCfg 0)

def windowConn : Conn := (windowWatched.pool.conns 0).getD (Conn.new windowCfg [])

/-- The payee at the dust limit gained less than the smallest delta that is staged, so what
is staged of this block does not cancel out. -/
theorem dust_gain_unstaged :
    ¬Along (Watched.step .exact) (fun w event _ => FractionsBalance .exact w.pool event)
    (.start windowCfg 0)
      (windowStart ++ [soloMessage "mining.submit" (soloSubmit "00000002")]) := by
  intro along
  have ended : (run (Watched.step .exact) (.start windowCfg 0) windowStart).isSome ∧
    (windowWatched.pool.conns 0).isSome ∧
      methodOf (soloRequest "mining.submit" (soloSubmit "00000002")).method = .submit ∧
      ((soloRequest "mining.submit" (soloSubmit "00000002")).params.submission.bind fun sub =>
        findJob windowWatched.pool.server.jobs sub.jobId) = some windowJob ∧
      windowWatched.pool.server.cfg.coinbasePaysWindow = true ∧ windowJob.payees ≠ [] ∧
      windowJob.payeeWorkerIds ≠ [] ∧
      windowJob.payees.length ≤ maxPayoutOutputs ∧
      ∃ found ∈ foundBlocks (handleMessage .exact soloEnv windowWatched.pool.server windowConn
          (soloRequest "mining.submit" (soloSubmit "00000002"))).observed,
        found.accepted = true ∧
        ((stagedFractions .exact windowWatched.pool.server.cfg
          (handleMessage .exact soloEnv windowWatched.pool.server windowConn
          (soloRequest "mining.submit" (soloSubmit "00000002"))).conn windowJob found).map
            FractionDelta.delta).sum ≠ 0 := by
    decide +kernel
  obtain ⟨runs, there, called, job, paysWindow, payees, workers, capacity, found, observed,
      accepted, unbalanced⟩ := ended
  have ran : run (Watched.step .exact) (.start windowCfg 0) windowStart = some windowWatched :=
    eq_some_getD runs _
  have here : windowWatched.pool.conns 0 = some windowConn := eq_some_getD there _
  have steps : ∃ after, windowWatched.step .exact
      (soloMessage "mining.submit" (soloSubmit "00000002")) = some after := by
    simp only [soloMessage, Watched.step, Pool.step, here, Option.map_some]
    exact ⟨_, rfl⟩
  obtain ⟨after, stepped⟩ := steps
  obtain ⟨balance, _⟩ := along.after ran after stepped
  exact unbalanced (balance.sum called here (mem_foundBlocks observed) job accepted paysWindow
    payees workers capacity)

end SimplePool.Stratum
