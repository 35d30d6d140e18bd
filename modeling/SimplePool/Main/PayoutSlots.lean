import SimplePool.Coinbase.Payee
import SimplePool.Coinbase.WindowAccepts
import SimplePool.Main.WindowJob

/-! How many payouts a coinbase is expected to hold, against how many the builder pays. The
estimate charges each address what the builder charges it, so all depends on what either
takes the coinbase to cost before the first of them. -/
namespace SimplePool.Main
open Wire Coinbase

/-- `coinbase_build_window_from_template`, with what its resolver reports. -/
def buildWindowFromTemplate (scale : Scale) (hex : Bytes) (payees : List Payee)
    (operatorAddress : Option Bytes) (feeBps : FeeBps)
    (coinbaseTag : Option Bytes) (jobSalt : UInt32) (size1 size2 maxBytes : Nat) (floor : Int) :
    Result (Parts × WindowResult) := do
  let (parts, _) ← buildFromTemplate scale (.window payees operatorAddress feeBps maxBytes floor)
    hex coinbaseTag jobSalt size1 size2
  let tx ← decodeTemplateHex hex
  let t ← parseTemplate tx
  let rewardIdx ← orUndefined t.scan.rewardIdx
  let rewardOut ← orUndefined t.scan.outs[rewardIdx]?
  let ssProbe := newScriptSigLen t.ssLen (cbTagPushLen coinbaseTag jobSalt) size1 size2
  let (_, result) ← resolveWindowOutputs scale (toInt64 rewardOut.value) payees operatorAddress
    feeBps maxBytes
    (templateFixedBytes t rewardIdx ssProbe) floor maxReplOuts
  .ok (parts, result)

/-- Every claim has an address that can be read, and clears the floor. -/
def AllDue (floor : Int) (payees : List Payee) : Prop :=
  ∀ payee ∈ payees, ∃ spk, Due (effectiveFloor floor) payee spk

def addressesOf (payees : List Payee) : List Bytes := payees.map fun payee => payee.address.getD []

/-- What the estimate takes the coinbase to cost without the payouts. -/
def estimatedBytes : Option Bytes → Nat
  | none => 160
  | some hex => 129 + hex.length / 2

theorem coinbaseExpectedPayoutSlots_eq (maxBytes : Nat) (hex : Option Bytes)
    (someone : addresses ≠ []) :
    coinbaseExpectedPayoutSlots maxBytes hex addresses =
      if byteLimit maxBytes ≤ estimatedBytes hex then 1
      else min (max (fittingSlots (byteLimit maxBytes - estimatedBytes hex) addresses 0 0) 1)
        maxPayoutOutputs := by
  rw [coinbaseExpectedPayoutSlots.eq_def]
  dsimp only
  rw [if_neg someone]
  cases hex with
  | none => rfl
  | some hex =>
    -- the output that goes away is never more than the envelope
    have spent : (if (some hex).isSome = true ∧
      31 < 160 + hex.length / 2 then 160 + hex.length / 2 - 31 else 160 + hex.length / 2) =
        129 + hex.length / 2 := by
      rw [if_pos ⟨rfl, by omega⟩]
      omega
    dsimp only
    rw [spent]
    rfl

theorem fill_mono (cap budget : Nat) (sizes : List Nat) (count bytes : Nat) :
    count ≤ (fill cap budget sizes (count, bytes)).1 := by
  induction sizes generalizing count bytes with
  | nil => exact Nat.le_refl _
  | cons size rest ih =>
    rw [fill]
    split
    next => exact (Nat.le_succ _).trans (ih _ _)
    next => exact ih _ _

theorem fittingSlots_le (room : available ≤ budget) (payees : List Payee)
    (readable : ∀ payee ∈ payees, ∃ spk, addressToScript (payee.address.getD []) spkCap = .ok spk)
    (used slots : Nat) (few : slots ≤ maxPayoutOutputs) :
    min (fittingSlots available (addressesOf payees) used slots) maxPayoutOutputs ≤
      (fill maxReplOuts budget (payees.map payeeBytes) (slots, used)).1 := by
  induction payees generalizing used slots with
  | nil => exact Nat.min_le_left _ _
  | cons payee rest ih =>
    obtain ⟨⟨spk, script⟩, others⟩ := List.forall_mem_cons.mp readable
    have cost : payeeBytes payee = outSerSize spk.length := by rw [payeeBytes, script]
    have grows := fill_mono maxReplOuts budget ((payee :: rest).map payeeBytes) slots used
    rw [addressesOf, List.map_cons, fittingSlots, script]
    dsimp only
    split
    next => exact (Nat.min_le_left _ _).trans grows
    next fits =>
      by_cases full : slots = maxPayoutOutputs
      · exact (Nat.min_le_right _ _).trans (full ▸ grows)
      · rw [List.map_cons, fill, cost, if_pos ⟨by rw [maxReplOuts]; omega, by omega⟩]
        exact ih others _ _ (by omega)

/-- An estimate whose envelope is the larger one is kept. -/
theorem expected_le_payouts (due : AllDue floor payees)
    (someone : 0 < (payouts floor maxBytes fixedBytes payees).1)
    (envelope : fixedBytes ≤ estimatedBytes hex) :
    coinbaseExpectedPayoutSlots maxBytes hex (addressesOf payees) ≤
      (payouts floor maxBytes fixedBytes payees).1 := by
  have nonempty : addressesOf payees ≠ [] := by
    rintro nobody
    rw [List.map_eq_nil_iff.mp nobody] at someone
    exact Nat.lt_irrefl _ someone
  have sizes : payoutSizes (effectiveFloor floor) payees = payees.map payeeBytes := by
    refine congrArg (List.map payeeBytes) (List.filter_eq_self.mpr fun payee member => ?_)
    obtain ⟨_, enough, _⟩ := due payee member
    exact decide_eq_true enough
  rw [coinbaseExpectedPayoutSlots_eq maxBytes hex nonempty]
  split
  next => exact someone
  next =>
    have room : byteLimit maxBytes - estimatedBytes hex ≤ payoutBudget maxBytes fixedBytes := by
      rw [payoutBudget_eq]
      omega
    have fitting := fittingSlots_le room payees (fun payee member =>
        ⟨_, (due payee member).choose_spec.2⟩) 0 0 (Nat.zero_le _)
    rw [payouts, sizes] at someone ⊢
    omega

theorem resolveWindowOutputs_count
    (resolved : resolveWindowOutputs scale value payees operatorAddress feeBps maxBytes fixedBytes
      floor maxReplOuts = .ok (outs, result)) :
    result.paidCount = (payouts floor maxBytes fixedBytes payees).1 ∧ 0 < result.paidCount := by
  obtain ⟨_, operator, p, miners, spread, _, _, down, someone, redistributed, added⟩ :=
    resolveWindowOutputs_ok resolved
  have sound : p.Sound := payDown_sound (dust_le_effectiveFloor floor) ⟨by simp, rfl, rfl⟩ down
  obtain ⟨_, filled⟩ := payDown_fill rfl down
  obtain ⟨_, rfl⟩ := withOperator_ok added
  have kept : spread.paidCount = p.result.paidCount := by
    rw [spreadDropped] at redistributed
    split at redistributed
    next =>
      obtain ⟨scaled, _, redistributed⟩ := bind_ok redistributed
      obtain ⟨_, rfl⟩ := Prod.mk.inj (Except.ok.inj redistributed)
      rfl
    next =>
      obtain ⟨_, rfl⟩ := Prod.mk.inj (Except.ok.inj redistributed)
      rfl
  have taken : (p.outs.length, p.payoutBytes) = payouts floor maxBytes fixedBytes payees := filled
  dsimp only
  rw [kept, ← taken]
  exact ⟨sound.paidCount, Nat.pos_of_ne_zero someone⟩

/-- The script of the output to be replaced lies inside the template, as it does in every
transaction. -/
def RewardInside (hex : Bytes) : Prop :=
  ∀ tx t i c, hexPairs hex = some tx → parseTemplate tx = .ok t → t.scan.rewardIdx = some i →
    t.scan.outs[i]? = some c →
    Fits tx ∧ c.spkOff + c.spkLen ≤ tx.length

theorem rewardInside_of_transaction
    (wellFormed : ∀ buf, hexPairs hex = some buf → Fits buf ∧ ∃ tx, Tx.read buf = some tx) :
    RewardInside hex := by
  intro buf t i c decoded parsed _ scanned
  obtain ⟨fits, tx, transaction⟩ := wellFormed buf decoded
  have tracks := (parseTemplate_at fits transaction parsed).scan
  obtain ⟨inside, same⟩ := List.getElem?_eq_some_iff.mp scanned
  have mirrors := tracks.outs.get inside (tracks.outs.length_eq ▸ inside)
  rw [List.get_eq_getElem, same] at mirrors
  exact ⟨fits, slice_inside mirrors.script⟩

theorem rdVarint_grows (read : rdVarint buf off = some (v, off')) :
    off + outSerSize v ≤ off' + 8 + v := by
  rw [rdVarint] at read
  split at read
  next => cases read
  next b _ =>
    split at read
    next small =>
      obtain ⟨rfl, rfl⟩ := Prod.mk.inj (Option.some.inj read)
      have low : b.toNat < 0xfd := UInt8.lt_iff_toNat_lt.mp small
      rw [outSerSize, if_pos low]
      omega
    next =>
      dsimp only at read
      have width : (if b = 0xfd then 2 else if b = 0xfe then 4 else 8) ∈ [2, 4, 8] := by
        split_ifs <;> decide
      generalize (if b = 0xfd then 2 else if b = 0xfe then 4 else 8) = n at read width
      split at read
      next => cases read
      next =>
        obtain ⟨rfl, rfl⟩ := Prod.mk.inj (Option.some.inj read)
        have size := decode_lt ((buf.drop (off + 1)).take n)
        have short : ((buf.drop (off + 1)).take n).length ≤ n := List.length_take_le _ _
        have small := size.trans_le (Nat.pow_le_pow_right (by decide : 0 < 256) short)
        rw [outSerSize]
        simp only [List.mem_cons, List.not_mem_nil, or_false] at width
        rcases width with rfl | rfl | rfl
        all_goals split_ifs <;> omega

/-- An output takes at least the bytes it is charged. -/
theorem readOutput_grows (fits : Fits buf) (read : readOutput buf off = .ok (c, next)) :
    next ≤ buf.length ∧ (c.spkOff + c.spkLen ≤ buf.length → off + outSerSize c.spkLen ≤ next) := by
  rw [readOutput] at read
  obtain ⟨⟨value, off₁⟩, readValue, read⟩ := bind_ok read
  obtain ⟨⟨spkLen, off₂⟩, readLen, read⟩ := bind_ok read
  obtain ⟨after, skipped, read⟩ := bind_ok read
  obtain ⟨opReturn, _, read⟩ := bind_ok read
  obtain ⟨rfl, rfl⟩ := Prod.mk.inj (Except.ok.inj read)
  have grown := rdVarint_grows (need_ok readLen)
  have eight : off₁ = off + 8 := by
    have fixed := need_ok readValue
    rw [rdU64, rdFixed] at fixed
    split at fixed
    next => cases fixed
    next => exact (Prod.mk.inj (Option.some.inj fixed)).2.symm
  rw [skip] at skipped
  split at skipped
  next => cases skipped
  next within =>
    obtain rfl := Except.ok.inj skipped
    refine ⟨not_lt.mp within, fun inside => ?_⟩
    dsimp only at inside grown ⊢
    rw [fits.sizeT inside]
    omega

theorem readOutputs_grows (fits : Fits buf) (read : readOutputs buf n scan = .ok scan')
    (start : n = 0 → scan.off ≤ buf.length) :
    scan'.off ≤ buf.length ∧ ∃ more, scan'.outs = scan.outs ++ more ∧
      ((∀ c ∈ more, c.spkOff + c.spkLen ≤ buf.length) →
        scan.off + (more.map fun c => outSerSize c.spkLen).sum ≤ scan'.off) := by
  induction n generalizing scan with
  | zero =>
    obtain rfl := Except.ok.inj read
    exact ⟨start rfl, [], (List.append_nil _).symm, fun _ => Nat.le_refl _⟩
  | succ n ih =>
    rw [readOutputs] at read
    obtain ⟨⟨c, next⟩, readOut, read⟩ := bind_ok read
    obtain ⟨mid, added, read⟩ := bind_ok read
    obtain ⟨within, grown⟩ := readOutput_grows fits readOut
    have stepped : mid.off = next ∧ mid.outs = scan.outs ++ [c] := by
      rw [Scan.add] at added
      split at added
      next =>
        obtain rfl := Except.ok.inj added
        exact ⟨rfl, rfl⟩
      next =>
        split at added
        next => cases added
        next =>
          obtain rfl := Except.ok.inj added
          exact ⟨rfl, rfl⟩
    obtain ⟨end_, more, outs, rest⟩ := ih read fun _ => stepped.1 ▸ within
    refine ⟨end_, c :: more, by rw [outs, stepped.2, List.append_assoc,
        List.singleton_append], fun inside => ?_⟩
    obtain ⟨here, later⟩ := List.forall_mem_cons.mp inside
    have one := grown here
    have others := rest later
    rw [stepped.1] at others
    rw [List.map_cons, List.sum_cons]
    omega

/-- The outputs come after the input. -/
theorem parseTemplate_grows (fits : Fits buf) (parsed : parseTemplate buf = .ok t)
    (prevout : t.prevoutOff + 36 ≤ buf.length) (scriptSig : t.ssOff + t.ssLen ≤ buf.length)
    (inside : ∀ c ∈ t.scan.outs, c.spkOff + c.spkLen ≤ buf.length) :
    36 + t.ssLen + (t.scan.outs.map fun c => outSerSize c.spkLen).sum ≤ buf.length := by
  rw [parseTemplate] at parsed
  obtain ⟨⟨version, off₁⟩, _, parsed⟩ := bind_ok parsed
  obtain ⟨⟨vin, prevoutOff⟩, _, parsed⟩ := bind_ok parsed
  obtain ⟨_, _, parsed⟩ := bind_ok parsed
  obtain ⟨off₃, skipIn, parsed⟩ := bind_ok parsed
  obtain ⟨⟨ssLen, ssOff⟩, readSs, parsed⟩ := bind_ok parsed
  obtain ⟨off₅, skipSs, parsed⟩ := bind_ok parsed
  obtain ⟨⟨sequence, off₆⟩, readSeq, parsed⟩ := bind_ok parsed
  obtain ⟨⟨vout, off₇⟩, readVout, parsed⟩ := bind_ok parsed
  obtain ⟨_, some, parsed⟩ := bind_ok parsed
  obtain ⟨_, _, parsed⟩ := bind_ok parsed
  obtain ⟨scan, scanned, parsed⟩ := bind_ok parsed
  obtain ⟨_, _, parsed⟩ := bind_ok parsed
  obtain ⟨⟨lockTime, _⟩, _, parsed⟩ := bind_ok parsed
  obtain ⟨_, _, parsed⟩ := bind_ok parsed
  obtain ⟨_, _, parsed⟩ := bind_ok parsed
  obtain rfl := Except.ok.inj parsed
  have stepped : ∀ {message off n next}, skip message buf off n = .ok next → off + n ≤ buf.length →
      next = off + n := by
    intro message off n next skipped within
    rw [skip] at skipped
    split at skipped
    next => cases skipped
    next => exact (Except.ok.inj skipped).symm.trans (fits.sizeT within)
  have vouts := ensure_ok some
  obtain ⟨within, more, outs, grown⟩ := readOutputs_grows fits scanned fun none => absurd none vouts
  rw [List.nil_append] at outs
  dsimp only at prevout scriptSig inside outs grown within ⊢
  subst outs
  have total := grown inside
  have afterIn := stepped skipIn prevout
  have afterSs := stepped skipSs scriptSig
  have ss := rdVarint_grows (need_ok readSs)
  have counted := rdVarint_grows (need_ok readVout)
  have seq : off₅ ≤ off₆ := by
    have fixed := need_ok readSeq
    rw [rdU32, rdFixed] at fixed
    split at fixed
    next => cases fixed
    next =>
      rw [← (Prod.mk.inj (Option.some.inj fixed)).2]
      omega
  simp only [outSerSize] at ss counted
  omega

/-- What the builder charges a template before the payouts. -/
theorem templateFixedBytes_le (inside : RewardInside hex)
    (built : buildFromTemplate scale resolver hex coinbaseTag jobSalt size1 size2 =
      .ok (parts, hasWitness))
    (decoded : hexPairs hex = some tx) (parsed : parseTemplate tx = .ok t)
    (found : t.scan.rewardIdx = some i) :
    templateFixedBytes t i (newScriptSigLen t.ssLen (cbTagPushLen coinbaseTag jobSalt) size1
      size2) ≤ estimatedBytes (some hex) := by
  obtain ⟨buf, t', i', c, repl, scriptSig, prevout, outputs, pairs, parse, found', scanned, _, _,
    short, _, prevoutCut,
    scriptSigCut, emitted, _⟩ := buildFromTemplate_spec built
  obtain rfl := Option.some.inj (decoded.symm.trans pairs)
  obtain rfl := Except.ok.inj (parsed.symm.trans parse)
  obtain rfl := Option.some.inj (found.symm.trans found')
  obtain ⟨fits, reward⟩ := inside tx t i c decoded parsed found scanned
  have copied := (emitOutputs_total tx i repl t.scan.outs 0).mp ⟨outputs, emitted⟩
  have all : ∀ out ∈ t.scan.outs, out.spkOff + out.spkLen ≤ tx.length := by
    intro out member
    obtain ⟨k, found⟩ := List.mem_iff_getElem?.mp member
    by_cases replaced : k = i
    · rw [replaced, scanned] at found
      obtain rfl := Option.some.inj found
      exact reward
    · obtain ⟨bytes, cut⟩ := copied k out found (by omega)
      exact slice_inside cut
  have size :=
    parseTemplate_grows fits parsed (slice_inside prevoutCut) (slice_inside scriptSigCut) all
  have others : ((t.scan.outs.eraseIdx i).map fun out => outSerSize out.spkLen).sum ≤
      (t.scan.outs.map fun out => outSerSize out.spkLen).sum :=
    ((List.eraseIdx_sublist t.scan.outs i).map _).sum_le_sum fun _ _ => Nat.zero_le _
  have half := hexPairs_length decoded
  rw [cbTagPushLen_eq, estimatedBytes, templateFixedBytes, envelopeBytes, if_pos (by omega)]
  refine (Nat.mod_le _ _).trans ?_
  omega

theorem template_expected_le (inside : RewardInside hex) (due : AllDue floor payees)
    (built : buildWindowFromTemplate scale hex payees operatorAddress feeBps coinbaseTag jobSalt
      size1 size2 maxBytes floor = .ok (parts, result)) :
    coinbaseExpectedPayoutSlots maxBytes (some hex) (addressesOf payees) ≤ result.paidCount := by
  rw [buildWindowFromTemplate] at built
  obtain ⟨⟨parts', hasWitness⟩, rewritten, built⟩ := bind_ok built
  obtain ⟨tx, decoded, built⟩ := bind_ok built
  obtain ⟨t, parsed, built⟩ := bind_ok built
  obtain ⟨i, found, built⟩ := bind_ok built
  obtain ⟨c, scanned, built⟩ := bind_ok built
  obtain ⟨⟨outs, result'⟩, resolved, built⟩ := bind_ok built
  obtain ⟨_, rfl⟩ := Prod.mk.inj (Except.ok.inj built)
  have envelope := templateFixedBytes_le inside rewritten (decodeTemplateHex_ok.mp decoded) parsed
    (orUndefined_ok found)
  obtain ⟨count, someone⟩ := resolveWindowOutputs_count resolved
  rw [count] at someone ⊢
  exact expected_le_payouts due someone envelope

/-- What a coinbase from scratch is built around: a commitment in hex, a scriptSig within its
limits, and an operator, if there is one, whose address can be read. -/
structure Scratch where
  height : UInt32
  operatorAddress : Option Bytes
  feeBps : FeeBps
  witnessCommitment : Option Bytes
  coinbaseTag : Option Bytes
  jobSalt : UInt32
  size1 : Nat
  size2 : Nat
  commitment : ∃ bytes, decodeCommitment witnessCommitment = .ok bytes
  scriptSig : 2 ≤ scratchScriptSigLen height coinbaseTag jobSalt size1 size2 ∧
    scratchScriptSigLen height coinbaseTag jobSalt size1 size2 ≤ 100
  operator : ∀ address, nonEmpty operatorAddress = some address → ∃ spk,
  addressToScript address spkCap = .ok spk

namespace Scratch

variable (scratch : Scratch)

def build (scale : Scale) (value : Int) (payees : List Payee) (maxBytes : Nat) (floor : Int) :
    Result (Parts × WindowResult) :=
  buildWindow scale scratch.height value payees scratch.operatorAddress scratch.feeBps
    scratch.witnessCommitment
    scratch.coinbaseTag scratch.jobSalt scratch.size1 scratch.size2 maxBytes floor

/-- `fixed` of `coinbase_build_window`. -/
def fixedBytes : Nat :=
  scratchFixedBytes scratch.height scratch.operatorAddress scratch.witnessCommitment
    scratch.coinbaseTag scratch.jobSalt
    scratch.size1 scratch.size2

/-- No budget and no list for which more payouts are expected than are paid. -/
def Kept : Prop :=
  ∀ scale value payees maxBytes floor parts result, AllDue floor payees →
    scratch.build scale value payees maxBytes floor = .ok (parts, result) →
    coinbaseExpectedPayoutSlots maxBytes none (addressesOf payees) ≤ result.paidCount

theorem kept_of_envelope (envelope : scratch.fixedBytes ≤ 160) : scratch.Kept := by
  intro scale value payees maxBytes floor parts result due built
  obtain ⟨repl, commitment, ssLen, resolved, _⟩ := buildWindow_ok built
  obtain ⟨count, someone⟩ := resolveWindowOutputs_count resolved
  rw [count] at someone ⊢
  exact expected_le_payouts due someone envelope

/-- The fee is a tenth at the most. -/
theorem operatorFee_total (nonneg : 0 ≤ value) (small : value * 1000 < 2 ^ 63) :
    ∃ operator, operatorFee value scratch.operatorAddress scratch.feeBps = .ok operator ∧
    0 ≤ feeOf operator ∧
      feeOf operator * 10 ≤ value := by
  have checked := scratch.feeBps.checked
  have share : value * scratch.feeBps.bps ≤ value * 1000 :=
    Int.mul_le_mul_of_nonneg_left (by omega) nonneg
  have product : 0 ≤ value * scratch.feeBps.bps := Int.mul_nonneg nonneg (by omega)
  have fee : ∀ operator, operatorFee value scratch.operatorAddress scratch.feeBps = .ok operator →
      0 ≤ feeOf operator ∧ feeOf operator * 10 ≤ value := by
    intro operator paid
    cases operator with
    | none => exact ⟨Int.le_refl 0, nonneg⟩
    | some out =>
      rw [feeOf, Option.map_some, Option.getD_some, (operatorFee_spec paid).1,
        Int.tdiv_eq_ediv_of_nonneg product]
      omega
  have computed : int64 (value * scratch.feeBps.bps) = .ok (value * scratch.feeBps.bps) :=
    if_pos (by omega)
  obtain ⟨operator, paid⟩ := operatorFee_of_readable (fun _ _ => ⟨_, computed⟩) scratch.operator
  exact ⟨operator, paid, fee operator paid⟩

/-- The bytes of a payout to the crowd. -/
theorem crowd_script : ∃ spk, addressToScript crowdAddress spkCap = .ok spk ∧ spk.length = 22 := by
  have measured : (addressToScript crowdAddress spkCap).toOption.map List.length = some 22 := by
    decide +kernel
  cases script : addressToScript crowdAddress spkCap with
  | error failure =>
    rw [script] at measured
    cases measured
  | ok spk =>
    rw [script] at measured
    exact ⟨spk, rfl, Option.some.inj measured⟩

/-- Two claims on the crowd's address, of which the second is small. -/
def pair (payable : Int) : List Payee :=
  [⟨some crowdAddress, payable - 1000⟩, ⟨some crowdAddress, 1000⟩]

theorem pair_due (enough : 2000 ≤ payable) : AllDue 0 (pair payable) := by
  obtain ⟨spk, script, _⟩ := crowd_script
  intro payee member
  have floor : effectiveFloor 0 = 546 := rfl
  rcases List.mem_cons.mp member with rfl | member
  · exact ⟨spk, by rw [floor]; dsimp only; omega, script⟩
  · obtain rfl := List.mem_singleton.mp member
    exact ⟨spk, by decide, script⟩

theorem pair_sizes (enough : 2000 ≤ payable) :
    payoutSizes (effectiveFloor 0) (pair payable) = [31, 31] := by
  obtain ⟨spk, script, size⟩ := crowd_script
  have floor : effectiveFloor 0 = 546 := rfl
  have bytes : ∀ sats, payeeBytes ⟨some crowdAddress, sats⟩ = 31 := by
    intro sats
    rw [payeeBytes, Option.getD_some, script]
    dsimp only
    rw [size]
    rfl
  rw [payoutSizes, pair, floor, List.filter_cons_of_pos (by simp; omega),
    List.filter_cons_of_pos (by decide), List.filter_nil,
    List.map_cons, List.map_cons, List.map_nil, bytes, bytes]

/-- A byte short of two payouts, the builder pays one. -/
theorem pair_paid (enough : 2000 ≤ payable) :
    (payouts 0 (fixed + 61) fixed (pair payable)).1 = 1 := by
  have budget : payoutBudget (fixed + 61) fixed = 61 := by
    rw [payoutBudget_eq, byteLimit, if_neg (by omega)]
    omega
  rw [payouts, pair_sizes enough, budget]
  rfl

/-- And what the estimate leaves for payouts holds two. -/
theorem pair_expected (beyond : 160 < fixed) :
    coinbaseExpectedPayoutSlots (fixed + 61) none (addressesOf (pair payable)) = 2 := by
  obtain ⟨spk, script, size⟩ := crowd_script
  have limit : byteLimit (fixed + 61) = fixed + 61 := if_neg (by omega)
  rw [coinbaseExpectedPayoutSlots_eq _ _ (by simp [addressesOf, pair]), estimatedBytes, limit,
    if_neg (by omega)]
  have cost : outSerSize spk.length = 31 := by rw [size]; rfl
  have both : fittingSlots (fixed + 61 - 160) (addressesOf (pair payable)) 0 0 = 2 := by
    change fittingSlots _ [crowdAddress, crowdAddress] 0 0 = 2
    rw [fittingSlots, script]
    dsimp only
    rw [if_neg (by omega), fittingSlots, script]
    dsimp only
    rw [if_neg (by omega), fittingSlots]
  rw [both]
  rfl

/-- Only the first of the two outputs fits. -/
theorem pair_fitting (enough : 2000 ≤ payable) :
    fittingAmounts (effectiveFloor 0) 61 (pair payable) 0 = [payable - 1000] := by
  obtain ⟨spk, script, size⟩ := crowd_script
  have floor : effectiveFloor 0 = 546 := rfl
  have cost : outSerSize spk.length = 31 := by rw [size]; rfl
  rw [pair, fittingAmounts, if_neg (by rw [floor]; dsimp only; omega), Option.getD_some, script]
  dsimp only
  rw [cost, if_neg (by decide), fittingAmounts, if_neg (by decide), Option.getD_some, script]
  dsimp only
  rw [cost, if_pos (by decide), fittingAmounts]

/-- The exact share of the only payee that is paid is all there is. -/
theorem pair_spreads (enough : 2000 ≤ payable) :
    Spreads .exact payable (effectiveFloor 0) 61 (pair payable) := by
  intro _
  have share : payable * (payable - 1000) / (payable - 1000) = payable :=
    Int.mul_ediv_cancel _ (by omega)
  simp [pair_fitting enough, Scale.exact, share]

theorem pair_claims (enough : 2000 ≤ payable) (typed : payable < 2 ^ 63) :
    claimedSats (pair payable) 0 0 = .ok payable := by
  have someone : (nonEmpty (some crowdAddress)).isNone = false := by decide
  have first : int64 (0 + (payable - 1000)) = .ok (payable - 1000) := by
    rw [int64, if_pos (by omega), Int.zero_add]
  have second : int64 (payable - 1000 + 1000) = .ok payable := by
    rw [int64, if_pos (by omega), Int.sub_add_cancel]
  rw [pair, claimedSats, someone, if_neg (by decide), if_neg (by dsimp only; omega)]
  dsimp only
  rw [first]
  change claimedSats _ 1 (payable - 1000) = _
  rw [claimedSats, someone, if_neg (by decide), if_neg (by decide)]
  dsimp only
  rw [second]
  rfl

/-- When the builder charges more than the envelope, the two claims are promised a payout each. -/
theorem envelope_of_kept (kept : scratch.Kept) : scratch.fixedBytes ≤ 160 := by
  by_contra beyond
  obtain ⟨spk, script, size⟩ := crowd_script
  obtain ⟨operator, paid, positive, tenth⟩ :=
    scratch.operatorFee_total (by decide : (0 : Int) ≤ 100000000) (by decide)
  have enough : 2000 ≤ 100000000 - feeOf operator := by omega
  have due := pair_due enough
  have claims := pair_claims enough (by omega)
  have resolvable : Resolvable .exact (100000000 - feeOf operator) (effectiveFloor 0)
      (payoutBudget (scratch.fixedBytes + 61) scratch.fixedBytes)
        (pair (100000000 - feeOf operator)) := by
    have budget : payoutBudget (scratch.fixedBytes + 61) scratch.fixedBytes = 61 := by
      rw [payoutBudget_eq, byteLimit, if_neg (by omega)]
      omega
    rw [budget]
    refine ⟨fun payee member _ => due payee member, ?_, pair_spreads enough⟩
    obtain ⟨spk', owed⟩ := due _ List.mem_cons_self
    obtain rfl := Except.ok.inj (owed.2.symm.trans script)
    exact ⟨_, List.mem_cons_self, spk', owed, by rw [size]; decide⟩
  have total : ∃ built, scratch.build .exact 100000000 (pair (100000000 - feeOf operator))
      (scratch.fixedBytes + 61) 0 = .ok built :=
    (buildWindow_total (List.cons_ne_nil _ _) (Nat.le_of_ble_eq_true rfl) (by decide)
      (by decide) paid claims).mpr
      ⟨resolvable, scratch.commitment, scratch.scriptSig⟩
  obtain ⟨⟨parts, result⟩, built⟩ := total
  have promise := kept _ _ _ _ _ _ _ due built
  obtain ⟨repl, commitment, ssLen, resolved, _⟩ := buildWindow_ok built
  have one := (resolveWindowOutputs_count resolved).1.trans (pair_paid enough)
  rw [pair_expected (not_le.mp beyond), one] at promise
  exact absurd promise (by decide)

end Scratch

/-- The estimate is kept by every template, and from scratch exactly by an envelope of at most
160 bytes. -/
theorem expected_payout_slots (scratch : Scratch) :
    (∀ scale hex payees operatorAddress feeBps coinbaseTag jobSalt size1 size2 maxBytes floor parts
      result, RewardInside hex →
      AllDue floor payees →
      buildWindowFromTemplate scale hex payees operatorAddress feeBps coinbaseTag jobSalt size1
        size2 maxBytes floor = .ok (parts, result) →
      coinbaseExpectedPayoutSlots maxBytes (some hex) (addressesOf payees) ≤ result.paidCount) ∧
    (scratch.Kept ↔ scratch.fixedBytes ≤ 160) :=
  ⟨fun _ _ _ _ _ _ _ _ _ _ _ _ _ inside due built => template_expected_le inside due built,
    scratch.envelope_of_kept, scratch.kept_of_envelope⟩

/-- A commitment, an operator, a tag and twelve bytes of extranonces. -/
def ordinary : Scratch where
  height := 850000
  operatorAddress := some crowdAddress
  feeBps := .onePercent
  witnessCommitment := some (List.replicate 76 48)
  coinbaseTag := some (ascii "simplepool")
  jobSalt := 7
  size1 := 4
  size2 := 8
  commitment := ⟨some (List.replicate 38 0), by decide +kernel⟩
  scriptSig := by decide +kernel
  operator := by
    intro address present
    obtain ⟨spk, script, _⟩ := Scratch.crowd_script
    obtain rfl : crowdAddress = address := Option.some.inj
      ((by decide +kernel : nonEmpty (some crowdAddress) = some crowdAddress).symm.trans present)
    exact ⟨spk, script⟩

/-- Twenty-five equal claims on a template with two commitments. -/
def sharing : List Payee := List.replicate 25 ⟨some crowdAddress, 198000000⟩

def buildSharing : Result (Parts × WindowResult) :=
  buildWindowFromTemplate .exact (hexEncode commitmentTx.write) sharing
    (some crowdAddress) .onePercent (some (ascii "simplepool"))
    7 4 8 600 0

/-- Under six hundred bytes the estimate promises eleven payouts, and fifteen are made. -/
theorem expected_payout_slots_sharing :
    ∃ parts result, buildSharing = .ok (parts, result) ∧ result.paidCount = 15 ∧
    coinbaseExpectedPayoutSlots 600 (some (hexEncode commitmentTx.write)) (addressesOf sharing) =
      11 ∧
    coinbaseExpectedPayoutSlots 600 (some (hexEncode commitmentTx.write)) (addressesOf sharing) ≤
      result.paidCount := by
  have evaluated : buildSharing.toOption.map (fun built => built.2.paidCount) = some 15 ∧
      coinbaseExpectedPayoutSlots 600 (some (hexEncode commitmentTx.write)) (addressesOf sharing) =
        11 := by decide +kernel
  have small : Fits commitmentTx.write := by
    rw [Fits]
    decide +kernel
  have transaction : Tx.read commitmentTx.write = some commitmentTx := by decide +kernel
  have inside : RewardInside (hexEncode commitmentTx.write) := by
    apply rewardInside_of_transaction
    intro buf pairs
    obtain rfl := Option.some.inj ((hexPairs_hexEncode _).symm.trans pairs)
    exact ⟨small, commitmentTx, transaction⟩
  obtain ⟨spk, script, _⟩ := Scratch.crowd_script
  have due : AllDue 0 sharing := by
    intro payee member
    rw [List.eq_of_mem_replicate member]
    exact ⟨spk, by decide, script⟩
  cases built : buildSharing with
  | error failure =>
    rw [built] at evaluated
    cases evaluated.1
  | ok pair =>
    obtain ⟨parts, result⟩ := pair
    rw [built] at evaluated
    have paid : result.paidCount = 15 := Option.some.inj evaluated.1
    exact ⟨parts, result, rfl, paid, evaluated.2,
      (expected_payout_slots ordinary).1 _ _ _ _ _ _ _ _ _ _ _ _ _ inside due built⟩

/-- Twenty-seven equal claims, and the fee beside them. -/
def twentySeven : List Payee := List.replicate 27 ⟨some crowdAddress, 1000000⟩

def buildTwentySeven : Result (Parts × WindowResult) :=
  ordinary.build .exact 27272727 twentySeven 0 0

/-- Within the default limit the estimate promises each of them a payout, and one goes without. -/
theorem expected_one_too_many : ¬ordinary.Kept ∧ ordinary.fixedBytes = 175 ∧
    buildTwentySeven.toOption.map (fun built => built.2.paidCount) = some 26 ∧
    coinbaseExpectedPayoutSlots 0 none (addressesOf twentySeven) = 27 := by
  have evaluated : ordinary.fixedBytes = 175 ∧
    buildTwentySeven.toOption.map (fun built => built.2.paidCount) = some 26 ∧
      coinbaseExpectedPayoutSlots 0 none (addressesOf twentySeven) = 27 := by decide +kernel
  refine ⟨fun kept => ?_, evaluated⟩
  obtain ⟨spk, script, _⟩ := Scratch.crowd_script
  have due : AllDue 0 twentySeven := by
    intro payee member
    rw [List.eq_of_mem_replicate member]
    exact ⟨spk, by decide, script⟩
  cases built : buildTwentySeven with
  | error failure =>
    rw [built] at evaluated
    cases evaluated.2.1
  | ok pair =>
    obtain ⟨parts, result⟩ := pair
    rw [built] at evaluated
    have promise := kept _ _ _ _ _ _ _ due built
    have paid : result.paidCount = 26 := Option.some.inj evaluated.2.1
    rw [evaluated.2.2, paid] at promise
    exact absurd promise (by decide)

end SimplePool.Main
