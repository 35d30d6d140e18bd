import SimplePool.Coinbase.Budget
import SimplePool.Coinbase.WindowValue

/-! When a builder accepts a window: what is left to check once the claims add up. -/
namespace SimplePool.Coinbase
open Wire

/-- A claim that the floor lets through, and the script that its output would carry. -/
def Due (floor : Int) (payee : Payee) (spk : Bytes) : Prop :=
  floor ≤ payee.sats ∧ addressToScript (payee.address.getD []) spkCap = .ok spk

/-- Every claim over the floor has an address that can be read. -/
def Readable (floor : Int) (payees : List Payee) : Prop :=
  ∀ payee ∈ payees, floor ≤ payee.sats → ∃ spk, Due floor payee spk

/-- The output of some claim over the floor fits on its own. -/
def SomeoneFits (floor : Int) (budget : Nat) (payees : List Payee) : Prop :=
  ∃ payee ∈ payees, ∃ spk, Due floor payee spk ∧ outSerSize spk.length ≤ budget

def Paying.start : Paying := ⟨[], 0, 0, ⟨0, 0, 0, 0, 0, 0, []⟩⟩

/-- The amounts of the claims over the floor whose outputs fit, taken one after another. -/
def fittingAmounts (floor : Int) (budget : Nat) : List Payee → Nat → List Int
  | [], _ => []
  | payee :: rest, used =>
    if payee.sats < floor then fittingAmounts floor budget rest used
    else
      match addressToScript (payee.address.getD []) spkCap with
      | .error _ => fittingAmounts floor budget rest used
      | .ok spk =>
        if budget < used + outSerSize spk.length then fittingAmounts floor budget rest used
        else payee.sats :: fittingAmounts floor budget rest (used + outSerSize spk.length)

/-- What the claims that fit leave over can be spread: their amounts, scaled up, do not come
to more than there is to pay. -/
def Spreads (scale : Scale) (payable floor : Int) (budget : Nat) (payees : List Payee) : Prop :=
  (fittingAmounts floor budget payees 0).sum < payable →
    ((fittingAmounts floor budget payees 0).map fun sats =>
      scale.apply payable sats (fittingAmounts floor budget payees 0).sum).sum ≤ payable

/-- What the resolver asks of a window beyond its sum. -/
structure Resolvable (scale : Scale) (payable floor : Int) (budget : Nat) (payees : List Payee) :
    Prop where
  readable : Readable floor payees
  fits : SomeoneFits floor budget payees
  spreads : Spreads scale payable floor budget payees

/-- With storage for everybody the loop only stops at an address. -/
theorem payDown_total (few : p.outs.length + payees.length < cap) :
    (∃ q, payDown floor cap budget payees k p = .ok q) ↔ Readable floor payees := by
  induction payees generalizing k p with
  | nil => exact ⟨fun _ => List.forall_mem_nil _, fun _ => ⟨p, rfl⟩⟩
  | cons payee rest ih =>
    rw [List.length_cons] at few
    rw [Readable, List.forall_mem_cons, ← Readable, payDown]
    by_cases small : payee.sats < floor
    · rw [if_pos small, ih (show (p.belowFloor payee).outs.length + rest.length < cap by
        change p.outs.length + rest.length < cap
        omega)]
      exact ⟨fun readable => ⟨fun enough => absurd enough (not_le.mpr small), readable⟩, And.right⟩
    · rw [if_neg small, if_neg (by omega)]
      cases script : addressToScript (payee.address.getD []) spkCap with
      | error failure =>
        constructor
        · rintro ⟨q, done⟩
          cases done
        · rintro ⟨first, _⟩
          obtain ⟨spk, _, read⟩ := first (not_lt.mp small)
          rw [script] at read
          cases read
      | ok spk =>
        have due : ∃ spk, Due floor payee spk := ⟨spk, not_lt.mp small, script⟩
        dsimp only [bind, Except.bind]
        split
        next =>
          rw [ih (show (p.capped payee).outs.length + rest.length < cap by
            change p.outs.length + rest.length < cap
            omega)]
          exact ⟨fun readable => ⟨fun _ => due, readable⟩, And.right⟩
        next =>
          rw [ih (show (p.paid k payee spk).outs.length + rest.length < cap by
            change (p.outs ++ [_]).length + rest.length < cap
            rw [List.length_append, List.length_singleton]
            omega)]
          exact ⟨fun readable => ⟨fun _ => due, readable⟩, And.right⟩

theorem payDown_count (done : payDown floor cap budget payees k p = .ok q) :
    p.result.paidCount ≤ q.result.paidCount := by
  induction payees generalizing k p with
  | nil =>
    obtain rfl := Except.ok.inj done
    exact Nat.le_refl _
  | cons payee rest ih =>
    rw [payDown] at done
    split at done
    next =>
      have later := ih done
      exact later
    next =>
      split at done
      next =>
        have later := ih done
        exact later
      next =>
        obtain ⟨spk, _, done⟩ := bind_ok done
        split at done
        next =>
          have later := ih done
          exact later
        next =>
          have later := ih done
          exact (Nat.le_succ _).trans later

/-- The first that fits is paid, so somebody is paid where somebody fits. -/
theorem payDown_someone (few : p.outs.length + payees.length < cap)
    (nobody : p.result.paidCount = 0) (empty : p.payoutBytes = 0)
    (done : payDown floor cap budget payees k p = .ok q) :
    q.result.paidCount ≠ 0 ↔ SomeoneFits floor budget payees := by
  induction payees generalizing k p with
  | nil =>
    obtain rfl := Except.ok.inj done
    exact ⟨fun paid => absurd nobody paid, nofun⟩
  | cons payee rest ih =>
    rw [List.length_cons] at few
    rw [SomeoneFits, List.exists_mem_cons_iff, ← SomeoneFits]
    rw [payDown] at done
    split at done
    next small =>
      have later := ih (p := p.belowFloor payee)
        (by change p.outs.length + rest.length < cap; omega) nobody empty done
      rw [later]
      refine ⟨.inr, fun fits => fits.resolve_left ?_⟩
      rintro ⟨spk, ⟨enough, _⟩, _⟩
      exact absurd enough (not_le.mpr small)
    next enough =>
      rw [if_neg (by omega)] at done
      obtain ⟨spk, script, done⟩ := bind_ok done
      rw [empty, Nat.zero_add] at done
      split at done
      next large =>
        have later := ih (p := p.capped payee) (by change p.outs.length + rest.length < cap; omega)
          nobody empty done
        rw [later]
        refine ⟨.inr, fun fits => fits.resolve_left ?_⟩
        rintro ⟨other, ⟨_, read⟩, fits⟩
        obtain rfl := Except.ok.inj (script.symm.trans read)
        omega
      next small =>
        have paid := payDown_count done
        have one : (p.paid k payee spk).result.paidCount = p.result.paidCount + 1 := rfl
        refine ⟨fun _ => .inl ⟨spk, ⟨not_lt.mp enough, script⟩, by omega⟩, fun _ => by omega⟩

/-- The amounts that are paid are the claims that fit. -/
theorem payDown_fitting (few : p.outs.length + payees.length < cap)
    (done : payDown floor cap budget payees k p = .ok q) :
    q.outs.map ReplOut.sats = p.outs.map ReplOut.sats ++
      fittingAmounts floor budget payees p.payoutBytes := by
  induction payees generalizing k p with
  | nil =>
    obtain rfl := Except.ok.inj done
    rw [fittingAmounts, List.append_nil]
  | cons payee rest ih =>
    rw [List.length_cons] at few
    rw [payDown] at done
    rw [fittingAmounts]
    split at done
    next small =>
      rw [if_pos small]
      exact ih (p := p.belowFloor payee) (by change p.outs.length + rest.length < cap; omega) done
    next enough =>
      rw [if_neg enough]
      rw [if_neg (by omega)] at done
      obtain ⟨spk, script, done⟩ := bind_ok done
      rw [script]
      dsimp only
      split at done
      next large =>
        rw [if_pos large]
        exact ih (p := p.capped payee) (by change p.outs.length + rest.length < cap; omega) done
      next fits =>
        have later := ih (p := p.paid k payee spk)
          (by change (p.outs ++ [_]).length + rest.length < cap; rw [List.length_append,
            List.length_singleton]; omega) done
        rw [if_neg fits, later]
        simp [Paying.paid]

/-- What is spread is what there is to pay, whatever the rounding did. -/
theorem redistribute_sum (someone : outs ≠ [])
    (spread : redistribute scale payable paidSats outs = .ok result) :
    (result.map ReplOut.sats).sum = payable ∧ result.length = outs.length := by
  have length :
      (outs.map fun out => { out with sats := scale.apply payable out.sats paidSats }).length =
        outs.length :=
    List.length_map _
  simp only [redistribute] at spread
  generalize (outs.map fun out => { out with sats := scale.apply payable out.sats paidSats }) =
      scaled at length spread
  obtain ⟨assigned, summed, spread⟩ := bind_ok spread
  obtain ⟨rfl, _⟩ := int64_ok summed
  split at spread
  next short =>
    obtain rfl := Except.ok.inj spread
    cases scaled with
    | nil => exact absurd (List.eq_nil_of_length_eq_zero length.symm) someone
    | cons first rest =>
      have inside := bigIndex_lt rest 1 0 first.sats Nat.one_pos
      dsimp only
      refine ⟨?_, ?_⟩
      · rw [addAt_sum (by rw [List.length_cons]; omega)]
        omega
      · rw [addAt, List.length_modify, length]
  next =>
    split at spread
    next => cases spread
    next =>
      obtain rfl := Except.ok.inj spread
      exact ⟨by omega, length⟩

/-- The amounts are spread unless they come to more than there is. -/
theorem redistribute_total (outs : List ReplOut)
    (nonneg : ∀ out ∈ outs, 0 ≤ scale.apply payable out.sats paidSats)
    (typed : payable < 2 ^ 63) : (∃ result, redistribute scale payable paidSats outs = .ok result) ↔
      (outs.map fun out => scale.apply payable out.sats paidSats).sum ≤ payable := by
  have sums : ((outs.map fun out => { out with sats := scale.apply payable out.sats paidSats }).map
    ReplOut.sats) = outs.map fun out => scale.apply payable out.sats paidSats := by
    rw [List.map_map]
    rfl
  have positive : 0 ≤ (outs.map fun out => scale.apply payable out.sats paidSats).sum := by
    refine List.sum_nonneg fun sats member => ?_
    obtain ⟨out, inside, rfl⟩ := List.mem_map.mp member
    exact nonneg out inside
  simp only [redistribute]
  generalize (outs.map fun out => { out with sats := scale.apply payable out.sats paidSats }) =
      scaled at sums
  rw [sums]
  generalize (outs.map fun out => scale.apply payable out.sats paidSats).sum = assigned at positive
  constructor
  · rintro ⟨result, spread⟩
    obtain ⟨total, summed, done⟩ := bind_ok spread
    obtain ⟨same, _⟩ := int64_ok summed
    rw [same] at done
    split at done
    next short => exact short.le
    next =>
      split at done
      next => cases done
      next above => exact not_lt.mp above
  · intro within
    have typedSum : int64 assigned = .ok assigned := by
      rw [int64, if_pos (by omega)]
    rw [typedSum]
    dsimp only [bind, Except.bind]
    split
    next => exact ⟨_, rfl⟩
    next =>
      rw [if_neg (by omega)]
      exact ⟨_, rfl⟩

/-- Where somebody is paid, what was dropped is spread unless the scaled amounts are too much. -/
theorem spreadDropped_total (sound : Paying.Sound p) (someone : p.result.paidCount ≠ 0)
    (nonneg : 0 ≤ payable)
    (typed : payable < 2 ^ 63) : (∃ spread, spreadDropped scale payable p = .ok spread) ↔
      (0 < p.dropped → (p.outs.map fun out => scale.apply payable out.sats p.result.paidSats).sum ≤
        payable) := by
  have amounts : ∀ out ∈ p.outs, 0 ≤ scale.apply payable out.sats p.result.paidSats :=
    fun out member =>
    scale.nonneg _ _ _ nonneg (le_trans (by decide) (sound.outs out member).1)
      (sound.paidSats_pos someone)
  have total := redistribute_total p.outs amounts typed
  rw [spreadDropped]
  split
  next dropped =>
    rw [forall_prop_of_true dropped, ← total]
    constructor
    · rintro ⟨spread, redistributed⟩
      obtain ⟨scaled, redistributed, _⟩ := bind_ok redistributed
      exact ⟨scaled, redistributed⟩
    · rintro ⟨scaled, redistributed⟩
      rw [redistributed]
      exact ⟨_, rfl⟩
  next kept => exact ⟨fun _ dropped => absurd dropped kept, fun _ => ⟨_, rfl⟩⟩

/-- Something is dropped when the claims that fit are not everything. -/
theorem spreads_iff (few : payees.length ≤ maxPayoutOutputs)
    (claims : claimedSats payees 0 0 = .ok payable) (sound : Paying.Sound p)
    (down : payDown floor maxReplOuts budget payees 0 Paying.start = .ok p) :
    Spreads scale payable floor budget payees ↔
      (0 < p.dropped → (p.outs.map fun out => scale.apply payable out.sats p.result.paidSats).sum ≤
        payable) := by
  have room : Paying.start.outs.length + payees.length < maxReplOuts := by
    change 0 + payees.length < 200 + 1
    change payees.length ≤ 200 at few
    omega
  have amounts : p.outs.map ReplOut.sats = fittingAmounts floor budget payees 0 :=
    payDown_fitting room down
  obtain ⟨total, nonneg⟩ := claimedSats_sum claims
  obtain ⟨_, books⟩ := payDown_accounts (.start _) nonneg down
  have value := books.value
  rw [List.nil_append, amounts] at value
  have scaled : (p.outs.map fun out => scale.apply payable out.sats p.result.paidSats) =
      (fittingAmounts floor budget payees 0).map fun sats =>
        scale.apply payable sats (fittingAmounts floor budget payees 0).sum := by
    rw [← amounts, ← sound.paidSats, List.map_map]
    rfl
  have dropped : 0 < p.dropped ↔ (fittingAmounts floor budget payees 0).sum < payable := by omega
  rw [Spreads, scaled, dropped]

theorem spreadDropped_length (someone : p.outs ≠ [])
    (spread : spreadDropped scale payable p = .ok (outs, result)) :
    outs.length = p.outs.length := by
  rw [spreadDropped] at spread
  split at spread
  next =>
    obtain ⟨scaled, redistributed, spread⟩ := bind_ok spread
    obtain ⟨rfl, _⟩ := Prod.mk.inj (Except.ok.inj spread)
    exact (redistribute_sum someone redistributed).2
  next =>
    obtain ⟨rfl, _⟩ := Prod.mk.inj (Except.ok.inj spread)
    rfl

/-- A window whose claims add up is resolved when it asks for nothing more. -/
theorem resolveWindowOutputs_total (someone : payees ≠ []) (few : payees.length ≤ maxPayoutOutputs)
    (positive : 0 < value)
    (typed : value < 2 ^ 63) (fee : operatorFee value operatorAddress feeBps = .ok operator)
    (claims : claimedSats payees 0 0 = .ok (value - feeOf operator)) :
    (∃ resolved, resolveWindowOutputs scale value payees operatorAddress feeBps maxBytes fixedBytes
      floor maxReplOuts = .ok resolved) ↔
      Resolvable scale (value - feeOf operator) (effectiveFloor floor)
        (payoutBudget maxBytes fixedBytes) payees := by
  have room : Paying.start.outs.length + payees.length < maxReplOuts := by
    change 0 + payees.length < 200 + 1
    change payees.length ≤ 200 at few
    omega
  have payable : value - feeOf operator < 2 ^ 63 := by
    have part : 0 ≤ feeOf operator := by
      cases operator with
      | none => exact Int.le_refl 0
      | some out => exact (operatorFee_payable fee).sats
    omega
  have start : Paying.start.Sound := ⟨by simp [Paying.start], rfl, rfl⟩
  have nonneg := claimedSats_nonneg claims
  constructor
  · rintro ⟨⟨outs, result⟩, resolved⟩
    obtain ⟨_, operator', p, miners, spread, fee', _, down, paid, redistributed, _⟩ :=
      resolveWindowOutputs_ok resolved
    obtain rfl := Except.ok.inj (fee.symm.trans fee')
    have sound : p.Sound := payDown_sound (dust_le_effectiveFloor floor) start down
    have spreads := (spreadDropped_total sound paid nonneg payable).mp ⟨_, redistributed⟩
    exact ⟨(payDown_total room).mp ⟨p, down⟩, (payDown_someone room rfl rfl down).mp paid,
      (spreads_iff few claims sound down).mpr spreads⟩
  · intro resolvable
    obtain ⟨p, down⟩ := (payDown_total room).mpr resolvable.readable
    have paid := (payDown_someone room rfl rfl down).mpr resolvable.fits
    have sound : p.Sound := payDown_sound (dust_le_effectiveFloor floor) start down
    have spreads := (spreads_iff few claims sound down).mp resolvable.spreads
    obtain ⟨⟨miners, result⟩, redistributed⟩ :=
      (spreadDropped_total sound paid nonneg payable).mpr spreads
    obtain ⟨_, books⟩ := payDown_accounts (.start _) (claimedSats_sum claims).2 down
    have counts := books.counts
    have present : p.outs ≠ [] := by
      rw [sound.paidCount] at paid
      exact List.length_pos_iff.mp (Nat.pos_of_ne_zero paid)
    have storage : ¬maxReplOuts ≤ miners.length := by
      rw [sound.paidCount, List.nil_append] at counts
      rw [spreadDropped_length present redistributed, maxReplOuts]
      omega
    have added : ∃ resolved, withOperator maxReplOuts operator miners result = .ok resolved := by
      cases operator with
      | none => exact ⟨_, rfl⟩
      | some out =>
        rw [withOperator, if_neg storage]
        exact ⟨_, rfl⟩
    obtain ⟨resolved, added⟩ := added
    refine ⟨resolved, ?_⟩
    change payDown _ _ _ _ _ ⟨[], 0, 0, ⟨0, 0, 0, 0, 0, 0, []⟩⟩ = _ at down
    rw [payoutBudget] at down
    simp only [resolveWindowOutputs]
    rw [if_neg (by rw [not_or]; exact ⟨by decide, someone⟩), if_neg (not_le.mpr positive), fee]
    dsimp only [bind, Except.bind]
    rw [claims]
    dsimp only
    rw [if_neg (not_not.mpr rfl), down]
    dsimp only
    rw [if_neg paid, redistributed]
    exact added

/-- What is resolved is the whole value. -/
theorem resolveWindowOutputs_value
    (resolved : resolveWindowOutputs scale value payees operatorAddress feeBps maxBytes fixedBytes
      floor cap = .ok (outs, result)) :
    (outs.map ReplOut.sats).sum = value ∧ outs ≠ [] := by
  obtain ⟨positive, operator, p, miners, spread, _, claims, down, paid, redistributed, added⟩ :=
    resolveWindowOutputs_ok resolved
  have sound : p.Sound := payDown_sound (dust_le_effectiveFloor floor) ⟨by simp, rfl, rfl⟩ down
  obtain ⟨claimed, nonneg⟩ := claimedSats_sum claims
  obtain ⟨_, books⟩ := payDown_accounts (.start _) nonneg down
  have balance := books.value
  have dropped := books.dropped
  rw [List.nil_append] at balance
  have present : p.outs ≠ [] := by
    rw [sound.paidCount] at paid
    exact List.length_pos_iff.mp (Nat.pos_of_ne_zero paid)
  have whole : (miners.map ReplOut.sats).sum = value - feeOf operator := by
    rw [spreadDropped] at redistributed
    split at redistributed
    next =>
      obtain ⟨scaled, spreading, redistributed⟩ := bind_ok redistributed
      obtain ⟨rfl, _⟩ := Prod.mk.inj (Except.ok.inj redistributed)
      exact (redistribute_sum present spreading).1
    next =>
      obtain ⟨rfl, _⟩ := Prod.mk.inj (Except.ok.inj redistributed)
      omega
  obtain ⟨rfl, _⟩ := withOperator_ok added
  have total : ((miners ++ operator.toList).map ReplOut.sats).sum = value := by
    rw [List.map_append, List.sum_append, whole, feeOf_add]
    omega
  refine ⟨total, fun none => ?_⟩
  rw [none] at total
  change (0 : Int) = value at total
  omega

theorem bind_of_ok {x : Result α} {next : α → Result β} (here : x = .ok a)
    (later : ∃ b, next a = .ok b) :
    ∃ b, (x >>= next) = .ok b := by
  rw [here]
  exact later

/-- The fee is settled as soon as its product fits and its address can be read. -/
theorem operatorFee_of_readable {value : Int} {feeBps : FeeBps}
    (computed : (nonEmpty operatorAddress).isSome = true → feeBps.bps ≠ 0 →
      ∃ product, int64 (value * feeBps.bps) = .ok product)
    (readable : ∀ address ∈ nonEmpty operatorAddress, ∃ spk, addressToScript address spkCap =
      .ok spk) :
    ∃ operator, operatorFee value operatorAddress feeBps = .ok operator := by
  rw [operatorFee]
  cases named : nonEmpty operatorAddress with
  | none => exact ⟨none, rfl⟩
  | some address =>
    dsimp only
    split
    next => exact ⟨none, rfl⟩
    next charged =>
      obtain ⟨product, fits⟩ := computed (congrArg Option.isSome named) charged
      apply bind_of_ok fits
      split
      next => exact ⟨none, rfl⟩
      next =>
        obtain ⟨spk, script⟩ := readable address named
        exact bind_of_ok script ⟨_, rfl⟩

/-- What a coinbase from scratch costs without the payouts. -/
def scratchFixedBytes (height : UInt32)
    (operatorAddress witnessCommitment coinbaseTag : Option Bytes) (jobSalt : UInt32)
    (extranonce1Size extranonce2Size : Nat) : Nat :=
  sizeT (envelopeBytes (sizeT
    ((bip34HeightPush height).length + (cbTagPush coinbaseTag jobSalt).length + extranonce1Size +
    extranonce2Size)) + commitmentBytes witnessCommitment + if (nonEmpty operatorAddress).isSome
      then outSerSize 34 else 0)

/-- The scriptSig of a coinbase from scratch. -/
def scratchScriptSigLen (height : UInt32) (coinbaseTag : Option Bytes) (jobSalt : UInt32)
    (extranonce1Size extranonce2Size : Nat) : Nat :=
  sizeT ((bip34HeightPush height).length + (cbTagPush coinbaseTag jobSalt).length + sizeT
    (extranonce1Size + extranonce2Size))

/-- From scratch, a window that can be resolved is built when the commitment is hex and the
scriptSig short enough. -/
theorem buildWindow_total (someone : payees ≠ []) (few : payees.length ≤ maxPayoutOutputs)
    (positive : 0 < value)
    (typed : value < 2 ^ 63) (fee : operatorFee value operatorAddress feeBps = .ok operator)
    (claims : claimedSats payees 0 0 = .ok (value - feeOf operator)) :
    (∃ built, buildWindow scale height value payees operatorAddress feeBps witnessCommitment
      coinbaseTag jobSalt size1 size2 maxBytes floor = .ok built) ↔
      Resolvable scale (value - feeOf operator) (effectiveFloor floor) (payoutBudget maxBytes
        (scratchFixedBytes height operatorAddress witnessCommitment coinbaseTag jobSalt size1
          size2)) payees ∧
      (∃ commitment, decodeCommitment witnessCommitment = .ok commitment) ∧
      2 ≤ scratchScriptSigLen height coinbaseTag jobSalt size1 size2 ∧
      scratchScriptSigLen height coinbaseTag jobSalt size1 size2 ≤ 100 := by
  rw [← resolveWindowOutputs_total someone few positive typed fee claims, scratchFixedBytes,
    ← cbTagPushLen_eq]
  constructor
  · rintro ⟨built, done⟩
    rw [buildWindow] at done
    obtain ⟨⟨repl, resolved⟩, window, done⟩ := bind_ok done
    obtain ⟨emitted, summed, done⟩ := bind_ok done
    obtain ⟨commitment, decoded, done⟩ := bind_ok done
    dsimp only at done
    split at done
    next => cases done
    next =>
      obtain ⟨_, checked, _⟩ := bind_ok done
      rw [checkScriptSig] at checked
      split at checked
      next => cases checked
      next ranged =>
        obtain ⟨low, high⟩ := not_or.mp ranged
        exact ⟨⟨_, window⟩, ⟨commitment, decoded⟩, not_lt.mp low, not_lt.mp high⟩
  · rintro ⟨⟨⟨repl, result⟩, window⟩, ⟨commitment, decoded⟩, low, high⟩
    obtain ⟨total, _⟩ := resolveWindowOutputs_value window
    have emitted : int64 (repl.map ReplOut.sats).sum = .ok value := by
      rw [total, int64, if_pos (by omega)]
    have checked : checkScriptSig (scratchScriptSigLen height coinbaseTag jobSalt size1 size2)
      (bip34HeightPush height).length
        (cbTagPush coinbaseTag jobSalt).length (sizeT (size1 + size2)) = .ok () := by
      rw [checkScriptSig, if_neg (by omega)]
    rw [scratchScriptSigLen] at checked
    refine bind_of_ok window (bind_of_ok emitted (bind_of_ok decoded ?_))
    rw [if_neg (not_not.mpr rfl)]
    exact bind_of_ok checked ⟨_, rfl⟩

/-- What the rewriting copies lies inside the transaction. -/
structure Copyable (tx : Bytes) (t : Template) (rewardIdx : Nat) : Prop where
  prevout : ∃ bytes, slice tx t.prevoutOff 36 = some bytes
  scriptSig : ∃ bytes, slice tx t.ssOff t.ssLen = some bytes
  outputs : ∀ k out, t.scan.outs[k]? = some out → k ≠ rewardIdx → ∃ bytes,
  slice tx out.spkOff out.spkLen = some bytes

theorem emitOutputs_total (tx : Bytes) (rewardIdx : Nat) (repl : List ReplOut) (outs : List CbOut)
    (i : Nat) :
    (∃ bytes, emitOutputs tx rewardIdx repl outs i = .ok bytes) ↔
      ∀ k out, outs[k]? = some out → i + k ≠ rewardIdx → ∃ bytes,
        slice tx out.spkOff out.spkLen = some bytes := by
  induction outs generalizing i with
  | nil =>
    constructor
    · intro _ k out found
      cases found
    · exact fun _ => ⟨[], rfl⟩
  | cons out rest ih =>
    have others : (∀ k out', (out :: rest)[k]? = some out' → i + k ≠ rewardIdx →
      ∃ bytes, slice tx out'.spkOff out'.spkLen = some bytes) ↔
        (i ≠ rewardIdx → ∃ bytes, slice tx out.spkOff out.spkLen = some bytes) ∧
          ∀ k out', rest[k]? = some out' → i + 1 + k ≠ rewardIdx → ∃ bytes,
            slice tx out'.spkOff out'.spkLen = some bytes := by
      constructor
      · intro inside
        exact ⟨fun away => inside 0 out rfl away,
          fun k out' found away => inside (k + 1) out' found (by omega)⟩
      · rintro ⟨first, later⟩ k out' found away
        cases k with
        | zero =>
          obtain rfl := Option.some.inj found
          exact first away
        | succ k => exact later k out' found (by omega)
    rw [others, ← ih (i + 1)]
    by_cases reward : i = rewardIdx
    · rw [emitOutputs, decide_eq_true reward]
      constructor
      · rintro ⟨bytes, emitted⟩
        obtain ⟨here, _, emitted⟩ := bind_ok emitted
        obtain ⟨more, later, _⟩ := bind_ok emitted
        exact ⟨fun away => absurd reward away, more, later⟩
      · rintro ⟨_, more, later⟩
        exact bind_of_ok rfl (bind_of_ok later ⟨_, rfl⟩)
    · rw [emitOutputs, decide_eq_false reward]
      constructor
      · rintro ⟨bytes, emitted⟩
        obtain ⟨here, copied, emitted⟩ := bind_ok emitted
        obtain ⟨more, later, _⟩ := bind_ok emitted
        obtain ⟨spk, cut, _⟩ := bind_ok copied
        exact ⟨fun _ => ⟨spk, orUndefined_ok cut⟩, more, later⟩
      · rintro ⟨first, more, later⟩
        obtain ⟨spk, cut⟩ := first reward
        have copied : copyOutput tx out = .ok (pushOutput out.value spk) := by
          rw [copyOutput, cut]
          rfl
        exact bind_of_ok copied (bind_of_ok later ⟨_, rfl⟩)

/-- From a template that was read, a window that can be resolved is built when the scriptSig is
short enough and nothing reaches past the transaction. -/
theorem buildFromTemplate_total (someone : payees ≠ []) (few : payees.length ≤ maxPayoutOutputs)
    (decoded : decodeTemplateHex hex = .ok tx) (parsed : parseTemplate tx = .ok t)
    (found : t.scan.rewardIdx = some i)
    (scanned : t.scan.outs[i]? = some c) (positive : 0 < toInt64 c.value)
    (typed : toInt64 c.value < 2 ^ 63)
    (fee : operatorFee (toInt64 c.value) operatorAddress feeBps = .ok operator)
    (claims : claimedSats payees 0 0 = .ok (toInt64 c.value - feeOf operator)) :
    (∃ built, buildFromTemplate scale (.window payees operatorAddress feeBps maxBytes floor) hex
      coinbaseTag jobSalt size1 size2 = .ok built) ↔
      Resolvable scale (toInt64 c.value - feeOf operator) (effectiveFloor floor)
        (payoutBudget maxBytes
        (templateFixedBytes t i
          (newScriptSigLen t.ssLen (cbTagPush coinbaseTag jobSalt).length size1 size2))) payees ∧
      Copyable tx t i ∧
      2 ≤ newScriptSigLen t.ssLen (cbTagPush coinbaseTag jobSalt).length size1 size2 ∧
      newScriptSigLen t.ssLen (cbTagPush coinbaseTag jobSalt).length size1 size2 ≤ 100 := by
  rw [← resolveWindowOutputs_total someone few positive typed fee claims]
  constructor
  · rintro ⟨built, done⟩
    rw [buildFromTemplate] at done
    obtain ⟨tx', decoded', done⟩ := bind_ok done
    obtain rfl := Except.ok.inj (decoded.symm.trans decoded')
    obtain ⟨t', parsed', done⟩ := bind_ok done
    obtain rfl := Except.ok.inj (parsed.symm.trans parsed')
    obtain ⟨i', found', done⟩ := bind_ok done
    obtain rfl := Option.some.inj (found.symm.trans (orUndefined_ok found'))
    obtain ⟨c', scanned', done⟩ := bind_ok done
    obtain rfl := Option.some.inj (scanned.symm.trans (orUndefined_ok scanned'))
    obtain ⟨repl, resolved, done⟩ := bind_ok done
    obtain ⟨_, _, done⟩ := bind_ok done
    obtain ⟨_, _, done⟩ := bind_ok done
    obtain ⟨_, _, done⟩ := bind_ok done
    obtain ⟨_, ranged, done⟩ := bind_ok done
    obtain ⟨prevout, prevoutSlice, done⟩ := bind_ok done
    obtain ⟨scriptSig, scriptSigSlice, done⟩ := bind_ok done
    obtain ⟨outputs, emitted, _⟩ := bind_ok done
    have copied := (emitOutputs_total tx i repl t.scan.outs 0).mp ⟨outputs, emitted⟩
    simp only [Nat.zero_add] at copied
    rw [cbTagPushLen_eq, Resolver.resolve] at resolved
    refine ⟨?_, ⟨⟨prevout, orUndefined_ok prevoutSlice⟩, ⟨scriptSig, orUndefined_ok scriptSigSlice⟩,
        copied⟩, ensure_ok ranged⟩
    cases window : resolveWindowOutputs scale (toInt64 c.value) payees operatorAddress feeBps
      maxBytes
        (templateFixedBytes t i
          (newScriptSigLen t.ssLen (cbTagPush coinbaseTag jobSalt).length size1 size2)) floor
        maxReplOuts with
    | error failure =>
      rw [window] at resolved
      cases resolved
    | ok pair => exact ⟨pair, rfl⟩
  · rintro ⟨⟨⟨repl, result⟩, window⟩, copyable, low, high⟩
    obtain ⟨total, present⟩ := resolveWindowOutputs_value window
    obtain ⟨prevout, prevoutSlice⟩ := copyable.prevout
    obtain ⟨scriptSig, scriptSigSlice⟩ := copyable.scriptSig
    obtain ⟨outputs, emitted⟩ :=
      (emitOutputs_total tx i repl t.scan.outs 0).mpr (by simpa using copyable.outputs)
    have summed : int64 (repl.map ReplOut.sats).sum = .ok (toInt64 c.value) := by
      rw [total, int64, if_pos (by omega)]
    have resolved :
      (Resolver.window payees operatorAddress feeBps maxBytes floor).resolve scale (toInt64 c.value)
        (templateFixedBytes t i
          (newScriptSigLen t.ssLen (cbTagPushLen coinbaseTag jobSalt) size1 size2)) = .ok repl := by
      rw [Resolver.resolve, cbTagPushLen_eq, window]
      rfl
    refine bind_of_ok decoded
      (bind_of_ok parsed (bind_of_ok (by rw [found]; rfl) (bind_of_ok (by rw [scanned]; rfl)
      (bind_of_ok resolved (bind_of_ok (if_pos present) (bind_of_ok summed (bind_of_ok (if_pos rfl)
        (bind_of_ok (if_pos ⟨low, high⟩) ?_))))))))
    exact bind_of_ok (by rw [prevoutSlice]; rfl)
      (bind_of_ok (by rw [scriptSigSlice]; rfl) (bind_of_ok emitted ⟨_, rfl⟩))

end SimplePool.Coinbase
