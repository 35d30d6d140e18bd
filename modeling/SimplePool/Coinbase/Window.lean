import Mathlib.Algebra.Order.BigOperators.Group.List
import Mathlib.Algebra.Order.Ring.Int
import SimplePool.Coinbase.Address

/-! Turning a reward into the outputs that replace it: one miner with an optional
operator fee, or a whole PPLNS window. -/
namespace SimplePool.Coinbase
open Wire

def dustSats : Int := 546

def maxPayoutOutputs : Nat := 200

def defaultMaxBytes : Nat := 1000

/-- `CB_MAX_REPL_OUTS`. -/
def maxReplOuts : Nat := maxPayoutOutputs + 1

/-- Room for a script in an output, and in every caller's buffer. -/
def spkCap : Nat := 64

/-- `cb_repl_out_t`. -/
structure ReplOut where
  spk : Bytes
  sats : Int
deriving DecidableEq, Repr

/-- Serialized size of one output. -/
def outSerSize (spkLen : Nat) : Nat :=
  8 + (if spkLen < 253 then 1 else if spkLen ≤ 0xffff then 3 else 5) + spkLen

structure Payee where
  address : Option Bytes
  sats : Int
deriving DecidableEq, Repr

structure WindowResult where
  paidCount : Nat
  paidSats : Int
  droppedBelowFloor : Nat
  droppedCapped : Nat
  redistributedSats : Int
  feeSats : Int
  /-- The reported indices of the payees that got an output. -/
  paidPayee : List Nat
deriving DecidableEq, Repr

/-- The double-precision multiply and divide that spreads `payable` over the paid
claims. Only its sign matters to what follows; the total is checked. -/
structure Scale where
  apply : Int → Int → Int → Int
  nonneg : ∀ payable sats paid, 0 ≤ payable → 0 ≤ sats → 0 < paid → 0 ≤ apply payable sats paid

/-- The exact product, rounded down. -/
def Scale.exact : Scale where
  apply payable sats paid := payable * sats / paid
  nonneg _ _ _ payable sats paid := Int.ediv_nonneg (Int.mul_nonneg payable sats) paid.le

/-- The configured fee. The loader refuses anything outside 0 to 1000. -/
structure FeeBps where
  bps : Nat
  checked : bps ≤ 1000
deriving DecidableEq, Repr

def FeeBps.free : FeeBps := ⟨0, by decide⟩

def FeeBps.onePercent : FeeBps := ⟨100, by decide⟩

def nonEmpty : Option Bytes → Option Bytes
  | some (c :: rest) => some (c :: rest)
  | _ => none

/-- The operator's part of a positive value, with its script, unless it is dust. -/
def operatorFee (valueSats : Int) (operatorAddress : Option Bytes) (feeBps : FeeBps) :
    Result (Option ReplOut) :=
  match nonEmpty operatorAddress with
  | none => .ok none
  | some address =>
    if feeBps.bps = 0 then .ok none
    else do
      let product ← int64 (valueSats * feeBps.bps)
      let fee := product.tdiv 10000
      if fee < dustSats then .ok none
      else do
        let spk ← addressToScript address spkCap
        .ok (some ⟨spk, fee⟩)

def feeOf (operator : Option ReplOut) : Int := (operator.map ReplOut.sats).getD 0

/-- The claims are summed as they are checked. -/
def claimedSats : List Payee → Nat → Int → Result Int
  | [], _, claimed => .ok claimed
  | payee :: rest, i, claimed =>
    if (nonEmpty payee.address).isNone then fail ("payee " ++ toString i ++ " has no address")
    else if payee.sats < 0 then fail ("payee " ++ toString i ++ " has a negative amount")
    else do
      let claimed ← int64 (claimed + payee.sats)
      claimedSats rest (i + 1) claimed

structure Paying where
  outs : List ReplOut
  payoutBytes : Nat
  dropped : Int
  result : WindowResult

def Paying.belowFloor (p : Paying) (payee : Payee) : Paying :=
  { p with
    dropped := p.dropped + payee.sats
    result := { p.result with droppedBelowFloor := p.result.droppedBelowFloor + 1 } }

def Paying.capped (p : Paying) (payee : Payee) : Paying :=
  { p with
    dropped := p.dropped + payee.sats
    result := { p.result with droppedCapped := p.result.droppedCapped + 1 } }

def Paying.paid (p : Paying) (k : Nat) (payee : Payee) (spk : Bytes) : Paying :=
  { p with
    outs := p.outs ++ [⟨spk, payee.sats⟩]
    payoutBytes := p.payoutBytes + outSerSize spk.length
    result := { p.result with
      paidSats := p.result.paidSats + payee.sats
      paidPayee := if k < maxPayoutOutputs then p.result.paidPayee ++ [k] else p.result.paidPayee
      paidCount := p.result.paidCount + 1 } }

/-- Pay greedily down the caller's order. A payee that does not fit is passed over. -/
def payDown (floor : Int) (cap budget : Nat) : List Payee → Nat → Paying → Result Paying
  | [], _, p => .ok p
  | payee :: rest, k, p =>
    if payee.sats < floor then payDown floor cap budget rest (k + 1) (p.belowFloor payee)
    else if cap ≤ p.outs.length + 1 then payDown floor cap budget rest (k + 1) (p.capped payee)
    else do
      let spk ← addressToScript (payee.address.getD []) spkCap
      if budget < p.payoutBytes + outSerSize spk.length then
        payDown floor cap budget rest (k + 1) (p.capped payee)
      else payDown floor cap budget rest (k + 1) (p.paid k payee spk)

/-- The first of the largest outputs. -/
def bigIndex : List ReplOut → Nat → Nat → Int → Nat
  | [], _, big, _ => big
  | out :: rest, i, big, most =>
    if most < out.sats then bigIndex rest (i + 1) i out.sats else bigIndex rest (i + 1) big most

def addAt (outs : List ReplOut) (i : Nat) (sats : Int) : List ReplOut :=
  outs.modify i fun out => { out with sats := out.sats + sats }

/-- Scale the survivors up to spend `payable` exactly. -/
def redistribute (scale : Scale) (payable paidSats : Int) (outs : List ReplOut) :
    Result (List ReplOut) := do
  let scaled := outs.map fun out => { out with sats := scale.apply payable out.sats paidSats }
  let assigned ← int64 (scaled.map ReplOut.sats).sum
  if assigned < payable then
    let big := match scaled with
      | [] => 0
      | first :: rest => bigIndex rest 1 0 first.sats
    .ok (addAt scaled big (payable - assigned))
  else if payable < assigned then fail "internal: redistribution overshot"
  else .ok scaled

/-- What could not be paid goes to the miners who could be. -/
def spreadDropped (scale : Scale) (payable : Int) (p : Paying) :
    Result (List ReplOut × WindowResult) :=
  if 0 < p.dropped then do
    let outs ← redistribute scale payable p.result.paidSats p.outs
    .ok (outs, { p.result with redistributedSats := p.dropped, paidSats := payable })
  else .ok (p.outs, p.result)

/-- A fee comes with the operator's script. -/
def withOperator (cap : Nat) (operator : Option ReplOut) (outs : List ReplOut)
    (result : WindowResult) :
    Result (List ReplOut × WindowResult) :=
  match operator with
  | some op =>
    if cap ≤ outs.length then fail "internal: repl cap"
    else .ok (outs ++ [op], { result with feeSats := op.sats })
  | none => .ok (outs, { result with feeSats := 0 })

/-- Never below the relay dust limit, whatever the operator configured. -/
def effectiveFloor (payoutFloorSats : Int) : Int :=
  if payoutFloorSats < dustSats then dustSats else payoutFloorSats

def resolveWindowOutputs (scale : Scale) (valueSats : Int) (payees : List Payee)
    (operatorAddress : Option Bytes) (feeBps : FeeBps) (maxCoinbaseBytes fixedBytes : Nat)
    (payoutFloorSats : Int) (cap : Nat) : Result (List ReplOut × WindowResult) := do
  if cap < 2 ∨ payees = [] then fail "window is empty: nobody to pay"
  else if valueSats ≤ 0 then fail "value_sats must be positive"
  else do
    let maxBytes := if maxCoinbaseBytes = 0 then defaultMaxBytes else maxCoinbaseBytes
    let floor := effectiveFloor payoutFloorSats
    let budget := maxBytes - fixedBytes
    let operator ← operatorFee valueSats operatorAddress feeBps
    let fee := feeOf operator
    let payable := valueSats - fee
    let claimed ← claimedSats payees 0 0
    if claimed ≠ payable then
      fail ("payees sum to " ++ toString claimed ++ " but the block pays " ++ toString payable ++
        " after a " ++ toString fee ++ " fee")
    else do
      let p ← payDown floor cap budget payees 0 ⟨[], 0, 0, ⟨0, 0, 0, 0, 0, 0, []⟩⟩
      if p.result.paidCount = 0 then
        fail ("no payee fits: " ++ toString maxBytes ++ "-byte coinbase budget leaves " ++
          toString budget ++ " bytes for payouts after " ++ toString fixedBytes ++
            " bytes of transaction and commitments, and " ++
          "nothing clears the " ++ toString floor ++ "-sat payout floor")
      else do
        let (outs, result) ← spreadDropped scale payable p
        withOperator cap operator outs result

def positiveFee (reward : Int) (operatorAddress : Option Bytes) (feeBps : FeeBps) :
    Result (Option ReplOut) :=
  if 0 < reward then operatorFee reward operatorAddress feeBps else .ok none

/-- `repl_single`. -/
def replSingle (reward : Int) (minerAddress : Bytes) (operatorAddress : Option Bytes)
    (feeBps : FeeBps) :
    Result (List ReplOut) := do
  let operator ← positiveFee reward operatorAddress feeBps
  let spk ← addressToScript minerAddress spkCap
  .ok (⟨spk, reward - feeOf operator⟩ :: operator.toList)

/-- The callbacks of the template builder with their contexts. -/
inductive Resolver where
  | single (minerAddress : Bytes) (operatorAddress : Option Bytes) (feeBps : FeeBps)
  | window (payees : List Payee) (operatorAddress : Option Bytes) (feeBps : FeeBps)
    (maxCoinbaseBytes : Nat)
    (payoutFloorSats : Int)

def Resolver.resolve (scale : Scale) (reward : Int) (fixedBytes : Nat) :
    Resolver → Result (List ReplOut)
  | .single miner operator feeBps => replSingle reward miner operator feeBps
  | .window payees operator feeBps maxBytes floor =>
    (resolveWindowOutputs scale reward payees operator feeBps maxBytes fixedBytes floor
      maxReplOuts).map Prod.fst

/-- A positive amount, and a script that fits its buffer. -/
structure Payable (out : ReplOut) : Prop where
  sats : 0 ≤ out.sats
  spk : out.spk.length ≤ spkCap

theorem operatorFee_spec (resolved : operatorFee value address feeBps = .ok (some out)) :
    out.sats = (value * feeBps.bps).tdiv 10000 ∧ dustSats ≤ out.sats ∧ out.spk.length ≤ spkCap := by
  simp only [operatorFee] at resolved
  split at resolved
  next => cases resolved
  next =>
    split at resolved
    next => cases resolved
    next =>
      obtain ⟨product, computed, resolved⟩ := bind_ok resolved
      obtain ⟨rfl, _⟩ := int64_ok computed
      split at resolved
      next => cases resolved
      next enough =>
        obtain ⟨spk, script, resolved⟩ := bind_ok resolved
        obtain rfl := Option.some.inj (Except.ok.inj resolved)
        exact ⟨rfl, not_lt.mp enough, addressToScript_le script⟩

theorem operatorFee_payable (resolved : operatorFee value address feeBps = .ok (some out)) :
    Payable out := by
  obtain ⟨_, enough, fits⟩ := operatorFee_spec resolved
  exact ⟨le_trans (by decide) enough, fits⟩

/-- The fee is a part of the value. -/
theorem feeOf_le (nonneg : 0 ≤ value) (resolved : operatorFee value address feeBps = .ok operator) :
    feeOf operator ≤ value := by
  cases operator with
  | none => exact nonneg
  | some out =>
    obtain ⟨fee, _⟩ := operatorFee_spec resolved
    have part : value * feeBps.bps ≤ value * 10000 :=
      Int.mul_le_mul_of_nonneg_left (by have := feeBps.checked; omega) nonneg
    have product : 0 ≤ value * feeBps.bps := Int.mul_nonneg nonneg (by omega)
    simp only [feeOf, Option.map_some, Option.getD_some, fee, Int.tdiv_eq_ediv_of_nonneg product]
    omega

/-- The paid outputs so far: each over the floor, and summed up. -/
structure Paying.Sound (p : Paying) : Prop where
  outs : ∀ out ∈ p.outs, dustSats ≤ out.sats ∧ out.spk.length ≤ spkCap
  paidSats : p.result.paidSats = (p.outs.map ReplOut.sats).sum
  paidCount : p.result.paidCount = p.outs.length

theorem Paying.Sound.belowFloor (sound : Paying.Sound p) (payee : Payee) :
    Paying.Sound (p.belowFloor payee) :=
  ⟨sound.outs, sound.paidSats, sound.paidCount⟩

theorem Paying.Sound.capped (sound : Paying.Sound p) (payee : Payee) :
    Paying.Sound (p.capped payee) :=
  ⟨sound.outs, sound.paidSats, sound.paidCount⟩

theorem Paying.Sound.paid (sound : Paying.Sound p) (floor : dustSats ≤ payee.sats)
    (fits : spk.length ≤ spkCap) :
    Paying.Sound (p.paid k payee spk) where
  outs out member := by
    rcases List.mem_append.mp member with old | new
    · exact sound.outs out old
    · obtain rfl := List.mem_singleton.mp new
      exact ⟨floor, fits⟩
  paidSats := by simp [Paying.paid, sound.paidSats]
  paidCount := by simp [Paying.paid, sound.paidCount]

theorem payDown_sound (floorDust : dustSats ≤ floor) (sound : Paying.Sound p)
    (paid : payDown floor cap budget payees k p = .ok q) : Paying.Sound q := by
  induction payees generalizing k p with
  | nil =>
    obtain rfl := Except.ok.inj paid
    exact sound
  | cons payee rest ih =>
    simp only [payDown] at paid
    split at paid
    next => exact ih (sound.belowFloor payee) paid
    next enough =>
      split at paid
      next => exact ih (sound.capped payee) paid
      next =>
        obtain ⟨spk, script, paid⟩ := bind_ok paid
        split at paid
        next => exact ih (sound.capped payee) paid
        next =>
          exact ih (sound.paid (floorDust.trans (not_lt.mp enough)) (addressToScript_le script))
            paid

theorem addAt_payable (payable : ∀ out ∈ outs, Payable out) (nonneg : 0 ≤ sats) :
    ∀ out ∈ addAt outs i sats, Payable out := by
  intro out member
  rw [addAt] at member
  obtain ⟨j, inside, rfl⟩ := List.mem_iff_getElem.mp member
  rw [List.length_modify] at inside
  have old := payable _ (List.getElem_mem inside)
  rw [List.getElem_modify]
  split
  next =>
    have amount := old.sats
    exact ⟨by dsimp only; omega, old.spk⟩
  next => exact old

theorem redistribute_payable (payable : ∀ out ∈ outs, Payable out) (nonneg : 0 ≤ total)
    (positive : 0 < paidSats) (spread : redistribute scale total paidSats outs = .ok result) :
    ∀ out ∈ result, Payable out := by
  have scaled :
    ∀ out ∈ outs.map (fun out => { out with sats := scale.apply total out.sats paidSats }),
      Payable out := by
    intro out member
    obtain ⟨old, inside, rfl⟩ := List.mem_map.mp member
    exact ⟨scale.nonneg _ _ _ nonneg (payable old inside).sats positive, (payable old inside).spk⟩
  simp only [redistribute] at spread
  obtain ⟨assigned, _, spread⟩ := bind_ok spread
  split at spread
  next short =>
    obtain rfl := Except.ok.inj spread
    exact addAt_payable scaled (by omega)
  next =>
    split at spread
    next => contradiction
    next =>
      obtain rfl := Except.ok.inj spread
      exact scaled

theorem Paying.Sound.paidSats_pos (sound : Paying.Sound p) (someone : p.result.paidCount ≠ 0) :
    0 < p.result.paidSats := by
  rw [sound.paidCount] at someone
  rw [sound.paidSats]
  refine List.sum_pos _ (fun sats member => ?_)
    (by simpa using List.length_pos_iff.mp (Nat.pos_of_ne_zero someone))
  obtain ⟨out, inside, rfl⟩ := List.mem_map.mp member
  exact lt_of_lt_of_le (by decide) (sound.outs out inside).1

theorem spreadDropped_payable (sound : Paying.Sound p) (someone : p.result.paidCount ≠ 0)
    (nonneg : 0 ≤ payable)
    (spread : spreadDropped scale payable p = .ok (outs, result)) : ∀ out ∈ outs, Payable out := by
  have kept : ∀ out ∈ p.outs, Payable out := fun out member => by
    obtain ⟨amount, fits⟩ := sound.outs out member
    exact ⟨le_trans (by decide) amount, fits⟩
  rw [spreadDropped] at spread
  split at spread
  next =>
    obtain ⟨scaled, redistributed, spread⟩ := bind_ok spread
    obtain ⟨rfl, _⟩ := Prod.mk.inj (Except.ok.inj spread)
    exact redistribute_payable kept nonneg (sound.paidSats_pos someone) redistributed
  next =>
    obtain ⟨rfl, _⟩ := Prod.mk.inj (Except.ok.inj spread)
    exact kept

theorem withOperator_payable (payable : ∀ out ∈ outs, Payable out)
    (operatorPayable : ∀ op ∈ operator, Payable op)
    (added : withOperator cap operator outs result = .ok (all, result')) :
    ∀ out ∈ all, Payable out := by
  cases operator with
  | some op =>
    simp only [withOperator] at added
    split at added
    next => cases added
    next =>
      obtain ⟨rfl, _⟩ := Prod.mk.inj (Except.ok.inj added)
      intro out member
      rcases List.mem_append.mp member with miner | last
      · exact payable out miner
      · obtain rfl := List.mem_singleton.mp last
        exact operatorPayable out rfl
  | none =>
    obtain ⟨rfl, _⟩ := Prod.mk.inj (Except.ok.inj added)
    exact payable

theorem claimedSats_sum (summed : claimedSats payees i claimed = .ok total) :
    total = claimed + (payees.map Payee.sats).sum ∧ ∀ payee ∈ payees, 0 ≤ payee.sats := by
  induction payees generalizing i claimed with
  | nil =>
    obtain rfl := Except.ok.inj summed
    simp
  | cons payee rest ih =>
    simp only [claimedSats] at summed
    split at summed
    next => cases summed
    next =>
      split at summed
      next => cases summed
      next nonneg =>
        obtain ⟨more, sum, summed⟩ := bind_ok summed
        obtain ⟨rfl, _⟩ := int64_ok sum
        obtain ⟨sum, later⟩ := ih summed
        constructor
        · rw [sum, List.map_cons, List.sum_cons]
          omega
        · intro other member
          rcases List.mem_cons.mp member with rfl | inside
          · exact not_lt.mp nonneg
          · exact later other inside

theorem claimedSats_nonneg (summed : claimedSats payees i 0 = .ok total) : 0 ≤ total := by
  obtain ⟨sum, nonneg⟩ := claimedSats_sum summed
  rw [sum, Int.zero_add]
  refine List.sum_nonneg fun sats member => ?_
  obtain ⟨payee, inside, rfl⟩ := List.mem_map.mp member
  exact nonneg payee inside

theorem dust_le_effectiveFloor (floor : Int) : dustSats ≤ effectiveFloor floor := by
  rw [effectiveFloor]
  split <;> omega

/-- The bytes that the configured size leaves to the payouts. -/
def payoutBudget (maxBytes fixedBytes : Nat) : Nat :=
  (if maxBytes = 0 then defaultMaxBytes else maxBytes) - fixedBytes

/-- The way through the resolver. -/
theorem resolveWindowOutputs_ok
    (resolved : resolveWindowOutputs scale value payees operatorAddress feeBps maxBytes fixedBytes
      floor cap = .ok (outs, result)) :
    0 < value ∧ ∃ operator p miners spread,
    operatorFee value operatorAddress feeBps = .ok operator ∧
      claimedSats payees 0 0 = .ok (value - feeOf operator) ∧
      payDown (effectiveFloor floor) cap (payoutBudget maxBytes fixedBytes) payees 0
        ⟨[], 0, 0, ⟨0, 0, 0, 0, 0, 0, []⟩⟩ = .ok p ∧
      p.result.paidCount ≠ 0 ∧
      spreadDropped scale (value - feeOf operator) p = .ok (miners, spread) ∧
      withOperator cap operator miners spread = .ok (outs, result) := by
  simp only [resolveWindowOutputs] at resolved
  split at resolved
  next => cases resolved
  next =>
    split at resolved
    next => cases resolved
    next positive =>
      obtain ⟨operator, fee, resolved⟩ := bind_ok resolved
      obtain ⟨claimed, claims, resolved⟩ := bind_ok resolved
      split at resolved
      next => cases resolved
      next balanced =>
        obtain ⟨p, paid, resolved⟩ := bind_ok resolved
        split at resolved
        next => cases resolved
        next someone =>
          obtain ⟨⟨miners, spread⟩, redistributed, resolved⟩ := bind_ok resolved
          rw [not_not.mp balanced] at claims
          exact ⟨not_le.mp positive, operator, p, miners, spread, fee, claims, paid, someone,
            redistributed, resolved⟩

theorem resolveWindowOutputs_payable
    (resolved : resolveWindowOutputs scale value payees operatorAddress feeBps maxBytes fixedBytes
      floor cap = .ok (outs, result)) : 0 < value ∧ ∀ out ∈ outs, Payable out := by
  obtain ⟨positive, operator, p, miners, spread, fee, claims, paid, someone, redistributed,
      added⟩ :=
    resolveWindowOutputs_ok resolved
  have sound : p.Sound := payDown_sound (dust_le_effectiveFloor floor) ⟨by simp, rfl, rfl⟩ paid
  have nonneg := claimedSats_nonneg claims
  refine ⟨positive,
    withOperator_payable (spreadDropped_payable sound someone nonneg redistributed) ?_ added⟩
  intro op same
  obtain rfl := Option.mem_def.mp same
  exact operatorFee_payable fee

theorem replSingle_payable (nonneg : 0 ≤ reward)
    (resolved : replSingle reward miner operatorAddress feeBps = .ok outs) :
    ∀ out ∈ outs, Payable out := by
  rw [replSingle] at resolved
  obtain ⟨operator, fee, resolved⟩ := bind_ok resolved
  obtain ⟨spk, script, resolved⟩ := bind_ok resolved
  obtain rfl := Except.ok.inj resolved
  have part : feeOf operator ≤ reward ∧ ∀ op ∈ operator, Payable op := by
    rw [positiveFee] at fee
    split at fee
    next =>
      refine ⟨feeOf_le nonneg fee, fun op same => ?_⟩
      obtain rfl := Option.mem_def.mp same
      exact operatorFee_payable fee
    next =>
      obtain rfl := Except.ok.inj fee
      exact ⟨nonneg, by simp⟩
  intro out member
  rcases List.mem_cons.mp member with rfl | last
  · exact ⟨by dsimp only; omega, addressToScript_le script⟩
  · exact part.2 out (Option.mem_toList.mp last)

/-- A reward beyond the signed range goes to the miner whole. -/
theorem replSingle_negative (negative : reward < 0)
    (resolved : replSingle reward miner operatorAddress feeBps = .ok outs) :
    ∃ spk : Bytes, spk.length ≤ spkCap ∧ outs = [⟨spk, reward⟩] := by
  rw [replSingle] at resolved
  obtain ⟨operator, fee, resolved⟩ := bind_ok resolved
  rw [positiveFee, if_neg (by omega)] at fee
  obtain rfl := Except.ok.inj fee
  obtain ⟨spk, script, resolved⟩ := bind_ok resolved
  obtain rfl := Except.ok.inj resolved
  exact ⟨spk, addressToScript_le script, by simp [feeOf]⟩

theorem sum_toUInt64 {outs : List ReplOut} (payable : ∀ out ∈ outs, Payable out)
    (total : (outs.map ReplOut.sats).sum < 2 ^ 64) :
    (((outs.map fun out => toUInt64 out.sats).sum : Nat) : Int) = (outs.map ReplOut.sats).sum := by
  induction outs with
  | nil => rfl
  | cons out rest ih =>
    have first := (payable out List.mem_cons_self).sats
    have restPayable : ∀ out ∈ rest, Payable out :=
      fun out member => payable out (List.mem_cons_of_mem _ member)
    have restNonneg : 0 ≤ (rest.map ReplOut.sats).sum := by
      refine List.sum_nonneg fun sats member => ?_
      obtain ⟨other, inside, rfl⟩ := List.mem_map.mp member
      exact (restPayable other inside).sats
    simp only [List.map_cons, List.sum_cons] at total ⊢
    rw [Nat.cast_add, ih restPayable (by omega), toUInt64_of_nonneg first (by omega)]

/-- Outputs that add up to the reward as signed amounts add up to it on the wire. -/
theorem Resolver.resolve_values {resolver : Resolver} (small : value < 2 ^ 64)
    (resolved : resolver.resolve scale (toInt64 value) fixedBytes = .ok outs)
    (total : (outs.map ReplOut.sats).sum = toInt64 value) :
    (∀ out ∈ outs, out.spk.length ≤ spkCap) ∧
    (outs.map fun out => toUInt64 out.sats).sum = value := by
  have nonneg :
      (∀ out ∈ outs, Payable out) → (outs.map fun out => toUInt64 out.sats).sum = value := by
    intro payable
    have upper : toInt64 value < 2 ^ 64 := by
      rw [toInt64]
      split <;> omega
    have sum := sum_toUInt64 payable (total ▸ upper)
    have value_nonneg : 0 ≤ toInt64 value := by
      rw [← total, ← sum]
      exact Int.natCast_nonneg _
    have same := toUInt64_of_nonneg value_nonneg upper
    rw [toUInt64_toInt64 small] at same
    omega
  cases resolver with
  | single miner operator feeBps =>
    by_cases negative : toInt64 value < 0
    · obtain ⟨spk, fits, rfl⟩ := replSingle_negative negative resolved
      exact ⟨by simpa using fits, by simpa using toUInt64_toInt64 small⟩
    · have payable := replSingle_payable (not_lt.mp negative) resolved
      exact ⟨fun out member => (payable out member).spk, nonneg payable⟩
  | window payees operator feeBps maxBytes floor =>
    cases window : resolveWindowOutputs scale (toInt64 value) payees operator feeBps maxBytes
      fixedBytes floor
        maxReplOuts with
    | error failure =>
      simp only [Resolver.resolve, window] at resolved
      cases resolved
    | ok pair =>
      simp only [Resolver.resolve, window] at resolved
      obtain rfl := Except.ok.inj resolved
      have payable := (resolveWindowOutputs_payable window).2
      exact ⟨fun out member => (payable out member).spk, nonneg payable⟩

end SimplePool.Coinbase
