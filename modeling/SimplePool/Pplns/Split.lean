import SimplePool.Coinbase.WindowValue
import SimplePool.Stratum.Share

/-! The split of a window into payees, and its agreement with the coinbase builder that
pays them. The fee and the floor are computed on both sides. -/
namespace SimplePool.Pplns
open Wire Coinbase

/-- `pplns_claim_t`. -/
structure Claim where
  payoutAddress : Option Bytes
  difficulty : ℚ
deriving DecidableEq, Repr

/-- `pplns_split_t`. -/
structure Split where
  feeSats : Int
  payableSats : Int
  belowFloor : Nat
deriving DecidableEq, Repr

def splitFee (rewardSats : Int) (feeBps : FeeBps) (haveOperator : Bool) : Result Int :=
  if haveOperator ∧ 0 < feeBps.bps then do
    let product ← int64 (rewardSats * feeBps.bps)
    let f := product.tdiv 10000
    .ok (if dustSats ≤ f then f else 0)
  else .ok 0

/-- The payees of the claims, with what is assigned to them in all. -/
def divide (fp : Stratum.Fpu) (payable : Int) (totalDiff : ℚ) :
    List Claim → Int → Result (List Payee × Int)
  | [], assigned => .ok ([], assigned)
  | claim :: rest, assigned =>
    if ¬0 ≤ claim.difficulty then fail "a claim has no difficulty"
    else do
      let sats ← int64 ⌊fp.round (fp.round payable * fp.round (claim.difficulty / totalDiff))⌋
      if sats < 0 then fail "a claim divided to a negative amount"
      else do
        let assigned ← int64 (assigned + sats)
        let (payees, assigned) ← divide fp payable totalDiff rest assigned
        .ok (⟨claim.payoutAddress, sats⟩ :: payees, assigned)

/-- The rounding goes to the largest claim, which comes first. -/
def addFirst (sats : Int) : List Payee → List Payee
  | [] => []
  | first :: rest => { first with sats := first.sats + sats } :: rest

def countBelow (floor : Int) (payees : List Payee) : Nat :=
  payees.countP fun payee => payee.sats < floor

def splitWindow (fp : Stratum.Fpu) (rewardSats : Int) (feeBps : FeeBps) (haveOperator : Bool)
    (claims : List Claim)
    (totalDiff : ℚ) (payoutFloorSats : Int) (cap : Nat) : Result (List Payee × Split) :=
  if claims = [] ∨ cap < claims.length then fail "no claims to split, or more than will fit"
  else if ¬0 < totalDiff then fail "window has no difficulty to divide by"
  else if rewardSats ≤ 0 then fail "the block pays nothing to divide"
  else do
    let fee ← splitFee rewardSats feeBps haveOperator
    let payable := rewardSats - fee
    if payable ≤ 0 then fail "nothing left after the operator fee"
    else do
      let (payees, assigned) ← divide fp payable totalDiff claims 0
      if payable < assigned then fail "claims exceed the window total they were divided by"
      else
        let payees := if assigned < payable then addFirst (payable - assigned) payees else payees
        .ok (payees, ⟨fee, payable, countBelow (effectiveFloor payoutFloorSats) payees⟩)

theorem divide_sum (divided : divide fp payable totalDiff claims before = .ok (payees, assigned)) :
    assigned = before + (payees.map Payee.sats).sum ∧ payees.length = claims.length := by
  induction claims generalizing before payees with
  | nil =>
    obtain ⟨rfl, rfl⟩ := Prod.mk.inj (Except.ok.inj divided)
    simp
  | cons claim rest ih =>
    rw [divide] at divided
    split at divided
    next => cases divided
    next =>
      obtain ⟨sats, _, divided⟩ := bind_ok divided
      split at divided
      next => cases divided
      next =>
        obtain ⟨more, sum, divided⟩ := bind_ok divided
        obtain ⟨rfl, _⟩ := int64_ok sum
        obtain ⟨⟨later, total⟩, others, divided⟩ := bind_ok divided
        obtain ⟨rfl, rfl⟩ := Prod.mk.inj (Except.ok.inj divided)
        obtain ⟨sum, length⟩ := ih others
        simp only [List.map_cons, List.sum_cons, List.length_cons]
        omega

theorem addFirst_sum (someone : payees ≠ []) :
    ((addFirst sats payees).map Payee.sats).sum = (payees.map Payee.sats).sum + sats := by
  cases payees with
  | nil => contradiction
  | cons first rest =>
    simp only [addFirst, List.map_cons, List.sum_cons]
    omega

/-- The payees add up to the reward without the fee. -/
theorem splitWindow_sum (split : splitWindow fp reward feeBps haveOperator claims totalDiff floor
      cap = .ok (payees, r)) :
    splitFee reward feeBps haveOperator = .ok r.feeSats ∧
    (payees.map Payee.sats).sum = reward - r.feeSats ∧
      r.payableSats = reward - r.feeSats ∧
      r.belowFloor = countBelow (effectiveFloor floor) payees := by
  rw [splitWindow] at split
  split at split
  next => cases split
  next fits =>
    split at split
    next => cases split
    next =>
      split at split
      next => cases split
      next =>
        obtain ⟨fee, taken, split⟩ := bind_ok split
        dsimp only at split
        split at split
        next => cases split
        next =>
          obtain ⟨⟨shares, assigned⟩, divided, split⟩ := bind_ok split
          obtain ⟨sum, length⟩ := divide_sum divided
          have someone : shares ≠ [] := by
            rintro rfl
            exact fits (.inl (List.eq_nil_of_length_eq_zero length.symm))
          dsimp only at split
          split at split
          next => cases split
          next whole =>
            obtain ⟨rfl, rfl⟩ := Prod.mk.inj (Except.ok.inj split)
            refine ⟨taken, ?_, rfl, rfl⟩
            dsimp only
            split
            next short =>
              rw [addFirst_sum someone]
              omega
            next => omega

/-- The text of a refusal for the sum. -/
def mismatch (claimed payable fee : Int) : String :=
  "payees sum to " ++ toString claimed ++ " but the block pays " ++ toString payable ++
    " after a " ++ toString fee ++ " fee"

/-- Whether a refusal is worded like that one. -/
def worded : Failure → Bool
  | .error message => message.toList.take 6 = "payees".toList
  | .undefined => false

theorem worded_mismatch (claimed payable fee : Int) :
    worded (.error (mismatch claimed payable fee)) = true := by
  unfold mismatch
  simp only [worded, String.toList_append, List.append_assoc]
  rw [List.take_append_of_le_length (by decide)]
  decide

theorem bind_error {α β : Type} {x : Result α} {next : α → Result β} {failure : Failure}
    (refused : (x >>= next) = .error failure) :
    x = .error failure ∨ ∃ a, x = .ok a ∧ next a = .error failure := by
  cases x with
  | error failure =>
    cases refused
    exact .inl rfl
  | ok a => exact .inr ⟨a, rfl, refused⟩

theorem int64_unworded {failure : Failure} (refused : int64 n = .error failure) :
    worded failure = false := by
  rw [int64] at refused
  split at refused
  next => cases refused
  next =>
    cases refused
    rfl

theorem addressToScript_unworded {failure : Failure}
    (refused : addressToScript addr cap = .error failure) : worded failure = false := by
  rw [addressToScript, segwitToScript, base58ToScript] at refused
  simp only [fail] at refused
  repeat' (split at refused)
  all_goals first
    | (cases refused; decide)
    | (cases refused
       simp only [worded, String.toList_append, List.append_assoc]
       rw [List.take_append_of_le_length (by decide)]
       decide)
    | cases refused

theorem operatorFee_unworded {failure : Failure}
    (refused : operatorFee value address feeBps = .error failure) :
    worded failure = false := by
  simp only [operatorFee] at refused
  split at refused
  next => cases refused
  next =>
    split at refused
    next => cases refused
    next =>
      rcases bind_error refused with overflow | ⟨product, _, refused⟩
      · exact int64_unworded overflow
      · split at refused
        next => cases refused
        next =>
          rcases bind_error refused with script | ⟨spk, _, refused⟩
          · exact addressToScript_unworded script
          · cases refused

theorem claimedSats_unworded {failure : Failure}
    (refused : claimedSats payees i claimed = .error failure) :
    worded failure = false := by
  induction payees generalizing i claimed with
  | nil => cases refused
  | cons payee rest ih =>
    simp only [claimedSats] at refused
    split at refused
    next =>
      cases refused
      simp only [worded, String.toList_append, List.append_assoc]
      rw [List.take_append_of_le_length (by decide)]
      decide
    next =>
      split at refused
      next =>
        cases refused
        simp only [worded, String.toList_append, List.append_assoc]
        rw [List.take_append_of_le_length (by decide)]
        decide
      next =>
        rcases bind_error refused with overflow | ⟨more, _, refused⟩
        · exact int64_unworded overflow
        · exact ih refused

theorem payDown_unworded {failure : Failure}
    (refused : payDown floor cap budget payees k p = .error failure) :
    worded failure = false := by
  induction payees generalizing k p with
  | nil => cases refused
  | cons payee rest ih =>
    simp only [payDown] at refused
    split at refused
    next => exact ih refused
    next =>
      split at refused
      next => exact ih refused
      next =>
        rcases bind_error refused with script | ⟨spk, _, refused⟩
        · exact addressToScript_unworded script
        · split at refused
          next => exact ih refused
          next => exact ih refused

theorem redistribute_unworded {failure : Failure}
    (refused : redistribute scale payable paidSats outs = .error failure) :
    worded failure = false := by
  simp only [redistribute] at refused
  rcases bind_error refused with overflow | ⟨assigned, _, refused⟩
  · exact int64_unworded overflow
  · split at refused
    next => cases refused
    next =>
      split at refused
      next =>
        cases refused
        decide
      next => cases refused

theorem spreadDropped_unworded {failure : Failure}
    (refused : spreadDropped scale payable p = .error failure) :
    worded failure = false := by
  rw [spreadDropped] at refused
  split at refused
  next =>
    rcases bind_error refused with overshot | ⟨outs, _, refused⟩
    · exact redistribute_unworded overshot
    · cases refused
  next => cases refused

theorem withOperator_unworded {failure : Failure}
    (refused : withOperator cap operator outs result = .error failure) :
    worded failure = false := by
  cases operator with
  | none => cases refused
  | some op =>
    simp only [withOperator] at refused
    split at refused
    next =>
      cases refused
      decide
    next => cases refused

/-- Payees that add up are not refused for their sum. -/
theorem resolveWindowOutputs_unworded {failure : Failure}
    (balanced : ∀ operator, operatorFee value operatorAddress feeBps = .ok operator →
      (payees.map Payee.sats).sum = value - feeOf operator)
    (refused : resolveWindowOutputs scale value payees operatorAddress feeBps maxBytes fixedBytes
      floor cap = .error failure) :
    worded failure = false := by
  simp only [resolveWindowOutputs] at refused
  split at refused
  next =>
    cases refused
    decide
  next =>
    split at refused
    next =>
      cases refused
      decide
    next =>
      rcases bind_error refused with fee | ⟨operator, fee, refused⟩
      · exact operatorFee_unworded fee
      · rcases bind_error refused with claims | ⟨claimed, claims, refused⟩
        · exact claimedSats_unworded claims
        · have sum := (claimedSats_sum claims).1
          rw [balanced operator fee, Int.zero_add] at sum
          rw [if_neg (not_not.mpr sum)] at refused
          rcases bind_error refused with down | ⟨p, _, refused⟩
          · exact payDown_unworded down
          · split at refused
            next =>
              cases refused
              simp only [worded, String.toList_append, List.append_assoc]
              rw [List.take_append_of_le_length (by decide)]
              decide
            next =>
              rcases bind_error refused with spread | ⟨pair, _, refused⟩
              · exact spreadDropped_unworded spread
              · exact withOperator_unworded refused

/-- Both sides compute one fee. -/
theorem splitFee_eq (taken : splitFee reward feeBps (nonEmpty operatorAddress).isSome = .ok fee)
    (paid : operatorFee reward operatorAddress feeBps = .ok operator) : fee = feeOf operator := by
  rw [splitFee] at taken
  rw [operatorFee] at paid
  cases address : nonEmpty operatorAddress with
  | none =>
    rw [address] at taken paid
    obtain rfl := Option.some.inj (congrArg some (Except.ok.inj paid))
    simp only [Option.isSome_none, Bool.false_eq_true, false_and, if_false] at taken
    exact (Except.ok.inj taken).symm
  | some operatorText =>
    rw [address] at taken paid
    dsimp only at paid
    by_cases free : feeBps.bps = 0
    · rw [if_pos free] at paid
      rw [if_neg (by simp [free])] at taken
      obtain rfl := Except.ok.inj paid
      exact (Except.ok.inj taken).symm
    · rw [if_neg free] at paid
      rw [if_pos ⟨rfl, Nat.pos_of_ne_zero free⟩] at taken
      obtain ⟨product, computed, taken⟩ := bind_ok taken
      obtain ⟨product', computed', paid⟩ := bind_ok paid
      obtain rfl := Except.ok.inj (computed.symm.trans computed')
      obtain rfl := Except.ok.inj taken
      split at paid
      next dust =>
        obtain rfl := Except.ok.inj paid
        rw [if_neg (not_le.mpr dust)]
        rfl
      next enough =>
        obtain ⟨spk, _, paid⟩ := bind_ok paid
        obtain rfl := Except.ok.inj paid
        rw [if_pos (not_lt.mp enough)]
        rfl

/-- The payees of a split add up to the reward without the fee, which is the builder's
fee. In whichever order they are handed over, the builder does not refuse them for their
sum, and if it builds at all it drops as many for the floor as the split predicts. -/
theorem splitWindow_agrees
    (split : splitWindow fp reward feeBps (nonEmpty operatorAddress).isSome claims totalDiff floor
      cap = .ok (payees, r)) :
    (payees.map Payee.sats).sum = reward - r.feeSats ∧
    (∀ operator, operatorFee reward operatorAddress feeBps = .ok operator →
      r.feeSats = feeOf operator) ∧
    ∀ order : List Payee, order.Perm payees → ∀ scale maxBytes fixedBytes replCap,
      (∀ claimed payable fee, resolveWindowOutputs scale reward order operatorAddress feeBps
        maxBytes fixedBytes floor replCap ≠
        fail (mismatch claimed payable fee)) ∧
      ∀ outs result, resolveWindowOutputs scale reward order operatorAddress feeBps maxBytes
        fixedBytes floor replCap =
        .ok (outs, result) → result.droppedBelowFloor = r.belowFloor := by
  obtain ⟨taken, sum, _, below⟩ := splitWindow_sum split
  have fees : ∀ operator, operatorFee reward operatorAddress feeBps = .ok operator →
      r.feeSats = feeOf operator :=
    fun operator paid => splitFee_eq taken paid
  refine ⟨sum, fees,
    fun order perm scale maxBytes fixedBytes replCap => ⟨fun claimed payable fee refused => ?_, ?_⟩⟩
  · have balanced : ∀ operator, operatorFee reward operatorAddress feeBps = .ok operator →
        (order.map Payee.sats).sum = reward - feeOf operator := by
      intro operator paid
      rw [(perm.map Payee.sats).sum_eq, sum, fees operator paid]
    have other := resolveWindowOutputs_unworded balanced refused
    rw [worded_mismatch] at other
    contradiction
  · intro outs result resolved
    rw [resolveWindowOutputs_below resolved, below, countBelow, perm.countP_eq]

/-- Three claims, with an operator at ten percent. -/
theorem splitWindow_agrees_three :
    splitWindow .exact 10000 ⟨1000, by decide⟩ (nonEmpty (some crowdAddress)).isSome
      [⟨some crowdAddress, 7⟩, ⟨some crowdAddress, 6⟩, ⟨some crowdAddress, 1⟩] 14 600 200 =
      .ok ([⟨some crowdAddress, 4501⟩, ⟨some crowdAddress, 3857⟩, ⟨some crowdAddress, 642⟩],
        ⟨1000, 9000, 0⟩) ∧
    ∀ claimed payable fee, resolveWindowOutputs .exact 10000
      [⟨some crowdAddress, 642⟩, ⟨some crowdAddress, 4501⟩,
        ⟨some crowdAddress, 3857⟩] (some crowdAddress) ⟨1000, by decide⟩
      0 100 600 maxReplOuts ≠ fail (mismatch claimed payable fee) := by
  have split : splitWindow .exact 10000 ⟨1000, by decide⟩ (nonEmpty (some crowdAddress)).isSome
      [⟨some crowdAddress, 7⟩, ⟨some crowdAddress, 6⟩, ⟨some crowdAddress, 1⟩] 14 600 200 =
      .ok ([⟨some crowdAddress, 4501⟩, ⟨some crowdAddress, 3857⟩, ⟨some crowdAddress, 642⟩],
        ⟨1000, 9000, 0⟩) := by
    decide +kernel
  exact ⟨split, ((splitWindow_agrees split).2.2 _ (by decide +kernel) .exact 0 100 maxReplOuts).1⟩

end SimplePool.Pplns
