import SimplePool.Coinbase.Window

/-! Where the value of a block goes when a window is paid: every satoshi to a miner who
earned one, or to the operator's fee. -/
namespace SimplePool.Coinbase
open Wire

/-- The output pays this payee, at least its claim and at least the floor. -/
def PaidTo (floor : Int) (payees : List Payee) (k : Nat) (out : ReplOut) : Prop :=
  ∃ payee, payees[k]? = some payee ∧ addressToScript (payee.address.getD []) spkCap = .ok out.spk ∧
    payee.sats ≤ out.sats ∧ floor ≤ out.sats

theorem PaidTo.append (paid : PaidTo floor payees k out) (more : List Payee) :
    PaidTo floor (payees ++ more) k out := by
  obtain ⟨payee, here, rest⟩ := paid
  obtain ⟨inside, _⟩ := List.getElem?_eq_some_iff.mp here
  exact ⟨payee, by rw [List.getElem?_append_left inside, here], rest⟩

/-- The books after the payees in `seen`, of which those at the indices `paid` got an
output. -/
structure Accounts (floor : Int) (seen : List Payee) (paid : List Nat) (p : Paying) : Prop where
  increasing : paid.Pairwise (· < ·)
  inside : ∀ k ∈ paid, k < seen.length
  outs : List.Forall₂ (PaidTo floor seen) paid p.outs
  flags : p.result.paidPayee = paid.filter (· < maxPayoutOutputs)
  paidCount : p.result.paidCount = paid.length
  below : p.result.droppedBelowFloor = seen.countP (fun payee => payee.sats < floor)
  counts : p.result.paidCount + p.result.droppedBelowFloor + p.result.droppedCapped = seen.length
  value : (p.outs.map ReplOut.sats).sum + p.dropped = (seen.map Payee.sats).sum
  dropped : 0 ≤ p.dropped

theorem Accounts.start (floor : Int) : Accounts floor [] [] ⟨[], 0, 0, ⟨0, 0, 0, 0, 0, 0, []⟩⟩ :=
  ⟨.nil, by simp, .nil, rfl, rfl, rfl, rfl, rfl, le_rfl⟩

theorem Accounts.outs_append (books : Accounts floor seen paid p) (payee : Payee) :
    List.Forall₂ (PaidTo floor (seen ++ [payee])) paid p.outs :=
  books.outs.imp fun _ _ here => here.append [payee]

theorem Accounts.inside_append (books : Accounts floor seen paid p) (payee : Payee) :
    ∀ k ∈ paid, k < (seen ++ [payee]).length := by
  intro k member
  have := books.inside k member
  simp only [List.length_append, List.length_singleton]
  omega

theorem Accounts.belowFloor (books : Accounts floor seen paid p) (nonneg : 0 ≤ payee.sats)
    (small : payee.sats < floor) :
    Accounts floor (seen ++ [payee]) paid (p.belowFloor payee) where
  increasing := books.increasing
  inside := books.inside_append payee
  outs := books.outs_append payee
  flags := books.flags
  paidCount := books.paidCount
  below := by simp [Paying.belowFloor, books.below, small]
  counts := by
    have := books.counts
    simp only [Paying.belowFloor, List.length_append, List.length_singleton]
    omega
  value := by
    have := books.value
    simp only [Paying.belowFloor, List.map_append, List.sum_append, List.map_singleton,
      List.sum_singleton]
    omega
  dropped := Int.add_nonneg books.dropped nonneg

theorem Accounts.capped (books : Accounts floor seen paid p) (nonneg : 0 ≤ payee.sats)
    (enough : ¬payee.sats < floor) :
    Accounts floor (seen ++ [payee]) paid (p.capped payee) where
  increasing := books.increasing
  inside := books.inside_append payee
  outs := books.outs_append payee
  flags := books.flags
  paidCount := books.paidCount
  below := by simp [Paying.capped, books.below, enough]
  counts := by
    have := books.counts
    simp only [Paying.capped, List.length_append, List.length_singleton]
    omega
  value := by
    have := books.value
    simp only [Paying.capped, List.map_append, List.sum_append, List.map_singleton,
      List.sum_singleton]
    omega
  dropped := Int.add_nonneg books.dropped nonneg

theorem Accounts.pay (books : Accounts floor seen paid p) (enough : ¬payee.sats < floor)
    (script : addressToScript (payee.address.getD []) spkCap = .ok spk) :
    Accounts floor (seen ++ [payee]) (paid ++ [seen.length]) (p.paid seen.length payee spk) where
  increasing := by
    rw [List.pairwise_append]
    refine ⟨books.increasing, List.pairwise_singleton _ _, fun k member last same => ?_⟩
    obtain rfl := List.mem_singleton.mp same
    exact books.inside k member
  inside := by
    intro k member
    rcases List.mem_append.mp member with old | new
    · exact books.inside_append payee k old
    · obtain rfl := List.mem_singleton.mp new
      simp
  outs := by
    refine List.rel_append (books.outs_append payee) (.cons ?_ .nil)
    exact ⟨payee, by simp, script, le_rfl, not_lt.mp enough⟩
  flags := by
    simp only [Paying.paid, List.filter_append, books.flags]
    split
    next early => simp [early]
    next late => simp [not_lt.mp late]
  paidCount := by simp [Paying.paid, books.paidCount]
  below := by simp [Paying.paid, books.below, enough]
  counts := by
    have := books.counts
    simp only [Paying.paid, List.length_append, List.length_singleton]
    omega
  value := by
    have := books.value
    simp only [Paying.paid, List.map_append, List.sum_append, List.map_singleton,
      List.sum_singleton]
    omega
  dropped := books.dropped

/-- The loop keeps the books. -/
theorem payDown_accounts (books : Accounts floor seen paid p)
    (nonneg : ∀ payee ∈ payees, 0 ≤ payee.sats)
    (done : payDown floor cap budget payees seen.length p = .ok q) :
    ∃ paid, Accounts floor (seen ++ payees) paid q := by
  induction payees generalizing seen paid p with
  | nil =>
    obtain rfl := Except.ok.inj done
    exact ⟨paid, by rwa [List.append_nil]⟩
  | cons payee rest ih =>
    have length : (seen ++ [payee]).length = seen.length + 1 := by simp
    have first := nonneg payee List.mem_cons_self
    have later := fun other member => nonneg other (List.mem_cons_of_mem payee member)
    rw [List.append_cons]
    simp only [payDown] at done
    rw [← length] at done
    split at done
    next small => exact ih (books.belowFloor first small) later done
    next enough =>
      split at done
      next => exact ih (books.capped first enough) later done
      next =>
        obtain ⟨spk, script, done⟩ := bind_ok done
        split at done
        next => exact ih (books.capped first enough) later done
        next => exact ih (books.pay enough script) later done

theorem bigIndex_lt (rest : List ReplOut) (i big : Nat) (most : Int) (before : big < i) :
    bigIndex rest i big most < i + rest.length := by
  induction rest generalizing i big most with
  | nil => exact before
  | cons out rest ih =>
    rw [bigIndex, List.length_cons]
    split
    next =>
      have := ih (i + 1) i out.sats (by omega)
      omega
    next =>
      have := ih (i + 1) big most (by omega)
      omega

theorem addAt_sum (inside : i < outs.length) :
    ((addAt outs i sats).map ReplOut.sats).sum = (outs.map ReplOut.sats).sum + sats := by
  induction outs generalizing i with
  | nil => simp at inside
  | cons out rest ih =>
    cases i with
    | zero =>
      simp only [addAt, List.modify_zero_cons, List.map_cons, List.sum_cons]
      omega
    | succ i =>
      have := ih (Nat.lt_of_succ_lt_succ inside)
      simp only [addAt] at this
      simp only [addAt, List.modify_succ_cons, List.map_cons, List.sum_cons]
      omega

/-- An output that grew. -/
def Grown (out out' : ReplOut) : Prop := out'.spk = out.spk ∧ out.sats ≤ out'.sats

theorem paidTo_grown (recipients : List.Forall₂ (PaidTo floor payees) paid outs)
    (grown : List.Forall₂ Grown outs outs') :
    List.Forall₂ (PaidTo floor payees) paid outs' := by
  induction recipients generalizing outs' with
  | nil =>
    cases grown
    exact .nil
  | cons first rest ih =>
    obtain ⟨payee, here, spk, claim, enough⟩ := first
    cases grown with
    | cons more later =>
      exact .cons ⟨payee, here, more.1 ▸ spk, claim.trans more.2, enough.trans more.2⟩ (ih later)

theorem addAt_grown (grown : List.Forall₂ Grown outs outs') (nonneg : 0 ≤ sats) :
    List.Forall₂ Grown outs (addAt outs' i sats) := by
  induction grown generalizing i with
  | nil => simp [addAt]
  | cons first rest ih =>
    cases i with
    | zero =>
      rw [addAt, List.modify_zero_cons]
      exact .cons ⟨first.1, by have := first.2; dsimp only; omega⟩ rest
    | succ i =>
      rw [addAt, List.modify_succ_cons]
      exact .cons first ih

/-- A share of more than was paid is at least what was paid. -/
theorem scale_grown (more : paidSats ≤ payable) (positive : 0 < paidSats) {outs : List ReplOut}
    (nonneg : ∀ out ∈ outs, 0 ≤ out.sats) :
    List.Forall₂ Grown outs (outs.map fun out =>
      { out with sats := Scale.exact.apply payable out.sats paidSats }) := by
  rw [List.forall₂_map_right_iff, List.forall₂_same]
  intro out member
  refine ⟨rfl, ?_⟩
  rw [Scale.exact, Int.le_ediv_iff_mul_le positive, mul_comm]
  exact mul_le_mul_of_nonneg_right more (nonneg out member)

theorem redistribute_spec (more : paidSats ≤ payable) (positive : 0 < paidSats)
    {outs : List ReplOut} (someone : outs ≠ []) (nonneg : ∀ out ∈ outs, 0 ≤ out.sats)
    (spread : redistribute .exact payable paidSats outs = .ok result) :
    List.Forall₂ Grown outs result ∧ (result.map ReplOut.sats).sum = payable := by
  have grown := scale_grown more positive nonneg
  have same := grown.length_eq
  simp only [redistribute] at spread
  generalize (outs.map fun out =>
    { out with sats := Scale.exact.apply payable out.sats paidSats }) = scaled at grown same spread
  obtain ⟨assigned, sum, spread⟩ := bind_ok spread
  obtain ⟨rfl, _⟩ := int64_ok sum
  split at spread
  next short =>
    obtain rfl := Except.ok.inj spread
    refine ⟨addAt_grown grown (by omega), ?_⟩
    cases scaled with
    | nil => exact absurd (List.eq_nil_of_length_eq_zero same) someone
    | cons first rest =>
      have inside := bigIndex_lt rest 1 0 first.sats Nat.one_pos
      dsimp only
      rw [addAt_sum (by rw [List.length_cons]; omega)]
      omega
  next =>
    split at spread
    next => cases spread
    next =>
      obtain rfl := Except.ok.inj spread
      exact ⟨grown, by omega⟩

theorem spreadDropped_spec (sound : Paying.Sound p) (someone : p.result.paidCount ≠ 0)
    (dropped : 0 ≤ p.dropped) (value : (p.outs.map ReplOut.sats).sum + p.dropped = payable)
    (spread : spreadDropped .exact payable p = .ok (outs, result)) :
    List.Forall₂ Grown p.outs outs ∧ (outs.map ReplOut.sats).sum = payable ∧
      result =
        { p.result with redistributedSats := result.redistributedSats, paidSats := payable } := by
  have paid := sound.paidSats
  have nonneg : ∀ out ∈ p.outs, 0 ≤ out.sats :=
    fun out member => le_trans (by decide) (sound.outs out member).1
  rw [spreadDropped] at spread
  split at spread
  next some =>
    obtain ⟨scaled, redistributed, spread⟩ := bind_ok spread
    obtain ⟨rfl, rfl⟩ := Prod.mk.inj (Except.ok.inj spread)
    have present : p.outs ≠ [] := by
      rw [sound.paidCount] at someone
      exact List.length_pos_iff.mp (Nat.pos_of_ne_zero someone)
    obtain ⟨grown, sum⟩ :=
      redistribute_spec (by omega) (sound.paidSats_pos someone) present nonneg redistributed
    exact ⟨grown, sum, rfl⟩
  next none =>
    obtain ⟨rfl, rfl⟩ := Prod.mk.inj (Except.ok.inj spread)
    refine ⟨List.forall₂_same.mpr fun out _ => ⟨rfl, le_rfl⟩, by omega, ?_⟩
    have all : p.result.paidSats = payable := by omega
    rw [← all]

theorem withOperator_ok (added : withOperator cap operator outs result = .ok (all, result')) :
    all = outs ++ operator.toList ∧ result' = { result with feeSats := feeOf operator } := by
  cases operator with
  | some op =>
    simp only [withOperator] at added
    split at added
    next => cases added
    next =>
      obtain ⟨rfl, rfl⟩ := Prod.mk.inj (Except.ok.inj added)
      exact ⟨rfl, rfl⟩
  | none =>
    obtain ⟨rfl, rfl⟩ := Prod.mk.inj (Except.ok.inj added)
    exact ⟨by simp, rfl⟩

/-- Where the value went: `miners` are the outputs of the payees at the indices `paid`, and
the operator's output follows them. -/
structure Conserved (value : Int) (payees : List Payee) (feeBps : FeeBps) (floor : Int)
    (outs : List ReplOut)
    (result : WindowResult) (miners : List ReplOut) (operator : Option ReplOut) (paid : List Nat) :
    Prop where
  laid : outs = miners ++ operator.toList
  total : (outs.map ReplOut.sats).sum = value
  fee : ∀ op ∈ operator, op.sats = (value * feeBps.bps).tdiv 10000
  feeSats : result.feeSats = feeOf operator
  increasing : paid.Pairwise (· < ·)
  recipients : List.Forall₂ (PaidTo (effectiveFloor floor) payees) paid miners
  paidSats : result.paidSats = (miners.map ReplOut.sats).sum
  flags : result.paidPayee = paid.filter (· < maxPayoutOutputs)
  paidCount : result.paidCount = paid.length
  below : result.droppedBelowFloor = payees.countP (fun payee => payee.sats < effectiveFloor floor)
  counts : result.paidCount + result.droppedBelowFloor + result.droppedCapped = payees.length

/-- The payees that the floor drops, however what they claim is spread. -/
theorem resolveWindowOutputs_below
    (resolved : resolveWindowOutputs scale value payees operatorAddress feeBps maxBytes fixedBytes
      floor cap = .ok (outs, result)) :
    result.droppedBelowFloor = payees.countP (fun payee => payee.sats < effectiveFloor floor) := by
  obtain ⟨_, operator, p, miners, spread, _, claims, down, _, redistributed, added⟩ :=
    resolveWindowOutputs_ok resolved
  obtain ⟨paid, books⟩ := payDown_accounts (.start _) (claimedSats_sum claims).2 down
  obtain ⟨_, rfl⟩ := withOperator_ok added
  have kept : spread.droppedBelowFloor = p.result.droppedBelowFloor := by
    rw [spreadDropped] at redistributed
    split at redistributed
    next =>
      obtain ⟨scaled, _, redistributed⟩ := bind_ok redistributed
      obtain ⟨_, rfl⟩ := Prod.mk.inj (Except.ok.inj redistributed)
      rfl
    next =>
      obtain ⟨_, rfl⟩ := Prod.mk.inj (Except.ok.inj redistributed)
      rfl
  exact kept.trans books.below

theorem feeOf_add (operator : Option ReplOut) :
    (operator.toList.map ReplOut.sats).sum = feeOf operator := by
  cases operator <;> simp [feeOf]

/-- A window that is resolved pays the whole value out, and says to whom. -/
theorem resolveWindowOutputs_conserves
    (resolved : resolveWindowOutputs .exact value payees operatorAddress feeBps maxBytes fixedBytes
      floor cap = .ok (outs, result)) :
    ∃ miners operator paid,
      Conserved value payees feeBps floor outs result miners operator paid := by
  obtain ⟨positive, operator, p, miners, spread, fee, claims, down, someone, redistributed,
      added⟩ :=
    resolveWindowOutputs_ok resolved
  obtain ⟨claimed, nonneg⟩ := claimedSats_sum claims
  have sound : p.Sound := payDown_sound (dust_le_effectiveFloor floor) ⟨by simp, rfl, rfl⟩ down
  obtain ⟨paid, books⟩ := payDown_accounts (.start _) nonneg down
  obtain ⟨grown, sum, spread_eq⟩ :=
    spreadDropped_spec sound someone books.dropped
      (books.value.trans (by rw [List.nil_append]; omega)) redistributed
  obtain ⟨rfl, rfl⟩ := withOperator_ok added
  refine ⟨miners, operator, paid, ?_⟩
  constructor
  · rfl
  · rw [List.map_append, List.sum_append, sum, feeOf_add]
    omega
  · intro op same
    obtain rfl := Option.mem_def.mp same
    exact (operatorFee_spec fee).1
  · rfl
  · exact books.increasing
  · exact paidTo_grown books.outs grown
  · rw [spread_eq, sum]
  · rw [spread_eq, books.flags]
  · rw [spread_eq, books.paidCount]
  · rw [spread_eq, books.below, List.nil_append]
  · rw [spread_eq, books.counts, List.nil_append]

def crowdAddress : Bytes := ascii "tb1qw508d6qejxtdg4y5r3zarvary0c5xw7kxpjzsx"

/-- Five claims, of which three have room, one more clears the floor, and the last does not. -/
def squeezed : List Payee :=
  [⟨some crowdAddress, 4000000000⟩, ⟨some crowdAddress, 900000000⟩, ⟨some crowdAddress, 40000000⟩,
    ⟨some crowdAddress, 9999500⟩, ⟨some crowdAddress, 500⟩]

def resolveSqueezed : Result (List ReplOut × WindowResult) :=
  resolveWindowOutputs .exact 5000000000 squeezed (some crowdAddress) .onePercent 200 100 0
    maxReplOuts

/-- What the two of them lose is spread over the three, and the operator is paid beside them. -/
theorem resolveWindowOutputs_conserves_squeezed :
    ∃ outs result, resolveSqueezed = .ok (outs, result) ∧
    result.redistributedSats = 10000000 ∧ result.feeSats = 50000000 ∧ outs.length = 4 ∧
    ∃ miners operator paid,
      Conserved 5000000000 squeezed .onePercent 0 outs result miners operator paid := by
  have ends : resolveSqueezed.toOption.map
    (fun pair => (pair.2.redistributedSats, pair.2.feeSats, pair.1.length)) =
      some (10000000, 50000000, 4) := by
    decide +kernel
  cases resolved : resolveSqueezed with
  | error failure => rw [resolved] at ends; contradiction
  | ok pair =>
    rw [resolved] at ends
    obtain ⟨redistributed, rest⟩ := Prod.mk.inj (Option.some.inj ends)
    obtain ⟨fee, four⟩ := Prod.mk.inj rest
    exact ⟨pair.1, pair.2, rfl, redistributed, fee, four, resolveWindowOutputs_conserves resolved⟩

/-- A crowd of two hundred that claims nothing, and one more who claims it all. -/
def crowd : List Payee :=
  List.replicate 200 ⟨some crowdAddress, 0⟩ ++ [⟨some crowdAddress, 5000000000⟩]

/-- The last of them is paid, and no flag says so. -/
theorem crowd_unflagged : ∃ outs result,
    resolveWindowOutputs .exact 5000000000 crowd none ⟨0, by decide⟩ 0 100 0 maxReplOuts =
      .ok (outs, result) ∧
    ∀ paid, List.Forall₂ (PaidTo (effectiveFloor 0) crowd) paid outs → result.paidPayee ≠ paid := by
  have ends : (resolveWindowOutputs .exact 5000000000 crowd none ⟨0, by decide⟩ 0 100 0
    maxReplOuts).toOption.map
      (fun pair => (pair.1.length, pair.2.paidPayee)) = some (1, []) := by
    decide +kernel
  cases resolved : resolveWindowOutputs .exact 5000000000 crowd none ⟨0, by decide⟩ 0 100 0
    maxReplOuts with
  | error failure => rw [resolved] at ends; contradiction
  | ok pair =>
    rw [resolved] at ends
    obtain ⟨one, unflagged⟩ := Prod.mk.inj (Option.some.inj ends)
    refine ⟨pair.1, pair.2, rfl, fun paid recipients flags => ?_⟩
    rw [← flags, unflagged] at recipients
    have length := recipients.length_eq
    rw [one] at length
    exact Nat.zero_ne_one length

end SimplePool.Coinbase
