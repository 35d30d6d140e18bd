import SimplePool.Main.RateLog
import SimplePool.Store.RowOwners
import SimplePool.Store.ShareRows
import SimplePool.Stratum.WindowFractions

/-! The checks of the audit page on a pool in pps-classic mode: each credit against its own
rate, each logged rate against its template, each rate of a share against the log. The first
never fails. The second takes every logged rate for the fair value of its template, and the
proxy logs the rates that its override, its floor and its ceiling made of it too. The third
needs the log to be ahead of the shares, and a rate is published before it is logged. -/
namespace SimplePool.Dashboard
open Wire Transition Main
open Coinbase (FeeBps)
open Stratum (Fpu)
open Store.Writer

/-- `CAST(x AS INTEGER)`: toward zero, and no further than an integer goes. -/
def castInteger (x : ℚ) : Int := if x < 0 then max (-2 ^ 63) ⌈x⌉ else min (2 ^ 63 - 1) ⌊x⌋

section Audit

variable (fp : Fpu)

/-- What a template makes a rate out to be: NULL when it divides by zero. -/
def fairRate (valueSats : Int) (netDiff : WithTop ℚ) (feeBps : FeeBps) : Option ℚ :=
  match netDiff with
  | none => some 0
  | some netDiff =>
    if netDiff = 0 then none
    else some (fp.round (fp.round (fp.round valueSats / netDiff) * netOfFee fp feeBps))

/-- `1e-9` -/
def tolerance : ℚ := fp.round (1 / 10 ^ 9)

def Near (rate : WithTop ℚ) (fair : ℚ) : Prop :=
  rate ≠ ⊤ ∧ |fp.round (rate.untopD 0 - fair)| ≤ tolerance fp

instance (rate : WithTop ℚ) (fair : ℚ) : Decidable (Near fp rate fair) :=
  inferInstanceAs (Decidable (_ ∧ _))

/-- The logged rate follows from the inputs beside it. -/
def Derives (entry : RateEntry) : Prop :=
  ∀ fair ∈ fairRate fp entry.blockValueSats entry.networkDifficulty entry.feeBps,
    Near fp entry.rateSatsPerDiff fair

instance (entry : RateEntry) : Decidable (Derives fp entry) :=
  inferInstanceAs
    (Decidable (∀ fair ∈ fairRate fp entry.blockValueSats entry.networkDifficulty entry.feeBps,
    Near fp entry.rateSatsPerDiff fair))

/-- The credit of a share that carries a rate is the one that its row gives. -/
def Matches (row : ShareRow) : Prop :=
  0 < row.rateUsed → row.creditedSats = castInteger (fp.round (row.difficulty * row.rateUsed))

instance (row : ShareRow) : Decidable (Matches fp row) :=
  inferInstanceAs (Decidable (0 < row.rateUsed →
    row.creditedSats = castInteger (fp.round (row.difficulty * row.rateUsed))))

/-- A rate that some row of the log has. -/
def Logged (rates : List RateRow) (rate : ℚ) : Prop :=
  ∃ row ∈ rates, row.entry.rateSatsPerDiff = rate

instance (rates : List RateRow) (rate : ℚ) : Decidable (Logged rates rate) :=
  inferInstanceAs (Decidable (∃ row ∈ rates, row.entry.rateSatsPerDiff = rate))

/-- A share since the log began, at a rate that is not in it. -/
def Orphaned (rates : List RateRow) (row : ShareRow) : Prop :=
  0 < row.rateUsed ∧ (∃ first ∈ (rates.map RateRow.ts).min?, first ≤ row.ts) ∧
  ¬Logged rates row.rateUsed

instance (rates : List RateRow) (row : ShareRow) : Decidable (Orphaned rates row) :=
  inferInstanceAs (Decidable (_ ∧ _ ∧ _))

structure RateVerification where
  ok : Bool
  shareCount : Nat
  credited : Nat
  verifiable : Nat
  unverifiable : Nat
  mismatched : Nat
  orphaned : Nat
  coveragePct : ℚ
  rateRows : Nat
  ratesInconsistent : Nat
  rateLogFrom : UInt64
deriving DecidableEq

/-- For one worker, or for everybody. -/
def rateVerification (tables : Tables) (rates : List RateRow) (workerId : Option Nat) :
    RateVerification :=
  let shares := tables.shares.filter fun row => ∀ id ∈ workerId, row.workerId = id
  let credited := shares.countP fun row => 0 < row.creditedSats
  let verifiable := shares.countP fun row => 0 < row.rateUsed
  let mismatched := shares.countP fun row => ¬Matches fp row
  let inconsistent := rates.countP fun row => ¬Derives fp row.entry
  let orphaned := shares.countP fun row => Orphaned rates row
  { ok := mismatched = 0 ∧ inconsistent = 0 ∧ orphaned = 0
    shareCount := shares.length
    credited
    verifiable
    unverifiable := shares.countP fun row => row.rateUsed = 0 ∧ 0 < row.creditedSats
    mismatched
    orphaned
    coveragePct := if 0 < credited then verifiable / credited * 100 else 100
    rateRows := rates.length
    ratesInconsistent := inconsistent
    rateLogFrom := ((rates.map RateRow.ts).min?).getD 0 }

/-- No audit of the store has anything to report. -/
def NoFalseAlarm (s : Accrual cap) : Prop :=
  ∀ workerId,
    (rateVerification fp s.ledger.store.proc.session.committed s.rateHistory workerId).ok = true

/-- What the ceiling caps a rate at, when the hashrate is measured. -/
def ceilingOf (cfg : PpsConfig) (valueSats : Int) (diffPerSec : ℚ) : WithTop ℚ :=
  if valueSats ≤ 0 ∨ diffPerSec ≤ 0 then
    ⊤
  else issuanceCeiling fp valueSats diffPerSec cfg.blockIntervalSec

/-- The rate that is published is this far from it at most: below the floor nothing is published;
else it is the override, capped; without one the rate of the template, unless the value is
negative, as long as the ceiling is not below it. -/
def StaysAt (cfg : PpsConfig) (valueSats : Int) (netDiff : WithTop ℚ) (diffPerSec fair : ℚ) :
    Prop :=
  cfg.Gates netDiff ∧ Near fp 0 fair ∨
  ¬cfg.Gates netDiff ∧ 0 < cfg.ppsSatsPerDiff ∧ cfg.ppsSatsPerDiff ≠ ⊤ ∧
    Near fp (min cfg.ppsSatsPerDiff (ceilingOf fp cfg valueSats diffPerSec)) fair ∨
  ¬cfg.Gates netDiff ∧ ¬0 < cfg.ppsSatsPerDiff ∧
    (0 ≤ valueSats ∧ (ppsRateFromTemplate fp valueSats netDiff cfg.feeBps : WithTop ℚ) ≤
      ceilingOf fp cfg valueSats diffPerSec ∨
      Near fp (min (ppsRateFromTemplate fp valueSats netDiff cfg.feeBps)
        (ceilingOf fp cfg valueSats diffPerSec)) fair)

instance (cfg : PpsConfig) (valueSats : Int) (netDiff : WithTop ℚ) (diffPerSec fair : ℚ) :
    Decidable (StaysAt fp cfg valueSats netDiff diffPerSec fair) :=
  inferInstanceAs (Decidable (_ ∧ _ ∨ _ ∧ _ ∧ _ ∧ _ ∨ _ ∧ _ ∧ (_ ∨ _)))

/-- Nothing moves the rate of a template off its fair value by more than the audit tolerates. -/
def Unmoved (cfg : PpsConfig) (valueSats : Int) (netDiff : WithTop ℚ) (diffPerSec : ℚ) : Prop :=
  ∀ fair ∈ fairRate fp valueSats netDiff cfg.feeBps,
    StaysAt fp cfg valueSats netDiff diffPerSec fair

instance (cfg : PpsConfig) (valueSats : Int) (netDiff : WithTop ℚ) (diffPerSec : ℚ) :
    Decidable (Unmoved fp cfg valueSats netDiff diffPerSec) :=
  inferInstanceAs (Decidable (∀ fair ∈ fairRate fp valueSats netDiff cfg.feeBps,
    StaysAt fp cfg valueSats netDiff diffPerSec fair))

end Audit

/-- The rate that an event carries. -/
def rateOf : Event → ℚ
  | .share e => e.rateUsed
  | _ => 0

/-- A rate that is published and not logged yet has its share waiting for the log. -/
def Awaited (s : Accrual cap) (entry : RateEntry) (event : Event) : Prop :=
  0 < rateOf event → (rateOf event : WithTop ℚ) = entry.rateSatsPerDiff →
    Logged s.rateHistory (rateOf event)

instance (s : Accrual cap) (entry : RateEntry) (event : Event) :
    Decidable (Awaited s entry event) :=
  inferInstanceAs (Decidable (_ → _ → _))

/-- Templates move no rate, the log takes every row, and the writer has no share at a rate
that is still to be logged. -/
def Calm (fp : Fpu) (s : Accrual cap) : AccrualStep → Prop
  | .refresh t nowMs =>
    ∀ netDiff ∈ t.difficulty fp,
      Unmoved fp s.cfg t.coinbaseValueSats netDiff (s.window.observed fp nowMs).1
  | .record _ insert _ => insert = .served
  | .store (.commit _) =>
    ∀ entry ∈ s.refreshing, ∀ event ∈ s.ledger.store.inFlight, Awaited s entry event
  | _ => True

instance (fp : Fpu) (s : Accrual cap) : (step : AccrualStep) → Decidable (Calm fp s step)
  | .refresh t nowMs =>
    inferInstanceAs (Decidable (∀ netDiff ∈ t.difficulty fp,
      Unmoved fp s.cfg t.coinbaseValueSats netDiff (s.window.observed fp nowMs).1))
  | .record _ insert _ => inferInstanceAs (Decidable (insert = .served))
  | .store (.commit _) =>
    inferInstanceAs (Decidable (∀ entry ∈ s.refreshing, ∀ event ∈ s.ledger.store.inFlight,
      Awaited s entry event))
  | .start _ => isTrue trivial
  | .share _ => isTrue trivial
  | .credit _ => isTrue trivial
  | .store (.enqueue _) => isTrue trivial
  | .store .drain => isTrue trivial
  | .store .publish => isTrue trivial
  | .store .flush => isTrue trivial
  | .store (.flushed _) => isTrue trivial
  | .store (.timedOut _) => isTrue trivial

section Rates

variable {fp : Fpu} {cfg : PpsConfig} {valueSats : Int} {netDiff : WithTop ℚ} {diffPerSec : ℚ}

/-- What is left after a fee of ten percent at most is not negative. -/
theorem netOfFee_nonneg (ieee : fp.Ieee) (feeBps : FeeBps) : 0 ≤ netOfFee fp feeBps := by
  have most := ieee.power 10 (by decide) (by decide)
  have one := ieee.power 0 (by decide) (by decide)
  rw [zpow_zero] at one
  have checked : (feeBps.bps : ℚ) ≤ 2 ^ (10 : ℤ) := by
    have checked := feeBps.checked
    have small : feeBps.bps ≤ 1024 := by omega
    calc (feeBps.bps : ℚ) ≤ 1024 := by exact_mod_cast small
      _ = 2 ^ (10 : ℤ) := by norm_num
  have fee : fp.round feeBps.bps / 10000 ≤ 1 := by
    have rounded := ieee.monotone checked
    rw [most] at rounded
    linarith
  have part : fp.round (fp.round feeBps.bps / 10000) ≤ 1 := by
    rw [← one]
    exact ieee.monotone fee
  exact fp.nonneg _ (by linarith)

theorem ppsRateFromTemplate_nonneg : 0 ≤ ppsRateFromTemplate fp valueSats netDiff cfg.feeBps := by
  rcases netDiff with _ | netDiff
  · exact le_rfl
  · simp only [ppsRateFromTemplate]
    split_ifs with _ positive
    · exact le_rfl
    · exact positive.le
    · exact le_rfl

/-- The rate of a template is the one that the audit works out. -/
theorem ppsRateFromTemplate_fair (ieee : fp.Ieee) (nonneg : 0 ≤ valueSats)
    (difficulty : 0 ≤ netDiff) (fair : fairRate fp valueSats netDiff cfg.feeBps = some rate) :
    ppsRateFromTemplate fp valueSats netDiff cfg.feeBps = rate := by
  rcases netDiff with _ | netDiff
  · obtain rfl := Option.some.inj fair
    rfl
  · simp only [fairRate] at fair
    split_ifs at fair with zero
    obtain rfl := Option.some.inj fair
    have some_nonneg : 0 ≤ netDiff := WithTop.coe_le_coe.mp difficulty
    have positive : 0 < netDiff := lt_of_le_of_ne some_nonneg (Ne.symm zero)
    have checked := cfg.feeBps.checked
    simp only [ppsRateFromTemplate]
    rcases nonneg.eq_or_lt with rfl | value
    · rw [if_pos (.inl le_rfl), Int.cast_zero, ieee.zero, zero_div, ieee.zero, zero_mul, ieee.zero]
    · have worth : ¬(valueSats ≤ 0 ∨ netDiff ≤ 0 ∨ 10000 ≤ cfg.feeBps.bps) := by
        rintro (none | none | high)
        · omega
        · exact absurd positive (not_lt.mpr none)
        · omega
      have gross : 0 ≤ fp.round (fp.round valueSats / netDiff) :=
        fp.nonneg _ (div_nonneg (fp.nonneg _ (by exact_mod_cast value.le)) positive.le)
      have net := fp.nonneg _ (mul_nonneg gross (netOfFee_nonneg ieee cfg.feeBps))
      rw [if_neg worth]
      split_ifs with something
      · rfl
      · exact le_antisymm net (not_lt.mp something)

theorem issuanceCeiling_nonneg (cfg : PpsConfig) (value : 0 < valueSats)
    (measured : 0 < diffPerSec) :
    0 ≤ issuanceCeiling fp valueSats diffPerSec cfg.blockIntervalSec := by
  have interval := cfg.interval_pos
  have value : 0 ≤ fp.round valueSats := fp.nonneg _ (by exact_mod_cast value.le)
  have seconds : 0 ≤ fp.round cfg.blockIntervalSec := fp.nonneg _ (by exact_mod_cast interval.le)
  exact fp.nonneg _ (div_nonneg (fp.nonneg _ (div_nonneg value seconds)) measured.le)

/-- A finite rate is capped. -/
theorem applyCeiling_eq {rate : ℚ} (nonneg : 0 ≤ rate) :
    ppsRateApplyIssuanceCeiling fp rate valueSats diffPerSec cfg.blockIntervalSec =
      min (rate : WithTop ℚ) (ceilingOf fp cfg valueSats diffPerSec) := by
  have interval := cfg.interval_pos
  change (if rate ≤ 0 ∨ valueSats ≤ 0 ∨ diffPerSec ≤ 0 ∨
    cfg.blockIntervalSec ≤ 0 then (rate : WithTop ℚ) else _) = _
  rw [ceilingOf]
  by_cases off : valueSats ≤ 0 ∨ diffPerSec ≤ 0
  · rw [if_pos (by tauto), if_pos off, min_top_right]
  · have value : 0 < valueSats := not_le.mp fun none => off (.inl none)
    have measured : 0 < diffPerSec := not_le.mp fun none => off (.inr none)
    have ceiling : 0 ≤ issuanceCeiling fp valueSats diffPerSec cfg.blockIntervalSec :=
      issuanceCeiling_nonneg cfg value measured
    rw [if_neg off]
    rcases nonneg.eq_or_lt with rfl | positive
    · rw [if_pos (.inl le_rfl), min_eq_left]
      exact_mod_cast ceiling
    · have on : ¬(rate ≤ 0 ∨ valueSats ≤ 0 ∨ diffPerSec ≤ 0 ∨ cfg.blockIntervalSec ≤ 0) := by
        rintro (none | none | none | none)
        · exact absurd positive (not_lt.mpr none)
        · omega
        · exact absurd measured (not_lt.mpr none)
        · omega
      rw [if_neg on, if_neg (not_lt.mpr ceiling)]
      split_ifs with below
      · rw [min_eq_left]
        exact_mod_cast below.le
      · rw [min_eq_right]
        exact_mod_cast not_lt.mp below

theorem near_self (ieee : fp.Ieee) (rate : ℚ) : Near fp rate rate := by
  refine ⟨WithTop.coe_ne_top, ?_⟩
  rw [WithTop.untopD_coe, sub_self, ieee.zero, abs_zero]
  exact fp.nonneg _ (by norm_num)

/-- The audit finds a logged rate consistent exactly when nothing moved it. -/
theorem derives_iff_unmoved (ieee : fp.Ieee) (difficulty : 0 ≤ netDiff) :
    Derives fp (rateEntry fp cfg valueSats netDiff diffPerSec) ↔
    Unmoved fp cfg valueSats netDiff diffPerSec := by
  refine forall₂_congr fun fair here => ?_
  change Near fp (publishedRate fp cfg valueSats netDiff diffPerSec) fair ↔ _
  rw [publishedRate, StaysAt]
  by_cases gated : cfg.Gates netDiff
  · simp [gated]
  rw [if_neg gated, effectivePpsRate]
  by_cases overridden : 0 < cfg.ppsSatsPerDiff
  · rw [if_pos overridden]
    cases rate : cfg.ppsSatsPerDiff with
    | top => simp [gated, Near, ppsRateApplyIssuanceCeiling]
    | coe override =>
      have nonneg : 0 ≤ override := by
        have positive := overridden.le
        rw [rate] at positive
        exact_mod_cast positive
      rw [rate] at overridden
      rw [applyCeiling_eq nonneg]
      simp [gated, overridden]
  · rw [if_neg overridden, applyCeiling_eq ppsRateFromTemplate_nonneg]
    simp only [gated, overridden, false_and, not_false_eq_true, true_and, false_or]
    refine ⟨.inr, fun stays => stays.elim (fun free => ?_) id⟩
    rw [min_eq_left free.2, ppsRateFromTemplate_fair ieee free.1 difficulty here]
    exact near_self ieee fair

end Rates

theorem rateVerification_ok {tables : Tables} {rates : List RateRow}
    (derived : ∀ row ∈ rates, Derives fp row.entry)
    (written : tables.SharesAll fun row => Matches fp row ∧
      (0 < row.rateUsed → Logged rates row.rateUsed)) (workerId : Option Nat) :
    (rateVerification fp tables rates workerId).ok = true := by
  have inScope : ∀ row ∈ tables.shares.filter fun row => ∀ id ∈ workerId, row.workerId = id,
      Matches fp row ∧ (0 < row.rateUsed → Logged rates row.rateUsed) :=
    fun row member => written row (List.mem_of_mem_filter member)
  rw [rateVerification]
  dsimp only
  rw [decide_eq_true_eq]
  refine ⟨List.countP_eq_zero.mpr fun row member => ?_,
    List.countP_eq_zero.mpr fun row member => ?_, List.countP_eq_zero.mpr fun row member => ?_⟩
  · simpa using (inScope row member).1
  · simpa using derived row member
  · rw [decide_eq_true_eq]
    exact fun orphaned => orphaned.2.2 ((inScope row member).2 orphaned.1)

/-- The credit of an event is the one that its rate gives. -/
def Priced (fp : Fpu) : Event → Prop
  | .share e => 0 < e.rateUsed → e.deltaSats = castInteger (fp.round (e.difficulty * e.rateUsed))
  | _ => True

/-- A rate that is logged or about to be. -/
def Published (s : Accrual cap) (rate : ℚ) : Prop :=
  Logged s.rateHistory rate ∨ ∃ entry ∈ s.refreshing, entry.rateSatsPerDiff = rate

/-- Every rate follows from its template, and every share carries a rate that was published
and the credit it gives; in the table the rate is logged. -/
structure Sound (fp : Fpu) (s : Accrual cap) : Prop where
  derived : ∀ row ∈ s.rateHistory, Derives fp row.entry
  next : ∀ entry ∈ s.refreshing, Derives fp entry
  rate : ∀ rate : ℚ, s.ppsRate = rate → 0 < rate → Published s rate
  queued : ∀ event ∈ s.ledger.store.pending, Priced fp event ∧
  (0 < rateOf event → Published s (rateOf event))
  written : s.ledger.store.proc.session.Holds
    (Tables.SharesAll fun row => Matches fp row ∧
      (0 < row.rateUsed → Logged s.rateHistory row.rateUsed))

section Steps

variable {fp : Fpu} {s after : Accrual cap} {room : 0 < cap}

theorem Sound.silent (sound : Sound fp s) : NoFalseAlarm fp s :=
  fun workerId => rateVerification_ok sound.derived sound.written.committed workerId

theorem sound_boot (positive : 0 < cap) (cfg : PpsConfig) {tables : Tables} {rates : List RateRow}
    (derived : ∀ row ∈ rates, Derives fp row.entry)
    (written : tables.SharesAll fun row => Matches fp row ∧
      (0 < row.rateUsed → Logged rates row.rateUsed)) :
    Sound fp (Accrual.boot positive cfg tables rates) where
  derived := derived
  next := nofun
  rate rate none positive := absurd (WithTop.coe_injective none) positive.ne
  queued := by
    intro event member
    have empty : (State.open positive tables).pending = [] := by
      rw [State.pending, State.open, State.inFlight, RingBuffer.contents_empty]
      rfl
    change event ∈ (State.open positive tables).pending at member
    rw [empty] at member
    cases member
  written := ⟨written, nofun⟩

/-- A logged rate derives, whether its row is added or there already. -/
theorem storeRecordRate_spec (derived : ∀ row ∈ rates, Derives fp row.entry) (entry : RateEntry)
    (derives : Derives fp entry) (last : Store.Outcome) (nowS : UInt64) :
    (∀ row ∈ storeRecordRate last .served entry nowS rates, Derives fp row.entry) ∧
      (∃ row ∈ storeRecordRate last .served entry nowS rates, row.entry = entry) ∧
      rates ⊆ storeRecordRate last .served entry nowS rates := by
  rw [storeRecordRate, if_pos rfl]
  split_ifs with unchanged
  · obtain ⟨row, newest, same⟩ := Option.map_eq_some_iff.mp unchanged.2
    exact ⟨derived, ⟨row, List.mem_of_getLast? newest, same⟩, List.Subset.refl _⟩
  · exact ⟨List.forall_mem_append.mpr ⟨derived, List.forall_mem_singleton.mpr derives⟩,
      ⟨⟨entry, nowS⟩, List.mem_append_right _ (List.mem_singleton_self _), rfl⟩,
      List.subset_append_left _ _⟩

theorem Logged.mono {more : List RateRow} (logged : Logged rates rate) (within : rates ⊆ more) :
    Logged more rate := by
  obtain ⟨row, member, same⟩ := logged
  exact ⟨row, within member, same⟩

theorem Sound.record (sound : Sound fp s) (refreshing : s.refreshing = some entry)
    (last : Store.Outcome) (nowS : UInt64) :
    Sound fp { s with
      rateHistory := storeRecordRate last .served entry nowS s.rateHistory
      refreshing := none } := by
  obtain ⟨derived, ⟨row, logged, same⟩, within⟩ := storeRecordRate_spec sound.derived entry
    (sound.next entry refreshing) last nowS
  have settle (rate : ℚ) (published : Published s rate) :
      Logged (storeRecordRate last .served entry nowS s.rateHistory) rate := by
    rcases published with before | ⟨other, pending, rates⟩
    · exact before.mono within
    · obtain rfl := Option.some.inj (refreshing.symm.trans pending)
      exact ⟨row, logged, same ▸ rates⟩
  constructor
  · exact derived
  · nofun
  · exact fun rate here positive => .inl (settle rate (sound.rate rate here positive))
  · intro event member
    obtain ⟨priced, published⟩ := sound.queued event member
    exact ⟨priced, fun positive => .inl (settle _ (published positive))⟩
  · have kept (t : Tables) (all : t.SharesAll fun row => Matches fp row ∧
      (0 < row.rateUsed → Logged s.rateHistory row.rateUsed)) :
        t.SharesAll fun row => Matches fp row ∧
          (0 < row.rateUsed →
            Logged (storeRecordRate last .served entry nowS s.rateHistory) row.rateUsed) :=
      fun row member => ⟨(all row member).1,
        fun positive => ((all row member).2 positive).mono within⟩
    exact ⟨kept _ sound.written.committed,
      fun db opened => kept db (sound.written.working db opened)⟩

theorem Sound.refresh (sound : Sound fp s) (idle : s.refreshing = none) (derives : Derives fp entry)
    (window : HashrateWindow) :
    Sound fp { s with window, ppsRate := entry.rateSatsPerDiff, refreshing := some entry } := by
  have settled (rate : ℚ) (published : Published s rate) : Logged s.rateHistory rate := by
    rcases published with logged | ⟨entry, pending, _⟩
    · exact logged
    · rw [idle] at pending
      cases pending
  constructor
  · exact sound.derived
  · intro other pending
    obtain rfl := Option.some.inj pending
    exact derives
  · exact fun rate here _ => .inr ⟨entry, rfl, here⟩
  · intro event member
    obtain ⟨priced, published⟩ := sound.queued event member
    exact ⟨priced, fun positive => .inl (settled _ (published positive))⟩
  · exact sound.written

/-- The queue takes an event with a rate that was published. -/
theorem Sound.enqueue (sound : Sound fp s) {ledger : Ledger cap} {store : State cap}
    (queued : s.ledger.store.enqueue event = (taken, store)) (priced : Priced fp event)
    (published : 0 < rateOf event → Published s (rateOf event)) (moved : ledger.store = store)
    (window : HashrateWindow) :
    Sound fp { s with ledger, window } := by
  obtain ⟨proc, pending, _, _⟩ := enqueue_spec queued
  constructor
  · exact sound.derived
  · exact sound.next
  · exact sound.rate
  · intro other member
    rw [moved, pending] at member
    rcases List.mem_append.mp member with before | new
    · exact sound.queued other before
    · cases taken with
      | true =>
        obtain rfl := List.mem_singleton.mp new
        exact ⟨priced, published⟩
      | false => cases new
  · dsimp only
    rw [moved, proc]
    exact sound.written

/-- A share carries the rate it was credited at, or none. -/
theorem onShareDelta_priced (fp : Fpu) (rate difficulty : ℚ) :
    ((onShareDelta fp true rate difficulty).2 = 0 ∨ 0 < rate ∧
      (onShareDelta fp true rate difficulty).2 = rate) ∧
      (0 < (onShareDelta fp true rate difficulty).2 → (onShareDelta fp true rate difficulty).1 =
        castInteger (fp.round (difficulty * (onShareDelta fp true rate difficulty).2))) := by
  rw [onShareDelta]
  by_cases accrues : (true && decide (0 < rate)) = true
  · rw [if_pos accrues]
    dsimp only
    split_ifs with fits
    · refine ⟨.inr ⟨by simpa using accrues, rfl⟩, fun _ => ?_⟩
      have below : ⌊fp.round (difficulty * rate)⌋ < 2 ^ 63 :=
        Int.floor_lt.mpr (by exact_mod_cast fits.2)
      dsimp only
      rw [castInteger, if_neg (not_lt.mpr fits.1.le), min_eq_right (by omega)]
    · exact ⟨.inl rfl, fun none => absurd none (lt_irrefl 0)⟩
  · rw [if_neg accrues]
    exact ⟨.inl rfl, fun none => absurd none (lt_irrefl 0)⟩

theorem difficulty_nonneg {t : BlockTemplate} (known : t.difficulty fp = some netDiff) :
    0 ≤ netDiff := by
  obtain ⟨target, _, rfl⟩ := Option.map_eq_some_iff.mp known
  rw [Stratum.targetToDiff]
  split_ifs
  · exact le_top
  · exact_mod_cast fp.nonneg _
      (div_nonneg (fp.nonneg _ (by positivity)) (fp.nonneg _ (by positivity)))

theorem Sound.share (sound : Sound fp s) {args : ShareArgs}
    (stepped : s.step fp room commitMax (.share args) = some after) : Sound fp after := by
  rw [Accrual.step] at stepped
  obtain ⟨ledger, recorded, rfl⟩ := Option.map_eq_some_iff.mp stepped
  rw [Ledger.step] at recorded
  obtain ⟨carried, earned⟩ := onShareDelta_priced fp (s.ppsRate.untopD 0) args.difficulty
  cases priced : onShareDelta fp true (s.ppsRate.untopD 0) args.difficulty with
  | mk delta rateUsed =>
    rw [priced] at recorded carried earned
    dsimp only at recorded carried earned
    cases queued : s.ledger.store.enqueue (args.event delta rateUsed) with
    | mk taken store =>
      rw [queued] at recorded
      obtain rfl := Option.some.inj recorded
      refine sound.enqueue queued earned (fun positive => ?_) rfl _
      rcases carried with none | ⟨above, same⟩
      · exact absurd none positive.ne'
      · rw [ShareArgs.event, rateOf, same]
        apply sound.rate _ _ above
        cases rate : s.ppsRate with
        | top =>
          rw [rate] at above
          exact absurd above (lt_irrefl 0)
        | coe rate => rfl

theorem Sound.credit (sound : Sound fp s)
    (stepped : s.step fp room commitMax (.credit callback) = some after) :
    Sound fp after := by
  obtain ⟨ledger, recorded, rfl⟩ := Option.map_eq_some_iff.mp stepped
  rw [Ledger.step] at recorded
  split at recorded
  next m here =>
    obtain rfl := Option.some.inj recorded
    exact sound.enqueue (Prod.mk.eta (p := s.ledger.store.enqueue (.credit m.credit))).symm trivial
      (fun positive => absurd positive (lt_irrefl 0)) rfl s.window
  next => contradiction

/-- What the writer writes of a batch has the property of the table when no share of it waits
for the log. -/
theorem Sound.writes (sound : Sound fp s) (inside : event ∈ s.ledger.store.pending)
    (logged : ∀ entry ∈ s.refreshing, Awaited s entry event) :
    event.Writes fun row => Matches fp row ∧
    (0 < row.rateUsed → Logged s.rateHistory row.rateUsed) := by
  obtain ⟨priced, published⟩ := sound.queued event inside
  cases event with
  | share e =>
    refine fun _ => ⟨priced, fun positive => ?_⟩
    rcases published positive with before | ⟨entry, pending, same⟩
    · exact before
    · exact logged entry pending positive same.symm
  | reject e => trivial
  | block e => trivial
  | credit e => trivial

theorem Sound.store (sound : Sound fp s) {action : Step} (calm : Calm fp s (.store action))
    (stepped : s.step fp room commitMax (.store action) = some after) : Sound fp after := by
  obtain ⟨ledger, recorded, rfl⟩ := Option.map_eq_some_iff.mp stepped
  rw [Ledger.step] at recorded
  split at recorded
  next direct =>
    obtain ⟨store, moved, rfl⟩ := Option.map_eq_some_iff.mp recorded
    by_cases produces : ∃ event, action = .enqueue event
    · obtain ⟨event, rfl⟩ := produces
      obtain rfl := Option.some.inj moved
      have other : Priced fp event ∧ rateOf event = 0 := by
        cases event with
        | share e => contradiction
        | credit e => contradiction
        | reject e => exact ⟨trivial, rfl⟩
        | block e => exact ⟨trivial, rfl⟩
      exact sound.enqueue (Prod.mk.eta (p := s.ledger.store.enqueue event)).symm other.1
        (fun positive => absurd other.2 positive.ne') rfl s.window
    · have fewer := State.step_pending moved fun event same => produces ⟨event, same⟩
      constructor
      · exact sound.derived
      · exact sound.next
      · exact sound.rate
      · exact fun event member => sound.queued event (fewer member)
      · by_cases commits : ∃ attempts, action = .commit attempts
        · obtain ⟨attempts, rfl⟩ := commits
          rw [State.step] at moved
          split at moved
          next batch seqAfter phase =>
            cases done : commitBatch attempts batch storeCommitAttempts s.ledger.store.proc with
            | mk landed proc =>
              rw [done] at moved
              obtain rfl := Option.some.inj moved
              have flying : s.ledger.store.inFlight = batch := by rw [State.inFlight, phase]
              refine commitBatch_sharesAll sound.written (fun event member => ?_) done
              rw [← flying] at member
              exact sound.writes (List.mem_append_left _ member) fun entry pending =>
                calm entry pending event member
          next => contradiction
        · dsimp only
          rw [State.step_proc moved fun attempts same => commits ⟨attempts, same⟩]
          exact sound.written
  next => contradiction

theorem Sound.step (ieee : fp.Ieee) (sound : Sound fp s) {action : AccrualStep}
    (calm : Calm fp s action)
    (stepped : s.step fp room commitMax action = some after) : Sound fp after := by
  cases action with
  | start cfg =>
    obtain rfl := Option.some.inj stepped
    exact sound_boot room cfg sound.derived sound.written.committed
  | refresh t nowMs =>
    rw [Accrual.step] at stepped
    split at stepped
    next netDiff idle known =>
      obtain rfl := Option.some.inj stepped
      exact sound.refresh idle
        ((derives_iff_unmoved ieee (difficulty_nonneg known)).mpr (calm netDiff known)) _
    next => contradiction
  | record last insert nowS =>
    obtain ⟨entry, refreshing, rfl⟩ := Option.map_eq_some_iff.mp stepped
    obtain rfl : insert = .served := calm
    exact sound.record refreshing last nowS
  | share args => exact sound.share stepped
  | credit callback => exact sound.credit stepped
  | store action => exact sound.store calm stepped

end Steps

/-- A run in which nothing moves a rate off the fair value of its template, the log takes every
row and the writer has no share at a rate that is still to be logged: the audit has nothing to
report in any state of it. -/
theorem rate_audit_silent (fp : Fpu) (ieee : fp.Ieee) (positive : 0 < cap) (commitMax : Nat)
    (cfg : PpsConfig) (steps : List AccrualStep)
    (calm : Along (Accrual.step fp positive commitMax) (fun s step _ => Calm fp s step)
      (.boot positive cfg .empty []) steps) :
    Along (Accrual.step fp positive commitMax) (fun _ _ s => NoFalseAlarm fp s)
      (.boot positive cfg .empty []) steps := by
  have fresh : Sound fp (Accrual.boot positive cfg .empty []) := by
    refine sound_boot positive cfg (List.forall_mem_nil _) fun row member => ?_
    cases member
  apply Along.of_invariant _ fresh calm
  intro s step after sound calm stepped
  have next := sound.step ieee calm stepped
  exact ⟨next, next.silent⟩

/-- A template worth so many satoshis. -/
def rateTemplate (valueSats : Int) : BlockTemplate :=
  ⟨10, [], valueSats, [], 0x1d00ffff, 0, 0, none, none, none, []⟩

def rateCfg : PpsConfig where
  feeBps := .onePercent
  ppsSatsPerDiff := 0
  ppsMinNetworkDifficulty := 0
  blockIntervalSec := 600
  override_nonneg := le_rfl
  floor_nonneg := le_rfl
  interval_pos := by decide

/-- A share of difficulty 5 in the twentieth second. -/
def fifthShare : ShareArgs := ⟨[97], [98], 20000, 5, false, []⟩

def landed : List AccrualStep :=
  [.store .drain, .store (.commit fun _ => .answered .served .served), .store .publish]

/-- A share is accepted between two templates. -/
def sharePriced : List AccrualStep :=
  [.refresh (rateTemplate 100) 1000, .record .served .served 10, .share fifthShare, .credit 0] ++
    landed ++ [.refresh (rateTemplate 200) 31000, .record .served .served 40]

theorem rate_audit_silent_priced :
    ((run (Accrual.step .exact Nat.two_pos 100) (.boot Nat.two_pos rateCfg .empty [])
      sharePriced).map fun s =>
      (s.ledger.store.proc.session.committed.shares.map ShareRow.creditedSats,
        s.rateHistory.map fun row => row.entry.rateSatsPerDiff)) =
        some ([495], [99, 198]) ∧
    Along (Accrual.step .exact Nat.two_pos 100) (fun _ _ s => NoFalseAlarm .exact s)
      (.boot Nat.two_pos rateCfg .empty []) sharePriced :=
  ⟨by decide +kernel, rate_audit_silent .exact .exact Nat.two_pos 100 rateCfg sharePriced
    (by decide +kernel)⟩

theorem not_silent {fp : Fpu} {step : Accrual cap → AccrualStep → Option (Accrual cap)}
    {s : Accrual cap}
    (alarm : ¬Along step (fun _ _ s =>
      (rateVerification fp s.ledger.store.proc.session.committed s.rateHistory none).ok =
        true) s steps) :
    ¬Along step (fun _ _ s => NoFalseAlarm fp s) s steps :=
  fun along => alarm (along.imp fun _ _ _ _ silent => silent none)

/-- The floor that the documentation has for 40 TH/s. -/
def flooredCfg : PpsConfig :=
  { rateCfg with ppsMinNetworkDifficulty := (5600000 : ℚ), floor_nonneg := by decide +kernel }

/-- Half a satoshi for a unit of difficulty. -/
def overriddenCfg : PpsConfig :=
  { rateCfg with ppsSatsPerDiff := (1 / 2 : ℚ), override_nonneg := by decide +kernel }

def oneTemplate : List AccrualStep := [.refresh (rateTemplate 100) 1000, .record .served .served 10]

/-- A minute at more than the chain can pay for. -/
def busyMinute : List AccrualStep :=
  oneTemplate ++ [.share ⟨[97], [98], 20000, 6000, false, []⟩, .refresh (rateTemplate 100) 61000,
    .record .served .served 70]

/-- The writer is through with a share before the rate of its template is logged. -/
def loggedLate : List AccrualStep :=
  oneTemplate ++ [.refresh (rateTemplate 200) 11000, .share fifthShare, .credit 0] ++ landed

/-- Below the floor, under an override, and at the ceiling the audit calls the logged rate
inconsistent; before the log has caught up it calls a share's rate unpublished. -/
theorem rate_audit_alarms :
    ¬Along (Accrual.step .exact Nat.two_pos 100) (fun _ _ s => NoFalseAlarm .exact s)
      (.boot Nat.two_pos flooredCfg .empty []) oneTemplate ∧
    ¬Along (Accrual.step .exact Nat.two_pos 100) (fun _ _ s => NoFalseAlarm .exact s)
      (.boot Nat.two_pos overriddenCfg .empty []) oneTemplate ∧
    ¬Along (Accrual.step .exact Nat.two_pos 100) (fun _ _ s => NoFalseAlarm .exact s)
      (.boot Nat.two_pos rateCfg .empty []) busyMinute ∧
    ¬Along (Accrual.step .exact Nat.two_pos 100) (fun _ _ s => NoFalseAlarm .exact s)
      (.boot Nat.two_pos rateCfg .empty []) loggedLate := by
  refine ⟨not_silent ?_, not_silent ?_, not_silent ?_, not_silent ?_⟩ <;> decide +kernel

end SimplePool.Dashboard
