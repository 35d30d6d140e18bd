import SimplePool.Main.TipWatcher
import SimplePool.Store.PpsLedger

/-! What a share is worth in pps-classic mode. A template gives a rate, unless the operator sets
one; a floor and a ceiling may move it; it is published for the callbacks first and logged after.
Shares are recorded by other threads meanwhile. -/
namespace SimplePool.Main
open Wire Transition
open Stratum (Fpu)
open Coinbase (FeeBps)
open Store (Outcome)
open Store.Writer (Ledger ShareArgs Tables Step)

/-- The configuration that the rate depends on. A zero override is none, and a zero floor too. -/
structure PpsConfig where
  feeBps : FeeBps
  ppsSatsPerDiff : WithTop ℚ
  ppsMinNetworkDifficulty : WithTop ℚ
  blockIntervalSec : Int
  override_nonneg : 0 ≤ ppsSatsPerDiff
  floor_nonneg : 0 ≤ ppsMinNetworkDifficulty
  interval_pos : 0 < blockIntervalSec

section Rates

variable (fp : Fpu)

/-- `1.0 - fee_bps / 10000.0`. -/
def netOfFee (feeBps : FeeBps) : ℚ := fp.round (1 - fp.round (fp.round feeBps.bps / 10000))

def ppsRateFromTemplate (valueSats : Int) (netDiff : WithTop ℚ) (feeBps : FeeBps) : ℚ :=
  match netDiff with
  | none => 0
  | some netDiff =>
    if valueSats ≤ 0 ∨ netDiff ≤ 0 ∨ 10000 ≤ feeBps.bps then 0
    else
      let gross := fp.round (fp.round valueSats / netDiff)
      let net := fp.round (gross * netOfFee fp feeBps)
      if 0 < net then net else 0

def issuanceCeiling (valueSats : Int) (diffPerSec : ℚ) (blockIntervalSec : Int) : ℚ :=
  fp.round (fp.round (fp.round valueSats / fp.round blockIntervalSec) / diffPerSec)

/-- An infinite rate is left alone. -/
def ppsRateApplyIssuanceCeiling (rate : WithTop ℚ) (valueSats : Int) (diffPerSec : ℚ)
    (blockIntervalSec : Int) : WithTop ℚ :=
  match rate with
  | none => ⊤
  | some rate =>
    if rate ≤ 0 ∨ valueSats ≤ 0 ∨ diffPerSec ≤ 0 ∨ blockIntervalSec ≤ 0 then rate
    else
      let ceiling := issuanceCeiling fp valueSats diffPerSec blockIntervalSec
      if ceiling < 0 then rate
      else if rate < ceiling then rate
      else ceiling

/-- The override as it is, or else what the template gives. -/
def effectivePpsRate (cfg : PpsConfig) (valueSats : Int) (netDiff : WithTop ℚ) : WithTop ℚ :=
  if 0 < cfg.ppsSatsPerDiff then
    cfg.ppsSatsPerDiff
  else ppsRateFromTemplate fp valueSats netDiff cfg.feeBps

/-- The difficulty of the shares since the window was opened, and the last measurement. -/
structure HashrateWindow where
  accum : ℚ
  openedMs : UInt64
  perSec : ℚ

def hashrateWindowMs : UInt64 := 60000

/-- `observed_diff_per_sec`. -/
def HashrateWindow.observed (w : HashrateWindow) (nowMs : UInt64) : ℚ × HashrateWindow :=
  if w.openedMs = 0 then (0, { w with openedMs := nowMs })
  else if hashrateWindowMs ≤ nowMs - w.openedMs then
    let secs := fp.round (fp.round (nowMs - w.openedMs).toNat / 1000)
    let perSec := if 0 < secs then fp.round (w.accum / secs) else w.perSec
    (perSec, ⟨0, nowMs, perSec⟩)
  else (w.perSec, w)

def HashrateWindow.add (w : HashrateWindow) (difficulty : ℚ) : HashrateWindow :=
  { w with accum := fp.round (w.accum + difficulty) }

inductive RateSource where
  | derived | override
deriving DecidableEq

/-- What a row of `rate_history` says, but for its time. -/
structure RateEntry where
  rateSatsPerDiff : WithTop ℚ
  grossSatsPerDiff : ℚ
  feeBps : FeeBps
  networkDifficulty : WithTop ℚ
  blockValueSats : Int
  rateSource : RateSource
deriving DecidableEq

structure RateRow where
  entry : RateEntry
  ts : UInt64
deriving DecidableEq

/-- A row is added when something moved since the newest one, or when that cannot be read. -/
def storeRecordRate (last insert : Outcome) (entry : RateEntry) (tsS : UInt64)
    (rows : List RateRow) : List RateRow :=
  if last = .served ∧ rows.getLast?.map RateRow.entry = some entry then rows
  else if insert = .served then rows ++ [⟨entry, tsS⟩]
  else rows

/-- Below the floor nothing accrues. -/
def PpsConfig.Gates (cfg : PpsConfig) (netDiff : WithTop ℚ) : Prop :=
  0 < cfg.ppsMinNetworkDifficulty ∧ 0 < netDiff ∧ netDiff < cfg.ppsMinNetworkDifficulty

instance (cfg : PpsConfig) (netDiff : WithTop ℚ) : Decidable (cfg.Gates netDiff) :=
  inferInstanceAs (Decidable (_ ∧ _))

def publishedRate (cfg : PpsConfig) (valueSats : Int) (netDiff : WithTop ℚ) (diffPerSec : ℚ) :
    WithTop ℚ :=
  if cfg.Gates netDiff then 0
  else ppsRateApplyIssuanceCeiling fp (effectivePpsRate fp cfg valueSats netDiff) valueSats
    diffPerSec cfg.blockIntervalSec

def rateEntry (cfg : PpsConfig) (valueSats : Int) (netDiff : WithTop ℚ) (diffPerSec : ℚ) :
    RateEntry where
  rateSatsPerDiff := publishedRate fp cfg valueSats netDiff diffPerSec
  grossSatsPerDiff :=
    match netDiff with
    | none => 0
    | some netDiff =>
      if 0 < valueSats ∧ 0 < netDiff then fp.round (fp.round valueSats / netDiff) else 0
  feeBps := cfg.feeBps
  networkDifficulty := netDiff
  blockValueSats := valueSats
  rateSource := if 0 < cfg.ppsSatsPerDiff then .override else .derived

/-- A process over its store. `refreshing` is a rate that is published and not logged yet. -/
structure Accrual (cap : Nat) where
  cfg : PpsConfig
  ledger : Ledger cap
  rateHistory : List RateRow
  ppsRate : WithTop ℚ
  window : HashrateWindow
  refreshing : Option RateEntry

def Accrual.boot (positive : 0 < cap) (cfg : PpsConfig) (tables : Tables)
    (rateHistory : List RateRow) : Accrual cap :=
  ⟨cfg, .open positive tables, rateHistory, 0, ⟨0, 0, 0⟩, none⟩

inductive AccrualStep where
  /-- A new process, on what is durable. -/
  | start (cfg : PpsConfig)
  /-- A template comes in and its rate is published. -/
  | refresh (t : BlockTemplate) (nowMs : UInt64)
  /-- Its rate is logged. A row that goes into a transaction of the writer is lost with it. -/
  | record (last insert : Outcome) (nowS : UInt64)
  | share (args : ShareArgs)
  | credit (callback : Nat)
  | store (action : Step)

/-- A share at an infinite rate is worth nothing. -/
def Accrual.step (positive : 0 < cap) (commitMax : Nat) (s : Accrual cap) :
    AccrualStep → Option (Accrual cap)
  | .start cfg => some (.boot positive cfg s.ledger.store.proc.session.committed s.rateHistory)
  | .refresh t nowMs =>
    match s.refreshing, t.difficulty fp with
    | none, some netDiff =>
      let (diffPerSec, window) := s.window.observed fp nowMs
      let entry := rateEntry fp s.cfg t.coinbaseValueSats netDiff diffPerSec
      some { s with window, ppsRate := entry.rateSatsPerDiff, refreshing := some entry }
    | _, _ => none
  | .record last insert nowS =>
    s.refreshing.map fun entry =>
      { s with
        rateHistory := storeRecordRate last insert entry nowS s.rateHistory, refreshing := none }
  | .share args =>
    (s.ledger.step fp true commitMax (.share args (s.ppsRate.untopD 0))).map fun ledger =>
      { s with ledger, window := s.window.add fp args.difficulty }
  | .credit callback =>
    (s.ledger.step fp true commitMax (.credit callback)).map fun ledger => { s with ledger }
  | .store action =>
    (s.ledger.step fp true commitMax (.store action)).map fun ledger => { s with ledger }

end Rates

end SimplePool.Main
