import Mathlib.Data.Finset.Card
import Mathlib.Data.Finset.Range
import SimplePool.Stratum.AuthLimiter
import SimplePool.Stratum.Server

/-! Authorize attempts of many connections, in any order of their critical sections. What
the table says of an address is compared with what was recorded about its attempts. -/
namespace SimplePool.Stratum
open Transition Wire Coinbase

/-- Where a connection is in its mining.authorize. Between the gate's clock read and its
section the value that was read is all it holds. -/
inductive AuthPhase where
  | idle
  | gating (ip : Bytes) (mono : UInt64)
  | passed (ip : Bytes)
deriving DecidableEq

/-- A finished attempt. -/
structure Tried where
  ip : Bytes
  mono : UInt64
  failed : Bool
deriving DecidableEq

/-- The window the limiter opened last for an address, and the failures since. -/
structure FailWindow where
  start : UInt64
  failures : Nat
deriving DecidableEq

/-- The shared table, the monotonic clock, the connections, and beside them the record that
no code keeps: the attempts, newest first, and the window of each address. -/
structure Limiter where
  table : AuthTable
  clock : UInt64
  phase : Nat → AuthPhase
  tried : List Tried
  window : Bytes → Option FailWindow

def Limiter.start : Limiter := ⟨fun _ => ⟨[], 0, 0, false⟩, 0, fun _ => .idle, [], fun _ => none⟩

inductive AuthEvent where
  | tick (mono : UInt64)
  | call (i : Nat) (ip : Bytes)
  | gate (i : Nat)
  | fail (i : Nat)
  | succeed (i : Nat)
  /-- The request is answered without a verdict on it. -/
  | leave (i : Nat)
deriving DecidableEq

def holdsEntry (table : AuthTable) (ip : Bytes) : Bool :=
  (probeRun ip).any fun i => (table i).ip = ip

/-- An attempt that finds the window over starts it anew, where there still is an entry. -/
def FailWindow.atGate (lockout : UInt64) (held : Bool) (mono : UInt64) (w : FailWindow) :
    Option FailWindow :=
  if w.start.toNat + lockout.toNat ≤ mono.toNat then
    (if held then some ⟨mono, 0⟩ else none)
  else some w

/-- A failure counts in the window that is open, or opens one. -/
def failWindow (lockout mono : UInt64) : Option FailWindow → FailWindow
  | some w =>
    if mono.toNat < w.start.toNat + lockout.toNat then ⟨w.start, w.failures + 1⟩ else ⟨mono, 1⟩
  | none => ⟨mono, 1⟩

/-- The clock is read where the gate is called, and inside the sections of a failure and of a
success. There are `connections` of them at a time. -/
def Limiter.step (cfg : Cfg) (connections : Nat) (p : Limiter) : AuthEvent → Option Limiter
  | .tick mono => if p.clock ≤ mono then some { p with clock := mono } else none
  | .call i ip =>
    if i < connections ∧ p.phase i = .idle ∧ ip ≠ [] ∧ ip.length < peerIpCap then
      some { p with phase := Function.update p.phase i (.gating ip p.clock) }
    else none
  | .gate i =>
    match p.phase i with
    | .gating ip mono =>
      let (table, refused) := gateSection cfg p.table ip mono
      some { p with
        table := table
        phase := Function.update p.phase i (if refused then .idle else .passed ip)
        window := Function.update p.window ip
          ((p.window ip).bind (FailWindow.atGate (lockoutMs cfg) (holdsEntry p.table ip) mono)) }
    | _ => none
  | .fail i =>
    match p.phase i with
    | .passed ip =>
      some { p with
        table := failureSection cfg p.table ip p.clock
        phase := Function.update p.phase i .idle
        tried := ⟨ip, p.clock, true⟩ :: p.tried
        window :=
          Function.update p.window ip (some (failWindow (lockoutMs cfg) p.clock (p.window ip))) }
    | _ => none
  | .succeed i =>
    match p.phase i with
    | .passed ip =>
      some { p with
        table := successSection cfg p.table ip p.clock
        phase := Function.update p.phase i .idle
        tried := ⟨ip, p.clock, false⟩ :: p.tried
        window := Function.update p.window ip none }
    | _ => none
  | .leave i =>
    match p.phase i with
    | .passed _ => some { p with phase := Function.update p.phase i .idle }
    | _ => none

/-- The times of its failures since its last success. -/
def failuresOf (ip : Bytes) : List Tried → List UInt64
  | [] => []
  | t :: rest =>
    if t.ip = ip then
      (if t.failed then t.mono :: failuresOf ip rest else [])
    else failuresOf ip rest

/-- How many of them fall in a lockout period. -/
def failuresWithin (lockout start : UInt64) (ip : Bytes) (tried : List Tried) : Nat :=
  (failuresOf ip tried).countP fun t => start ≤ t ∧ t.toNat < start.toNat + lockout.toNat

/-- No address has two entries. -/
def OneEntryEach (table : AuthTable) : Prop :=
  ∀ i < authFailSlots, ∀ j < authFailSlots, (table i).ip ≠ [] → (table i).ip = (table j).ip → i = j

/-- Who is refused has failed often enough in a lockout period that is not over for the attempt,
and did not succeed since. -/
def RefusedEarned (cfg : Cfg) (p : Limiter) (event : AuthEvent) : Prop :=
  ∀ i ip mono, event = .gate i → p.phase i = .gating ip mono →
    (gateSection cfg p.table ip mono).2 = true →
    ∃ start : UInt64, mono.toNat < start.toNat + (lockoutMs cfg).toNat ∧
      cfg.authMaxFailures ≤ failuresWithin (lockoutMs cfg) start ip p.tried

/-- Who has failed often enough in its window is refused until the window is over. -/
def EarnedRefused (cfg : Cfg) (p : Limiter) (event : AuthEvent) : Prop :=
  ∀ i ip mono w, event = .gate i → p.phase i = .gating ip mono → p.window ip = some w →
    p.clock.toNat < w.start.toNat + (lockoutMs cfg).toNat → cfg.authMaxFailures ≤ w.failures →
    (gateSection cfg p.table ip mono).2 = true

/-- The other addresses that hold a slot of the run in a window of their own. -/
def rivals (cfg : Cfg) (table : AuthTable) (ip : Bytes) (mono : UInt64) : List Bytes :=
  ((probeRun ip).filter fun i => !slotFree table (lockoutMs cfg) mono i && (table i).ip ≠ ip).map
    fun i => (table i).ip

/-- With the address that fails, there are no more of them than slots in its run. -/
def Roomy (cfg : Cfg) (p : Limiter) (event : AuthEvent) : Prop :=
  ∀ i ip, event = .fail i → p.phase i = .passed ip → (rivals cfg p.table ip p.clock).length + 1 ≤
    authFailProbe

/-- The gate's clock value is no older than the window that the address has in the table. -/
def GateFresh (p : Limiter) (event : AuthEvent) : Prop :=
  ∀ i ip mono, event = .gate i → p.phase i = .gating ip mono →
    ∀ k < authFailSlots, (p.table k).ip = ip → (p.table k).windowStartMono ≤ mono

theorem expired_iff {e : AuthFailEntry} (started : e.windowStartMono ≤ mono) :
    e.expired lockout mono ↔ e.windowStartMono.toNat + lockout.toNat ≤ mono.toNat := by
  have elapsed : (mono - e.windowStartMono).toNat = mono.toNat - e.windowStartMono.toNat :=
    UInt64.toNat_sub_of_le _ _ started
  have le := UInt64.le_iff_toNat_le.mp started
  rw [AuthFailEntry.expired, UInt64.le_iff_toNat_le, elapsed]
  omega

/-- A clock value from before the window is in any case not past it. -/
theorem lt_of_not_expired {e : AuthFailEntry} (current : ¬e.expired lockout mono) :
    mono.toNat < e.windowStartMono.toNat + lockout.toNat := by
  by_cases started : e.windowStartMono ≤ mono
  · exact not_le.mp (current ∘ (expired_iff started).mpr)
  · have earlier := UInt64.lt_iff_toNat_lt.mp (UInt64.not_le.mp started)
    omega

theorem failuresWithin_failed (lockout start : UInt64) (ip : Bytes) (mono : UInt64)
    (tried : List Tried) :
    failuresWithin lockout start ip (⟨ip, mono, true⟩ :: tried) =
      failuresWithin lockout start ip tried +
      if start ≤ mono ∧ mono.toNat < start.toNat + lockout.toNat then 1 else 0 := by
  simp only [failuresWithin, failuresOf, if_true, List.countP_cons, decide_eq_true_eq]

theorem failuresWithin_other {t : Tried} (other : t.ip ≠ ip) (lockout start : UInt64)
    (tried : List Tried) :
    failuresWithin lockout start ip (t :: tried) = failuresWithin lockout start ip tried := by
  rw [failuresWithin, failuresOf, if_neg other, failuresWithin]

/-- An entry counts no more failures than there were in its window. -/
def EarnedTable (lockout : UInt64) (tried : List Tried) (table : AuthTable) : Prop :=
  ∀ i < authFailSlots, (table i).ip ≠ [] →
    (table i).fails.toNat ≤ failuresWithin lockout (table i).windowStartMono (table i).ip tried

theorem EarnedTable.write {tried' : List Tried} (earned : EarnedTable lockout tried table)
    (e : AuthFailEntry)
    (fresh : e.ip ≠ [] → e.fails.toNat ≤ failuresWithin lockout e.windowStartMono e.ip tried')
    (others : ∀ j < authFailSlots, j ≠ i → (table j).ip ≠ [] → ∀ start,
      failuresWithin lockout start (table j).ip tried ≤ failuresWithin lockout start
      (table j).ip tried') :
    EarnedTable lockout tried' (Function.update table i e) := by
  intro j range real
  rw [Function.update_apply] at real ⊢
  split_ifs at real ⊢ with here
  · exact fresh real
  · exact (earned j range real).trans (others j range here real _)

/-- A failure takes nothing from anybody's record. -/
theorem failuresWithin_mono (lockout start : UInt64) (ip ip' : Bytes) (mono : UInt64)
    (tried : List Tried) :
    failuresWithin lockout start ip' tried ≤
      failuresWithin lockout start ip' (⟨ip, mono, true⟩ :: tried) := by
  by_cases same : ip = ip'
  · rw [same, failuresWithin_failed]
    exact Nat.le_add_right ..
  · rw [failuresWithin_other same]

section Sections

variable {cfg : Cfg} {clock mono : UInt64} {table after : AuthTable} {tried : List Tried}
  {ip : Bytes}

theorem Gated.earned (gated : Gated cfg table ip mono (after, verdict))
    (earned : EarnedTable (lockoutMs cfg) tried table) :
    EarnedTable (lockoutMs cfg) tried after := by
  cases gated with
  | absent none => exact earned
  | waits i inside held current few => exact earned
  | refused i inside held current many =>
    exact earned.write _ (earned i (probeRun_lt inside)) fun _ _ _ _ _ => le_rfl
  | renewed i inside held past =>
    exact earned.write _ (fun _ => Nat.zero_le _) fun _ _ _ _ _ => le_rfl

theorem Failed.earned (failed : Failed cfg table ip mono after) (sound : SoundTable mono table)
    (earned : EarnedTable (lockoutMs cfg) tried table) (real : 0 < lockoutMs cfg) :
    EarnedTable (lockoutMs cfg) (⟨ip, mono, true⟩ :: tried) after := by
  cases failed with
  | counted i inside held current =>
    have range := probeRun_lt inside
    have within := lt_of_not_expired current
    have started := sound.started i range held.1
    refine earned.write _ ?_ fun j _ _ _ start => failuresWithin_mono _ _ _ _ _ _
    intro _
    have before := earned i range held.1
    dsimp only
    rw [held.2] at before ⊢
    rw [failuresWithin_failed, if_pos ⟨started, within⟩]
    have step : ((table i).fails + 1).toNat ≤ (table i).fails.toNat + 1 := by
      rw [UInt32.toNat_add]
      exact Nat.mod_le ..
    exact step.trans (Nat.add_le_add_right before 1)
  | opened i inside past free =>
    refine earned.write _ ?_ fun j _ _ _ start => failuresWithin_mono _ _ _ _ _ _
    intro _
    dsimp only
    have positive := UInt64.lt_iff_toNat_lt.mp real
    rw [failuresWithin_failed, if_pos ⟨UInt64.le_refl mono, Nat.lt_add_of_pos_right positive⟩]
    exact Nat.le_add_left ..

theorem Forgiven.earned (forgiven : Forgiven table ip mono after) (sound : SoundTable mono table)
    (earned : EarnedTable lockout tried table) :
    EarnedTable lockout (⟨ip, mono, false⟩ :: tried) after := by
  cases forgiven with
  | absent none =>
    intro i range real
    rw [failuresWithin_other]
    · exact earned i range real
    · rintro same
      exact sound.absent none i range ⟨real, same.symm⟩
  | erased i inside held e blank start =>
    refine earned.write _ (fun real => absurd blank real) ?_
    intro j range other real start
    rw [failuresWithin_other]
    rintro same
    exact other (sound.held_unique (probeRun_lt inside) held range ⟨real, same.symm⟩)

theorem Gated.sound (gated : Gated cfg table ip mono (after, verdict))
    (sound : SoundTable clock table) (read : mono ≤ clock) :
    SoundTable clock after := by
  cases gated with
  | absent none => exact sound
  | waits i inside held current few => exact sound
  | refused i inside held current many =>
    exact sound.write inside (fun _ range there =>
      sound.held_unique (probeRun_lt inside) held range there) _ (.inl held.2)
      (sound.started i (probeRun_lt inside) held.1)
  | renewed i inside held past =>
    exact sound.write inside (fun _ range there =>
      sound.held_unique (probeRun_lt inside) held range there) _ (.inl rfl) read

theorem Failed.sound (failed : Failed cfg table ip clock after) (sound : SoundTable clock table) :
    SoundTable clock after := by
  cases failed with
  | counted i inside held current =>
    exact sound.write inside (fun _ range there =>
      sound.held_unique (probeRun_lt inside) held range there) _ (.inl held.2)
      (sound.started i (probeRun_lt inside) held.1)
  | opened i inside past free =>
    exact sound.write inside (fun j range there => (past j range there).1) _ (.inl rfl)
      (UInt64.le_refl _)

theorem Forgiven.sound (forgiven : Forgiven table ip clock after) (sound : SoundTable clock table) :
    SoundTable clock after := by
  cases forgiven with
  | absent none => exact sound
  | erased i inside held e blank start =>
    refine sound.write inside (fun _ range there =>
      sound.held_unique (probeRun_lt inside) held range there) _ (.inr blank) ?_
    rcases start with same | same <;> rw [same]
    · exact sound.started i (probeRun_lt inside) held.1
    · exact UInt64.le_refl _

end Sections

/-- The table is in order, no connection holds a clock value from the future, and no entry
counts more than was recorded. -/
structure Limiter.Ordered (cfg : Cfg) (connections : Nat) (p : Limiter) : Prop where
  sound : SoundTable p.clock p.table
  gating : ∀ i ip mono, p.phase i = .gating ip mono → i < connections ∧ ip ≠ [] ∧
  ip.length < peerIpCap ∧ mono ≤ p.clock
  passed : ∀ i ip, p.phase i = .passed ip → i < connections ∧ ip ≠ [] ∧ ip.length < peerIpCap
  earned : 0 < lockoutMs cfg → EarnedTable (lockoutMs cfg) p.tried p.table

theorem Limiter.start_ordered (cfg : Cfg) (connections : Nat) :
    Limiter.start.Ordered cfg connections where
  sound := ⟨fun _ _ real => absurd rfl real, fun _ _ _ _ real => absurd rfl real,
    fun _ _ real => absurd rfl real⟩
  gating _ _ _ there := nomatch there
  passed _ _ there := nomatch there
  earned _ _ _ real := absurd rfl real

theorem phase_update {phase : Nat → AuthPhase} (there : Function.update phase i new j = old) :
    (j = i ∧ new = old) ∨ (j ≠ i ∧ phase j = old) := by
  rw [Function.update_apply] at there
  split_ifs at there with same
  · exact .inl ⟨same, there⟩
  · exact .inr ⟨same, there⟩

section Interleaving

variable {cfg : Cfg} {connections : Nat} {p after : Limiter} {event : AuthEvent}

/-- A connection that is done with its attempt, or past the gate, waits for no section. -/
theorem Limiter.Ordered.gating_update (ordered : p.Ordered cfg connections)
    (waits : ∀ ip mono, new ≠ .gating ip mono) :
    ∀ j ip mono, Function.update p.phase i new j = .gating ip mono →
      j < connections ∧ ip ≠ [] ∧ ip.length < peerIpCap ∧ mono ≤ p.clock := by
  intro j ip mono there
  rcases phase_update there with ⟨_, same⟩ | ⟨_, old⟩
  · exact absurd same (waits ip mono)
  · exact ordered.gating j ip mono old

theorem Limiter.Ordered.passed_update (ordered : p.Ordered cfg connections)
    (known : ∀ ip, new = .passed ip → i < connections ∧ ip ≠ [] ∧ ip.length < peerIpCap) :
    ∀ j ip, Function.update p.phase i new j = .passed ip → j < connections ∧ ip ≠ [] ∧
    ip.length < peerIpCap := by
  intro j ip there
  rcases phase_update there with ⟨rfl, same⟩ | ⟨_, old⟩
  · exact known ip same
  · exact ordered.passed j ip old

theorem Limiter.Ordered.step (enabled : 0 < cfg.authMaxFailures)
    (ordered : p.Ordered cfg connections)
    (stepped : p.step cfg connections event = some after) : after.Ordered cfg connections := by
  cases event with
  | tick mono =>
    rw [Limiter.step] at stepped
    split_ifs at stepped with later
    obtain rfl := Option.some.inj stepped
    have started := fun i range real => UInt64.le_trans (ordered.sound.started i range real) later
    refine ⟨⟨ordered.sound.placed, ordered.sound.unique, started⟩, ?_, ordered.passed,
      ordered.earned⟩
    intro i ip mono' there
    obtain ⟨range, real, fits, read⟩ := ordered.gating i ip mono' there
    exact ⟨range, real, fits, UInt64.le_trans read later⟩
  | call i ip =>
    rw [Limiter.step] at stepped
    split_ifs at stepped with admitted
    obtain rfl := Option.some.inj stepped
    obtain ⟨range, _, real, fits⟩ := admitted
    refine ⟨ordered.sound, ?_, ordered.passed_update (by simp), ordered.earned⟩
    intro j ip' mono there
    rcases phase_update there with ⟨rfl, same⟩ | ⟨_, old⟩
    · obtain ⟨rfl, rfl⟩ := AuthPhase.gating.inj same
      exact ⟨range, real, fits, UInt64.le_refl _⟩
    · exact ordered.gating j ip' mono old
  | gate i =>
    rw [Limiter.step] at stepped
    split at stepped
    next ip mono here =>
      obtain ⟨range, real, fits, read⟩ := ordered.gating i ip mono here
      have gated : Gated cfg p.table ip mono (gateSection cfg p.table ip mono) :=
        gateSection_spec enabled fits
      generalize gateSection cfg p.table ip mono = out at gated stepped
      obtain ⟨table, refused⟩ := out
      obtain rfl := Option.some.inj stepped
      refine ⟨gated.sound ordered.sound read, ordered.gating_update (by cases refused <;> simp),
        ordered.passed_update ?_, fun given => gated.earned (ordered.earned given)⟩
      intro ip' same
      cases refused with
      | true => contradiction
      | false =>
        obtain rfl := AuthPhase.passed.inj same
        exact ⟨range, real, fits⟩
    next => contradiction
  | fail i =>
    rw [Limiter.step] at stepped
    split at stepped
    next ip here =>
      obtain rfl := Option.some.inj stepped
      obtain ⟨range, real, fits⟩ := ordered.passed i ip here
      have failed : Failed cfg p.table ip p.clock (failureSection cfg p.table ip p.clock) :=
        failureSection_spec ordered.sound fits
      exact ⟨failed.sound ordered.sound, ordered.gating_update (by simp),
        ordered.passed_update (by simp),
        fun given => failed.earned ordered.sound (ordered.earned given) given⟩
    next => contradiction
  | succeed i =>
    rw [Limiter.step] at stepped
    split at stepped
    next ip here =>
      obtain rfl := Option.some.inj stepped
      obtain ⟨range, real, fits⟩ := ordered.passed i ip here
      have forgiven : Forgiven p.table ip p.clock (successSection cfg p.table ip p.clock) :=
        successSection_spec fits
      exact ⟨forgiven.sound ordered.sound, ordered.gating_update (by simp),
        ordered.passed_update (by simp),
        fun given => forgiven.earned ordered.sound (ordered.earned given)⟩
    next => contradiction
  | leave i =>
    rw [Limiter.step] at stepped
    split at stepped
    next ip here =>
      obtain rfl := Option.some.inj stepped
      exact ⟨ordered.sound, ordered.gating_update (by simp), ordered.passed_update (by simp),
        ordered.earned⟩
    next => contradiction

/-- What the gate refuses was earned. -/
theorem Limiter.Ordered.refusedEarned (enabled : 0 < cfg.authMaxFailures)
    (ordered : p.Ordered cfg connections) :
    RefusedEarned cfg p event := by
  rintro i ip mono rfl here verdict
  obtain ⟨range, real, fits, read⟩ := ordered.gating i ip mono here
  have gated : Gated cfg p.table ip mono (gateSection cfg p.table ip mono) :=
    gateSection_spec enabled fits
  generalize gateSection cfg p.table ip mono = out at gated verdict
  cases gated with
  | absent none => contradiction
  | waits k inside held current few => contradiction
  | renewed k inside held past => contradiction
  | refused k inside held current many =>
    have within := lt_of_not_expired current
    have given : 0 < lockoutMs cfg := by
      by_contra none
      refine current ?_
      rw [AuthFailEntry.expired]
      exact UInt64.le_trans (UInt64.not_lt.mp none) UInt64.zero_le
    have counted := ordered.earned given k (probeRun_lt inside) held.1
    rw [held.2] at counted
    exact ⟨_, within, many.trans (by exact_mod_cast counted)⟩

end Interleaving

/-- The attempts of an address that may still fail. -/
def inFlight (connections : Nat) (phase : Nat → AuthPhase) (ip : Bytes) : Nat :=
  ((Finset.range connections).filter fun i => phase i = .passed ip).card

theorem inFlight_le (connections : Nat) (phase : Nat → AuthPhase) (ip : Bytes) :
    inFlight connections phase ip ≤ connections :=
  (Finset.card_filter_le ..).trans (Finset.card_range connections).le

theorem inFlight_update_le (connections : Nat) (phase : Nat → AuthPhase) (i : Nat)
    (other : new ≠ .passed ip) :
    inFlight connections (Function.update phase i new) ip ≤ inFlight connections phase ip := by
  refine Finset.card_le_card ?_
  intro j member
  obtain ⟨inside, there⟩ := Finset.mem_filter.mp member
  rcases phase_update there with ⟨_, same⟩ | ⟨_, old⟩
  · exact absurd same other
  · exact Finset.mem_filter.mpr ⟨inside, old⟩

theorem inFlight_update_lt {phase : Nat → AuthPhase} (range : i < connections)
    (here : phase i = .passed ip) (other : new ≠ .passed ip) :
    inFlight connections (Function.update phase i new) ip < inFlight connections phase ip := by
  refine Finset.card_lt_card (Finset.ssubset_iff_of_subset ?_ |>.mpr ⟨i, ?_, ?_⟩)
  · intro j member
    obtain ⟨inside, there⟩ := Finset.mem_filter.mp member
    rcases phase_update there with ⟨_, same⟩ | ⟨_, old⟩
    · exact absurd same other
    · exact Finset.mem_filter.mpr ⟨inside, old⟩
  · exact Finset.mem_filter.mpr ⟨Finset.mem_range.mpr range, here⟩
  · intro member
    have there := (Finset.mem_filter.mp member).2
    rw [Function.update_self] at there
    exact other there

/-- The address has the entry that it should: its window and its count, or none once the window
is over. The attempts that are past the gate cannot make the count overflow. -/
inductive Agrees (cfg : Cfg) (connections : Nat) (p : Limiter) (ip : Bytes) : Prop where
  | unopened (window : p.window ip = none) (absent : ∀ i < authFailSlots, ¬HeldBy p.table ip i)
  | kept (w : FailWindow) (i : Nat) (window : p.window ip = some w) (range : i < authFailSlots)
    (held : HeldBy p.table ip i)
      (start : (p.table i).windowStartMono = w.start) (fails : (p.table i).fails.toNat = w.failures)
      (bounded : w.failures + inFlight connections p.phase ip <
        cfg.authMaxFailures.toNat + connections)
  | lost (w : FailWindow) (window : p.window ip = some w)
    (absent : ∀ i < authFailSlots, ¬HeldBy p.table ip i)
      (past : w.start.toNat + (lockoutMs cfg).toNat ≤ p.clock.toNat)

/-- An address other than the one whose slot is written. -/
theorem Agrees.other {p after : Limiter} (agrees : Agrees cfg connections p ip')
    (sound : SoundTable p.clock p.table)
    (table : after.table = Function.update p.table i e) (named : e.ip ≠ [] → e.ip ≠ ip')
    (free : HeldBy p.table ip' i → (p.table i).expired (lockoutMs cfg) p.clock)
    (clock : after.clock = p.clock) (window : after.window ip' = p.window ip')
    (flight : inFlight connections after.phase ip' ≤ inFlight connections p.phase ip') :
    Agrees cfg connections after ip' := by
  have vacant : ∀ j, HeldBy after.table ip' j → j ≠ i ∧ HeldBy p.table ip' j := by
    intro j held
    rw [HeldBy, table, Function.update_apply] at held
    split_ifs at held with here
    · exact absurd held.2 (named held.1)
    · exact ⟨here, held⟩
  cases agrees with
  | unopened none absent =>
    exact .unopened (window.trans none) fun j range held => absent j range (vacant j held).2
  | lost w known absent past =>
    refine .lost w (window.trans known) (fun j range held => absent j range (vacant j held).2) ?_
    rw [clock]
    exact past
  | kept w k known range held start fails bounded =>
    by_cases taken : k = i
    · subst taken
      refine .lost w (window.trans known) ?_ ?_
      · intro j range' held'
        obtain ⟨other, there⟩ := vacant j held'
        exact other (sound.held_unique range held range' there)
      · rw [clock, ← start]
        exact (expired_iff (sound.started k range held.1)).mp (free held)
    · have same : after.table k = p.table k := by rw [table, Function.update_of_ne taken]
      exact .kept w k (window.trans known) range (by rw [HeldBy, same]; exact held)
        (by rw [same]; exact start)
        (by rw [same]; exact fails) (lt_of_le_of_lt (Nat.add_le_add_left flight _) bounded)

/-- An address that nothing is written about. -/
theorem Agrees.still {p after : Limiter} (agrees : Agrees cfg connections p ip')
    (table : after.table = p.table)
    (clock : p.clock ≤ after.clock) (window : after.window ip' = p.window ip')
    (flight : inFlight connections after.phase ip' ≤ inFlight connections p.phase ip') :
    Agrees cfg connections after ip' := by
  cases agrees with
  | unopened none absent => exact .unopened (window.trans none) (by rw [table]; exact absent)
  | lost w known absent past =>
    exact .lost w (window.trans known) (by rw [table]; exact absent)
      (past.trans (UInt64.le_iff_toNat_le.mp clock))
  | kept w k known range held start fails bounded =>
    exact .kept w k (window.trans known) range (by rw [table]; exact held)
      (by rw [table]; exact start)
      (by rw [table]; exact fails) (lt_of_le_of_lt (Nat.add_le_add_left flight _) bounded)

/-- An address whose entry has just been written. -/
theorem Agrees.written {table : AuthTable} (w : FailWindow) (real : ip ≠ [])
    (inside : i ∈ probeRun ip)
    (written : after.table = Function.update table i e) (window : after.window ip = some w)
    (named : e.ip = ip) (start : e.windowStartMono = w.start) (fails : e.fails.toNat = w.failures)
    (bounded : w.failures + inFlight connections after.phase ip <
      cfg.authMaxFailures.toNat + connections) :
    Agrees cfg connections after ip := by
  have here : after.table i = e := by rw [written, Function.update_self]
  refine .kept w i window (probeRun_lt inside) ?_ ?_ ?_ bounded
  · rw [HeldBy, here, named]
    exact ⟨real, rfl⟩
  · rw [here]
    exact start
  · rw [here]
    exact fails

/-- The entry found for an address is the one its record speaks of. -/
theorem Agrees.of_held {p : Limiter} (agrees : Agrees cfg connections p ip)
    (sound : SoundTable p.clock p.table)
    (range : i < authFailSlots) (held : HeldBy p.table ip i) : ∃ w, p.window ip = some w ∧
      (p.table i).windowStartMono = w.start ∧ (p.table i).fails.toNat = w.failures ∧
      w.failures + inFlight connections p.phase ip < cfg.authMaxFailures.toNat + connections := by
  cases agrees with
  | unopened none absent => exact absurd held (absent i range)
  | lost w known absent past => exact absurd held (absent i range)
  | kept w k known range' held' start fails bounded =>
    obtain rfl := sound.held_unique range' held' range held
    exact ⟨w, known, start, fails, bounded⟩

/-- Every address agrees with its record. -/
def Limiter.Exact (cfg : Cfg) (connections : Nat) (p : Limiter) : Prop :=
  ∀ ip, ip ≠ [] → Agrees cfg connections p ip

theorem holdsEntry_of_held {table : AuthTable} (inside : i ∈ probeRun ip)
    (held : HeldBy table ip i) : holdsEntry table ip = true :=
  List.any_eq_true.mpr ⟨i, inside, decide_eq_true held.2⟩

theorem holdsEntry_of_absent {table : AuthTable} (real : ip ≠ [])
    (absent : ∀ j ∈ probeRun ip, ¬HeldBy table ip j) :
    holdsEntry table ip = false := by
  rw [holdsEntry, List.any_eq_false]
  intro i inside same
  have named := of_decide_eq_true same
  exact absent i inside ⟨by rw [named]; exact real, named⟩

section Exactness

variable {cfg : Cfg} {connections : Nat} {p after : Limiter} {event : AuthEvent}

theorem Limiter.Exact.gate (enabled : 0 < cfg.authMaxFailures) (ordered : p.Ordered cfg connections)
    (exact : p.Exact cfg connections) (fresh : GateFresh p (.gate i))
    (stepped : p.step cfg connections (.gate i) = some after) :
    after.Exact cfg connections := by
  rw [Limiter.step] at stepped
  split at stepped
  next ip mono here =>
    obtain ⟨_, real, fits, read⟩ := ordered.gating i ip mono here
    have started := fresh i ip mono rfl here
    have gated : Gated cfg p.table ip mono (gateSection cfg p.table ip mono) :=
      gateSection_spec enabled fits
    generalize gateSection cfg p.table ip mono = out at gated stepped
    obtain ⟨table, refused⟩ := out
    obtain rfl := Option.some.inj stepped
    intro ip' real'
    have agrees := exact ip' real'
    by_cases same : ip' = ip
    · subst same
      cases gated with
      | absent none =>
        have gone := ordered.sound.absent none
        cases agrees with
        | kept w k known range held => exact absurd held (gone k range)
        | unopened unknown _ => exact .unopened (by simp [unknown]) gone
        | lost w known _ past =>
          by_cases ended : w.start.toNat + (lockoutMs cfg).toNat ≤ mono.toNat
          · exact .unopened (by simp [known, FailWindow.atGate, ended,
                holdsEntry_of_absent real none]) gone
          · exact .lost w (by simp [known, FailWindow.atGate, ended]) gone past
      | waits k inside held current few =>
        obtain ⟨w, known, start, fails, _⟩ := agrees.of_held ordered.sound (probeRun_lt inside) held
        have within := lt_of_not_expired current
        rw [start] at within
        refine .kept w k (by simp [known, FailWindow.atGate, not_le.mpr within])
          (probeRun_lt inside) held start fails ?_
        rw [fails] at few
        have most := inFlight_le connections (Function.update p.phase i (.passed ip')) ip'
        exact Nat.add_lt_add_of_lt_of_le (by omega) most
      | refused k inside held current many =>
        obtain ⟨w, known, start, fails, bounded⟩ :=
          agrees.of_held ordered.sound (probeRun_lt inside) held
        have within := lt_of_not_expired current
        rw [start] at within
        have idle : inFlight connections (Function.update p.phase i .idle) ip' ≤
              inFlight connections p.phase ip' :=
          inFlight_update_le connections p.phase i (by simp)
        exact .written w real inside rfl (by simp [known, FailWindow.atGate, not_le.mpr within])
          held.2 start fails
          (lt_of_le_of_lt (Nat.add_le_add_left idle _) bounded)
      | renewed k inside held past =>
        obtain ⟨w, known, start, _, _⟩ := agrees.of_held ordered.sound (probeRun_lt inside) held
        have ended := (expired_iff (started k (probeRun_lt inside) held.2)).mp past
        rw [start] at ended
        have window :
            (some w).bind (FailWindow.atGate (lockoutMs cfg) (holdsEntry p.table ip') mono) =
              some ⟨mono, 0⟩ := by
          rw [Option.bind_some, FailWindow.atGate, if_pos ended, holdsEntry_of_held inside held,
            if_pos rfl]
        have most := inFlight_le connections (Function.update p.phase i (.passed ip')) ip'
        have positive : 0 < cfg.authMaxFailures.toNat := by omega
        refine .written ⟨mono,
          0⟩ real inside rfl ?_ rfl rfl rfl (Nat.add_lt_add_of_lt_of_le positive most)
        rw [← window, ← known]
        exact Function.update_self ..
    · have window : Function.update p.window ip
        ((p.window ip).bind (FailWindow.atGate (lockoutMs cfg) (holdsEntry p.table ip) mono)) ip' =
          p.window ip' := Function.update_of_ne same ..
      have flight : inFlight connections
        (Function.update p.phase i (if refused = true then .idle else .passed ip)) ip' ≤
          inFlight connections p.phase ip' := by
        refine inFlight_update_le connections p.phase i ?_
        split_ifs
        · simp
        · exact fun other => same (AuthPhase.passed.inj other).symm
      have apart : ∀ {k}, HeldBy p.table ip k → ¬HeldBy p.table ip' k :=
        fun held there => same (there.2.symm.trans held.2)
      cases gated with
      | absent | waits => exact agrees.still rfl (UInt64.le_refl _) window flight
      | refused k inside held =>
        exact agrees.other ordered.sound rfl (fun _ other => same (other.symm.trans held.2))
          (fun there => absurd there (apart held))
          rfl window flight
      | renewed k inside held =>
        exact agrees.other ordered.sound rfl (fun _ other => same other.symm)
          (fun there => absurd there (apart held)) rfl window flight
  next => contradiction

/-- A run with room has a slot to take. -/
theorem slotFree_of_roomy (few : (rivals cfg table ip mono).length + 1 ≤ authFailProbe)
    (past : ∀ j < authFailSlots, HeldBy table ip j → j = i ∧ (table j).expired (lockoutMs cfg) mono)
    (real : ip ≠ []) :
    ∃ j ∈ probeRun ip, slotFree table (lockoutMs cfg) mono j = true := by
  by_contra full
  push Not at full
  have all : (probeRun ip).filter (fun i =>
      !slotFree table (lockoutMs cfg) mono i && decide ((table i).ip ≠ ip)) = probeRun ip := by
    rw [List.filter_eq_self]
    intro j inside
    have taken := full j inside
    have other : (table j).ip ≠ ip := by
      intro same
      have held : HeldBy table ip j := ⟨by rw [same]; exact real, same⟩
      refine taken ?_
      rw [slotFree, Bool.or_eq_true]
      exact .inr (decide_eq_true (past j (probeRun_lt inside) held).2)
    simp [taken, other]
  rw [rivals, List.length_map, all, probeRun, List.length_map, List.length_range] at few
  exact absurd few (by omega)

theorem Limiter.Exact.fail (enabled : 0 < cfg.authMaxFailures)
    (small : cfg.authMaxFailures.toNat + connections ≤ 2 ^ 32) (ordered : p.Ordered cfg connections)
    (exact : p.Exact cfg connections) (roomy : Roomy cfg p (.fail i))
    (stepped : p.step cfg connections (.fail i) = some after) :
    after.Exact cfg connections := by
  rw [Limiter.step] at stepped
  split at stepped
  next ip here =>
    obtain ⟨range, real, fits⟩ := ordered.passed i ip here
    have failed : Failed cfg p.table ip p.clock (failureSection cfg p.table ip p.clock) :=
      failureSection_spec ordered.sound fits
    generalize failureSection cfg p.table ip p.clock = table at failed stepped
    obtain rfl := Option.some.inj stepped
    have fewer : inFlight connections (Function.update p.phase i .idle) ip <
          inFlight connections p.phase ip :=
      inFlight_update_lt range here (by simp)
    intro ip' real'
    have agrees := exact ip' real'
    by_cases same : ip' = ip
    · subst same
      cases failed with
      | counted k inside held current =>
        obtain ⟨w, known, start, fails, bounded⟩ :=
          agrees.of_held ordered.sound (probeRun_lt inside) held
        have within := lt_of_not_expired current
        rw [start] at within
        have counts : ((p.table k).fails + 1).toNat = w.failures + 1 := by
          rw [UInt32.toNat_add, fails]
          exact Nat.mod_eq_of_lt (by simp; omega)
        exact .written ⟨w.start,
          w.failures + 1⟩ real inside rfl (by simp [known, failWindow, within]) held.2 start counts
          (by dsimp only; omega)
      | opened k inside past free =>
        have opens : failWindow (lockoutMs cfg) p.clock (p.window ip') = ⟨p.clock, 1⟩ := by
          cases agrees with
          | unopened unknown => rw [unknown, failWindow]
          | lost w known _ ended => rw [known, failWindow, if_neg (not_lt.mpr ended)]
          | kept w j known range' held start =>
            have ended :=
              (expired_iff (ordered.sound.started j range' held.1)).mp (past j range' held).2
            rw [start] at ended
            rw [known, failWindow, if_neg (not_lt.mpr ended)]
        have most := inFlight_le connections p.phase ip'
        have bounded : 1 + inFlight connections (Function.update p.phase i .idle) ip' <
              cfg.authMaxFailures.toNat + connections := by
          omega
        exact .written ⟨p.clock, 1⟩ real inside rfl (by simp [opens]) rfl rfl rfl bounded
    · have window : Function.update p.window ip
          (some (failWindow (lockoutMs cfg) p.clock (p.window ip))) ip' = p.window ip' :=
        Function.update_of_ne same ..
      have flight : inFlight connections (Function.update p.phase i .idle) ip' ≤
            inFlight connections p.phase ip' :=
        inFlight_update_le connections p.phase i (by simp)
      cases failed with
      | counted k inside held =>
        have apart : ¬HeldBy p.table ip' k := fun there => same (there.2.symm.trans held.2)
        exact agrees.other ordered.sound rfl (fun _ other => same (other.symm.trans held.2))
          (fun there => absurd there apart)
          rfl window flight
      | opened k inside past free =>
        refine agrees.other ordered.sound rfl (fun _ other => same other.symm) ?_ rfl window flight
        intro there
        have open' := free (slotFree_of_roomy (roomy i ip rfl here) past real)
        rw [slotFree, Bool.or_eq_true] at open'
        exact of_decide_eq_true (open'.resolve_left fun blank => there.1 (of_decide_eq_true blank))
  next => contradiction

theorem Limiter.Exact.succeed (ordered : p.Ordered cfg connections)
    (exact : p.Exact cfg connections)
    (stepped : p.step cfg connections (.succeed i) = some after) : after.Exact cfg connections := by
  rw [Limiter.step] at stepped
  split at stepped
  next ip here =>
    obtain ⟨range, real, fits⟩ := ordered.passed i ip here
    have forgiven : Forgiven p.table ip p.clock (successSection cfg p.table ip p.clock) :=
      successSection_spec fits
    generalize successSection cfg p.table ip p.clock = table at forgiven stepped
    obtain rfl := Option.some.inj stepped
    intro ip' real'
    have agrees := exact ip' real'
    by_cases same : ip' = ip
    · subst same
      refine .unopened (Function.update_self ..) ?_
      cases forgiven with
      | absent none => exact ordered.sound.absent none
      | erased k inside held e blank start =>
        intro j range' held'
        rw [HeldBy] at held'
        dsimp only at held'
        rw [Function.update_apply] at held'
        split_ifs at held' with there
        · exact held'.1 blank
        · exact there (ordered.sound.held_unique (probeRun_lt inside) held range' held')
    · have window : Function.update p.window ip none ip' = p.window ip' :=
        Function.update_of_ne same ..
      have flight : inFlight connections (Function.update p.phase i .idle) ip' ≤
            inFlight connections p.phase ip' :=
        inFlight_update_le connections p.phase i (by simp)
      cases forgiven with
      | absent none => exact agrees.still rfl (UInt64.le_refl _) window flight
      | erased k inside held e blank start =>
        have apart : ¬HeldBy p.table ip' k := fun there => same (there.2.symm.trans held.2)
        exact agrees.other ordered.sound rfl (fun named => absurd blank named)
          (fun there => absurd there apart) rfl window flight
  next => contradiction

theorem Limiter.Exact.step (enabled : 0 < cfg.authMaxFailures)
    (small : cfg.authMaxFailures.toNat + connections ≤ 2 ^ 32)
    (ordered : p.Ordered cfg connections) (exact : p.Exact cfg connections)
    (fresh : GateFresh p event) (roomy : Roomy cfg p event)
    (stepped : p.step cfg connections event = some after) : after.Exact cfg connections := by
  cases event with
  | tick mono =>
    rw [Limiter.step] at stepped
    split_ifs at stepped with later
    obtain rfl := Option.some.inj stepped
    exact fun ip real => (exact ip real).still rfl later rfl le_rfl
  | call i ip =>
    rw [Limiter.step] at stepped
    split_ifs at stepped
    obtain rfl := Option.some.inj stepped
    exact fun ip' real => (exact ip' real).still rfl (UInt64.le_refl _) rfl
      (inFlight_update_le connections p.phase i (by simp))
  | gate i => exact exact.gate enabled ordered fresh stepped
  | fail i => exact exact.fail enabled small ordered roomy stepped
  | succeed i => exact exact.succeed ordered stepped
  | leave i =>
    rw [Limiter.step] at stepped
    split at stepped
    next ip here =>
      obtain rfl := Option.some.inj stepped
      exact fun ip' real => (exact ip' real).still rfl (UInt64.le_refl _) rfl
        (inFlight_update_le connections p.phase i (by simp))
    next => contradiction

theorem Limiter.Exact.earnedRefused (enabled : 0 < cfg.authMaxFailures)
    (ordered : p.Ordered cfg connections)
    (exact : p.Exact cfg connections) (fresh : GateFresh p event) : EarnedRefused cfg p event := by
  rintro i ip mono w rfl here known within many
  obtain ⟨_, real, fits, read⟩ := ordered.gating i ip mono here
  have read' := UInt64.le_iff_toNat_le.mp read
  have gated : Gated cfg p.table ip mono (gateSection cfg p.table ip mono) :=
    gateSection_spec enabled fits
  generalize gateSection cfg p.table ip mono = out at gated ⊢
  have held : ∃ k, k < authFailSlots ∧ HeldBy p.table ip k ∧ (p.table k).windowStartMono = w.start ∧
      (p.table k).fails.toNat = w.failures := by
    cases exact ip real with
    | unopened unknown => rw [unknown] at known; contradiction
    | lost w' known' _ past =>
      obtain rfl := Option.some.inj (known.symm.trans known')
      exact absurd within (not_lt.mpr past)
    | kept w' k known' range held start fails =>
      obtain rfl := Option.some.inj (known.symm.trans known')
      exact ⟨k, range, held, start, fails⟩
  obtain ⟨k, range, held, start, fails⟩ := held
  cases gated with
  | absent none => exact absurd held (ordered.sound.absent none k range)
  | waits j inside held' current few =>
    obtain rfl := ordered.sound.held_unique range held (probeRun_lt inside) held'
    rw [fails] at few
    omega
  | refused j inside held' current many => rfl
  | renewed j inside held' past =>
    obtain rfl := ordered.sound.held_unique range held (probeRun_lt inside) held'
    have ended := (expired_iff (fresh i ip mono rfl here j range held.2)).mp past
    rw [start] at ended
    omega

end Exactness

/-- The limiter locks out whom it should and nobody else, as long as no address is crowded out
of its run. -/
def LockoutExact (cfg : Cfg) (connections : Nat) (events : List AuthEvent) : Prop :=
  Along (Limiter.step cfg connections) (fun p event after => OneEntryEach after.table ∧
    RefusedEarned cfg p event) .start events ∧
    (Along (Limiter.step cfg connections) (fun p event _ => Roomy cfg p event) .start events →
      Along (Limiter.step cfg connections) (fun p event _ => EarnedRefused cfg p event) .start
        events)

/-- It does in every interleaving in which no window opens between a gate's clock read and its
section. The limits are the `int` settings of the server. -/
theorem lockout_exact_of_fresh (cfg : Cfg) (enabled : 0 < cfg.authMaxFailures)
    (bounded : cfg.authMaxFailures < 2 ^ 31)
    (connections : Nat) (few : connections < 2 ^ 31) (events : List AuthEvent)
    (fresh : Along (Limiter.step cfg connections) (fun p event _ => GateFresh p event) .start
      events) :
    LockoutExact cfg connections events := by
  constructor
  · refine .always (I := Limiter.Ordered cfg connections) ?_ (Limiter.start_ordered cfg connections)
    intro p event after ordered stepped
    have later := ordered.step enabled stepped
    exact ⟨later, later.sound.unique, ordered.refusedEarned enabled⟩
  · intro roomy
    refine .of_invariant (I := fun p => p.Ordered cfg connections ∧ p.Exact cfg connections) ?_
      ⟨Limiter.start_ordered cfg connections, ?_⟩ (fresh.and roomy)
    · rintro p event after ⟨ordered, exact⟩ ⟨fresh, roomy⟩ stepped
      have kept := exact.step enabled (by omega) ordered fresh roomy stepped
      exact ⟨⟨ordered.step enabled stepped, kept⟩, exact.earnedRefused enabled ordered fresh⟩
    · exact fun ip real => .unopened rfl fun _ _ held => held.1 rfl

def strictCfg : Cfg := { soloCfg with authMaxFailures := 1, authFailLockoutSec := 60 }

def strictIp : Bytes := ascii "192.0.2.7"

/-- The first connection fails, and tries again. -/
def failsTwice : List AuthEvent :=
  [.tick 1, .call 0 strictIp, .gate 0, .fail 0, .tick 2, .call 0 strictIp]

/-- Its clock is read before the other connection fails. -/
def readsEarly : List AuthEvent := [.call 0 strictIp, .tick 1, .call 1 strictIp, .gate 1, .fail 1]

def roomyStep (cfg : Cfg) (p : Limiter) : AuthEvent → Bool
  | .fail i =>
    match p.phase i with
    | .passed ip => (rivals cfg p.table ip p.clock).length + 1 ≤ authFailProbe
    | _ => true
  | _ => true

def freshStep (p : Limiter) : AuthEvent → Bool
  | .gate i =>
    match p.phase i with
    | .gating ip mono =>
      (List.range authFailSlots).all fun k => (p.table k).ip ≠ ip || (p.table k).windowStartMono ≤
          mono
    | _ => true
  | _ => true

theorem Roomy.of_decided (decided : roomyStep cfg p event = true) : Roomy cfg p event := by
  rintro i ip rfl here
  rw [roomyStep, here] at decided
  exact of_decide_eq_true decided

theorem GateFresh.of_decided (decided : freshStep p event = true) : GateFresh p event := by
  rintro i ip mono rfl here k range same
  rw [freshStep, here] at decided
  have found := List.all_eq_true.mp decided k (List.mem_range.mpr range)
  rw [Bool.or_eq_true] at found
  exact of_decide_eq_true (found.resolve_left fun other => of_decide_eq_true other same)

def strictAt (events : List AuthEvent) : Limiter :=
  (run (Limiter.step strictCfg 2) .start events).getD .start

/-- Whom the gate of the first connection refuses. -/
def strictRefuses (p : Limiter) : Option Bool :=
  match p.phase 0 with
  | .gating ip mono => some (gateSection strictCfg p.table ip mono).2
  | _ => none

theorem strict_facts : Along (Limiter.step strictCfg 2) (fun p event _ => freshStep p event = true)
      .start (failsTwice ++ [.gate 0]) ∧
    strictRefuses (strictAt failsTwice) = some true ∧
    Along (Limiter.step strictCfg 2) (fun p event _ => roomyStep strictCfg p event = true) .start
      (readsEarly ++ [.gate 0]) ∧
    (run (Limiter.step strictCfg 2) .start readsEarly).isSome = true ∧
    (strictAt readsEarly).phase 0 = .gating strictIp 0 ∧
    (strictAt readsEarly).window strictIp = some ⟨1, 1⟩ ∧
    (strictAt readsEarly).clock.toNat < (1 : UInt64).toNat + (lockoutMs strictCfg).toNat ∧
    (gateSection strictCfg (strictAt readsEarly).table strictIp 0).2 = false := by
  decide +kernel

theorem lockout_exact_strict : strictRefuses (strictAt failsTwice) = some true ∧
    LockoutExact strictCfg 2 (failsTwice ++ [.gate 0]) :=
  ⟨strict_facts.2.1, lockout_exact_of_fresh strictCfg (by decide) (by decide) 2 (by decide) _
    (strict_facts.1.imp fun _ _ _ _ decided => .of_decided decided)⟩

/-- The gate takes the window it does not know of for one that is long over. -/
theorem lockout_missed : ¬LockoutExact strictCfg 2 (readsEarly ++ [.gate 0]) := by
  rintro ⟨_, complete⟩
  obtain ⟨_, _, roomy, ends, here, known, clock, verdict⟩ := strict_facts
  have along := complete (roomy.imp fun _ _ _ _ decided => .of_decided decided)
  have ran : run (Limiter.step strictCfg 2) .start readsEarly = some (strictAt readsEarly) :=
    eq_some_getD ends _
  have last := along.after ran
  have stepped : ∃ after, (strictAt readsEarly).step strictCfg 2 (.gate 0) = some after := by
    rw [Limiter.step, here]
    exact ⟨_, rfl⟩
  obtain ⟨after, stepped⟩ := stepped
  have refused := (last after stepped).1 0 strictIp 0 ⟨1, 1⟩ rfl here known clock le_rfl
  exact Bool.false_ne_true (verdict.symm.trans refused)

end SimplePool.Stratum
