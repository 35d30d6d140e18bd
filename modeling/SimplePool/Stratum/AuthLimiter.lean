import SimplePool.Lib.Transition
import SimplePool.Stratum.Authorize

/-! The authorize limiter under concurrency. Connections share the table of failures, and
each critical section under its lock is one step. The gate reads the clock before it takes
the lock, the other two sections read it inside. -/
namespace SimplePool.Stratum
open Transition Wire Coinbase

abbrev AuthTable := Nat → AuthFailEntry

/-- The slots that an address may have its entry in. -/
def probeRun (ip : Bytes) : List Nat :=
  (List.range authFailProbe).map fun k =>
    ((fnv1a ip).toNat &&& (authFailSlots - 1)) + k &&& (authFailSlots - 1)

def AuthFailEntry.expired (e : AuthFailEntry) (lockout mono : UInt64) : Prop :=
  lockout ≤ mono - e.windowStartMono

instance (e : AuthFailEntry) (lockout mono : UInt64) : Decidable (e.expired lockout mono) :=
  inferInstanceAs (Decidable (_ ≤ _))

/-- The address has its entry in the slot. -/
def HeldBy (table : AuthTable) (ip : Bytes) (i : Nat) : Prop :=
  (table i).ip ≠ [] ∧ (table i).ip = ip

/-- The slot may be taken. -/
def slotFree (table : AuthTable) (lockout mono : UInt64) (i : Nat) : Bool :=
  (table i).ip = [] || decide ((table i).expired lockout mono)

/-- What the walk comes back with. -/
inductive Walked (table : AuthTable) (ip : Bytes) (mono lockout : UInt64) (slots : List Nat)
    (free oldest : Option Nat) :
    Nat ⊕ (Option Nat × Option Nat) → Prop where
  | found (i : Nat) (inside : i ∈ slots) (held : HeldBy table ip i) :
    Walked table ip mono lockout slots free oldest (.inl i)
  | missed (o : Option Nat) (absent : ∀ i ∈ slots, ¬HeldBy table ip i) (known : ∀ k, o = some k →
    k ∈ slots ∨ oldest = some k)
      (present : slots ≠ [] ∨ oldest.isSome = true → o.isSome = true) :
      Walked table ip mono lockout slots free oldest
        (.inr (free <|> slots.find? (slotFree table lockout mono), o))

theorem authFailWalk_spec (table : AuthTable) (ip : Bytes) (mono lockout : UInt64)
    (slots : List Nat) (free oldest : Option Nat) :
    Walked table ip mono lockout slots free oldest
      (authFailWalk table ip mono lockout slots free oldest) := by
  induction slots generalizing free oldest with
  | nil =>
    have walked : Walked table ip mono lockout [] free oldest
        (.inr (free <|> [].find? (slotFree table lockout mono), oldest)) :=
      .missed oldest (by simp) (fun _ same => .inr same) (by simp)
    simpa [authFailWalk] using walked
  | cons i rest ih =>
    unfold authFailWalk
    split_ifs with held
    · exact .found i List.mem_cons_self held
    · extract_lets isFree older
      have free' : ((if (isFree && free.isNone) = true then some i else free) <|>
        rest.find? (slotFree table lockout mono)) =
          (free <|> (i :: rest).find? (slotFree table lockout mono)) := by
        have open' : slotFree table lockout mono i = isFree := rfl
        rw [List.find?_cons, open']
        cases isFree <;> cases free <;> rfl
      have walked := ih (if (isFree && free.isNone) = true then some i else free) (some older)
      generalize authFailWalk table ip mono lockout rest (if (isFree && free.isNone) = true
        then some i else free) (some older) = out
        at walked ⊢
      cases walked with
      | found j inside here => exact .found j (List.mem_cons_of_mem _ inside) here
      | missed o absent known present =>
        rw [free']
        refine .missed o ?_ ?_ ?_
        · intro j inside
          rcases List.mem_cons.mp inside with rfl | later
          · exact held
          · exact absent j later
        · intro k same
          rcases known k same with later | chosen
          · exact .inl (List.mem_cons_of_mem _ later)
          · obtain rfl := Option.some.inj chosen
            cases oldest with
            | none => exact .inl List.mem_cons_self
            | some first =>
              unfold older
              dsimp only
              split_ifs
              · exact .inl List.mem_cons_self
              · exact .inr rfl
        · exact fun _ => present (.inr rfl)

/-- What a lookup comes to. -/
inductive Looked (cfg : Cfg) (table : AuthTable) (ip : Bytes) (mono : UInt64) (create : Bool) :
    AuthTable × Option Nat → Prop where
  | live (i : Nat) (inside : i ∈ probeRun ip) (held : HeldBy table ip i)
    (current : ¬(table i).expired (lockoutMs cfg) mono) :
      Looked cfg table ip mono create (table, some i)
  | renewed (i : Nat) (inside : i ∈ probeRun ip) (held : HeldBy table ip i)
    (past : (table i).expired (lockoutMs cfg) mono) :
      Looked cfg table ip mono create (Function.update table i ⟨ip, 0, mono, false⟩, some i)
  | claimed (i : Nat) (inside : i ∈ probeRun ip) (absent : ∀ j ∈ probeRun ip, ¬HeldBy table ip j)
    (created : create = true)
      (free : (∃ j ∈ probeRun ip, slotFree table (lockoutMs cfg) mono j = true) →
        slotFree table (lockoutMs cfg) mono i = true) :
      Looked cfg table ip mono create (Function.update table i ⟨ip, 0, mono, false⟩, some i)
  | missing (absent : ∀ j ∈ probeRun ip, ¬HeldBy table ip j) (sought : create = false) :
      Looked cfg table ip mono create (table, none)

theorem authFailFind_spec (cfg : Cfg) (table : AuthTable) {ip : Bytes}
    (fits : ip.length < peerIpCap) (mono : UInt64)
    (create : Bool) : Looked cfg table ip mono create (authFailFind cfg table ip mono create) := by
  have walked := authFailWalk_spec table ip mono (lockoutMs cfg) (probeRun ip) none none
  unfold authFailFind
  extract_lets home slots
  have run : slots = probeRun ip := rfl
  rw [run]
  generalize authFailWalk table ip mono (lockoutMs cfg) (probeRun ip) none none = out at walked ⊢
  cases walked with
  | found i inside held =>
    dsimp only
    split_ifs with past
    · rw [held.2]
      exact .renewed i inside held past
    · exact .live i inside held past
  | missed oldest absent known present =>
    dsimp only
    cases create with
    | false =>
      cases (none <|> (probeRun ip).find? (slotFree table (lockoutMs cfg) mono)) <|> oldest <;>
        exact .missing absent rfl
    | true =>
      have named : snprintf peerIpCap ip = ip := snprintf_of_le (Nat.le_sub_one_of_lt fits)
      have first : (none <|> (probeRun ip).find? (slotFree table (lockoutMs cfg) mono)) =
          (probeRun ip).find? (slotFree table (lockoutMs cfg) mono) := rfl
      rw [named, first]
      cases search : (probeRun ip).find? (slotFree table (lockoutMs cfg) mono) with
      | some i =>
        exact .claimed i (List.mem_of_find?_eq_some search) absent rfl fun _ => List.find?_some
          search
      | none =>
        obtain ⟨i, rfl⟩ :=
          Option.isSome_iff_exists.mp (present (.inl (by simp [probeRun, authFailProbe])))
        have inside : i ∈ probeRun ip := (known i rfl).resolve_right (by simp)
        refine .claimed i inside absent rfl ?_
        rintro ⟨j, among, open'⟩
        exact absurd open' (List.find?_eq_none.mp search j among)

theorem probeRun_lt (inside : i ∈ probeRun ip) : i < authFailSlots := by
  obtain ⟨k, _, rfl⟩ := List.mem_map.mp inside
  exact Nat.lt_of_le_of_lt Nat.and_le_right (by decide)

/-- Every entry lies in the run of its address, and no address has two. -/
structure SoundTable (clock : UInt64) (table : AuthTable) : Prop where
  placed : ∀ i < authFailSlots, (table i).ip ≠ [] → i ∈ probeRun (table i).ip
  unique : ∀ i < authFailSlots, ∀ j < authFailSlots,
  (table i).ip ≠ [] → (table i).ip = (table j).ip → i = j
  started : ∀ i < authFailSlots, (table i).ip ≠ [] → (table i).windowStartMono ≤ clock

/-- What is not in its run is nowhere. -/
theorem SoundTable.absent (sound : SoundTable clock table)
    (absent : ∀ j ∈ probeRun ip, ¬HeldBy table ip j) :
    ∀ i < authFailSlots, ¬HeldBy table ip i := by
  intro i range held
  have inside := sound.placed i range held.1
  rw [held.2] at inside
  exact absent i inside held

theorem SoundTable.held_unique (sound : SoundTable clock table) (range : i < authFailSlots)
    (held : HeldBy table ip i) (range' : j < authFailSlots) (held' : HeldBy table ip j) : j = i :=
  (sound.unique i range j range' held.1 (held.2.trans held'.2.symm)).symm

/-- An entry is written for an address that has none elsewhere, or is erased. -/
theorem SoundTable.write (sound : SoundTable clock table) (inside : i ∈ probeRun ip)
    (only : ∀ j < authFailSlots, HeldBy table ip j → j = i) (e : AuthFailEntry)
    (named : e.ip = ip ∨ e.ip = [])
    (started : e.windowStartMono ≤ clock) : SoundTable clock (Function.update table i e) where
  placed j range real := by
    rw [Function.update_apply] at real ⊢
    split_ifs at real ⊢ with here
    · rw [here, named.resolve_right real]
      exact inside
    · exact sound.placed j range real
  unique j range k range' real same := by
    rw [Function.update_apply] at real same
    rw [Function.update_apply] at same
    split_ifs at real same with first second second
    · rw [first, second]
    · refine absurd (only k range' ⟨same ▸ real, ?_⟩) second
      rw [← same, named.resolve_right real]
    · refine absurd (only j range ⟨real, ?_⟩) first
      rw [same]
      exact named.resolve_right (same ▸ real)
    · exact sound.unique j range k range' real same
  started j range real := by
    rw [Function.update_apply] at real ⊢
    split_ifs at real ⊢
    · exact started
    · exact sound.started j range real

/-- The section of `auth_gate`, and whether it finds the address locked out. -/
def gateSection (cfg : Cfg) (table : AuthTable) (ip : Bytes) (mono : UInt64) : AuthTable × Bool :=
  match authFailFind cfg table ip mono false with
  | (table, some i) =>
    if cfg.authMaxFailures ≤ (table i).fails.toNat then
      (Function.update table i { table i with reported := true }, true)
    else (table, false)
  | (table, none) => (table, false)

/-- The section of `auth_failed`. -/
def failureSection (cfg : Cfg) (table : AuthTable) (ip : Bytes) (mono : UInt64) : AuthTable :=
  match authFailFind cfg table ip mono true with
  | (table, some i) => Function.update table i { table i with fails := (table i).fails + 1 }
  | (table, none) => table

/-- The section of `auth_succeeded`. -/
def successSection (cfg : Cfg) (table : AuthTable) (ip : Bytes) (mono : UInt64) : AuthTable :=
  match authFailFind cfg table ip mono false with
  | (table, some i) => Function.update table i { table i with ip := [] }
  | (table, none) => table

theorem authLockout_section (s : Server) {c : Conn} (addressed : c.peerIp ≠ []) (mono : UInt64) :
    (authLockout s c mono).1 =
      { s with authFail := (gateSection s.cfg s.authFail c.peerIp mono).1 } ∧
      (authLockout s c mono).2.isSome = (gateSection s.cfg s.authFail c.peerIp mono).2 := by
  rw [authLockout, if_neg addressed, gateSection]
  cases authFailFind s.cfg s.authFail c.peerIp mono false with
  | mk table slot =>
    cases slot with
    | none => exact ⟨rfl, rfl⟩
    | some i =>
      dsimp only
      split_ifs <;> exact ⟨rfl, rfl⟩

theorem authFailed_section (env : Env) {o : Outcome} (enabled : 0 < o.server.cfg.authMaxFailures)
    (addressed : o.conn.peerIp ≠ []) :
    (authFailed env o).server =
      { o.server with
        authFail := failureSection o.server.cfg o.server.authFail o.conn.peerIp env.mono } := by
  rw [authFailed, if_neg (not_le.mpr enabled), failureSection]
  dsimp only
  rw [if_neg addressed]
  cases authFailFind o.server.cfg o.server.authFail o.conn.peerIp env.mono true with
  | mk table slot => cases slot <;> rfl

theorem authSucceeded_section (s : Server) {c : Conn} (enabled : 0 < s.cfg.authMaxFailures)
    (addressed : c.peerIp ≠ []) (mono : UInt64) :
    authSucceeded s c mono =
      { s with authFail := successSection s.cfg s.authFail c.peerIp mono } := by
  rw [authSucceeded, if_neg (not_or.mpr ⟨not_le.mpr enabled, addressed⟩), successSection]
  cases authFailFind s.cfg s.authFail c.peerIp mono false with
  | mk table slot => cases slot <;> rfl

section Sections

variable {cfg : Cfg} {table : AuthTable} {ip : Bytes} {mono : UInt64}

inductive Gated (cfg : Cfg) (table : AuthTable) (ip : Bytes) (mono : UInt64) :
    AuthTable × Bool → Prop where
  | absent (none : ∀ j ∈ probeRun ip, ¬HeldBy table ip j) : Gated cfg table ip mono (table, false)
  | waits (i : Nat) (inside : i ∈ probeRun ip) (held : HeldBy table ip i)
    (current : ¬(table i).expired (lockoutMs cfg) mono)
      (few : ((table i).fails.toNat : Int) < cfg.authMaxFailures) : Gated cfg table ip mono
        (table, false)
  | refused (i : Nat) (inside : i ∈ probeRun ip) (held : HeldBy table ip i)
    (current : ¬(table i).expired (lockoutMs cfg) mono)
      (many : cfg.authMaxFailures ≤ (table i).fails.toNat) :
      Gated cfg table ip mono (Function.update table i { table i with reported := true }, true)
  | renewed (i : Nat) (inside : i ∈ probeRun ip) (held : HeldBy table ip i)
    (past : (table i).expired (lockoutMs cfg) mono) :
      Gated cfg table ip mono (Function.update table i ⟨ip, 0, mono, false⟩, false)

theorem gateSection_spec (enabled : 0 < cfg.authMaxFailures) (fits : ip.length < peerIpCap) :
    Gated cfg table ip mono (gateSection cfg table ip mono) := by
  have looked := authFailFind_spec cfg table fits mono false
  rw [gateSection]
  generalize authFailFind cfg table ip mono false = out at looked ⊢
  cases looked with
  | live i inside held current =>
    dsimp only
    split_ifs with many
    · exact .refused i inside held current many
    · exact .waits i inside held current (not_le.mp many)
  | renewed i inside held past =>
    have forgotten : ¬cfg.authMaxFailures ≤ ((0 : UInt32).toNat : Int) := not_le.mpr enabled
    dsimp only
    rw [Function.update_self]
    dsimp only
    rw [if_neg forgotten]
    exact .renewed i inside held past
  | claimed i inside absent created => contradiction
  | missing absent => exact .absent absent

inductive Failed (cfg : Cfg) (table : AuthTable) (ip : Bytes) (mono : UInt64) :
    AuthTable → Prop where
  | counted (i : Nat) (inside : i ∈ probeRun ip) (held : HeldBy table ip i)
    (current : ¬(table i).expired (lockoutMs cfg) mono) :
      Failed cfg table ip mono
        (Function.update table i { table i with fails := (table i).fails + 1 })
  | opened (i : Nat) (inside : i ∈ probeRun ip)
      (past : ∀ j < authFailSlots, HeldBy table ip j → j = i ∧
        (table j).expired (lockoutMs cfg) mono)
      (free : (∃ j ∈ probeRun ip, slotFree table (lockoutMs cfg) mono j = true) →
        slotFree table (lockoutMs cfg) mono i = true) :
      Failed cfg table ip mono (Function.update table i ⟨ip, 1, mono, false⟩)

theorem failureSection_spec (sound : SoundTable clock table) (fits : ip.length < peerIpCap) :
    Failed cfg table ip mono (failureSection cfg table ip mono) := by
  have looked := authFailFind_spec cfg table fits mono true
  rw [failureSection]
  generalize authFailFind cfg table ip mono true = out at looked ⊢
  cases looked with
  | live i inside held current => exact .counted i inside held current
  | renewed i inside held past =>
    dsimp only
    rw [Function.update_self, Function.update_idem]
    refine .opened i inside ?_ fun _ => ?_
    · intro j range held'
      obtain rfl := sound.held_unique (probeRun_lt inside) held range held'
      exact ⟨rfl, past⟩
    · rw [slotFree, Bool.or_eq_true]
      exact .inr (decide_eq_true past)
  | claimed i inside absent created free =>
    dsimp only
    rw [Function.update_self, Function.update_idem]
    exact .opened i inside (fun j range held => absurd held (sound.absent absent j range)) free
  | missing absent sought => contradiction

inductive Forgiven (table : AuthTable) (ip : Bytes) (mono : UInt64) : AuthTable → Prop where
  | absent (none : ∀ j ∈ probeRun ip, ¬HeldBy table ip j) : Forgiven table ip mono table
  | erased (i : Nat) (inside : i ∈ probeRun ip) (held : HeldBy table ip i) (e : AuthFailEntry)
    (blank : e.ip = [])
      (start : e.windowStartMono = (table i).windowStartMono ∨ e.windowStartMono = mono) :
      Forgiven table ip mono (Function.update table i e)

theorem successSection_spec (fits : ip.length < peerIpCap) :
    Forgiven table ip mono (successSection cfg table ip mono) := by
  have looked := authFailFind_spec cfg table fits mono false
  rw [successSection]
  generalize authFailFind cfg table ip mono false = out at looked ⊢
  cases looked with
  | live i inside held current => exact .erased i inside held _ rfl (.inl rfl)
  | renewed i inside held past =>
    dsimp only
    rw [Function.update_self, Function.update_idem]
    exact .erased i inside held _ rfl (.inr rfl)
  | claimed i inside absent created => contradiction
  | missing absent => exact .absent absent

end Sections

end SimplePool.Stratum
