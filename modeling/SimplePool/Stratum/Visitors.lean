import SimplePool.Crypto.Sha256Lanes
import SimplePool.Stratum.CreditOnce

/-! The server-wide filter made to forget. A visitor connects, authorizes, submits once and
leaves; each submits a nonce of its own, so that its header is a new one, and its hash
takes a place in the filter whether or not it earns anything. Enough visitors push out a
hash that was credited before them, and it is credited again. -/
namespace SimplePool.Stratum
open Transition Wire Coinbase Crypto Lanes

/-- A worker is granted where failed authorizations are not counted. -/
theorem handleAuthorize_granted (fp : Fpu) (env : Env) (s : Server) (c : Conn) (params : Json)
    (off : s.cfg.authMaxFailures ≤ 0) (ungated : ppsGated s.cfg env = false)
    (named : params.credentials fp = (some worker, pwDiff))
    (size : ¬((addressPart worker).length = 0 ∨ payoutAddressCap ≤ (addressPart worker).length))
    (fine : addressError s.cfg (addressPart worker) = none) :
    (handleAuthorize fp env s c params).server = s ∧
    (handleAuthorize fp env s c params).close = false ∧
      (handleAuthorize fp env s c params).conn =
        (sendCurrentNotify fp s.cfg s.jobs (c.authorize fp s env worker pwDiff) true).1 := by
  rw [handleAuthorize, authGate, if_pos off]
  dsimp only
  rw [named]
  dsimp only
  rw [if_neg size, ungated, if_neg Bool.false_ne_true, authorizeWorker, fine]
  dsimp only
  rw [authSucceeded, if_pos (.inl off)]
  exact ⟨rfl, rfl, rfl⟩

def soloJobs : Jobs := Jobs.empty.publish 0 regtestJob

/-- The one job was published, and the settings are those of the start. -/
structure Pool.Settled (p : Pool) : Prop where
  cfg : p.server.cfg = soloCfg
  jobs : p.server.jobs = soloJobs

def guestMessage (method : String) (params : List Bytes) : Event :=
  .message 1 soloEnv (soloRequest method params)

def guestSubmit (nonce : UInt32) : List Bytes :=
  [[], ascii "1", ascii "0000000000000000", ascii "65000000", hex8 nonce]

/-- The visitor does not subscribe, and hashes with the extranonce of zeros. -/
def visit (nonce : UInt32) : List Event :=
  [.connect 1 [] ⟨0, 0, 0, 0, 0⟩, guestMessage "mining.authorize" [firstAddress],
    guestMessage "mining.submit" (guestSubmit nonce), .disconnect 1]

def soloServer (seq : UInt32) (authFail : Nat → AuthFailEntry) (table : DedupeTable) : Server :=
  ⟨soloCfg, seq, authFail, table, soloJobs⟩

theorem Pool.Settled.server {p : Pool} (settled : p.Settled) :
    p.server = soloServer p.server.extranonce1Seq p.server.authFail p.server.shareDedupe := by
  obtain ⟨⟨cfg, seq, authFail, table, jobs⟩, conns⟩ := p
  obtain ⟨rfl, rfl⟩ := settled
  rfl

def arrived : Conn := (Conn.new soloCfg []).applyListener ⟨0, 0, 0, 0, 0⟩

/-- The visitor when it has been told the job. -/
def guest : Conn :=
  (sendCurrentNotify .exact soloCfg soloJobs
    (arrived.authorize .exact (soloServer 0 (fun _ => ⟨[], 0, 0, false⟩) .empty) soloEnv
      firstAddress 0) true).1

def guestWork (nonce : UInt32) : Work where
  sub := ⟨some (ascii "1"), some (ascii "0000000000000000"), some (ascii "65000000"),
    some (hex8 nonce), none⟩
  job := regtestJob
  version := regtestJob.version
  ntime := 0x65000000
  nonce := nonce
  en2 := List.replicate 8 0
  parts := guest.cb

/-- What the visitor's own filter makes of the submit; an unused place of it holds 0. -/
def guestKey (nonce : UInt32) : UInt64 :=
  submitKey (guestWork nonce).job.jobId (guestWork nonce).sub (guestWork nonce).version

def visitHash (nonce : UInt32) : Bytes := (guestWork nonce).hash guest

theorem guest_facts : ((List.range dedupeRing).all fun i => guest.dedupe i = 0) = true ∧
    coinbaseFor .exact soloCfg guest regtestJob = some guest.cb ∧ guest.authorized = true ∧
    addressError soloCfg (addressPart firstAddress) = none := by
  decide +kernel

theorem guest_inRange : ntimeInRange regtestJob 0x65000000 = true := by
  have base : regtestJob.ntime = 0x65000000 := rfl
  rw [ntimeInRange, base]
  decide

theorem guest_remembers {h : UInt64} (nonzero : h ≠ 0) : guest.remembers h = false := by
  rw [Conn.remembers, List.any_eq_false]
  intro i member same
  have unused := of_decide_eq_true (List.all_eq_true.mp guest_facts.1 i member)
  exact nonzero ((of_decide_eq_true same).symm.trans unused)

theorem guest_reaches {nonce : UInt32} (fresh : guestKey nonce ≠ 0) (seq : UInt32)
    (authFail : Nat → AuthFailEntry)
    (table : DedupeTable) : Reaches .exact soloEnv (soloServer seq authFail table) guest
      (soloRequest "mining.submit" (guestSubmit nonce)).params (guestWork nonce) where
  version := rfl
  unseen := guest_remembers fresh
  ntime := rfl
  nonce := parseU32Hex_hex8 nonce
  inRange := guest_inRange
  en2 := rfl
  en2Size := List.length_replicate
  parts := by
    dsimp only [guestWork]
    exact guest_facts.2.1
  authorized := guest_facts.2.2.1
  paced := rfl
  submission := rfl
  ungated := rfl
  job := rfl

theorem visit_authorize (seq : UInt32) (authFail : Nat → AuthFailEntry) (table : DedupeTable) :
    let o := handleAuthorize .exact soloEnv (soloServer seq authFail table) arrived
      (soloRequest "mining.authorize" [firstAddress]).params
    o.server = soloServer seq authFail table ∧ o.close = false ∧ o.conn = guest := by
  have size : ¬((addressPart firstAddress).length = 0 ∨
      payoutAddressCap ≤ (addressPart firstAddress).length) := by decide
  have named : (soloRequest "mining.authorize" [firstAddress]).params.credentials .exact =
        (some firstAddress, 0) := rfl
  have off : soloCfg.authMaxFailures ≤ 0 := by decide
  obtain ⟨server, stays, conn⟩ :=
    handleAuthorize_granted .exact soloEnv (soloServer seq authFail table)
    arrived _ off rfl named size guest_facts.2.2.2
  exact ⟨server, stays, conn⟩

/-- A request on a connection that was just written. -/
theorem step_message (fp : Fpu) (env : Env) (s : Server) (conns : Nat → Option Conn) (i : Nat)
    (c : Conn) (request : Request) :
    Pool.step fp ⟨s, Function.update conns i (some c)⟩ (.message i env request) =
      some ⟨(handleMessage fp env s c request).server, Function.update conns i
        (if (handleMessage fp env s c request).close then none
          else some (handleMessage fp env s c request).conn)⟩ := by
  simp only [Pool.step, Function.update_self, Pool.handled, Function.update_idem]

theorem visit_submit {nonce : UInt32} (fresh : guestKey nonce ≠ 0) (seq : UInt32)
    (authFail : Nat → AuthFailEntry) (table : DedupeTable) :
    (handleSubmit .exact soloEnv (soloServer seq authFail table) guest
      (soloRequest "mining.submit" (guestSubmit nonce)).params).server =
        (soloServer seq authFail table).recordHash (visitHash nonce) := by
  have reaches := guest_reaches fresh seq authFail table
  rcases handleSubmit_server .exact soloEnv (soloServer seq authFail table) guest
    (soloRequest "mining.submit" (guestSubmit nonce)).params with ⟨w, found, recorded⟩ | ⟨unreached,
      _⟩
  · rw [recorded, reaches.unique found]
    rfl
  · exact absurd reaches (unreached (guestWork nonce))

/-- All that a visit leaves behind is a hash that is remembered. -/
theorem visit_run {p : Pool} {nonce : UInt32} (fresh : guestKey nonce ≠ 0) (settled : p.Settled)
    (free : p.conns 1 = none) :
    run (Pool.step .exact) p (visit nonce) =
      some { p with server := p.server.recordHash (visitHash nonce) } := by
  obtain ⟨⟨cfg, seq, authFail, table, jobs⟩, conns⟩ := p
  obtain ⟨rfl, rfl⟩ := settled
  have authorize : methodOf (soloRequest "mining.authorize" [firstAddress]).method = .authorize :=
    rfl
  have submit : methodOf (soloRequest "mining.submit" (guestSubmit nonce)).method = .submit := rfl
  obtain ⟨server, stays, conn⟩ := visit_authorize seq authFail table
  have first :
    Pool.step .exact ⟨soloServer seq authFail table, conns⟩ (.connect 1 [] ⟨0, 0, 0, 0, 0⟩) =
      some ⟨soloServer seq authFail table, Function.update conns 1 (some arrived)⟩ := by
    rw [Pool.step, free]
    rfl
  have second :
    Pool.step .exact ⟨soloServer seq authFail table, Function.update conns 1 (some arrived)⟩
        (guestMessage "mining.authorize" [firstAddress]) =
      some ⟨soloServer seq authFail table, Function.update conns 1 (some guest)⟩ := by
    rw [guestMessage, step_message, handleMessage, authorize]
    dsimp only
    rw [server, stays, conn]
    rfl
  have third := step_message .exact soloEnv (soloServer seq authFail table) conns 1 guest
    (soloRequest "mining.submit" (guestSubmit nonce))
  rw [handleMessage, submit] at third
  dsimp only at third
  rw [visit_submit fresh] at third
  have absent : Function.update conns 1 none = conns := by
    rw [← free]
    exact Function.update_eq_self 1 conns
  change run (Pool.step .exact) ⟨soloServer seq authFail table, conns⟩ (visit nonce) = _
  rw [visit, run, first, Option.bind_some, run, second, Option.bind_some, run, guestMessage,
    third, Option.bind_some, run, Pool.step, Option.bind_some, run, Function.update_idem, absent]
  rfl

/-- The nonce of the first visitor; the others count on from it. -/
def firstNonce : Nat := 4096

def visitNonce (k : Nat) : UInt32 := UInt32.ofNat (firstNonce + k)

def flood : Nat → List Event
  | 0 => []
  | n + 1 => flood n ++ visit (visitNonce n)

def Server.flooded (s : Server) : Nat → Server
  | 0 => s
  | n + 1 => (s.flooded n).recordHash (visitHash (visitNonce n))

/-- What the filter is given in `n` visits. -/
def visitKeys (n : Nat) : List UInt64 :=
  (List.range n).map fun k => dedupeKey (fnv1a (visitHash (visitNonce k)))

structure Server.Flooded (s t : Server) (n : Nat) : Prop where
  cfg : t.cfg = s.cfg
  jobs : t.jobs = s.jobs
  recent : t.shareDedupe.recent = BoundedFifo.feed shareDedupeRing s.shareDedupe.recent
    (visitKeys n)

theorem flooded_spec (s : Server) (n : Nat) : s.Flooded (s.flooded n) n := by
  induction n with
  | zero => exact ⟨rfl, rfl, rfl⟩
  | succ n ih =>
    refine ⟨ih.cfg, ih.jobs, ?_⟩
    rw [Server.flooded, recordHash_recent, visitKeys, List.range_succ, List.map_append, ← visitKeys,
      List.map_singleton, BoundedFifo.feed_concat, ← ih.recent]

theorem flood_run {p : Pool} (settled : p.Settled) (free : p.conns 1 = none) (n : Nat)
    (fresh : ∀ k < n, guestKey (visitNonce k) ≠ 0) :
    run (Pool.step .exact) p (flood n) = some { p with server := p.server.flooded n } := by
  induction n with
  | zero => rfl
  | succ n ih =>
    have spec := flooded_spec p.server n
    have still : Pool.Settled { p with server := p.server.flooded n } :=
      ⟨spec.cfg.trans settled.cfg, spec.jobs.trans settled.jobs⟩
    rw [flood, run_append, ih (fun k before => fresh k (Nat.lt_succ_of_lt before)),
      Option.bind_some, visit_run (fresh n (Nat.lt_succ_self n)) still free]
    rfl

/-- Anything but a published job. -/
def Event.quiet : Event → Bool
  | .setJob .. => false
  | _ => true

theorem step_settled {p q : Pool} (settled : p.Settled) (quiet : event.quiet = true)
    (stepped : p.step fp event = some q) : q.Settled := by
  cases event with
  | connect i peerIp pol =>
    rw [Pool.step] at stepped
    split at stepped
    · contradiction
    · obtain rfl := Option.some.inj stepped
      exact ⟨settled.cfg, settled.jobs⟩
  | disconnect i =>
    obtain rfl := Option.some.inj stepped
    exact ⟨settled.cfg, settled.jobs⟩
  | setJob mono job clean => contradiction
  | message i env request =>
    rw [Pool.step] at stepped
    split at stepped
    · contradiction
    next c _ =>
      obtain rfl := Option.some.inj stepped
      obtain ⟨cfg, jobs⟩ := handleMessage_jobs fp env p.server c request
      exact ⟨cfg.trans settled.cfg, jobs.trans settled.jobs⟩

/-- A hash credited for the solo job. -/
def CreditLog.Holds (l : CreditLog) (hash : Bytes) : Prop :=
  ∃ old ∈ l.credited, old.hash = hash ∧ old.jobId = regtestJob.jobId

theorem holds_step {l after : CreditLog} {hash : Bytes} (settled : after.pool.Settled)
    (stepped : l.step fp event = some after) (holds : l.Holds hash) : after.Holds hash := by
  obtain ⟨q, moved, rfl⟩ := Option.map_eq_some_iff.mp stepped
  obtain ⟨old, inside, named, job⟩ := holds
  have found : (findJob q.server.jobs (some old.jobId)).isSome = true := by
    rw [job, settled.jobs]
    rfl
  by_cases taken : recordedNow l.pool q = true
  · refine ⟨{ old with since := old.since + 1 },
      List.mem_filter.mpr ⟨List.mem_append_right _ ?_, found⟩, named, job⟩
    rw [if_pos taken]
    exact List.mem_map_of_mem inside
  · refine ⟨old, List.mem_filter.mpr ⟨List.mem_append_right _ ?_, found⟩, named, job⟩
    rw [if_neg taken]
    exact inside

/-- While no job is published, what is credited is kept. -/
theorem holds_run {l : CreditLog} {hash : Bytes} (settled : l.pool.Settled)
    (quiet : ∀ event ∈ events, event.quiet = true)
    (ran : run (Pool.step fp) l.pool events = some q) (holds : l.Holds hash) :
    ∃ after, run (CreditLog.step fp) l events = some after ∧ after.pool = q ∧ after.Holds hash := by
  induction events generalizing l with
  | nil =>
    obtain rfl := Option.some.inj ran
    exact ⟨l, rfl, rfl, holds⟩
  | cons event rest ih =>
    obtain ⟨p, stepped, later⟩ := Option.bind_eq_some_iff.mp ran
    have still := step_settled settled (quiet event List.mem_cons_self) stepped
    obtain ⟨next, logged, pool⟩ : ∃ next, l.step fp event = some next ∧ next.pool = p := by
      rw [CreditLog.step, stepped]
      exact ⟨_, rfl, rfl⟩
    subst pool
    obtain ⟨after, went, there, kept⟩ :=
      ih still (fun event inside => quiet event (List.mem_cons_of_mem _ inside)) later
      (holds_step still logged holds)
    refine ⟨after, ?_, there, kept⟩
    rw [run, logged]
    exact went

def lowBits : Nat := 17

/-- `fnv1a` in each field; of the prime, the low bits are 435. -/
def packedFnv1a (d : Nat) (bytes : List Nat) : Nat :=
  bytes.foldl (fun h b => (h ^^^ b) * 435 &&& Packed.mask d lowBits)
    (fill 64 (1469598103934665603 % 2 ^ lowBits) d)

theorem fnv1a_step (h : UInt64) (b : UInt8) :
    ((h ^^^ b.toUInt64) * 1099511628211).toNat % 2 ^ lowBits =
    (h.toNat % 2 ^ lowBits ^^^ b.toNat) * 435 % 2 ^ lowBits := by
  have byte : b.toNat % 2 ^ lowBits = b.toNat := Nat.mod_eq_of_lt (b.toNat_lt.trans (by decide))
  rw [UInt64.toNat_mul, UInt64.toNat_xor, UInt8.toNat_toUInt64,
    Nat.mod_mod_of_dvd _ (by decide : 2 ^ lowBits ∣ 2 ^ 64), Nat.mul_mod, Nat.xor_mod_two_pow, byte]
  rw [Nat.mul_mod _ 435,
    Nat.mod_eq_of_lt (Nat.xor_lt_two_pow (Nat.mod_lt _ (by decide)) (b.toNat_lt.trans (by decide)))]
  rfl

theorem fold_reads (inside : i < 2 ^ d) (bytes : List.Forall₂ (ReadsByte i) xs bs) {h : UInt64}
    (state : Reads i lowBits x (h.toNat % 2 ^ lowBits)) :
    Reads i lowBits (xs.foldl (fun h b => (h ^^^ b) * 435 &&& Packed.mask d lowBits) x)
      ((bs.foldl (fun h b => (h ^^^ b.toUInt64) * 1099511628211) h).toNat % 2 ^ lowBits) := by
  induction bytes generalizing x h with
  | nil => exact state
  | cons byte _ ih =>
    apply ih
    have mixed := state.xor ⟨byte.narrow.mono (by decide), byte.here⟩
    rw [fnv1a_step]
    apply Reads.reduce inside (by decide)
    rw [lane_mul mixed.narrow (by decide), mixed.here]

theorem packedFnv1a_lane (inside : i < 2 ^ d) (bytes : List.Forall₂ (ReadsByte i) xs bs) :
    lane 64 i (packedFnv1a d xs) = (fnv1a bs).toNat % 2 ^ lowBits := by
  have basis : Reads i lowBits (fill 64 (1469598103934665603 % 2 ^ lowBits) d)
      ((1469598103934665603 : UInt64).toNat % 2 ^ lowBits) := by
    have value : (1469598103934665603 : UInt64).toNat = 1469598103934665603 := by decide
    rw [value]
    exact .fill (Nat.mod_lt _ (by decide)) (by decide) inside
  exact (fold_reads inside bytes basis).here

/-- The nonces from `firstNonce + s` on, one to a field. -/
def packedNonce (d s : Nat) : Nat := pack 64 (fun k => (firstNonce + k) % 2 ^ 32) d s

theorem packedNonce_reads (inside : i < 2 ^ d) (s : Nat) :
    ReadsWord i (packedNonce d s) (visitNonce (s + i)) := by
  have small : ∀ k, (firstNonce + k) % 2 ^ 32 < 2 ^ 32 := fun k => Nat.mod_lt _ (by decide)
  refine ⟨narrow_pack small (by decide) d s, ?_⟩
  rw [packedNonce, lane_pack (fun k => (small k).trans (by decide)) inside, visitNonce,
    UInt32.toNat_ofNat']

/-- The header up to the nonce, its first block apart. -/
def guestHeader : Bytes :=
  pushU32Le regtestJob.version.toNat ++ regtestJob.prevHash ++
    merkleRootFromBranches (dsha256 ((guestWork 0).coinbase guest)) regtestJob.merkleBranches ++
    pushU32Le (0x65000000 : UInt32).toNat ++ pushU32Le regtestJob.nbits.toNat

theorem guestHeader_length : guestHeader.length = 76 := by
  have previous : regtestJob.prevHash.val.length = 32 := rfl
  have root : (merkleRootFromBranches (dsha256 ((guestWork 0).coinbase guest))
      regtestJob.merkleBranches).length = 32 :=
    sha256_length _
  simp only [guestHeader, List.length_append, previous, root]
  rfl

/-- The hashes of the visits from `s` on. -/
def packedHash (d s : Nat) : List Nat :=
  (Packed.dsha256After d (guestHeader.take 64) (Packed.bytes d (guestHeader.drop 64) ++
    (Packed.beBytes d (packedNonce d s)).reverse)).reverse

theorem packedHash_reads (inside : i < 2 ^ d) (s : Nat) :
    List.Forall₂ (ReadsByte i) (packedHash d s) (visitHash (visitNonce (s + i))) := by
  have size : (guestHeader.take 64).length = 64 * 1 := by
    rw [List.length_take, guestHeader_length]; rfl
  have nonce := List.rel_reverse (beBytes_reads inside (packedNonce_reads inside s))
  have tail := List.rel_append (bytes_reads inside (guestHeader.drop 64)) nonce
  have hashed := List.rel_reverse (dsha256After_reads inside _ size tail)
  have header :
    guestHeader.take 64 ++ (guestHeader.drop 64 ++ (beBytes (visitNonce (s + i))).reverse) =
      submitHeader regtestJob ((guestWork (visitNonce (s + i))).coinbase guest) regtestJob.version
        0x65000000
        (visitNonce (s + i)) := by
    rw [← List.append_assoc, List.take_append_drop, beBytes_eq]
    rfl
  rw [header] at hashed
  exact hashed

/-- The hexadecimal digit of a number below 16 in each field. -/
def packedHexDigit (d x : Nat) : Nat :=
  x + fill 64 48 d + Packed.shr d 1 4 (x + fill 64 6 d) * 39 &&& Packed.mask d 8

def packedHex (d : Nat) (bytes : List Nat) : List Nat :=
  bytes.flatMap fun b => [packedHexDigit d (Packed.shr d 4 4 b),
    packedHexDigit d (Packed.shr d 4 0 b)]

theorem packedHexDigit_reads (inside : i < 2 ^ d) (small : n < 16) (read : Reads i 4 x n) :
    ReadsByte i (packedHexDigit d x) (hexDigit n) := by
  have digit : ∀ n < 16, (n + 48 + (n + 6) >>> 4 % 2 ^ 1 * 39) % 2 ^ 8 = (hexDigit n).toNat := by
    decide
  have wide : Reads i 7 x n := ⟨read.narrow.mono (by decide), read.here⟩
  have letter := (Reads.shr inside (r := 4) (b := 1) (by decide)
    (read.add (.fill (v := 6) (by decide) (by decide) inside) (by decide)).here).mul (k := 39)
      (c := 8) (by decide) (by decide) (by decide)
  have sum :=
    (wide.add (.fill (v := 48) (by decide) (by decide) inside) (by decide)).add letter (by decide)
  rw [ReadsByte, ← digit n small]
  exact .reduce inside (by decide) sum.here

theorem packedHex_reads (inside : i < 2 ^ d) (bytes : List.Forall₂ (ReadsByte i) xs bs) :
    List.Forall₂ (ReadsByte i) (packedHex d xs) (hexEncode bs) := by
  refine List.rel_flatMap bytes ?_
  intro x b byte
  have high := Reads.shr inside (r := 4) (b := 4) (by decide) byte.here
  have low := Reads.shr inside (r := 0) (b := 4) (by decide) byte.here
  have less : b.toNat / 2 ^ 4 < 2 ^ 4 := Nat.div_lt_of_lt_mul b.toNat_lt
  rw [Nat.shiftRight_eq_div_pow, Nat.mod_eq_of_lt less] at high
  exact .cons (packedHexDigit_reads inside less high)
    (.cons (packedHexDigit_reads inside (Nat.mod_lt _ (by decide)) low) .nil)

def packedText (d s : Nat) : List Nat :=
  Packed.bytes d (ascii "1|0000000000000000|65000000|") ++
    packedHex d (Packed.beBytes d (packedNonce d s)) ++
    Packed.bytes d (ascii "|20000000")

theorem guestKey_eq (nonce : UInt32) : guestKey nonce =
    fnv1a (ascii "1|0000000000000000|65000000|" ++ hexEncode (beBytes nonce) ++
      ascii "|20000000") := by
  have before :
    regtestJob.jobId ++ [124] ++ ascii "0000000000000000" ++ [124] ++ ascii "65000000" ++ [124] =
      ascii "1|0000000000000000|65000000|" := rfl
  have behind : [124] ++ hex8 regtestJob.version = ascii "|20000000" := rfl
  have sizes :
      (ascii "1|0000000000000000|65000000|").length = 28 ∧ (ascii "|20000000").length = 9 :=
    ⟨rfl, rfl⟩
  have short : (ascii "1|0000000000000000|65000000|" ++ hexEncode (beBytes nonce) ++
      ascii "|20000000").length ≤ 256 - 1 := by
    rw [List.length_append, List.length_append, sizes.1, sizes.2]
    simp [beBytes_eq, hexEncode]
  have text := snprintf_of_le short
  rw [← before, ← behind, ← List.append_assoc] at text ⊢
  rw [← text]
  rfl

theorem packedText_lane (inside : i < 2 ^ d) (s : Nat) :
    lane 64 i (packedFnv1a d (packedText d s)) =
      (guestKey (visitNonce (s + i))).toNat % 2 ^ lowBits := by
  rw [guestKey_eq]
  exact packedFnv1a_lane inside (List.rel_append (List.rel_append (bytes_reads inside _)
    (packedHex_reads inside (beBytes_reads inside (packedNonce_reads inside s))))
      (bytes_reads inside _))

def spread (keys : Nat → Nat → Nat) (d d' : Nat) : Nat :=
  marks 64 d (keys d 0) ||| marks 64 d' (keys d' (2 ^ d))

def hashMarks (d d' : Nat) : Nat := spread (fun d s => packedFnv1a d (packedHash d s)) d d'

def textMarks (d d' : Nat) : Nat := spread (fun d s => packedFnv1a d (packedText d s)) d d'

theorem textMarks_nonzero : (textMarks 14 11).testBit 0 = false := by
  decide +kernel

section Marks

variable {d d' : Nat}

theorem testBit_spread {keys : Nat → Nat → Nat} (value : Nat → Nat)
    (lanes : ∀ d s i, i < 2 ^ d → lane 64 i (keys d s) = value (s + i)) (v : Nat) :
    (spread keys d d').testBit v = true ↔ ∃ k < 2 ^ d + 2 ^ d', value k = v := by
  rw [spread, Nat.testBit_or, Bool.or_eq_true, testBit_marks, testBit_marks]
  constructor
  · rintro (⟨i, inside, rfl⟩ | ⟨i, inside, rfl⟩)
    · exact ⟨i, Nat.lt_add_right _ inside, by rw [lanes d 0 i inside, Nat.zero_add]⟩
    · exact ⟨2 ^ d + i, by omega, by rw [lanes d' _ i inside]⟩
  · rintro ⟨k, inside, rfl⟩
    by_cases first : k < 2 ^ d
    · exact .inl ⟨k, first, by rw [lanes d 0 k first, Nat.zero_add]⟩
    · have rest : k - 2 ^ d < 2 ^ d' := by omega
      have whole : 2 ^ d + (k - 2 ^ d) = k := by omega
      exact .inr ⟨k - 2 ^ d, rest, by rw [lanes d' _ _ rest, whole]⟩

theorem testBit_hashMarks (v : Nat) : (hashMarks d d').testBit v = true ↔
    ∃ k < 2 ^ d + 2 ^ d', (fnv1a (visitHash (visitNonce k))).toNat % 2 ^ lowBits = v :=
  testBit_spread (fun k => (fnv1a (visitHash (visitNonce k))).toNat % 2 ^ lowBits)
    (fun _ s _ inside => packedFnv1a_lane inside (packedHash_reads inside s)) v

/-- Without a zero among the low bits, no visitor is refused by its own filter, -/
theorem guestKey_ne_zero (nonzero : (textMarks d d').testBit 0 = false)
    (inside : k < 2 ^ d + 2 ^ d') :
    guestKey (visitNonce k) ≠ 0 := by
  intro zero
  have marked : (textMarks d d').testBit 0 = true :=
    (testBit_spread (fun k => (guestKey (visitNonce k)).toNat % 2 ^ lowBits)
      (fun _ s _ inside => packedText_lane inside s) 0).mpr ⟨k, inside, by rw [zero]; rfl⟩
  rw [nonzero] at marked
  contradiction

/-- and none of the hashes has the key 0. -/
theorem dedupeKey_visit (nonzero : (hashMarks d d').testBit 0 = false)
    (inside : k < 2 ^ d + 2 ^ d') :
    dedupeKey (fnv1a (visitHash (visitNonce k))) = fnv1a (visitHash (visitNonce k)) := by
  rw [dedupeKey, if_neg]
  intro zero
  have marked : (hashMarks d d').testBit 0 = true :=
    (testBit_hashMarks 0).mpr ⟨k, inside, by rw [zero]; rfl⟩
  rw [nonzero] at marked
  contradiction

theorem mem_visitKeys :
    key ∈ visitKeys n ↔ ∃ k < n, dedupeKey (fnv1a (visitHash (visitNonce k))) = key := by
  simp only [visitKeys, List.mem_map, List.mem_range]

theorem tally_le_visitKeys (nonzero : (hashMarks d d').testBit 0 = false) :
    tally 1 lowBits (hashMarks d d') ≤ (visitKeys (2 ^ d + 2 ^ d')).toFinset.card := by
  have covered : (Finset.range (2 ^ lowBits)).filter (fun v => (hashMarks d d').testBit v = true) ⊆
      (visitKeys (2 ^ d + 2 ^ d')).toFinset.image (fun key => key.toNat % 2 ^ lowBits) := by
    intro v member
    obtain ⟨k, inside, low⟩ := (testBit_hashMarks v).mp (Finset.mem_filter.mp member).2
    rw [Finset.mem_image]
    refine ⟨_, List.mem_toFinset.mpr (mem_visitKeys.mpr ⟨k, inside, rfl⟩), ?_⟩
    rw [dedupeKey_visit nonzero inside]
    exact low
  rw [tally_one]
  exact (Finset.card_le_card covered).trans Finset.card_image_le

theorem not_mem_visitKeys (nonzero : (hashMarks d d').testBit 0 = false) {key : UInt64}
    (unmarked : (hashMarks d d').testBit (key.toNat % 2 ^ lowBits) = false) :
    key ∉ visitKeys (2 ^ d + 2 ^ d') := by
  intro member
  obtain ⟨k, inside, rfl⟩ := mem_visitKeys.mp member
  rw [dedupeKey_visit nonzero inside] at unmarked
  have marked := (testBit_hashMarks _).mpr ⟨k, inside, rfl⟩
  rw [unmarked] at marked
  contradiction

end Marks

theorem handleSubmit_credits (reaches : Reaches fp env s c params w)
    (unseen : dedupeKey (fnv1a (w.hash c)) ∉ s.shareDedupe.recent)
    (judged : (judge fp c w.job (w.hash c)).isSome = true) :
    ∃ share, Observed.share share ∈ (handleSubmit fp env s c params).observed ∧
    share.hash = hexEncode (w.hash c) := by
  rcases handleSubmit_cases fp env s c params with ⟨w', r, found, rendered, done⟩ | ⟨unreached, _⟩
  · obtain rfl := reaches.unique found
    rw [done]
    rcases submitHash_cases rendered fp env s with ⟨seen, _⟩ | ⟨_, ⟨low, _⟩ | ⟨verdict, _, out⟩⟩
    · exact absurd seen unseen
    · rw [low] at judged
      contradiction
    · rw [out]
      exact ⟨_, credit_share.mpr rfl, rfl⟩
  · exact absurd reaches (unreached w)

def firstLog : CreditLog :=
  (run (CreditLog.step .exact) (.start soloCfg 0) creditFirst).getD (.start soloCfg 0)

def firstConn : Conn := (firstLog.pool.conns 0).getD arrived

/-- The same share, with the digits of its nonce in capitals. -/
def againWork : Work :=
  { guestWork 10 with
    sub := ⟨some (ascii "1"), some (ascii "0000000000000000"), some (ascii "65000000"),
      some (ascii "0000000A"), none⟩
    parts := firstConn.cb }

def creditedKey : UInt64 := dedupeKey (fnv1a (againWork.hash firstConn))

theorem firstLog_facts :
    (run (CreditLog.step .exact) (.start soloCfg 0) creditFirst).isSome = true ∧
    firstLog.pool.server.shareDedupe.recent = [creditedKey] ∧
    firstLog.credited = [⟨regtestJob.jobId, hexEncode (againWork.hash firstConn), 0⟩] ∧
    (firstLog.pool.conns 1).isNone = true ∧ (firstLog.pool.conns 0).isSome = true ∧
    (judge .exact firstConn againWork.job (againWork.hash firstConn)).isSome = true ∧
    firstConn.remembers (submitKey againWork.job.jobId againWork.sub againWork.version) = false ∧
    coinbaseFor .exact soloCfg firstConn againWork.job = some againWork.parts ∧
    firstConn.authorized = true ∧
    creditedKey.toNat % 2 ^ lowBits = 11090 := by
  decide +kernel

theorem again_reaches (seq : UInt32) (authFail : Nat → AuthFailEntry) (table : DedupeTable) :
    Reaches .exact soloEnv (soloServer seq authFail table) firstConn
      (soloRequest "mining.submit" (soloSubmit "0000000A")).params againWork := by
  obtain ⟨_, _, _, _, _, _, unseen, parts, authorized, _⟩ := firstLog_facts
  have decoded : Decoded .exact soloCfg firstConn againWork :=
    ⟨rfl, unseen, rfl, rfl, guest_inRange, rfl, List.length_replicate, parts⟩
  exact ⟨decoded, authorized, rfl, rfl, rfl, rfl⟩

theorem settled_run {p q : Pool} (settled : p.Settled)
    (quiet : ∀ event ∈ events, event.quiet = true)
    (ran : run (Pool.step fp) p events = some q) : q.Settled := by
  induction events generalizing p with
  | nil =>
    obtain rfl := Option.some.inj ran
    exact settled
  | cons event rest ih =>
    obtain ⟨next, stepped, later⟩ := Option.bind_eq_some_iff.mp ran
    have still := step_settled settled (quiet event List.mem_cons_self) stepped
    exact ih still (fun event inside => quiet event (List.mem_cons_of_mem _ inside)) later

theorem creditLog_pool {l after : CreditLog} (ran : run (CreditLog.step fp) l events = some after) :
    run (Pool.step fp) l.pool events = some after.pool := by
  induction events generalizing l with
  | nil =>
    obtain rfl := Option.some.inj ran
    rfl
  | cons event rest ih =>
    obtain ⟨next, stepped, later⟩ := Option.bind_eq_some_iff.mp ran
    obtain ⟨q, moved, rfl⟩ := Option.map_eq_some_iff.mp stepped
    rw [run, moved]
    exact ih later

theorem firstLog_run : run (CreditLog.step .exact) (.start soloCfg 0) creditFirst = some firstLog :=
  eq_some_getD firstLog_facts.1 _

theorem firstLog_settled : firstLog.pool.Settled := by
  obtain ⟨p, stepped, later⟩ := Option.bind_eq_some_iff.mp (creditLog_pool firstLog_run)
  obtain rfl := Option.some.inj stepped
  refine settled_run ⟨rfl, rfl⟩ ?_ later
  simp [soloMessage, Event.quiet]

theorem flood_quiet (n : Nat) : ∀ event ∈ flood n, event.quiet = true := by
  have once : ∀ nonce, ∀ event ∈ visit nonce, event.quiet = true := by
    simp [visit, guestMessage, Event.quiet]
  induction n with
  | zero => exact fun _ => nofun
  | succ n ih =>
    intro event member
    rcases List.mem_append.mp member with earlier | last
    · exact ih event earlier
    · exact once _ event last

/-- As many visits as the filter has places, each with a key of its own and none with that
of the credited share, have it credited again. -/
theorem credited_after_flood (n : Nat) (fresh : ∀ k < n, guestKey (visitNonce k) ≠ 0)
    (many : shareDedupeRing ≤ (visitKeys n).toFinset.card) (apart : creditedKey ∉ visitKeys n) :
    ¬Along (CreditLog.step .exact) (fun before event _ => CreditedOnce .exact before event)
      (.start soloCfg 0)
      (creditFirst ++ (flood n ++ [soloMessage "mining.submit" (soloSubmit "0000000A")])) := by
  intro along
  obtain ⟨_, recent, credited, free, there, judged, _⟩ := firstLog_facts
  have holds : firstLog.Holds (hexEncode (againWork.hash firstConn)) :=
    ⟨_, credited ▸ List.mem_singleton_self _, rfl, rfl⟩
  have flooded := flood_run firstLog_settled (Option.isNone_iff_eq_none.mp free) n fresh
  obtain ⟨before, ran, pool, old, inside, named, _⟩ :=
    holds_run firstLog_settled (flood_quiet n) flooded holds
  have spec := flooded_spec firstLog.pool.server n
  have settled : before.pool.Settled := by
    rw [pool]
    exact ⟨spec.cfg.trans firstLog_settled.cfg, spec.jobs.trans firstLog_settled.jobs⟩
  have forgotten : creditedKey ∉ before.pool.server.shareDedupe.recent := by
    rw [pool, spec.recent, recent]
    refine BoundedFifo.feed_forgets (by decide) ?_ many (List.mem_singleton_self creditedKey)
    intro key member
    rw [List.mem_singleton.mp member]
    exact apart
  have here : before.pool.conns 0 = some firstConn := by
    obtain ⟨c, found⟩ := Option.isSome_iff_exists.mp there
    rw [pool, firstConn, found]
    rfl
  have reaches := again_reaches before.pool.server.extranonce1Seq before.pool.server.authFail
    before.pool.server.shareDedupe
  rw [← settled.server] at reaches
  obtain ⟨share, member, same⟩ := handleSubmit_credits reaches forgotten judged
  have submit : methodOf (soloRequest "mining.submit" (soloSubmit "0000000A")).method = .submit :=
    rfl
  have new : ⟨regtestJob.jobId, share.hash, 0⟩ ∈ creditedNow .exact before.pool
      (soloMessage "mining.submit" (soloSubmit "0000000A")) := by
    rw [soloMessage, creditedNow, here]
    dsimp only
    rw [handleMessage, submit]
    exact mem_creditsOf.mpr ⟨share, member, rfl⟩
  obtain ⟨after, stepped⟩ : ∃ after,
      before.step .exact (soloMessage "mining.submit" (soloSubmit "0000000A")) = some after := by
    rw [soloMessage, CreditLog.step, Pool.step, here]
    exact ⟨_, rfl⟩
  obtain ⟨once, _⟩ := ((along.after firstLog_run).after ran) after stepped
  exact once _ new old inside (same.trans named.symm)

theorem hashMarks_facts : shareDedupeRing ≤ tally 1 lowBits (hashMarks 14 11) ∧
    (hashMarks 14 11).testBit 0 = false ∧ (hashMarks 14 11).testBit 11090 = false := by
  decide +kernel

/-- A share is credited, 18432 visitors pass through, and the share is credited again while
its job is still the current one. -/
theorem hash_credited_twice :
    ¬Along (CreditLog.step .exact) (fun before event _ => CreditedOnce .exact before event)
      (.start soloCfg 0)
      (creditFirst ++
        (flood (2 ^ 14 + 2 ^ 11) ++ [soloMessage "mining.submit" (soloSubmit "0000000A")])) := by
  obtain ⟨many, nonzero, unmarked⟩ := hashMarks_facts
  obtain ⟨_, _, _, _, _, _, _, _, _, low⟩ := firstLog_facts
  rw [← low] at unmarked
  exact credited_after_flood _ (fun k inside => guestKey_ne_zero textMarks_nonzero inside)
    (many.trans (tally_le_visitKeys nonzero)) (not_mem_visitKeys nonzero unmarked)

end SimplePool.Stratum
