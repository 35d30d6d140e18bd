import SimplePool.Stratum.Submit

/-! What it takes for a mining.submit to be credited, stated without the order in
which the handler finds out. -/
namespace SimplePool.Stratum
open Wire Coinbase Crypto

def hexValue : List Nat → Nat
  | [] => 0
  | digit :: rest => hexValue rest + 16 ^ rest.length * digit

/-- A text of eight hex digits, with the number it spells. -/
def Hex8 (text : Option Bytes) (value : UInt32) : Prop :=
  ∃ digits spelled, text = some spelled ∧ spelled.length = 8 ∧
  spelled.mapM hexNibble = some digits ∧
    value = UInt32.ofNat (hexValue digits)

/-- Digits two by two. -/
def pairUp : List Nat → Bytes
  | hi :: lo :: rest => UInt8.ofNat (hi * 16 + lo) :: pairUp rest
  | _ => []

theorem hexNibble_lt (read : hexNibble c = some digit) : digit < 16 := by
  rw [hexNibble] at read
  split_ifs at read with decimal lower upper
  · obtain rfl := Option.some.inj read
    have := UInt8.le_iff_toNat_le.mp decimal.2
    simp at this
    omega
  · obtain rfl := Option.some.inj read
    have := UInt8.le_iff_toNat_le.mp lower.2
    simp at this
    omega
  · obtain rfl := Option.some.inj read
    have := UInt8.le_iff_toNat_le.mp upper.2
    simp at this
    omega

theorem hexPairs_eq_pairUp :
    ∀ {hex : Bytes}, hex.length % 2 = 0 → hexPairs hex = (hex.mapM hexNibble).map pairUp
  | [], _ => rfl
  | [_], odd => by simp at odd
  | hi :: lo :: rest, even => by
    have shorter : rest.length % 2 = 0 := by
      simp only [List.length_cons] at even
      omega
    rw [hexPairs, hexPairs_eq_pairUp shorter]
    simp only [List.mapM_cons]
    cases hexNibble hi with
    | none => rfl
    | some high =>
      cases hexNibble lo with
      | none => rfl
      | some low =>
        cases rest.mapM hexNibble with
        | none => rfl
        | some digits => rfl

theorem pairUp_length :
    ∀ {digits : List Nat}, digits.length % 2 = 0 → 2 * (pairUp digits).length = digits.length
  | [], _ => rfl
  | [_], odd => by simp at odd
  | hi :: lo :: rest, even => by
    have shorter : rest.length % 2 = 0 := by
      simp only [List.length_cons] at even
      omega
    have half := pairUp_length shorter
    simp only [pairUp, List.length_cons]
    omega

theorem beValue_pairUp :
    ∀ {digits : List Nat}, digits.length % 2 = 0 → (∀ digit ∈ digits, digit < 16) →
    beValue (pairUp digits) = hexValue digits
  | [], _, _ => rfl
  | [_], odd, _ => by simp at odd
  | hi :: lo :: rest, even, small => by
    have shorter : rest.length % 2 = 0 := by
      simp only [List.length_cons] at even
      omega
    have high := small hi (by simp)
    have low := small lo (by simp)
    have byte : (UInt8.ofNat (hi * 16 + lo)).toNat = hi * 16 + lo := by
      rw [UInt8.toNat_ofNat']
      omega
    have weight : 256 ^ (pairUp rest).length = 16 ^ rest.length := by
      rw [← pairUp_length shorter, pow_mul]
      norm_num
    rw [pairUp, beValue_cons, byte, weight,
      beValue_pairUp shorter fun digit member => small digit (by simp [member]),
      hexValue, hexValue, List.length_cons, pow_succ]
    ring

theorem mapM_hexNibble_lt {spelled : Bytes} (read : spelled.mapM hexNibble = some digits) :
    ∀ digit ∈ digits, digit < 16 := by
  induction spelled generalizing digits with
  | nil =>
    obtain rfl := Option.some.inj read
    simp
  | cons c rest ih =>
    simp only [List.mapM_cons, Option.bind_eq_bind, Option.bind_eq_some_iff] at read
    obtain ⟨first, here, more, there, same⟩ := read
    obtain rfl := Option.some.inj same
    intro digit member
    rcases List.mem_cons.mp member with rfl | later
    · exact hexNibble_lt here
    · exact ih there digit later

theorem mapM_length {f : α → Option β} (read : List.mapM f xs = some ys) :
    ys.length = xs.length := by
  induction xs generalizing ys with
  | nil =>
    obtain rfl := Option.some.inj read
    rfl
  | cons x rest ih =>
    simp only [List.mapM_cons, Option.bind_eq_bind, Option.bind_eq_some_iff] at read
    obtain ⟨_, _, more, there, same⟩ := read
    obtain rfl := Option.some.inj same
    rw [List.length_cons, List.length_cons, ih there]

/-- The reader accepts eight hex digits and nothing else. -/
theorem parseU32Hex_iff : parseU32Hex hex = some value ↔ Hex8 hex value := by
  cases hex with
  | none => simp [parseU32Hex, hexToBytes, Hex8]
  | some spelled =>
    simp only [parseU32Hex, hexToBytes, Option.bind_some]
    by_cases size : spelled.length = 8
    · have even : spelled.length % 2 = 0 := by omega
      simp only [size, ne_eq, not_true_eq_false, if_false, hexPairs_eq_pairUp even, Option.map_map]
      constructor
      · intro read
        obtain ⟨digits, spelledOut, same⟩ := Option.map_eq_some_iff.mp read
        have count := mapM_length spelledOut
        refine ⟨digits, spelled, rfl, size, spelledOut, ?_⟩
        rw [← same, Function.comp_apply, beValue_pairUp (by omega) (mapM_hexNibble_lt spelledOut)]
      · rintro ⟨digits, _, same, _, spelledOut, rfl⟩
        obtain rfl := Option.some.inj same
        have count := mapM_length spelledOut
        rw [spelledOut, Option.map_some, Function.comp_apply,
          beValue_pairUp (by omega) (mapM_hexNibble_lt spelledOut)]
    · simp only [ne_eq, size, not_false_eq_true, if_true, Option.map_none, reduceCtorEq, false_iff]
      rintro ⟨_, _, same, length, _⟩
      exact size (Option.some.inj same ▸ length)

/-- The header version: the job's, or the job's with the miner's bits inside the mask. -/
def Rolls (c : Conn) (job : Job) (version : UInt32) : Option Json → Prop
  | none => version = job.version
  | some v => ∃ rolled mask, Hex8 v.valuestring rolled ∧
      mask = (if c.versionMask = 0 then versionRollingMask else c.versionMask) ∧
      version = (job.version &&& ~~~mask) ||| (rolled &&& mask)

/-- The work a request stands for, when everything but its hash is in order. -/
structure Acceptable (fp : Fpu) (env : Env) (s : Server) (c : Conn) (params : Json) (w : Work) :
    Prop where
  authorized : c.authorized = true
  paced : (submitRateExceeded s.cfg c env.mono).1 = false
  ungated : ppsGated s.cfg env = false
  submission : params.submission = some w.sub
  job : findJob s.jobs w.sub.jobId = some w.job
  ntime : Hex8 w.sub.ntime w.ntime
  nonce : Hex8 w.sub.nonce w.nonce
  version : Rolls c w.job w.version w.sub.version
  unseen : ∀ i < dedupeRing, c.dedupe i ≠ submitKey w.job.jobId w.sub w.version
  uncounted : dedupeKey (fnv1a (w.hash c)) ∉ s.shareDedupe.recent
  early : (w.job.ntime.toNat : Int) - 600 ≤ w.ntime.toNat
  late : (w.ntime.toNat : Int) ≤ w.job.ntime.toNat + 7200
  en2 : hexToBytesAlloc w.sub.en2 = some w.en2
  en2Size : w.en2.length = w.job.en2Size
  parts : coinbaseFor fp s.cfg c w.job = some w.parts

def MeetsNetwork (c : Conn) (w : Work) : Prop := beValue (w.hash c) ≤ beValue w.job.networkTarget

def MeetsDifficulty (fp : Fpu) (c : Conn) (w : Work) (diff : ℚ) : Prop :=
  beValue (w.hash c) < beValue (workerDiffToTarget fp diff)

/-- The hash is good enough for one of the three targets. -/
def MeetsTarget (fp : Fpu) (c : Conn) (w : Work) : Prop :=
  MeetsNetwork c w ∨ MeetsDifficulty fp c w (assignedDiff c w.job) ∨
    c.difficulty < assignedDiff c w.job ∧ MeetsDifficulty fp c w c.difficulty

/-- A difficulty that the hash met. -/
def Earned (fp : Fpu) (c : Conn) (w : Work) (diff : WithTop ℚ) : Prop :=
  diff = assignedDiff c w.job ∧ MeetsDifficulty fp c w (assignedDiff c w.job) ∨
  diff = c.difficulty ∧ c.difficulty < assignedDiff c w.job ∧ MeetsDifficulty fp c w c.difficulty ∨
  diff = targetToDiff fp w.job.networkTarget ∧ MeetsNetwork c w

theorem submitVersion_iff :
    submitVersion c job sub = some version ↔ Rolls c job version sub.version := by
  rw [submitVersion]
  cases sub.version with
  | none => simp only [Rolls, Option.some.injEq, eq_comm]
  | some v =>
    have mask : (if c.versionMask ≠ 0 then c.versionMask else versionRollingMask) =
        if c.versionMask = 0 then versionRollingMask else c.versionMask := ite_not ..
    simp only [Rolls, mask, Option.map_eq_some_iff]
    constructor
    · rintro ⟨rolled, read, rfl⟩
      exact ⟨rolled, _, parseU32Hex_iff.mp read, rfl, rfl⟩
    · rintro ⟨rolled, _, spelled, rfl, rfl⟩
      exact ⟨rolled, parseU32Hex_iff.mpr spelled, rfl⟩

theorem remembers_iff (c : Conn) (h : UInt64) :
    c.remembers h = false ↔ ∀ i < dedupeRing, c.dedupe i ≠ h := by
  simp [Conn.remembers]

theorem ntimeInRange_iff (job : Job) (ntime : UInt32) : ntimeInRange job ntime = true ↔
    (job.ntime.toNat : Int) - 600 ≤ ntime.toNat ∧ (ntime.toNat : Int) ≤ job.ntime.toNat + 7200 := by
  simp only [ntimeInRange, ntimeMaxForwardRoll, ntimeMaxBackwardRoll, Bool.not_eq_true',
    Bool.or_eq_false_iff]
  constructor
  · rintro ⟨late, early⟩
    exact ⟨not_lt.mp (of_decide_eq_false early), not_lt.mp (of_decide_eq_false late)⟩
  · rintro ⟨early, late⟩
    exact ⟨decide_eq_false (not_lt.mpr late), decide_eq_false (not_lt.mpr early)⟩

/-- The checks before the hash, and its absence from the server-wide table, are the
conditions of the specification. -/
theorem acceptable_iff : Acceptable fp env s c params w ↔
    Reaches fp env s c params w ∧ dedupeKey (fnv1a (w.hash c)) ∉ s.shareDedupe.recent := by
  constructor
  · intro a
    exact ⟨⟨⟨submitVersion_iff.mpr a.version, (remembers_iff _ _).mpr a.unseen,
        parseU32Hex_iff.mpr a.ntime,
      parseU32Hex_iff.mpr a.nonce, (ntimeInRange_iff _ _).mpr ⟨a.early, a.late⟩, a.en2, a.en2Size,
      a.parts⟩, a.authorized, a.paced, a.submission, a.ungated, a.job⟩, a.uncounted⟩
  · rintro ⟨r, uncounted⟩
    obtain ⟨early, late⟩ := (ntimeInRange_iff _ _).mp r.inRange
    exact {
      authorized := r.authorized
      paced := r.paced
      ungated := r.ungated
      submission := r.submission
      job := r.job
      ntime := parseU32Hex_iff.mp r.ntime
      nonce := parseU32Hex_iff.mp r.nonce
      version := submitVersion_iff.mp r.version
      unseen := (remembers_iff _ _).mp r.unseen
      uncounted := uncounted
      early := early
      late := late
      en2 := r.en2
      en2Size := r.en2Size
      parts := r.parts }

theorem workerDiffToTarget_length (fp : Fpu) (diff : ℚ) :
    (workerDiffToTarget fp diff).length = 32 := by
  simp only [workerDiffToTarget, easiestTarget]
  split_ifs <;> simp

/-- Comparisons of a hash with a target of its length are comparisons of numbers. -/
theorem be32Cmp_hash_lt (header target : Bytes) (size : target.length = 32) :
    be32Cmp (hashHeader header) target = .lt ↔ beValue (hashHeader header) < beValue target := by
  rw [be32Cmp_eq_compare ((hashHeader_length header).trans size.symm), Nat.compare_eq_lt]

theorem be32Cmp_hash_le (header target : Bytes) (size : target.length = 32) :
    be32Cmp (hashHeader header) target ≠ .gt ↔ beValue (hashHeader header) ≤ beValue target := by
  rw [be32Cmp_eq_compare ((hashHeader_length header).trans size.symm), ne_eq, Nat.compare_eq_gt,
    not_lt]

/-- The verdict: a low-difficulty refusal means that no target is met, and a credit is
at a difficulty the hash met. -/
theorem judge_spec (fp : Fpu) (c : Conn) (w : Work) :
    match judge fp c w.job (w.hash c) with
    | none => ¬MeetsTarget fp c w
    | some verdict => MeetsTarget fp c w ∧ Earned fp c w verdict.shareDiff := by
  have network : be32Cmp (w.hash c) w.job.networkTarget ≠ .gt ↔ MeetsNetwork c w :=
    be32Cmp_hash_le _ _ w.job.networkTarget.2
  have worker :
      ∀ diff, be32Cmp (w.hash c) (workerDiffToTarget fp diff) = .lt ↔ MeetsDifficulty fp c w diff :=
    fun diff => be32Cmp_hash_lt _ _ (workerDiffToTarget_length fp diff)
  have unmet := fun diff => (worker diff).not
  have beyond := network.not
  rw [not_not] at beyond
  simp only [judge, MeetsTarget, Earned]
  by_cases meets : MeetsDifficulty fp c w (assignedDiff c w.job)
  · simp [(worker _).mpr meets, meets]
  · by_cases lower : c.difficulty < assignedDiff c w.job ∧ MeetsDifficulty fp c w c.difficulty
    · simp [(unmet _).mpr meets, meets, lower.1, (worker _).mpr lower.2, lower.2]
    · -- neither difficulty is met, so the network target decides alone
      have neither : (decide (c.difficulty < assignedDiff c w.job) &&
          decide (be32Cmp (w.hash c) (workerDiffToTarget fp c.difficulty) = .lt)) = false := by
        rw [Bool.and_eq_false_iff, decide_eq_false_iff_not, decide_eq_false_iff_not, worker]
        exact not_and_or.mp lower
      by_cases block : MeetsNetwork c w
      · simp [(unmet _).mpr meets, neither, network.mpr block, block]
      · simp [(unmet _).mpr meets, neither, beyond.mpr block, block, meets, lower]

/-- A request stands for one piece of work at most. -/
theorem Reaches.unique (first : Reaches fp env s c params w)
    (second : Reaches fp env s c params w') : w' = w := by
  obtain ⟨sub, job, version, ntime, nonce, en2, parts⟩ := w
  obtain ⟨sub', job', version', ntime', nonce', en2', parts'⟩ := w'
  obtain rfl := Option.some.inj (first.submission.symm.trans second.submission)
  obtain rfl := Option.some.inj (first.job.symm.trans second.job)
  obtain rfl := Option.some.inj (first.version.symm.trans second.version)
  obtain rfl := Option.some.inj (first.ntime.symm.trans second.ntime)
  obtain rfl := Option.some.inj (first.nonce.symm.trans second.nonce)
  obtain rfl := Option.some.inj (first.en2.symm.trans second.en2)
  obtain rfl := Option.some.inj (first.parts.symm.trans second.parts)
  rfl

theorem credit_share {hash : Bytes} :
    Observed.share share ∈ (credit fp env s r job coinbase header hash verdict).observed ↔
    share = ⟨r.workerName, r.payoutAddress, env.now, verdict.shareDiff, verdict.isBlock,
      hexEncode hash⟩ := by
  simp only [credit]
  constructor
  · intro member
    rcases List.mem_append.mp member with before | here
    · split_ifs at before <;> simp at before
    · rcases List.mem_cons.mp here with same | after
      · exact Observed.share.inj same
      · split_ifs at after <;> simp at after
  · rintro rfl
    simp

theorem credit_unrefused {hash : Bytes} (code : Nat) (message : String) :
    Line.error code message ∉ (credit fp env s r job coinbase header hash verdict).lines := by
  have lines : ∀ (cfg : Cfg) (jobs : Jobs) (c : Conn) (now : UInt64),
      Line.error code message ∉ (vardiffMaybeRetarget fp cfg jobs c now).2 := by
    intro cfg jobs c now
    simp only [vardiffMaybeRetarget]
    split_ifs <;> simp
  simp only [credit, List.mem_append, List.mem_singleton, reduceCtorEq, or_false]
  exact lines _ _ _ _

/-- A credit is for the connection as it stands, and for a hash that was not known. -/
theorem handleSubmit_share
    (credited : Observed.share share ∈ (handleSubmit fp env s c params).observed) :
    ∃ w, Reaches fp env s c params w ∧ dedupeKey (fnv1a (w.hash c)) ∉ s.shareDedupe.recent ∧
      share.workerName = c.workerName ∧ share.payoutAddress = c.payoutAddress ∧
      share.hash = hexEncode (w.hash c) := by
  rcases handleSubmit_cases fp env s c params with ⟨w, r, reaches, rendered, done⟩ | ⟨_, unhashed⟩
  · rw [done] at credited
    rcases submitHash_cases rendered fp env s with ⟨_, out⟩ | ⟨fresh, ⟨_, out⟩ | ⟨verdict, _, out⟩⟩
    · simp [out, refuseObserved] at credited
    · simp [out, refuseObserved] at credited
    · rw [out] at credited
      obtain rfl := credit_share.mp credited
      exact ⟨w, reaches, fresh, rendered.workerName, rendered.payoutAddress, rfl⟩
  · exact absurd credited (unhashed.uncredited share)

/-- A submit is credited exactly when it is acceptable and its hash meets a target; the
credit is at a difficulty the hash met; and a hash that meets the network target is not
refused for its difficulty. -/
theorem submit_credited_iff (fp : Fpu) (env : Env) (s : Server) (c : Conn) (params : Json) :
    ((∃ share, Observed.share share ∈ (handleSubmit fp env s c params).observed) ↔
      ∃ w, Acceptable fp env s c params w ∧ MeetsTarget fp c w) ∧
    (∀ share, Observed.share share ∈ (handleSubmit fp env s c params).observed →
      ∃ w, Acceptable fp env s c params w ∧ share.hash = hexEncode (w.hash c) ∧
      Earned fp c w share.difficulty) ∧
    (∀ w, Acceptable fp env s c params w → MeetsNetwork c w →
      ∀ message, Line.error 23 message ∉ (handleSubmit fp env s c params).lines) := by
  have judged := judge_spec fp c
  rcases handleSubmit_cases fp env s c params with ⟨w, r, reaches, rendered, done⟩ | ⟨unreached,
    unhashed⟩
  · have only : ∀ w', Acceptable fp env s c params w' → w' = w :=
      fun w' acceptable => reaches.unique (acceptable_iff.mp acceptable).1
    rw [done]
    rcases submitHash_cases rendered fp env s with
      ⟨seen, out⟩ | ⟨fresh, ⟨low, out⟩ | ⟨verdict, high, out⟩⟩
    · have unacceptable : ∀ w', ¬Acceptable fp env s c params w' := by
        intro w' acceptable
        obtain rfl := only w' acceptable
        exact acceptable.uncounted seen
      rw [out]
      refine ⟨?_, ?_, ?_⟩
      · simp [refuseObserved, unacceptable]
      · simp [refuseObserved]
      · simp [unacceptable]
    · have short := judged w
      rw [low] at short
      rw [out]
      refine ⟨?_, ?_, ?_⟩
      · simp only [refuseObserved, List.mem_singleton, reduceCtorEq, exists_false, false_iff]
        rintro ⟨w', acceptable, meets⟩
        obtain rfl := only w' acceptable
        exact short meets
      · simp [refuseObserved]
      · intro w' acceptable meets
        obtain rfl := only w' acceptable
        exact absurd (.inl meets) short
    · have enough := judged w
      rw [high] at enough
      have acceptable := acceptable_iff.mpr ⟨reaches, fresh⟩
      rw [out]
      refine ⟨?_, ?_, ?_⟩
      · constructor
        · intro _
          exact ⟨w, acceptable, enough.1⟩
        · intro _
          exact ⟨_, credit_share.mpr rfl⟩
      · intro share member
        obtain rfl := credit_share.mp member
        exact ⟨w, acceptable, rfl, enough.2⟩
      · intro _ _ _
        exact credit_unrefused 23
  · have unacceptable : ∀ w, ¬Acceptable fp env s c params w :=
      fun w acceptable => unreached w (acceptable_iff.mp acceptable).1
    refine ⟨?_, ?_, ?_⟩
    · constructor
      · rintro ⟨share, member⟩
        exact absurd member (unhashed.uncredited share)
      · rintro ⟨w, acceptable, _⟩
        exact absurd acceptable (unacceptable w)
    · intro share member
      exact absurd member (unhashed.uncredited share)
    · intro w acceptable
      exact absurd acceptable (unacceptable w)

end SimplePool.Stratum
