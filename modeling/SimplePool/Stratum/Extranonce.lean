import SimplePool.Stratum.Refusal

/-! Whose work is whose. The coinbases of two miners differ in the extranonce1 that
mining.subscribe hands out, and a connection that never subscribed hashes with zeros. -/
namespace SimplePool.Stratum
open Transition Wire Coinbase

structure Conn.SameSession (c c' : Conn) : Prop where
  extranonce1 : c'.extranonce1 = c.extranonce1
  subscribed : c'.subscribed = c.subscribed
  polMinDiff : c'.polMinDiff = c.polMinDiff

theorem Conn.SameSession.refl (c : Conn) : c.SameSession c := ⟨rfl, rfl, rfl⟩

theorem Conn.SameSession.trans {c c' c'' : Conn} (first : c.SameSession c')
    (second : c'.SameSession c'') :
    c.SameSession c'' where
  extranonce1 := second.extranonce1.trans first.extranonce1
  subscribed := second.subscribed.trans first.subscribed
  polMinDiff := second.polMinDiff.trans first.polMinDiff

/-- The connections agree on the session, and on the terms it is mined under. -/
structure Conn.SameTerms (c c' : Conn) : Prop extends c.SameSession c' where
  authorized : c'.authorized = c.authorized
  difficulty : c'.difficulty = c.difficulty
  polVardiffMin : c'.polVardiffMin = c.polVardiffMin

theorem Conn.SameTerms.refl (c : Conn) : c.SameTerms c := ⟨.refl c, rfl, rfl, rfl⟩

theorem Conn.SameTerms.trans {c c' c'' : Conn} (first : c.SameTerms c')
    (second : c'.SameTerms c'') : c.SameTerms c'' where
  toSameSession := first.toSameSession.trans second.toSameSession
  authorized := second.authorized.trans first.authorized
  difficulty := second.difficulty.trans first.difficulty
  polVardiffMin := second.polVardiffMin.trans first.polVardiffMin

section Session

variable {fp : Fpu} {cfg : Cfg} {jobs : Jobs} {env : Env} {s : Server} {c : Conn}

theorem applyRequestedDiff_sameSession (req : WithTop ℚ) :
    c.SameSession (applyRequestedDiff fp cfg jobs c req) := by
  simp only [applyRequestedDiff]
  split_ifs <;> exact ⟨rfl, rfl, rfl⟩

theorem connRenderCoinbase_sameTerms (rendered : connRenderCoinbase fp cfg c job = some r) :
    c.SameTerms r := by
  rw [connRenderCoinbase_eq rendered]
  exact ⟨⟨rfl, rfl, rfl⟩, rfl, rfl, rfl⟩

theorem connRecordJobDifficulty_sameTerms (jobId : Bytes) (difficulty : ℚ) :
    c.SameTerms (connRecordJobDifficulty c jobId difficulty) := by
  rw [connRecordJobDifficulty]
  split_ifs
  · exact .refl c
  · split <;> exact ⟨⟨rfl, rfl, rfl⟩, rfl, rfl, rfl⟩

theorem sendCurrentNotify_sameTerms (clean : Bool) :
    c.SameTerms (sendCurrentNotify fp cfg jobs c clean).1 := by
  rw [sendCurrentNotify]
  split
  next => exact .refl c
  next job _ =>
    split
    next => exact .refl c
    next r rendered =>
      exact (connRenderCoinbase_sameTerms rendered).trans (connRecordJobDifficulty_sameTerms ..)

theorem notifyConn_sameTerms (clean : Bool) : c.SameTerms (notifyConn fp cfg jobs clean c) := by
  rw [notifyConn]
  split_ifs
  · exact sendCurrentNotify_sameTerms clean
  · exact .refl c

theorem Conn.authorize_sameSession (worker : Bytes) (pwDiff : WithTop ℚ) :
    c.SameSession (c.authorize fp s env worker pwDiff) := by
  unfold Conn.authorize
  extract_lets named req asked
  have fresh : c.SameSession named := ⟨rfl, rfl, rfl⟩
  have still : c.SameSession asked := by
    unfold asked
    split_ifs
    · exact fresh.trans (applyRequestedDiff_sameSession req)
    · exact fresh
  exact still.trans ⟨rfl, rfl, rfl⟩

theorem Counted.sameSession {s s' : Server} {c c' : Conn} (counted : Counted s c s' c') :
    c.SameSession c' := by
  rw [counted.conn]
  exact ⟨rfl, rfl, rfl⟩

theorem handleAuthorize_sameSession (params : Json) :
    c.SameSession (handleAuthorize fp env s c params).conn := by
  cases handleAuthorize_answer fp env s c params with
  | granted s' c' worker pwDiff counted server conn lines =>
    rw [conn]
    exact (counted.sameSession.trans (Conn.authorize_sameSession worker pwDiff)).trans
      (sendCurrentNotify_sameTerms true).toSameSession
  | refused code message lines counted =>
    refine .trans ?_ counted.sameSession
    rw [Conn.refused]
    split_ifs <;> exact ⟨rfl, rfl, rfl⟩

theorem vardiffMaybeRetarget_sameSession (now : UInt64) :
    c.SameSession (vardiffMaybeRetarget fp cfg jobs c now).1 := by
  simp only [vardiffMaybeRetarget]
  split_ifs <;> exact ⟨rfl, rfl, rfl⟩

/-- The terms are kept, up to a retarget at the end. -/
inductive Conn.Worked (fp : Fpu) (s : Server) (env : Env) (c c' : Conn) : Prop where
  | kept (same : c.SameTerms c')
  | retargeted (w : Conn) (same : c.SameTerms w)
    (conn : c' = (vardiffMaybeRetarget fp s.cfg s.jobs w env.now).1)

theorem Conn.SameTerms.worked {c c' c'' : Conn} (same : c.SameTerms c')
    (worked : c'.Worked fp s env c'') :
    c.Worked fp s env c'' := by
  cases worked with
  | kept later => exact .kept (same.trans later)
  | retargeted w later conn => exact .retargeted w (same.trans later) conn

theorem submitHash_worked (job : Job) (en2 : Bytes) (version ntime nonce : UInt32) :
    c.Worked fp s env (submitHash fp env s c job en2 version ntime nonce).conn := by
  simp only [submitHash]
  split_ifs
  · exact .kept (.refl c)
  · split
    next => exact .kept (.refl c)
    next => exact .retargeted (c.countShare fp job _) ⟨⟨rfl, rfl, rfl⟩, rfl, rfl, rfl⟩ rfl

theorem submitRateExceeded_sameTerms (mono : UInt64) :
    c.SameTerms (submitRateExceeded cfg c mono).2 := by
  simp only [submitRateExceeded, Conn.rollRateWindow]
  split_ifs <;> exact ⟨⟨rfl, rfl, rfl⟩, rfl, rfl, rfl⟩

theorem submitRateReport_sameTerms : c.SameTerms (submitRateReport cfg c env).1 := by
  simp only [submitRateReport]
  split_ifs <;> exact ⟨⟨rfl, rfl, rfl⟩, rfl, rfl, rfl⟩

theorem dedupeCheckAndAdd_sameTerms (h : UInt64) : c.SameTerms (dedupeCheckAndAdd c h).2 := by
  rw [dedupeCheckAndAdd]
  split_ifs <;> exact ⟨⟨rfl, rfl, rfl⟩, rfl, rfl, rfl⟩

theorem submitWithJob_worked (sub : Submission) (job : Job) :
    c.Worked fp s env (submitWithJob fp env s c sub job).conn := by
  rw [submitWithJob]
  split
  next => exact .kept (.refl c)
  next version _ =>
    have filtered : c.SameTerms (dedupeCheckAndAdd c (submitKey job.jobId sub version)).2 :=
      dedupeCheckAndAdd_sameTerms _
    split
    next added =>
      rw [added] at filtered
      exact .kept filtered
    next d added =>
      rw [added] at filtered
      split
      next ntime nonce _ _ =>
        split_ifs
        · exact .kept filtered
        · split
          next => exact .kept filtered
          next en2 _ =>
            split_ifs
            · exact .kept filtered
            · split
              next => exact .kept filtered
              next r rendered =>
                exact (filtered.trans (connRenderCoinbase_sameTerms rendered)).worked
                  (submitHash_worked job en2 version ntime nonce)
      next => exact .kept filtered

theorem handleSubmit_worked (fp : Fpu) (env : Env) (s : Server) (c : Conn) (params : Json) :
    c.Worked fp s env (handleSubmit fp env s c params).conn := by
  rw [handleSubmit]
  by_cases unknown : (!c.authorized) = true
  · rw [if_pos unknown]
    exact .kept (.refl c)
  · have paced : c.SameTerms (submitRateExceeded s.cfg c env.mono).2 :=
      submitRateExceeded_sameTerms env.mono
    rw [if_neg unknown]
    split
    next limited =>
      rw [limited] at paced
      exact .kept (paced.trans submitRateReport_sameTerms)
    next d limited =>
      rw [limited] at paced
      split
      next => exact .kept paced
      next sub _ =>
        split_ifs
        · exact .kept paced
        · split
          next => exact .kept paced
          next job _ => exact paced.worked (submitWithJob_worked sub job)

theorem handleSubmit_sameSession (params : Json) :
    c.SameSession (handleSubmit fp env s c params).conn := by
  cases handleSubmit_worked fp env s c params with
  | kept same => exact same.toSameSession
  | retargeted w same conn =>
    rw [conn]
    exact same.toSameSession.trans (vardiffMaybeRetarget_sameSession env.now)

/-- Any other request than mining.subscribe keeps the extranonce, and takes none. -/
theorem handleMessage_sameSession (fp : Fpu) (env : Env) (s : Server) (c : Conn) (request : Request)
    (other : methodOf request.method ≠ .subscribe) :
    c.SameSession (handleMessage fp env s c request).conn ∧
      (handleMessage fp env s c request).server.extranonce1Seq = s.extranonce1Seq := by
  rw [handleMessage]
  cases called : methodOf request.method with
  | configure =>
    simp only [handleConfigure]
    split_ifs <;> exact ⟨⟨rfl, rfl, rfl⟩, rfl⟩
  | subscribe => contradiction
  | suggestDifficulty =>
    dsimp only [handleSuggestDifficulty]
    by_cases asked : 0 < (request.params.items[0]?.bind Json.valuedouble).getD 0
    · rw [if_neg (not_not.mpr asked)]
      exact ⟨applyRequestedDiff_sameSession _, rfl⟩
    · rw [if_pos asked]
      exact ⟨.refl c, rfl⟩
  | authorize =>
    exact ⟨handleAuthorize_sameSession request.params,
      (handleAuthorize_spec fp env s c request.params).server.extranonce1Seq⟩
  | submit =>
    refine ⟨handleSubmit_sameSession request.params, ?_⟩
    rcases handleSubmit_server fp env s c request.params with ⟨w, _, recorded⟩ | ⟨_, same⟩
    · rw [recorded]
      rfl
    · rw [same]
  | unknown => exact ⟨.refl c, rfl⟩

end Session

/-- The four bytes of the counter, as `handle_subscribe` writes them. -/
def extranonceBytes (mix : UInt32) : Bytes :=
  [(mix >>> 24).toUInt8, (mix >>> 16).toUInt8, (mix >>> 8).toUInt8, mix.toUInt8]

theorem extranonceBytes_injective {a b : UInt32} (same : extranonceBytes a = extranonceBytes b) :
    a = b := by
  simp only [extranonceBytes, List.cons.injEq, and_true, ← UInt8.toNat_inj, UInt32.toNat_toUInt8,
    UInt32.toNat_shiftRight] at same
  have first := a.toNat_lt
  have second := b.toNat_lt
  apply UInt32.toNat_inj.mp
  simp [Nat.shiftRight_eq_div_pow] at same
  omega

/-- Counting on from the seed, no value comes twice in 2^32. -/
theorem extranonceBytes_counted {seed : UInt32} {m n : Nat} (few : m < 2 ^ 32) (fewer : n < 2 ^ 32)
    (same : extranonceBytes (seed + UInt32.ofNat m) = extranonceBytes (seed + UInt32.ofNat n)) :
    m = n := by
  have equal := (UInt32.add_right_inj seed).mp (extranonceBytes_injective same)
  have value := congrArg UInt32.toNat equal
  rwa [UInt32.toNat_ofNat_of_lt' few, UInt32.toNat_ofNat_of_lt' fewer] at value

def Observed.isShare : Observed → Bool
  | .share _ => true
  | _ => false

/-- The pool, and whether each connection has had a share accepted since it connected. -/
structure ShareLog where
  pool : Pool
  earned : Nat → Bool

def ShareLog.start (cfg : Cfg) (seed : UInt32) : ShareLog := ⟨Pool.start cfg seed, fun _ => false⟩

/-- The request is answered with a credited share. -/
def earnsShare (fp : Fpu) (p : Pool) (i : Nat) (env : Env) (request : Request) : Bool :=
  match p.conns i with
  | some c => (handleMessage fp env p.server c request).observed.any Observed.isShare
  | none => false

def ShareLog.step (fp : Fpu) (l : ShareLog) (event : Event) : Option ShareLog :=
  (l.pool.step fp event).map fun pool =>
    ⟨pool, match event with
      | .connect i _ _ => Function.update l.earned i false
      | .message i env request =>
        Function.update l.earned i (l.earned i || earnsShare fp l.pool i env request)
      | _ => l.earned⟩

/-- Two live connections with an accepted share each have different extranonces, and no
coinbase the one can hash is one the other can where theirs differ in nothing else. -/
def ShareLog.Disjoint (l : ShareLog) : Prop :=
  ∀ i j c d, i ≠ j → l.pool.conns i = some c → l.pool.conns j = some d → l.earned i = true →
    l.earned j = true →
    c.extranonce1 ≠ d.extranonce1 ∧
    (c.cb = d.cb → ∀ en2 en2', submitCoinbase c en2 ≠ submitCoinbase d en2')

/-- Nobody submits before subscribing. -/
def SubscribedFirst (p : Pool) : Event → Prop
  | .message i _ request =>
    methodOf request.method = .submit → ∀ c, p.conns i = some c → c.authorized → c.subscribed
  | _ => True

def Event.subscribes : Event → Bool
  | .message _ _ request => methodOf request.method = .subscribe
  | _ => false

structure ShareLog.Numbered (seed : UInt32) (n : Nat) (number : Nat → Nat) (l : ShareLog) :
    Prop where
  seq : l.pool.server.extranonce1Seq = seed + UInt32.ofNat n
  handed : ∀ i c, l.pool.conns i = some c → c.subscribed = true →
    number i < n ∧ c.extranonce1 = extranonceBytes (seed + UInt32.ofNat (number i))
  apart : ∀ i j c d, i ≠ j → l.pool.conns i = some c → l.pool.conns j = some d →
    c.subscribed = true → d.subscribed = true →
    number i ≠ number j
  earned : ∀ i c, l.pool.conns i = some c → l.earned i = true → c.subscribed = true

theorem ShareLog.Numbered.start (cfg : Cfg) (seed : UInt32) :
    (ShareLog.start cfg seed).Numbered seed 0 fun _ => 0 where
  seq := (UInt32.add_zero seed).symm
  handed _ _ here := nomatch here
  apart _ _ _ _ _ here := nomatch here
  earned _ _ here := nomatch here

/-- A connection that a step leaves is a new one, or was there in the same session. -/
inductive Carried (l after : ShareLog) (i : Nat) (c : Conn) : Prop where
  | new (unsubscribed : c.subscribed = false) (unearned : after.earned i = false)
  | kept (before : Conn) (here : l.pool.conns i = some before) (same : before.SameSession c)
      (earned : after.earned i = true → before.subscribed = true)

theorem ShareLog.Numbered.carry {l after : ShareLog} (numbered : l.Numbered seed n number)
    (seq : after.pool.server.extranonce1Seq = l.pool.server.extranonce1Seq)
    (carried : ∀ i c, after.pool.conns i = some c → Carried l after i c) :
    after.Numbered seed n number where
  seq := seq.trans numbered.seq
  handed := by
    intro i c here subscribed
    cases carried i c here with
    | new unsubscribed => exact absurd subscribed (Bool.eq_false_iff.mp unsubscribed)
    | kept before was same earned =>
      rw [same.extranonce1]
      exact numbered.handed i before was (same.subscribed ▸ subscribed)
  apart := by
    intro i j c d apart here there subscribed subscribed'
    cases carried i c here with
    | new unsubscribed => exact absurd subscribed (Bool.eq_false_iff.mp unsubscribed)
    | kept before was same earned =>
      cases carried j d there with
      | new unsubscribed => exact absurd subscribed' (Bool.eq_false_iff.mp unsubscribed)
      | kept before' was' same' earned' =>
        exact numbered.apart i j before before' apart was was' (same.subscribed ▸ subscribed)
          (same'.subscribed ▸ subscribed')
  earned := by
    intro i c here earned
    cases carried i c here with
    | new _ unearned => exact absurd earned (Bool.eq_false_iff.mp unearned)
    | kept before was same subscribed => exact same.subscribed.trans (subscribed earned)

/-- A share is earned by a submit on an authorized connection. -/
theorem earnsShare_submit {p : Pool} (here : p.conns i = some c)
    (earns : earnsShare fp p i env request = true) :
    methodOf request.method = .submit ∧ c.authorized = true := by
  simp only [earnsShare, here, List.any_eq_true] at earns
  obtain ⟨observed, member, shared⟩ := earns
  cases observed with
  | share share =>
    have submits : methodOf request.method = .submit := by
      by_contra other
      exact (handleMessage_kept fp env p.server c request other).uncredited share member
    refine ⟨submits, ?_⟩
    by_contra unknown
    rw [handleMessage, submits] at member
    simp [handleSubmit, refuse, unknown] at member
  | reject | block | blockFound | undefined => contradiction

/-- A subscribe takes the next number. -/
theorem ShareLog.Numbered.subscribe {l after : ShareLog} (numbered : l.Numbered seed n number)
    (seq : after.pool.server.extranonce1Seq = l.pool.server.extranonce1Seq + 1)
    (there : after.pool.conns = Function.update l.pool.conns i (some c))
    (subscribed : c.subscribed = true)
    (extranonce1 : c.extranonce1 = extranonceBytes l.pool.server.extranonce1Seq)
    (earned : ∀ j, j ≠ i → after.earned j = l.earned j) :
    after.Numbered seed (n + 1) (Function.update number i n) where
  seq := by
    rw [seq, numbered.seq, UInt32.ofNat_add, UInt32.add_assoc]
    rfl
  handed := by
    intro j d here on
    rw [there] at here
    rcases conns_update here with ⟨rfl, new⟩ | ⟨other, old⟩
    · obtain rfl := Option.some.inj new
      rw [Function.update_self, extranonce1, numbered.seq]
      exact ⟨Nat.lt_succ_self n, rfl⟩
    · rw [Function.update_of_ne other]
      exact (numbered.handed j d old on).imp Nat.lt_succ_of_lt id
  apart := by
    intro j k d e apart here there' on on'
    rw [there] at here there'
    rcases conns_update here with ⟨rfl, _⟩ | ⟨other, old⟩
    · rcases conns_update there' with ⟨rfl, _⟩ | ⟨other, old⟩
      · contradiction
      · rw [Function.update_self, Function.update_of_ne other]
        exact (numbered.handed k e old on').1.ne'
    · rcases conns_update there' with ⟨rfl, _⟩ | ⟨other', old'⟩
      · rw [Function.update_self, Function.update_of_ne other]
        exact (numbered.handed j d old on).1.ne
      · rw [Function.update_of_ne other, Function.update_of_ne other']
        exact numbered.apart j k d e apart old old' on on'
  earned := by
    intro j d here earns
    rw [there] at here
    rcases conns_update here with ⟨rfl, new⟩ | ⟨other, old⟩
    · obtain rfl := Option.some.inj new
      exact subscribed
    · exact numbered.earned j d old (earned j other ▸ earns)

theorem ShareLog.Numbered.step {l after : ShareLog} (numbered : l.Numbered seed n number)
    (first : SubscribedFirst l.pool event) (stepped : l.step fp event = some after) :
    ∃ number', after.Numbered seed (n + event.subscribes.toNat) number' := by
  obtain ⟨pool, taken, rfl⟩ := Option.map_eq_some_iff.mp stepped
  cases event with
  | connect i peerIp pol =>
    rw [Pool.step] at taken
    split at taken
    next => contradiction
    next =>
      obtain rfl := Option.some.inj taken
      refine ⟨number, numbered.carry rfl ?_⟩
      intro j c here
      rcases conns_update here with ⟨rfl, new⟩ | ⟨other, old⟩
      · obtain rfl := Option.some.inj new
        exact .new rfl (Function.update_self ..)
      · refine .kept c old (.refl c) ?_
        dsimp only
        rw [Function.update_of_ne other]
        exact numbered.earned j c old
  | disconnect i =>
    obtain rfl := Option.some.inj taken
    refine ⟨number, numbered.carry rfl ?_⟩
    intro j c here
    rcases conns_update here with ⟨_, gone⟩ | ⟨_, old⟩
    · contradiction
    · exact .kept c old (.refl c) (numbered.earned j c old)
  | message i env request =>
    rw [Pool.step] at taken
    split at taken
    next => contradiction
    next c here =>
      obtain rfl := Option.some.inj taken
      by_cases called : methodOf request.method = .subscribe
      · have subscribes : (Event.message i env request).subscribes = true := decide_eq_true called
        rw [subscribes]
        have handled :
            handleMessage fp env l.pool.server c request = handleSubscribe l.pool.server c := by
          rw [handleMessage, called]
        rw [handled]
        refine ⟨_, numbered.subscribe rfl rfl rfl rfl ?_⟩
        intro j other
        exact Function.update_of_ne other ..
      · have silent : (Event.message i env request).subscribes = false := decide_eq_false called
        rw [silent]
        obtain ⟨same, seq⟩ := handleMessage_sameSession fp env l.pool.server c request called
        refine ⟨number, numbered.carry seq ?_⟩
        intro j d there
        rcases conns_update there with ⟨rfl, new⟩ | ⟨other, old⟩
        · split_ifs at new
          obtain rfl := Option.some.inj new
          refine .kept c here same ?_
          dsimp only
          rw [Function.update_self, Bool.or_eq_true]
          intro earned
          rcases earned with earlier | now
          · exact numbered.earned j c here earlier
          · obtain ⟨submits, authorized⟩ := earnsShare_submit here now
            exact first submits c here authorized
        · refine .kept d old (.refl d) ?_
          dsimp only
          rw [Function.update_of_ne other]
          exact numbered.earned j d old
  | setJob mono job clean =>
    obtain rfl := Option.some.inj taken
    refine ⟨number, numbered.carry rfl ?_⟩
    intro j c here
    obtain ⟨before, was, rfl⟩ := Option.map_eq_some_iff.mp here
    exact .kept before was (notifyConn_sameTerms clean).toSameSession (numbered.earned j before was)

theorem ShareLog.Numbered.disjoint {l : ShareLog} (numbered : l.Numbered seed n number)
    (few : n ≤ 2 ^ 32) : l.Disjoint := by
  intro i j c d apart here there earned earned'
  have subscribed := numbered.earned i c here earned
  have subscribed' := numbered.earned j d there earned'
  obtain ⟨below, value⟩ := numbered.handed i c here subscribed
  obtain ⟨below', value'⟩ := numbered.handed j d there subscribed'
  have differ : c.extranonce1 ≠ d.extranonce1 := by
    intro same
    rw [value, value'] at same
    exact numbered.apart i j c d apart here there subscribed subscribed'
      (extranonceBytes_counted (below.trans_le few) (below'.trans_le few) same)
  refine ⟨differ, ?_⟩
  intro halves en2 en2' same
  -- the halves agree, so the extranonces stand at the same place of one text
  have sizes : c.extranonce1.length = d.extranonce1.length := by
    rw [value, value']
    rfl
  rw [submitCoinbase, submitCoinbase, halves] at same
  have front := List.append_cancel_right same
  rw [List.append_assoc, List.append_assoc] at front
  exact differ (List.append_inj_left (List.append_cancel_left front) sizes)

theorem numbered_along (fp : Fpu) (events : List Event) {l : ShareLog}
    (numbered : l.Numbered seed n number) (few : n + events.countP Event.subscribes < 2 ^ 32)
    (subscribed : Along (ShareLog.step fp) (fun l event _ => SubscribedFirst l.pool event) l
      events) :
    Along (ShareLog.step fp) (fun _ _ after => after.Disjoint) l events := by
  induction events generalizing l n number with
  | nil => trivial
  | cons event rest ih =>
    intro after stepped
    obtain ⟨first, later⟩ := subscribed after stepped
    obtain ⟨number', next⟩ := numbered.step first stepped
    have room : n + event.subscribes.toNat + rest.countP Event.subscribes < 2 ^ 32 := by
      rw [List.countP_cons] at few
      cases subscribes : event.subscribes with
      | true =>
        rw [subscribes] at few
        simp only [Bool.toNat_true, if_true] at few ⊢
        omega
      | false =>
        rw [subscribes] at few
        simp only [Bool.toNat_false, Bool.false_eq_true, if_false] at few ⊢
        omega
    exact ⟨next.disjoint (by omega), ih next room later⟩

/-- In every run with fewer than 2^32 subscribes in which nobody submits before subscribing,
the live connections that have earned a share never share an extranonce1. -/
theorem live_connections_mine_disjoint (fp : Fpu) (cfg : Cfg) (seed : UInt32) (events : List Event)
    (few : events.countP Event.subscribes < 2 ^ 32)
    (subscribed : Along (ShareLog.step fp) (fun l event _ => SubscribedFirst l.pool event)
      (.start cfg seed) events) :
    Along (ShareLog.step fp) (fun _ _ after => after.Disjoint) (.start cfg seed) events :=
  numbered_along fp events (.start cfg seed) (by omega) subscribed

def secondMessage (method : String) (params : List Bytes) : Event :=
  .message 1 soloEnv (soloRequest method params)

/-- Both connect and authorize for one address, after subscribing if they do, and each is
credited a share. -/
def twoMiners (subscribe : Bool) (nonce : String) : List Event :=
  let subscribed : List Event := if subscribe then [soloMessage "mining.subscribe" [],
    secondMessage "mining.subscribe" []] else []
  [.setJob 0 regtestJob true, .connect 0 [] ⟨0, 0, 0, 0, 0⟩, .connect 1 [] ⟨0, 0, 0, 0, 0⟩] ++
    subscribed ++
    [soloMessage "mining.authorize" [firstAddress], secondMessage "mining.authorize" [firstAddress],
      soloMessage "mining.submit" (soloSubmit "0000000a"),
      secondMessage "mining.submit" (soloSubmit nonce)]

/-- Each has a share, with what extranonce. -/
def ShareLog.both (l : ShareLog) : Bool × Bool × Option Bytes × Option Bytes :=
  (l.earned 0, l.earned 1, (l.pool.conns 0).map Conn.extranonce1,
    (l.pool.conns 1).map Conn.extranonce1)

def subscribedFirst (p : Pool) : Event → Bool
  | .message i _ request =>
    match p.conns i with
    | some c => !(methodOf request.method = .submit) || !c.authorized || c.subscribed
    | none => true
  | _ => true

theorem SubscribedFirst.of_decided {p : Pool} {event : Event}
    (decided : subscribedFirst p event = true) :
    SubscribedFirst p event := by
  cases event with
  | message i env request =>
    intro called c here authorized
    simpa [subscribedFirst, here, called, authorized] using decided
  | connect | disconnect | setJob => trivial

theorem two_miners_subscribed :
    ((run (ShareLog.step .exact) (.start soloCfg 0) (twoMiners true "00000000")).map ShareLog.both =
      some (true, true, some [0, 0, 0, 0], some [0, 0, 0, 1])) ∧
    Along (ShareLog.step .exact) (fun _ _ after => after.Disjoint) (.start soloCfg 0)
      (twoMiners true "00000000") := by
  have facts :
    (run (ShareLog.step .exact) (.start soloCfg 0) (twoMiners true "00000000")).map ShareLog.both =
      some (true, true, some [0, 0, 0, 0], some [0, 0, 0, 1]) ∧
      (twoMiners true "00000000").countP Event.subscribes < 2 ^ 32 ∧
      Along (ShareLog.step .exact) (fun l event _ => subscribedFirst l.pool event = true)
        (.start soloCfg 0)
        (twoMiners true "00000000") := by
    decide +kernel
  obtain ⟨both, few, subscribed⟩ := facts
  refine ⟨both, live_connections_mine_disjoint .exact soloCfg 0 _ few ?_⟩
  exact subscribed.imp fun _ _ _ _ decided => .of_decided decided

/-- Neither subscribes, and both are credited for work on one and the same coinbase. -/
theorem two_miners_unsubscribed : (twoMiners false "00000004").countP Event.subscribes < 2 ^ 32 ∧
    ¬Along (ShareLog.step .exact) (fun _ _ after => after.Disjoint) (.start soloCfg 0)
      (twoMiners false "00000004") := by
  have facts : (twoMiners false "00000004").countP Event.subscribes < 2 ^ 32 ∧
      (run (ShareLog.step .exact) (.start soloCfg 0) (twoMiners false "00000004")).map
        ShareLog.both = some (true, true, some [0, 0, 0, 0], some [0, 0, 0, 0]) := by
    decide +kernel
  obtain ⟨few, both⟩ := facts
  refine ⟨few, ?_⟩
  intro along
  obtain ⟨l, ran, sees⟩ := Option.map_eq_some_iff.mp both
  have disjoint : l.Disjoint :=
    along.final ((ShareLog.Numbered.start soloCfg 0).disjoint (Nat.zero_le _)) ran
  simp only [ShareLog.both, Prod.mk.injEq, Option.map_eq_some_iff] at sees
  obtain ⟨earned, earned', ⟨c, here, zeros⟩, ⟨d, there, zeros'⟩⟩ := sees
  exact (disjoint 0 1 c d Nat.zero_ne_one here there earned earned').1 (zeros.trans zeros'.symm)

end SimplePool.Stratum
