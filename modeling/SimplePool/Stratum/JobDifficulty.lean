import SimplePool.Stratum.Server

/-! A job is judged at the difficulty it was sent with. The server keeps the last
sixteen jobs it retired, each connection the difficulties of the last jobs it was
told, and the second ring outlasts the first. -/
namespace SimplePool.Stratum
open Wire Coinbase Transition

structure Seen where
  difficulty : Option ℚ
  notified : List (Bytes × Option ℚ)

def Seen.nothing : Seen := ⟨none, []⟩

/-- A difficulty is in force for the jobs that are notified after it. -/
def Seen.line (seen : Seen) : Line → Seen
  | .setDifficulty difficulty => { seen with difficulty := some difficulty }
  | .notify job => { seen with notified := (job.jobId, seen.difficulty) :: seen.notified }
  | _ => seen

def Seen.lines (seen : Seen) (lines : List Line) : Seen := lines.foldl Seen.line seen

/-- The pool, with what every connection was sent and every job published so far,
newest first. -/
structure Watched where
  pool : Pool
  seen : Nat → Seen
  published : List Job

def Watched.start (cfg : Cfg) (seed : UInt32) : Watched := ⟨.start cfg seed, fun _ => .nothing, []⟩

/-- The lines that a step writes to the connection. -/
def linesTo (fp : Fpu) (p : Pool) (i : Nat) : Event → List Line
  | .message j env request =>
    match p.conns i with
    | some c => if i = j then (handleMessage fp env p.server c request).lines else []
    | none => []
  | .setJob mono job cleanJobs =>
    match p.conns i with
    | some c =>
      if c.subscribed && c.authorized then
        (sendCurrentNotify fp p.server.cfg (p.server.jobs.publish mono job) c cleanJobs).2
      else []
    | none => []
  | _ => []

def Watched.step (fp : Fpu) (w : Watched) (e : Event) : Option Watched :=
  (w.pool.step fp e).map fun pool =>
    match e with
    | .connect i _ _ => { w with pool := pool, seen := Function.update w.seen i .nothing }
    | .setJob _ job _ =>
      ⟨pool, fun i => (w.seen i).lines (linesTo fp w.pool i e), job :: w.published⟩
    | _ => { w with pool := pool, seen := fun i => (w.seen i).lines (linesTo fp w.pool i e) }

structure Jobs.Retains (published : List Job) (jobs : Jobs) : Prop where
  current : jobs.current = published.head?
  head_lt : jobs.head < recentJobs
  recent : ∀ i < recentJobs, ∀ j, jobs.recent i = some j →
    ∃ k < recentJobs, published[k + 1]? = some j ∧ i = BoundedFifo.slot recentJobs jobs.head k

theorem Jobs.Retains.empty : Jobs.empty.Retains [] where
  current := rfl
  head_lt := by decide
  recent := fun _ _ _ none => nomatch none

theorem Jobs.Retains.publish {jobs : Jobs} (retains : jobs.Retains published) (mono : UInt64)
    (job : Job) :
    (jobs.publish mono job).Retains (job :: published) := by
  rw [Jobs.publish]
  cases was : jobs.current with
  | none =>
    refine ⟨rfl, retains.head_lt, ?_⟩
    intro i inside j here
    obtain ⟨k, _, found, _⟩ := retains.recent i inside j here
    -- nothing was current, so nothing was published before
    have unpublished : published = [] := List.head?_eq_none_iff.mp (retains.current.symm.trans was)
    simp [unpublished] at found
  | some old =>
    have first : published[0]? = some old := by
      rw [← List.head?_eq_getElem?, ← retains.current, was]
    have headLt := retains.head_lt
    refine ⟨rfl, Nat.mod_lt _ (by decide), ?_⟩
    intro i inside j here
    simp only [retireJob, Function.update_apply] at here
    split_ifs at here with written
    · obtain rfl := Option.some.inj here
      exact ⟨0, by decide, by simpa using first, written.trans
          (BoundedFifo.slot_advance_zero headLt).symm⟩
    · obtain ⟨stored, _⟩ := Option.filter_eq_some_iff.mp here
      obtain ⟨k, bound, found, place⟩ := retains.recent i inside j stored
      have spared := BoundedFifo.slot_lt_of_ne headLt bound (place ▸ written)
      exact ⟨k + 1, spared, by simpa using found, place.trans
          (BoundedFifo.slot_advance_succ headLt spared).symm⟩

theorem Jobs.Retains.find {jobs : Jobs} (retains : jobs.Retains published)
    (found : findJob jobs jobId = some j) :
    ∃ k ≤ recentJobs, published[k]? = some j := by
  cases jobId with
  | none => contradiction
  | some jobId =>
    simp only [findJob] at found
    split at found
    next current hit =>
      obtain rfl := Option.some.inj found
      refine ⟨0, Nat.zero_le _, ?_⟩
      rw [← List.head?_eq_getElem?, ← retains.current]
      exact named_slot hit
    next =>
      obtain ⟨i, inside, hit⟩ := List.exists_of_findSome?_eq_some found
      obtain ⟨k, bound, found, _⟩ := retains.recent i (List.mem_range.mp inside) j (named_slot hit)
      exact ⟨k + 1, bound, found⟩

/-- The jobs, newest first, that the connection was told. -/
def toldIds (published : List Job) (seen : Seen) : List Bytes :=
  (published.map Job.jobId).filter fun id => (seen.notified.lookup id).isSome

/-- The ring holds the last jobs the connection was told, each with the difficulty that
was in force at its latest notify. -/
structure Records (published : List Job) (seen : Seen) (ring : Nat → JobDiff) (head count : Nat)
    (recent : List JobDiff) :
    Prop where
  holds : BoundedFifo.Holds jobDiffRing ring head count recent
  blank : ∀ i, count ≤ i → (ring i).jobId = []
  ids : recent.map JobDiff.jobId = (toldIds published seen).take jobDiffRing
  difficulty : ∀ entry ∈ recent, 0 < entry.difficulty ∧
  seen.notified.lookup entry.jobId = some (some entry.difficulty)

/-- Published ids that are names, each used once. -/
structure Distinct (published : List Job) : Prop where
  nodup : (published.map Job.jobId).Nodup
  named : ∀ job ∈ published, job.jobId ≠ []

/-- A job among the last seventeen that the connection was told is in its ring. -/
theorem Records.mem (records : Records published seen ring head count recent)
    (index : k ≤ recentJobs)
    (here : published[k]? = some job) (told : seen.notified.lookup job.jobId = some d) :
    job.jobId ∈ recent.map JobDiff.jobId := by
  rw [records.ids]
  -- at most `k` jobs were told after it, and the ring has room for twice as many
  obtain ⟨range, value⟩ := List.getElem?_eq_some_iff.mp here
  have front : job.jobId ∈ toldIds (published.take (k + 1)) seen := by
    refine List.mem_filter.mpr ⟨List.mem_map_of_mem ?_, by simp [told]⟩
    exact List.mem_take_iff_getElem.mpr ⟨k, by omega, value⟩
  have short : (toldIds (published.take (k + 1)) seen).length ≤ jobDiffRing := by
    have := List.length_filter_le (fun id => (seen.notified.lookup id).isSome)
      ((published.take (k + 1)).map Job.jobId)
    simp only [toldIds, jobDiffRing, recentJobs, List.length_map, List.length_take] at this index ⊢
    omega
  have split : toldIds published seen = toldIds (published.take (k + 1)) seen ++
        toldIds (published.drop (k + 1)) seen := by
    rw [toldIds, toldIds, toldIds, ← List.filter_append, ← List.map_append, List.take_append_drop]
  rw [split, List.take_append, List.take_of_length_le short]
  exact List.mem_append_left _ front

/-- What the ring answers is what it was told. -/
theorem Records.connJobDifficulty {c : Conn} {id : Bytes}
    (records : Records published seen c.jobDiffs c.jobDiffsHead count recent) (named : id ≠ [])
    (inside : id ∈ recent.map JobDiff.jobId) :
    (∃ i < jobDiffRing, (c.jobDiffs i).jobId = id) ∧ 0 < Stratum.connJobDifficulty c id ∧
      seen.notified.lookup id = some (some (Stratum.connJobDifficulty c id)) := by
  obtain ⟨entry, member, rfl⟩ := List.mem_map.mp inside
  obtain ⟨i, live, place⟩ := (records.holds.mem_iff entry).mp member
  have within := lt_of_lt_of_le live records.holds.bound
  refine ⟨⟨i, within, by rw [place]⟩, ?_⟩
  rw [Stratum.connJobDifficulty, if_neg named]
  cases found : (List.range jobDiffRing).find? fun i => (c.jobDiffs i).jobId = entry.jobId with
  | none =>
    have absent := List.find?_eq_none.mp found i (List.mem_range.mpr within)
    simp [place] at absent
  | some first =>
    have same : (c.jobDiffs first).jobId = entry.jobId := by simpa using List.find?_some found
    have stored : c.jobDiffs first ∈ recent := by
      refine (records.holds.mem_iff _).mpr ⟨first, ?_, rfl⟩
      by_contra beyond
      exact named (same.symm.trans (records.blank first (by omega)))
    have known := records.difficulty _ stored
    rw [same] at known
    exact known

theorem Records.distinct (records : Records published seen ring head count recent)
    (distinct : Distinct published) :
    (recent.map JobDiff.jobId).Nodup := by
  rw [records.ids]
  exact (distinct.nodup.filter _).take

section
variable {job : Job} {rest : List Job} {seen : Seen} {ring : Nat → JobDiff} {head count : Nat}
  {recent : List JobDiff}
  {difficulty : ℚ}

/-- The miner is notified of the current job under the difficulty in force. -/
def Seen.notify (seen : Seen) (job : Job) : Seen :=
  { seen with notified := (job.jobId, seen.difficulty) :: seen.notified }

theorem Seen.lookup_notify (inForce : seen.difficulty = some difficulty) (id : Bytes) :
    (seen.notify job).notified.lookup id =
    if id = job.jobId then some (some difficulty) else seen.notified.lookup id := by
  rw [Seen.notify, List.lookup_cons, inForce]
  split_ifs with same
  · simp [same]
  · simp [beq_false_of_ne same]

theorem toldIds_notify (distinct : Distinct (job :: rest))
    (inForce : seen.difficulty = some difficulty) :
    toldIds (job :: rest) (seen.notify job) = job.jobId :: toldIds rest seen := by
  rw [toldIds, List.map_cons, List.filter_cons_of_pos (by simp [Seen.lookup_notify inForce]),
    toldIds]
  congr 1
  apply List.filter_congr
  intro id member
  have fresh : id ≠ job.jobId := by
    rintro rfl
    exact (List.nodup_cons.mp distinct.nodup).1 member
  rw [Seen.lookup_notify inForce, if_neg fresh]

/-- Every entry but the notified job's is as it was. -/
theorem Records.kept (records : Records published seen ring head count recent)
    (inForce : seen.difficulty = some difficulty) (member : entry ∈ recent)
    (apart : entry.jobId ≠ job.jobId) :
    0 < entry.difficulty ∧
    (seen.notify job).notified.lookup entry.jobId = some (some entry.difficulty) := by
  rw [Seen.lookup_notify inForce, if_neg apart]
  exact records.difficulty entry member

/-- The current job is notified again: its entry is written in place. -/
theorem Records.again (records : Records (job :: rest) seen ring head count recent)
    (distinct : Distinct (job :: rest))
    (inForce : seen.difficulty = some difficulty) (positive : 0 < difficulty)
    (same : (ring i).jobId = job.jobId) :
    ∃ recent, Records (job :: rest) (seen.notify job) (Function.update ring i
      ⟨(ring i).jobId, difficulty⟩) head count
      recent := by
  have live : i < count := by
    by_contra beyond
    exact distinct.named job List.mem_cons_self (same.symm.trans (records.blank i (by omega)))
  obtain ⟨j, range, stored, holds⟩ := records.holds.overwrite live ⟨(ring i).jobId, difficulty⟩
  refine ⟨recent.set j ⟨(ring i).jobId, difficulty⟩, holds, ?_, ?_, ?_⟩
  · intro i' beyond
    rw [Function.update_of_ne (by omega)]
    exact records.blank i' beyond
  · have kept : (recent.set j ⟨(ring i).jobId, difficulty⟩).map JobDiff.jobId =
          recent.map JobDiff.jobId := by
      have range' : j < (recent.map JobDiff.jobId).length := by simpa using range
      have value : (recent.map JobDiff.jobId)[j] = (ring i).jobId := by simp [stored]
      rw [List.map_set, ← value, List.set_getElem_self]
    have before : (seen.notified.lookup job.jobId).isSome := by
      have known := (records.difficulty _ (List.getElem_mem range)).2
      rw [stored, same] at known
      rw [known]
      rfl
    rw [kept, records.ids, toldIds_notify distinct inForce, toldIds, List.map_cons]
    rw [List.filter_cons, if_pos before, toldIds]
  · intro entry member
    obtain ⟨m, inside, rfl⟩ := List.getElem_of_mem member
    rw [List.getElem_set]
    split_ifs with here
    · exact ⟨positive, by rw [Seen.lookup_notify inForce, if_pos same]⟩
    · have inside : m < recent.length := by simpa using inside
      refine records.kept inForce (List.getElem_mem inside) ?_
      intro equal
      have ids := records.distinct distinct
      apply here
      exact (List.getElem?_inj (by simpa using range) ids).mp (by simp [range, inside, equal,
          stored, same])

/-- The current job is notified for the first time. -/
theorem Records.first (records : Records (job :: rest) seen ring head count recent)
    (distinct : Distinct (job :: rest))
    (inForce : seen.difficulty = some difficulty) (positive : 0 < difficulty)
    (absent : ∀ i < jobDiffRing, (ring i).jobId ≠ job.jobId) :
    ∃ count recent,
      Records (job :: rest) (seen.notify job) (Function.update ring head ⟨job.jobId, difficulty⟩)
      ((head + 1) % jobDiffRing) count recent := by
  have unheld : job.jobId ∉ recent.map JobDiff.jobId := by
    intro member
    obtain ⟨entry, member, same⟩ := List.mem_map.mp member
    obtain ⟨i, live, place⟩ := (records.holds.mem_iff entry).mp member
    exact absent i (lt_of_lt_of_le live records.holds.bound) (place ▸ same)
  have untold : (seen.notified.lookup job.jobId).isSome = false := by
    cases known : seen.notified.lookup job.jobId with
    | none => rfl
    | some d => exact absurd (records.mem (Nat.zero_le _) rfl known) unheld
  have holds := records.holds.record ⟨job.jobId, difficulty⟩
  have filling := records.holds.filling
  have headLt := records.holds.head_lt
  have bound := records.holds.bound
  rw [← BoundedFifo.advance_head headLt] at holds
  refine ⟨_, _, holds, ?_, ?_, ?_⟩
  · intro i beyond
    rw [Function.update_of_ne (by split_ifs at beyond <;> omega)]
    exact records.blank i (by split_ifs at beyond <;> omega)
  · have before : toldIds (job :: rest) seen = toldIds rest seen := by
      rw [toldIds, List.map_cons, List.filter_cons_of_neg (by simp [untold]), toldIds]
    rw [toldIds_notify distinct inForce, ← before, List.map_take, List.map_cons, records.ids,
      BoundedFifo.take_cons_take]
  · intro entry member
    rcases List.mem_cons.mp (List.mem_of_mem_take member) with rfl | older
    · exact ⟨positive, by rw [Seen.lookup_notify inForce, if_pos rfl]⟩
    · exact records.kept inForce older fun same => unheld (same ▸ List.mem_map_of_mem older)

end

structure Conn.Follows (published : List Job) (c : Conn) (seen : Seen) : Prop where
  ring : ∃ count recent, Records published seen c.jobDiffs c.jobDiffsHead count recent
  inForce : c.authorized = true → seen.difficulty = some c.difficulty ∧ 0 < c.difficulty
  known : ∀ id, (seen.notified.lookup id).isSome → id ∈ published.map Job.jobId

theorem Conn.Follows.new (published : List Job) (cfg : Cfg) (peerIp : Bytes) (pol : Listener) :
    ((Conn.new cfg peerIp).applyListener pol).Follows published .nothing where
  ring := by
    refine ⟨0, [], BoundedFifo.holds_empty (by decide) _, fun _ _ => rfl, ?_, by simp⟩
    simp [toldIds, Seen.nothing]
  inForce := fun authorized => nomatch authorized
  known := by simp [Seen.nothing]

theorem Conn.Follows.of_same {c c' : Conn} (follows : c.Follows published seen)
    (same : c.SameRing c') :
    c'.Follows published seen where
  ring := by
    rw [same.jobDiffs, same.jobDiffsHead]
    exact follows.ring
  inForce := by
    rw [same.authorized, same.difficulty]
    exact follows.inForce
  known := follows.known

/-- A new difficulty, announced before any job. -/
theorem Conn.Follows.announce {c c' : Conn} (follows : c.Follows published seen)
    (positive : 0 < c'.difficulty)
    (jobDiffs : c'.jobDiffs = c.jobDiffs) (jobDiffsHead : c'.jobDiffsHead = c.jobDiffsHead) :
    c'.Follows published { seen with difficulty := some c'.difficulty } where
  ring := by
    obtain ⟨count, recent, records⟩ := follows.ring
    rw [jobDiffs, jobDiffsHead]
    exact ⟨count, recent, records.holds, records.blank, records.ids, records.difficulty⟩
  inForce := fun _ => ⟨rfl, positive⟩
  known := follows.known

/-- A job is published and not yet notified. -/
theorem Conn.Follows.publish {c : Conn} (follows : c.Follows published seen)
    (fresh : job.jobId ∉ published.map Job.jobId) : c.Follows (job :: published) seen where
  ring := by
    obtain ⟨count, recent, records⟩ := follows.ring
    refine ⟨count, recent, records.holds, records.blank, ?_, records.difficulty⟩
    have untold : ¬(seen.notified.lookup job.jobId).isSome = true :=
      fun told => fresh (follows.known _ told)
    rw [records.ids, toldIds, toldIds, List.map_cons, List.filter_cons, if_neg untold]
  inForce := follows.inForce
  known := fun id told => List.mem_cons_of_mem _ (follows.known id told)

theorem Conn.Follows.record {c : Conn} (follows : c.Follows (job :: rest) seen)
    (distinct : Distinct (job :: rest)) (authorized : c.authorized = true) :
    (connRecordJobDifficulty c job.jobId c.difficulty).Follows (job :: rest) (seen.notify job) := by
  obtain ⟨inForce, positive⟩ := follows.inForce authorized
  have known :
      ∀ id, ((seen.notify job).notified.lookup id).isSome → id ∈ (job :: rest).map Job.jobId := by
    intro id told
    rw [Seen.lookup_notify inForce] at told
    split_ifs at told with same
    · exact same ▸ List.mem_cons_self
    · exact follows.known id told
  have named := distinct.named job List.mem_cons_self
  obtain ⟨count, recent, records⟩ := follows.ring
  rw [connRecordJobDifficulty, if_neg (by simp [named, positive])]
  cases found : (List.range jobDiffRing).find? fun i => (c.jobDiffs i).jobId = job.jobId with
  | some i =>
    obtain ⟨recent, written⟩ :=
      records.again distinct inForce positive (by simpa using List.find?_some found)
    exact ⟨⟨count, recent, written⟩, fun _ => ⟨inForce, positive⟩, known⟩
  | none =>
    have absent : ∀ i < jobDiffRing, (c.jobDiffs i).jobId ≠ job.jobId := by
      intro i inside
      simpa using List.find?_eq_none.mp found i (List.mem_range.mpr inside)
    have ring := records.first distinct inForce positive absent
    dsimp only
    rw [snprintf_of_le job.jobId_fits]
    exact ⟨ring, fun _ => ⟨inForce, positive⟩, known⟩

/-- A notify, sent or not. -/
theorem Conn.Follows.notify {jobs : Jobs} {c : Conn} (follows : c.Follows published seen)
    (distinct : Distinct published)
    (current : jobs.current = published.head?) (authorized : c.authorized = true) (fp : Fpu)
    (cfg : Cfg) (clean : Bool) :
    (sendCurrentNotify fp cfg jobs c clean).1.Follows published
      (seen.lines (sendCurrentNotify fp cfg jobs c clean).2) := by
  rw [sendCurrentNotify, current]
  cases published with
  | nil => exact follows
  | cons job rest =>
    dsimp only [List.head?_cons]
    cases rendered : connRenderCoinbase fp cfg c job with
    | none => exact follows
    | some r =>
      have kept := connRenderCoinbase_eq rendered
      have same : c.SameRing r := by
        rw [kept]
        exact ⟨rfl, rfl, rfl, rfl⟩
      exact (follows.of_same same).record distinct (same.authorized.trans authorized)

theorem vardiffMaybeRetarget_told (fp : Fpu) (cfg : Cfg) (jobs : Jobs) (c : Conn) (now : UInt64) :
    c.SameRing (vardiffMaybeRetarget fp cfg jobs c now).1 ∧
    (vardiffMaybeRetarget fp cfg jobs c now).2 = [] ∨
    ∃ c', vardiffMaybeRetarget fp cfg jobs c now = (c', [.setDifficulty c'.difficulty]) ∧
    0 < c'.difficulty ∧
      c'.jobDiffs = c.jobDiffs ∧ c'.jobDiffsHead = c.jobDiffsHead := by
  simp only [vardiffMaybeRetarget]
  split_ifs
  all_goals first
    | exact .inl ⟨⟨rfl, rfl, rfl, rfl⟩, rfl⟩
    | exact .inr ⟨_, rfl, clampAssignedDifficulty_pos .., rfl, rfl⟩

theorem Conn.Follows.submit {c : Conn} (follows : c.Follows published seen) (fp : Fpu) (env : Env)
    (s : Server) (params : Json) : (handleSubmit fp env s c params).conn.Follows published
      (seen.lines (handleSubmit fp env s c params).lines) := by
  rcases handleSubmit_cases fp env s c params with ⟨w, r, _, rendered, done⟩ | ⟨_, unhashed⟩
  · have same : c.SameRing r :=
      ⟨rendered.authorized, rendered.difficulty, rendered.jobDiffs, rendered.jobDiffsHead⟩
    have now := follows.of_same same
    rw [done]
    rcases submitHash_cases rendered fp env s with ⟨_, out⟩ | ⟨_, ⟨_, out⟩ | ⟨verdict, _, out⟩⟩
    · rw [out]
      exact now
    · rw [out]
      exact now
    · have counted : (r.countShare fp w.job (w.hash c)).Follows published seen :=
        now.of_same ⟨rfl, rfl, rfl, rfl⟩
      rw [out]
      simp only [credit]
      rcases vardiffMaybeRetarget_told fp (s.recordHash (w.hash c)).cfg
        (s.recordHash (w.hash c)).jobs
        (r.countShare fp w.job (w.hash c)) env.now with ⟨kept, quiet⟩ | ⟨c', moved, positive,
          jobDiffs, jobDiffsHead⟩
      · rw [quiet]
        exact counted.of_same kept
      · rw [moved]
        exact counted.announce positive jobDiffs jobDiffsHead
  · obtain ⟨code, message, lines⟩ := unhashed.refused
    have same := unhashed.conn
    rw [lines]
    exact follows.of_same ⟨same.authorized, same.difficulty, same.jobDiffs, same.jobDiffsHead⟩

theorem Conn.Follows.suggest {c : Conn} (follows : c.Follows published seen) (fp : Fpu) (s : Server)
    (hasId : Bool)
    (params : Json) : (handleSuggestDifficulty fp s c hasId params).conn.Follows published
      (seen.lines (handleSuggestDifficulty fp s c hasId params).lines) := by
  rw [handleSuggestDifficulty]
  by_cases asked : 0 < (params.items[0]?.bind Json.valuedouble).getD 0
  · rw [if_neg (not_not.mpr asked)]
    generalize (params.items[0]?.bind Json.valuedouble).getD 0 = req
    obtain ⟨jobDiffs, jobDiffsHead, atLeast⟩ := applyRequestedDiff_jobDiffs fp s.cfg s.jobs c req
    have authorized := applyRequestedDiff_authorized fp s.cfg s.jobs c req
    have tail : ∀ seen : Seen, seen.lines (if hasId then [.accepted] else []) = seen := by
      intro seen
      cases hasId <;> rfl
    simp only [Seen.lines, List.foldl_append] at tail ⊢
    rw [tail]
    split_ifs with changed
    · have positive := (follows.inForce (by simpa using (Bool.and_eq_true _ _ ▸ changed).1)).2
      exact follows.announce (lt_of_lt_of_le positive atLeast) jobDiffs jobDiffsHead
    · refine ⟨by rw [jobDiffs, jobDiffsHead]; exact follows.ring, ?_, follows.known⟩
      intro still
      rw [authorized] at still
      have same : (applyRequestedDiff fp s.cfg s.jobs c req).difficulty = c.difficulty := by
        simpa [still] using changed
      rw [same]
      exact follows.inForce still
  · rw [if_pos asked]
    exact follows

theorem Conn.Follows.authorize {c : Conn} (follows : c.Follows published seen)
    (distinct : Distinct published) {s : Server}
    (current : s.jobs.current = published.head?) (fp : Fpu) (env : Env) (params : Json) :
    (handleAuthorize fp env s c params).conn.Follows published
      (seen.lines (handleAuthorize fp env s c params).lines) := by
  rcases (handleAuthorize_spec fp env s c params).told with ⟨ready, assigned, conn, lines⟩ | ⟨same,
    code, message, lines⟩
  · rw [conn, lines, Seen.lines, List.foldl_append]
    exact (follows.announce assigned.difficulty assigned.jobDiffs assigned.jobDiffsHead).notify
      distinct current
      assigned.authorized fp s.cfg true
  · rw [lines]
    exact follows.of_same same

theorem Conn.Follows.message {c : Conn} (follows : c.Follows published seen)
    (distinct : Distinct published) {s : Server}
    (current : s.jobs.current = published.head?) (fp : Fpu) (env : Env) (request : Request) :
    (handleMessage fp env s c request).conn.Follows published
      (seen.lines (handleMessage fp env s c request).lines) := by
  rw [handleMessage]
  cases methodOf request.method with
  | configure =>
    simp only [handleConfigure]
    split_ifs <;> exact follows.of_same ⟨rfl, rfl, rfl, rfl⟩
  | subscribe => exact follows.of_same ⟨rfl, rfl, rfl, rfl⟩
  | suggestDifficulty => exact follows.suggest fp s request.hasId request.params
  | authorize => exact follows.authorize distinct current fp env request.params
  | submit => exact follows.submit fp env s request.params
  | unknown => exact follows

structure Watched.Follows (w : Watched) : Prop where
  distinct : Distinct w.published
  jobs : w.pool.server.jobs.Retains w.published
  conns : ∀ i c, w.pool.conns i = some c → c.Follows w.published (w.seen i)

theorem Watched.Follows.start (cfg : Cfg) (seed : UInt32) : (Watched.start cfg seed).Follows where
  distinct := ⟨List.nodup_nil, List.forall_mem_nil _⟩
  jobs := .empty
  conns := fun _ _ none => nomatch none

def Event.published : Event → Option Bytes
  | .setJob _ job _ => some job.jobId
  | _ => none

/-- A job that is published has a name of its own. -/
def NewId (w : Watched) (e : Event) (_ : Watched) : Prop :=
  ∀ id, e.published = some id → id ≠ [] ∧ id ∉ w.published.map Job.jobId

theorem Watched.Follows.step {w t : Watched} (follows : w.Follows) (new : NewId w e t)
    (stepped : w.step fp e = some t) :
    t.Follows := by
  obtain ⟨pool, moved, rfl⟩ := Option.map_eq_some_iff.mp stepped
  cases e with
  | connect i peerIp pol =>
    simp only [Pool.step] at moved
    split at moved
    next => contradiction
    next =>
      obtain rfl := Option.some.inj moved
      refine ⟨follows.distinct, follows.jobs, ?_⟩
      intro j c here
      rcases conns_update here with ⟨rfl, placed⟩ | ⟨other, there⟩
      · obtain rfl := Option.some.inj placed
        dsimp only
        rw [Function.update_self]
        exact .new w.published w.pool.server.cfg peerIp pol
      · dsimp only
        rw [Function.update_of_ne other]
        exact follows.conns j c there
  | disconnect i =>
    obtain rfl := Option.some.inj moved
    refine ⟨follows.distinct, follows.jobs, ?_⟩
    intro j c here
    rcases conns_update here with ⟨_, gone⟩ | ⟨_, there⟩
    · contradiction
    · exact follows.conns j c there
  | message i env request =>
    simp only [Pool.step] at moved
    split at moved
    next => contradiction
    next c here =>
      obtain rfl := Option.some.inj moved
      have jobs := (handleMessage_jobs fp env w.pool.server c request).2
      refine ⟨follows.distinct, by rw [Pool.handled, jobs]; exact follows.jobs, ?_⟩
      intro j c' there
      rcases conns_update there with ⟨rfl, left⟩ | ⟨other, there⟩
      · split_ifs at left
        obtain rfl := Option.some.inj left
        simp only [linesTo, here, if_true]
        exact (follows.conns j c here).message follows.distinct follows.jobs.current fp env request
      · simp only [linesTo, there, if_neg other]
        exact follows.conns j c' there
  | setJob mono job clean =>
    obtain rfl := Option.some.inj moved
    obtain ⟨named, fresh⟩ := new job.jobId rfl
    have distinct : Distinct (job :: w.published) := by
      refine ⟨List.nodup_cons.mpr ⟨fresh, follows.distinct.nodup⟩, ?_⟩
      intro other member
      rcases List.mem_cons.mp member with rfl | older
      · exact named
      · exact follows.distinct.named other older
    have jobs := follows.jobs.publish mono job
    refine ⟨distinct, jobs, ?_⟩
    intro i c here
    obtain ⟨before, there, rfl⟩ := Option.map_eq_some_iff.mp here
    have published := (follows.conns i before there).publish fresh
    simp only [linesTo, there, notifyConn]
    split_ifs with live
    · exact published.notify distinct jobs.current (Bool.and_eq_true _ _ ▸ live).2 fp
        w.pool.server.cfg clean
    · exact published

/-- For every connection and every job that is still found and that it was notified: the
job is in its ring, and a submit on it is judged at the difficulty that was in force at
its latest notify. -/
def JudgedAsSent (w : Watched) : Prop :=
  ∀ i c, w.pool.conns i = some c → ∀ id j, findJob w.pool.server.jobs id = some j →
    ∀ d, (w.seen i).notified.lookup j.jobId = some d →
      (∃ k < jobDiffRing, (c.jobDiffs k).jobId = j.jobId) ∧ d = some (connJobDifficulty c j.jobId) ∧
        assignedDiff c j = connJobDifficulty c j.jobId

theorem Watched.Follows.judgedAsSent {w : Watched} (follows : w.Follows) : JudgedAsSent w := by
  intro i c here id j found d told
  obtain ⟨k, index, place⟩ := follows.jobs.find found
  obtain ⟨count, recent, records⟩ := (follows.conns i c here).ring
  have named := follows.distinct.named j (List.mem_of_getElem? place)
  obtain ⟨stored, positive, answer⟩ :=
    records.connJobDifficulty named (records.mem index place told)
  refine ⟨stored, Option.some.inj (told.symm.trans answer), ?_⟩
  rw [assignedDiff, if_neg (not_le.mpr positive)]

theorem Watched.step_published {w t : Watched} (stepped : w.step fp e = some t) :
    t.published.map Job.jobId = e.published.toList ++ w.published.map Job.jobId := by
  obtain ⟨pool, _, rfl⟩ := Option.map_eq_some_iff.mp stepped
  cases e <;> rfl

theorem newId_along {w : Watched} (nodup : (events.filterMap Event.published).Nodup)
    (new : ∀ id ∈ events.filterMap Event.published, id ≠ [] ∧ id ∉ w.published.map Job.jobId) :
    Along (Watched.step fp) NewId w events := by
  induction events generalizing w with
  | nil => trivial
  | cons e rest ih =>
    intro t stepped
    have ids := Watched.step_published stepped
    cases named : e.published with
    | none =>
      rw [List.filterMap_cons_none named] at nodup new
      rw [named, Option.toList_none, List.nil_append] at ids
      refine ⟨fun id same => ?_, ih nodup (by rwa [ids])⟩
      cases named.symm.trans same
    | some id =>
      rw [List.filterMap_cons_some named] at nodup new
      rw [named] at ids
      obtain ⟨unused, later⟩ := List.nodup_cons.mp nodup
      constructor
      · intro other same
        obtain rfl := Option.some.inj (named.symm.trans same)
        exact new id List.mem_cons_self
      · apply ih later
        intro other member
        obtain ⟨nonempty, fresh⟩ := new other (List.mem_cons_of_mem _ member)
        refine ⟨nonempty, ?_⟩
        rw [ids]
        simp only [Option.toList_some, List.cons_append, List.nil_append, List.mem_cons, not_or]
        exact ⟨fun same => unused (same ▸ member), fresh⟩

/-- Jobs that are published under distinct names are new ones. -/
theorem newId_of_distinct (distinct : (events.filterMap Event.published).Nodup)
    (named : [] ∉ events.filterMap Event.published) :
    Along (Watched.step fp) NewId (.start cfg seed) events := by
  apply newId_along distinct
  intro id member
  exact ⟨fun empty => named (empty ▸ member), by simp [Watched.start]⟩

/-- Over every run that publishes its jobs under distinct names. -/
theorem jobs_judged_as_sent (fp : Fpu) (cfg : Cfg) (seed : UInt32) (events : List Event)
    (distinct : (events.filterMap Event.published).Nodup)
    (named : [] ∉ events.filterMap Event.published) :
    Along (Watched.step fp) (fun _ _ w => JudgedAsSent w) (Watched.start cfg seed) events := by
  apply Along.of_invariant _ (Watched.Follows.start cfg seed) (newId_of_distinct distinct named)
  intro w e t follows new stepped
  have kept := follows.step new stepped
  exact ⟨kept, kept.judgedAsSent⟩

/-- A solo server that retargets every minute. -/
def retargetCfg : Cfg :=
  { soloCfg with
    initialDiff := 1 / 2 ^ 40, vardiffEnabled := true, vardiffTargetSpm := 60
    vardiffWindowSec := 60 }

def numberedJob (n : Nat) : Job :=
  .new (ascii (toString n)) 0x20000000 zeros32 5000000000 none extranonce1Size extranonce2Size []
    0x1d00ffff 0x65000000 ⟨[0, 0, 0, 0, 0xff, 0xff] ++ List.replicate 26 0, by decide⟩ 1 [] none
      false 0

def publishes (first count : Nat) : List Event :=
  (List.range' first count).map fun n => .setJob 0 (numberedJob n) false

def submitAt (now : UInt64) (job : Nat) (nonce : String) : Event :=
  .message 0 { soloEnv with now }
    (soloRequest "mining.submit" [[], ascii (toString job), ascii "0000000000000000",
      ascii "65000000", ascii nonce])

/-- Forty-six jobs, of which both rings lose the first ones. The second share is a minute
after the first and brings the difficulty down, and then the miner authorizes again. -/
def retargetedRun : List Event :=
  [.setJob 0 (numberedJob 0) true, .connect 0 [] ⟨0, 0, 0, 0, 0⟩, soloMessage "mining.subscribe" [],
    soloMessage "mining.authorize" [firstAddress]] ++ publishes 1 35 ++
  [submitAt 1 35 "00000001", submitAt 60001 35 "00000002"] ++ publishes 36 5 ++
  [soloMessage "mining.authorize" [firstAddress]] ++ publishes 41 5

/-- Jobs of both difficulties are still found where the run ends. -/
theorem jobs_judged_as_sent_retargeted :
    Along (Watched.step .exact) (fun _ _ w => JudgedAsSent w) (.start retargetCfg 0) retargetedRun ∧
    ∃ w ∈ run (Watched.step .exact) (.start retargetCfg 0) retargetedRun,
      w.pool.server.jobs.head = 13 ∧ (w.pool.conns 0).map Conn.jobDiffsHead = some 12 ∧
      (findJob w.pool.server.jobs (some (ascii "28"))).isNone ∧
      (findJob w.pool.server.jobs (some (ascii "29"))).isSome ∧
      (w.seen 0).notified.lookup (ascii "29") = some (some (1 / 2 ^ 40)) ∧
      (w.seen 0).notified.lookup (ascii "45") = some (some (1 / 2 ^ 42)) := by
  have distinct : (retargetedRun.filterMap Event.published).Nodup := by decide +kernel
  have named : [] ∉ retargetedRun.filterMap Event.published := by decide +kernel
  exact ⟨jobs_judged_as_sent .exact retargetCfg 0 retargetedRun distinct named, by decide +kernel⟩

end SimplePool.Stratum
