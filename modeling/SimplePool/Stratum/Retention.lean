import SimplePool.Stratum.Server

/-! Publishing a job and looking one up, at the grain of their critical sections. The
publisher swaps the current job under one lock and retires the old one under another;
a lookup reads the current job under the first and the ring under the second. -/
namespace SimplePool.Stratum.Retention
open Wire Coinbase Transition

/-- The retained jobs in the order of their slots. -/
def ring (jobs : Jobs) : List Job := (List.range recentJobs).filterMap jobs.recent

/-- The first critical section of `find_job`. -/
def lookCurrent (jobs : Jobs) (jobId : Bytes) : Option Job := named jobId jobs.current

/-- The second. -/
def scanRecent (jobs : Jobs) (jobId : Bytes) : Option Job :=
  (List.range recentJobs).findSome? fun i => named jobId (jobs.recent i)

/-- A lookup between its two sections, with the jobs that had been current when it began. -/
inductive Finder where
  | idle
  | scanning (jobId : Bytes) (known : List Job)

/-- `retiring` is the job that the publisher has replaced and not yet retired. The last two
fields are the history: every job that was ever current, and those the ring let go. -/
structure State where
  jobs : Jobs
  retiring : Option Job
  finders : Nat → Finder
  published : List Job
  dropped : List Job

def start : State := ⟨.empty, none, fun _ => .idle, [], []⟩

inductive Section where
  | swap (job : Job)
  | retire (mono : UInt64)
  | look (i : Nat) (jobId : Bytes)
  | scan (i : Nat)

def swap (s : State) (job : Job) : State :=
  { s with
    jobs := { s.jobs with current := some job }
    retiring := s.jobs.current
    published := job :: s.published }

def retire (s : State) (mono : UInt64) (old : Job) : State :=
  let jobs := retireJob s.jobs mono old
  { s with
    jobs := jobs
    retiring := none
    dropped := (ring s.jobs).filter (· ∉ ring jobs) ++ s.dropped }

/-- One thread publishes, so it swaps again only once it has retired. -/
def step (s : State) : Section → Option State
  | .swap job => if s.retiring.isSome then none else some (swap s job)
  | .retire mono => s.retiring.map (retire s mono)
  | .look i jobId =>
    match s.finders i with
    | .scanning _ _ => none
    | .idle =>
      match lookCurrent s.jobs jobId with
      | some _ => some s
      | none => some { s with finders := Function.update s.finders i (.scanning jobId s.published) }
  | .scan i =>
    match s.finders i with
    | .scanning _ _ => some { s with finders := Function.update s.finders i .idle }
    | .idle => none

/-- Without anything in between, the sections are the whole call. -/
theorem publish_eq (s : State) (job : Job) (mono : UInt64) : s.jobs.publish mono job =
    match (swap s job).retiring with
    | none => (swap s job).jobs
    | some old => (retire (swap s job) mono old).jobs := by
  cases current : s.jobs.current with
  | none => simp only [Jobs.publish, swap, current]
  | some old => simp only [Jobs.publish, swap, retire, current]

theorem findJob_eq (jobs : Jobs) (jobId : Bytes) :
    findJob jobs (some jobId) = (lookCurrent jobs jobId).or (scanRecent jobs jobId) := by
  rw [findJob, lookCurrent]
  cases named jobId jobs.current with
  | none => rfl
  | some j => rfl

theorem mem_ring {jobs : Jobs} : j ∈ ring jobs ↔ ∃ i < recentJobs, jobs.recent i = some j := by
  simp [ring]

theorem scanRecent_of_mem {jobs : Jobs} (inside : j ∈ ring jobs) :
    ∃ found, scanRecent jobs j.jobId = some found := by
  obtain ⟨i, bound, here⟩ := mem_ring.mp inside
  rw [← Option.isSome_iff_exists, scanRecent, List.findSome?_isSome_iff]
  refine ⟨i, List.mem_range.mpr bound, ?_⟩
  simp [here, named]

theorem scanRecent_spec {jobs : Jobs} (found : scanRecent jobs jobId = some j) :
    j ∈ ring jobs ∧ j.jobId = jobId := by
  obtain ⟨i, bound, hit⟩ := List.exists_of_findSome?_eq_some found
  exact ⟨mem_ring.mpr ⟨i, List.mem_range.mp bound, named_slot hit⟩, named_eq_some hit⟩

theorem mem_ring_retireJob {jobs : Jobs} (headLt : jobs.head < recentJobs) (mono : UInt64)
    (old : Job) :
    old ∈ ring (retireJob jobs mono old) :=
  mem_ring.mpr ⟨jobs.head, headLt, by simp [retireJob]⟩

theorem ring_retireJob_subset {jobs : Jobs} (inside : j ∈ ring (retireJob jobs mono old)) :
    j = old ∨ j ∈ ring jobs := by
  obtain ⟨i, bound, here⟩ := mem_ring.mp inside
  simp only [retireJob, Function.update_apply] at here
  split_ifs at here
  · exact .inl (Option.some.inj here).symm
  · exact .inr (mem_ring.mpr ⟨i, bound, (Option.filter_eq_some_iff.mp here).1⟩)

structure Inv (s : State) : Prop where
  head_lt : s.jobs.head < recentJobs
  held : ∀ j ∈ s.published, j ∉ s.dropped → s.jobs.current = some j ∨ s.retiring = some j ∨
  j ∈ ring s.jobs
  current : ∀ j, s.jobs.current = some j → j ∈ s.published
  retiring : ∀ j, s.retiring = some j → j ∈ s.published
  retained : ∀ j ∈ ring s.jobs, j ∈ s.published
  scanning : ∀ i jobId known, s.finders i = .scanning jobId known → ∀ j ∈ known,
  j.jobId = jobId → j ∉ s.dropped →
    s.retiring = some j ∨ j ∈ ring s.jobs

theorem inv_start : Inv start where
  head_lt := by decide
  held := by simp [start]
  current := by simp [start, Jobs.empty]
  retiring := by simp [start]
  retained := by simp [start, ring, Jobs.empty]
  scanning := by simp [start]

theorem swap_inv (inv : Inv s) (settled : s.retiring = none) (job : Job) : Inv (swap s job) where
  head_lt := inv.head_lt
  held := by
    intro j member kept
    rcases List.mem_cons.mp member with rfl | older
    · exact .inl rfl
    · rcases inv.held j older kept with current | retiring | retained
      · exact .inr (.inl current)
      · rw [settled] at retiring
        contradiction
      · exact .inr (.inr retained)
  current := by
    intro j here
    exact Option.some.inj here ▸ List.mem_cons_self
  retiring := fun j here => List.mem_cons_of_mem _ (inv.current j here)
  retained := fun j inside => List.mem_cons_of_mem _ (inv.retained j inside)
  scanning := by
    intro i jobId known here j member same kept
    rcases inv.scanning i jobId known here j member same kept with retiring | retained
    · rw [settled] at retiring
      contradiction
    · exact .inr retained

/-- A job that was retained is still, or is dropped now. -/
theorem retained_retire (s : State) (mono : UInt64) (old : Job) (inside : j ∈ ring s.jobs)
    (kept : j ∉ (retire s mono old).dropped) : j ∈ ring (retire s mono old).jobs := by
  by_contra gone
  apply kept
  exact List.mem_append_left _ (List.mem_filter.mpr ⟨inside, by simpa [retire] using gone⟩)

theorem retire_inv (inv : Inv s) (retiring : s.retiring = some old) (mono : UInt64) :
    Inv (retire s mono old) where
  head_lt := Nat.mod_lt _ (by decide)
  held := by
    intro j member kept
    rcases inv.held j member (fun dropped => kept (List.mem_append_right _ dropped)) with
      current | pending | retained
    · exact .inl current
    · obtain rfl := Option.some.inj (retiring.symm.trans pending)
      exact .inr (.inr (mem_ring_retireJob inv.head_lt mono old))
    · exact .inr (.inr (retained_retire s mono old retained kept))
  current := inv.current
  retiring := fun _ none => nomatch none
  retained := by
    intro j inside
    rcases ring_retireJob_subset inside with rfl | before
    · exact inv.retiring j retiring
    · exact inv.retained j before
  scanning := by
    intro i jobId known here j member same kept
    rcases inv.scanning i jobId known here j member same
      (fun dropped => kept (List.mem_append_right _ dropped)) with
      pending | retained
    · obtain rfl := Option.some.inj (retiring.symm.trans pending)
      exact .inr (mem_ring_retireJob inv.head_lt mono old)
    · exact .inr (retained_retire s mono old retained kept)

/-- A lookup that misses the current job goes on to the ring. -/
theorem look_inv (inv : Inv s) (missed : lookCurrent s.jobs jobId = none) (i : Nat) :
    Inv { s with finders := Function.update s.finders i (.scanning jobId s.published) } where
  head_lt := inv.head_lt
  held := inv.held
  current := inv.current
  retiring := inv.retiring
  retained := inv.retained
  scanning := by
    intro i' jobId' known here j member same kept
    dsimp only at here
    rw [Function.update_apply] at here
    split_ifs at here with mine
    · obtain ⟨rfl, rfl⟩ := Finder.scanning.inj here
      rcases inv.held j member kept with current | elsewhere
      · simp [lookCurrent, current, named, same] at missed
      · exact elsewhere
    · exact inv.scanning i' jobId' known here j member same kept

theorem idle_inv (inv : Inv s) (i : Nat) :
    Inv { s with finders := Function.update s.finders i .idle } where
  head_lt := inv.head_lt
  held := inv.held
  current := inv.current
  retiring := inv.retiring
  retained := inv.retained
  scanning := by
    intro i' jobId known here
    dsimp only at here
    rw [Function.update_apply] at here
    split_ifs at here
    exact inv.scanning i' jobId known here

theorem step_inv (inv : Inv s) (stepped : step s e = some t) : Inv t := by
  cases e with
  | swap job =>
    simp only [step] at stepped
    split_ifs at stepped with busy
    obtain rfl := Option.some.inj stepped
    exact swap_inv inv (by simpa using busy) job
  | retire mono =>
    obtain ⟨old, retiring, rfl⟩ := Option.map_eq_some_iff.mp stepped
    exact retire_inv inv retiring mono
  | look i jobId =>
    simp only [step] at stepped
    split at stepped
    next => contradiction
    next =>
      split at stepped
      next =>
        obtain rfl := Option.some.inj stepped
        exact inv
      next missed =>
        obtain rfl := Option.some.inj stepped
        exact look_inv inv missed i
  | scan i =>
    simp only [step] at stepped
    split at stepped
    next =>
      obtain rfl := Option.some.inj stepped
      exact idle_inv inv i
    next => contradiction

/-- A lookup that comes to its last section finds every job that had been current when it
began and that the ring has not let go: a job of that id, and that very job if no other
was published under the id. -/
def Resolves (s : State) (e : Section) (_ : State) : Prop :=
  match e with
  | .scan i =>
    ∀ jobId known, s.finders i = .scanning jobId known → ∀ job ∈ known,
      job.jobId = jobId → job ∉ s.dropped →
      ∃ found, scanRecent s.jobs jobId = some found ∧ found.jobId = jobId ∧
        ((∀ other ∈ s.published, other.jobId = jobId → other = job) → found = job)
  | _ => True

/-- The job that is looked for is not the one between its swap and its retirement. -/
def RetiredFirst (s : State) (e : Section) (_ : State) : Prop :=
  match e with
  | .scan i =>
    ∀ jobId known old,
      s.finders i = .scanning jobId known → s.retiring = some old → old.jobId ≠ jobId
  | _ => True

theorem resolves_of_retiredFirst (inv : Inv s) (first : RetiredFirst s e t) : Resolves s e t := by
  cases e with
  | scan i =>
    intro jobId known here job member same kept
    rcases inv.scanning i jobId known here job member same kept with retiring | retained
    · exact absurd same (first jobId known job here retiring)
    · obtain ⟨found, hit⟩ := scanRecent_of_mem retained
      rw [same] at hit
      obtain ⟨inside, named⟩ := scanRecent_spec hit
      exact ⟨found, hit, named, fun only => only found (inv.retained found inside) named⟩
  | swap => trivial
  | retire => trivial
  | look => trivial

/-- Over every interleaving of the sections. -/
theorem find_resolves_published (sections : List Section)
    (first : Along step RetiredFirst start sections) :
    Along step Resolves start sections := by
  apply Along.of_invariant _ inv_start first
  intro s e t inv condition stepped
  exact ⟨step_inv inv stepped, resolves_of_retiredFirst inv condition⟩

def nextJob : Job :=
  .new (ascii "2") 0x20000000 zeros32 5000000000 none extranonce1Size extranonce2Size []
    0x207fffff 0x65000000 regtestTarget 1 [] none false 0

/-- No lookup reads the ring while a job is being retired. -/
def settledScan (s : State) : Section → Bool
  | .scan _ => s.retiring.isNone
  | _ => true

theorem retiredFirst_of_settledScan (settled : settledScan s e = true) (t : State) :
    RetiredFirst s e t := by
  cases e with
  | scan i =>
    intro jobId known old _ retiring
    simp [settledScan, retiring] at settled
  | swap => trivial
  | retire => trivial
  | look => trivial

theorem find_resolves_published_retired :
    Along step RetiredFirst start [.swap regtestJob, .swap nextJob, .retire 0, .look 0 (ascii "1"),
      .scan 0] ∧
    Along step Resolves start [.swap regtestJob, .swap nextJob, .retire 0, .look 0 (ascii "1"),
      .scan 0] := by
  have settled : Along step (fun s e _ => settledScan s e = true) start
      [.swap regtestJob, .swap nextJob, .retire 0, .look 0 (ascii "1"), .scan 0] := by
        decide +kernel
  have first := settled.imp fun s e t _ settled => retiredFirst_of_settledScan settled t
  exact ⟨first, find_resolves_published _ first⟩

/-- Between the swap and the retirement the old job is nowhere to be found. -/
theorem find_misses_retiring :
    ¬Along step Resolves start ([.swap regtestJob, .swap nextJob, .look 0 (ascii "1")] ++
      [.scan 0]) := by
  intro along
  let swapped : State := swap (swap start regtestJob) nextJob
  let looked : State := { swapped with
    finders := Function.update swapped.finders 0 (.scanning (ascii "1") swapped.published) }
  have ran : run step start [.swap regtestJob, .swap nextJob, .look 0 (ascii "1")] = some looked :=
    rfl
  obtain ⟨resolves, _⟩ := along.after ran _ rfl
  obtain ⟨found, hit, _⟩ := resolves (ascii "1") [nextJob, regtestJob] rfl regtestJob (by simp) rfl
    List.not_mem_nil
  have missed : scanRecent looked.jobs (ascii "1") = none := rfl
  rw [missed] at hit
  contradiction

end SimplePool.Stratum.Retention
