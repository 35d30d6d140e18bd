import SimplePool.Main.TipWatcher

/-! How large the windows are. Every window is sized from the one difficulty that the watcher
keeps, which is that of the template it took in last; a job is built before its own template
is taken in, and a block may be found on a job of an older one. -/
namespace SimplePool.Main
open Wire Coinbase Stratum Transition
open Store (Db Oracle)

section

variable {fp : Fpu} {oracle : Oracle} {cfg : Config}

/-- The difficulty of the newest of the templates that had one to be stored. -/
def lastDifficulty (fp : Fpu) : List BlockTemplate → ℚ
  | [] => 0
  | t :: rest => (t.priced fp).getD (lastDifficulty fp rest)

/-- The network difficulty that the job was built for. -/
def jobDifficulty (fp : Fpu) (job : Job) : WithTop ℚ := targetToDiff fp job.networkTarget.val

/-- The window that goes with a difficulty. -/
def ownWindow (fp : Fpu) (cfg : Config) (difficulty : WithTop ℚ) : WithTop ℚ :=
  difficulty.map (windowSize fp cfg)

/-- The mode pays a window that is snapshot with the block. -/
def Config.snapshots (cfg : Config) : Prop :=
  cfg.poolMode = .pplnsThunder ∨ cfg.poolMode = .pplnsBtc

instance (cfg : Config) : Decidable cfg.snapshots := inferInstanceAs (Decidable (_ ∨ _))

/-- What the step splits or snapshots is the window of the job it is about. -/
structure OwnSized (fp : Fpu) (oracle : Oracle) (cfg : Config) (s : Watcher) (event : WatcherEvent)
    (after : Watcher) : Prop where
  split : ∀ built, s.publishes fp oracle cfg event = some built → ∀ reading,
    built.reading = some reading →
    (reading.size : WithTop ℚ) = ownWindow fp cfg (jobDifficulty fp built.job)
  snapshot : cfg.snapshots → ∀ jobId block job, event = .found jobId block →
    findJob s.jobs jobId = some job →
    ∀ row ∈ after.db.blocksFound.rows, row ∉ s.db.blocksFound.rows →
      (row.pplnsWindowDiff : WithTop ℚ) = ownWindow fp cfg (jobDifficulty fp job)

/-- A template that is built from, and a job that a block is found on, have the difficulty of
the template taken in last. -/
def Steady (fp : Fpu) (cfg : Config) (s : Watcher) : WatcherEvent → Prop
  | .poll t _ nowMs _ =>
    cfg.poolMode = .pplnsCoinbase → s.newTip t ∨ 30000 < nowMs - s.lastBuiltMs →
      t.difficulty fp = some (lastDifficulty fp s.taken : WithTop ℚ)
  | .found jobId _ => cfg.snapshots → ∀ job ∈ findJob s.jobs jobId,
      0 < lastDifficulty fp s.taken ∧ jobDifficulty fp job = (lastDifficulty fp s.taken : WithTop ℚ)
  | _ => True

instance (fp : Fpu) (cfg : Config) (s : Watcher) :
    (event : WatcherEvent) → Decidable (Steady fp cfg s event)
  | .poll .. => inferInstanceAs (Decidable (_ → _ → _))
  | .found jobId _ => inferInstanceAs (Decidable (_ → ∀ job ∈ findJob s.jobs jobId, _ ∧ _))
  | .start .. | .refresh .. | .stage .. | .shares .. => .isTrue trivial

theorem BlockTemplate.difficulty_of_priced {t : BlockTemplate} {d : ℚ}
    (priced : t.priced fp = some d) :
    t.difficulty fp = some (d : WithTop ℚ) ∧ 0 < d := by
  rw [BlockTemplate.priced] at priced
  split at priced
  next difficulty known =>
    split at priced
    next positive =>
      obtain rfl := Option.some.inj priced
      exact ⟨known, positive⟩
    next => contradiction
  next => contradiction

/-- The job of a template has its target, window or not. -/
theorem buildJobFromTemplate_target {t : BlockTemplate}
    (made : buildJobFromTemplate t nowMs mono = .ok job) :
    t.target = .ok job.networkTarget := by
  rw [buildJobFromTemplate] at made
  obtain ⟨txids, _, made⟩ := bind_ok made
  obtain ⟨prev, _, made⟩ := bind_ok made
  obtain ⟨target, known, made⟩ := bind_ok made
  obtain rfl := Except.ok.inj made
  exact known

theorem attachPplnsWindow_target {job attached : Job} {reading : Option Reading}
    (done : attachPplnsWindow fp oracle cfg netDiff db t job = some (attached, reading)) :
    attached.networkTarget = job.networkTarget := by
  rw [attachPplnsWindow] at done
  split_ifs at done
  · cases done
    rfl
  · split at done
    next =>
      split_ifs at done
      · cases done
        rfl
      · obtain ⟨_, _, same⟩ := Option.map_eq_some_iff.mp done
        cases same
        rfl
    next => contradiction

theorem Watcher.build_spec {s : Watcher} {built : Built}
    (made : s.build fp oracle cfg t nowMs mono = some built) :
    built.before = s ∧ t.difficulty fp = some (jobDifficulty fp built.job) ∧
      ∀ reading, built.reading = some reading → cfg.poolMode = .pplnsCoinbase ∧
      0 < s.netDifficulty ∧
        reading.size = windowSize fp cfg s.netDifficulty ∧
        Store.storePplnsWindow oracle walkFuel s.db reading.size maxPayoutOutputs =
          some (.ok reading.window) := by
  rw [Watcher.build] at made
  split at made
  next => contradiction
  next job new =>
    obtain ⟨⟨attached, read⟩, done, rfl⟩ := Option.map_eq_some_iff.mp made
    refine ⟨rfl, ?_, ?_⟩
    · rw [BlockTemplate.difficulty, buildJobFromTemplate_target new, jobDifficulty,
        attachPplnsWindow_target done]
      rfl
    · rintro reading rfl
      exact attachPplnsWindow_reading done

def Watcher.Priced (fp : Fpu) (s : Watcher) : Prop := s.netDifficulty = lastDifficulty fp s.taken

theorem Watcher.Priced.refresh {s : Watcher} (priced : s.Priced fp) (cfg : Config)
    (t : BlockTemplate) (nowS : Int) (rate : ℚ) :
    (s.refreshPpsRate fp cfg t nowS rate).Priced fp :=
  congrArg (t.priced fp).getD priced

theorem Watcher.caughtUp_kept (oracle : Oracle) (cfg : Config) (s : Watcher) (t : BlockTemplate)
    (node : Int → Reconcile.BlockHashReply) :
    (s.caughtUp oracle cfg t node).netDifficulty = s.netDifficulty ∧
    (s.caughtUp oracle cfg t node).taken = s.taken := by
  rw [Watcher.caughtUp]
  split <;> exact ⟨rfl, rfl⟩

theorem Watcher.Priced.caughtUp {s : Watcher} (priced : s.Priced fp) (t : BlockTemplate)
    (node : Int → Reconcile.BlockHashReply) :
    (s.caughtUp oracle cfg t node).Priced fp := by
  obtain ⟨difficulty, taken⟩ := s.caughtUp_kept oracle cfg t node
  rw [Watcher.Priced, difficulty, taken]
  exact priced

theorem Watcher.Priced.step {s after : Watcher} (priced : s.Priced fp)
    (stepped : s.step fp oracle cfg event = some after) :
    after.Priced fp := by
  cases event with
  | start t nowMs mono nowS rate =>
    simp only [Watcher.step] at stepped
    split at stepped
    next => contradiction
    next =>
      split at stepped
      next built made =>
        obtain rfl := Option.some.inj stepped
        obtain ⟨before, _⟩ := Watcher.build_spec made
        rw [Watcher.Priced, before]
        rfl
      next =>
        obtain rfl := Option.some.inj stepped
        rfl
  | poll t node nowMs mono =>
    simp only [Watcher.step] at stepped
    split_ifs at stepped
    split at stepped
    next built made =>
      obtain rfl := Option.some.inj stepped
      rw [Watcher.publishes] at made
      split_ifs at made
      obtain ⟨before, _⟩ := Watcher.build_spec made
      rw [Watcher.Priced, before]
      exact priced.caughtUp t node
    next =>
      obtain rfl := Option.some.inj stepped
      exact priced.caughtUp t node
  | refresh nowMs nowS rate =>
    obtain ⟨t, _, rfl⟩ := Option.map_eq_some_iff.mp stepped
    exact priced.refresh cfg t nowS rate
  | stage hash deltas =>
    obtain ⟨_, _, rfl⟩ := Option.map_eq_some_iff.mp stepped
    exact priced
  | found jobId block =>
    simp only [Watcher.step] at stepped
    split at stepped
    next => contradiction
    next =>
      split_ifs at stepped
      obtain rfl := Option.some.inj stepped
      exact priced
  | shares workers table =>
    obtain rfl := Option.some.inj stepped
    exact priced

/-- At the start the template is taken in before its job is built. -/
theorem Watcher.start_sized {s : Watcher} {built : Built}
    (made : s.publishes fp oracle cfg (.start t nowMs mono nowS rate) = some built)
    (attached : built.reading = some reading) :
    (reading.size : WithTop ℚ) = ownWindow fp cfg (jobDifficulty fp built.job) := by
  obtain ⟨_, difficulty, read⟩ := Watcher.build_spec made
  obtain ⟨_, positive, size, _⟩ := read reading attached
  have kept : (s.boot fp cfg t nowMs nowS rate).netDifficulty = (t.priced fp).getD 0 := rfl
  rw [kept] at positive size
  cases priced : t.priced fp with
  | none =>
    rw [priced] at positive
    exact absurd positive (lt_irrefl 0)
  | some d =>
    rw [(BlockTemplate.difficulty_of_priced priced).1] at difficulty
    rw [size, priced, ← Option.some.inj difficulty]
    rfl

theorem Watcher.poll_sized {s : Watcher} {built : Built} (priced : s.Priced fp)
    (steady : Steady fp cfg s (.poll t node nowMs mono))
    (made : s.publishes fp oracle cfg (.poll t node nowMs mono) = some built)
    (attached : built.reading = some reading) :
    (reading.size : WithTop ℚ) = ownWindow fp cfg (jobDifficulty fp built.job) := by
  rw [Watcher.publishes] at made
  split_ifs at made with due
  obtain ⟨_, difficulty, read⟩ := Watcher.build_spec made
  obtain ⟨mode, _, size, _⟩ := read reading attached
  rw [steady mode due] at difficulty
  rw [size, (s.caughtUp_kept oracle cfg t node).1, priced, ← Option.some.inj difficulty]
  rfl

theorem Watcher.found_sized {s after : Watcher} (priced : s.Priced fp)
    (steady : Steady fp cfg s (.found jobId block))
    (mode : cfg.snapshots) (here : findJob s.jobs jobId = some job)
    (stepped : s.step fp oracle cfg (.found jobId block) = some after)
    (member : row ∈ after.db.blocksFound.rows) (fresh : row ∉ s.db.blocksFound.rows) :
    (row.pplnsWindowDiff : WithTop ℚ) = ownWindow fp cfg (jobDifficulty fp job) := by
  simp only [Watcher.step, here] at stepped
  split_ifs at stepped
  obtain rfl := Option.some.inj stepped
  rw [Watcher.db, Watcher.write, Store.Connection.write_db] at member
  obtain ⟨_, _, window⟩ := Store.storeRecordBlock_added member fresh
  obtain ⟨positive, same⟩ := steady mode job here
  rw [← priced] at positive same
  rw [window, same, foundWindow, if_pos ⟨mode, positive⟩]
  rfl

/-- In every run in which no difficulty moves between a job and the template taken in last,
every window is the one of its own job. -/
theorem windows_own_while_steady (fp : Fpu) (oracle : Oracle) (cfg : Config)
    (events : List WatcherEvent)
    (steady : Along (Watcher.step fp oracle cfg) (fun s event _ => Steady fp cfg s event) .fresh
      events) :
    Along (Watcher.step fp oracle cfg) (OwnSized fp oracle cfg) .fresh events := by
  refine Along.of_invariant (I := Watcher.Priced fp) ?_ rfl steady
  intro s event after priced condition stepped
  refine ⟨priced.step stepped, ?_, ?_⟩
  · intro built made reading attached
    cases event with
    | start => exact Watcher.start_sized made attached
    | poll => exact Watcher.poll_sized priced condition made attached
    | refresh | stage | found | shares => contradiction
  · rintro mode jobId block job rfl here row member fresh
    exact Watcher.found_sized priced condition mode here stepped member fresh

end

def plainTemplate (height : Int) (prev : UInt8) (targetHex : Bytes) : BlockTemplate :=
  ⟨height, List.replicate 64 prev, 5000000000, targetHex, 0x1d00ffff, 0, 0x20000000, none, none,
    none, []⟩

/-- Difficulty one. -/
def easyTarget : Bytes := ascii "00000000ffff" ++ List.replicate 52 0x30

/-- Difficulty two. -/
def hardTarget : Bytes := ascii "000000007fff8" ++ List.replicate 51 0x30

def plainConfig (mode : PoolMode) : Config :=
  ⟨mode, none, .free, 0, [], 0, 2, fun _ => by decide, 30⟩

/-- A pool with one share, for which the node has a new tip. -/
def mined : List WatcherEvent :=
  [.start (plainTemplate 100 0x30 easyTarget) 1 1 1 0,
    .shares [⟨1, some "tb1qw508d6qejxtdg4y5r3zarvary0c5xw7kxpjzsx"⟩] oneShare]

def advance (targetHex : Bytes) : WatcherEvent :=
  .poll (plainTemplate 101 0x31 targetHex) (fun _ => .unsupported) 2 2

/-- A block on the job that the new tip retired. -/
def lateFind : WatcherEvent :=
  .found (some (hexText 1)) ⟨[], [], 3, 100, ascii "aa", 5000000000, 0, true, ""⟩

theorem windows_own_while_steady_late :
    (run (Watcher.step .exact .served (plainConfig .pplnsBtc)) .fresh (mined ++
      [advance easyTarget, .refresh 2 2 0, lateFind])).isSome ∧
    Along (Watcher.step .exact .served (plainConfig .pplnsBtc))
      (OwnSized .exact .served (plainConfig .pplnsBtc)) .fresh
      (mined ++ [advance easyTarget, .refresh 2 2 0, lateFind]) := by
  obtain ⟨ran, steady⟩ :
      (run (Watcher.step .exact .served (plainConfig .pplnsBtc)) .fresh
        (mined ++ [advance easyTarget, .refresh 2 2 0, lateFind])).isSome ∧
      Along (Watcher.step .exact .served (plainConfig .pplnsBtc))
        (fun s event _ => Steady .exact (plainConfig .pplnsBtc) s event)
        .fresh (mined ++ [advance easyTarget, .refresh 2 2 0, lateFind]) := by
    decide +kernel
  exact ⟨ran, windows_own_while_steady .exact .served (plainConfig .pplnsBtc) _ steady⟩

/-- When the difficulty doubles, the next job is split over a window that is half its own, and
a block on the job before is stored with one that is twice its own. -/
theorem windows_of_other_templates :
    ¬Along (Watcher.step .exact .served (plainConfig .pplnsCoinbase))
      (OwnSized .exact .served (plainConfig .pplnsCoinbase)) .fresh
      (mined ++ [advance hardTarget]) ∧
    ¬Along (Watcher.step .exact .served (plainConfig .pplnsBtc))
      (OwnSized .exact .served (plainConfig .pplnsBtc)) .fresh
      ((mined ++ [advance hardTarget, .refresh 2 2 0]) ++ [lateFind]) := by
  constructor
  · intro along
    have ended : ∃ s ∈ run (Watcher.step .exact .served (plainConfig .pplnsCoinbase)) .fresh mined,
        (s.step .exact .served (plainConfig .pplnsCoinbase) (advance hardTarget)).isSome ∧
        ∃ built ∈ s.publishes .exact .served (plainConfig .pplnsCoinbase) (advance hardTarget),
          ∃ reading ∈ built.reading,
          (reading.size : WithTop ℚ) ≠
            ownWindow .exact (plainConfig .pplnsCoinbase) (jobDifficulty .exact built.job) := by
      decide +kernel
    obtain ⟨s, ran, steps, built, made, reading, attached, other⟩ := ended
    obtain ⟨after, stepped⟩ := Option.isSome_iff_exists.mp steps
    obtain ⟨sized, _⟩ := along.after ran after stepped
    exact other (sized.split built made reading attached)
  · intro along
    have ended : ∃ s ∈ run (Watcher.step .exact .served (plainConfig .pplnsBtc)) .fresh
      (mined ++ [advance hardTarget, .refresh 2 2 0]),
        ∃ after ∈ s.step .exact .served (plainConfig .pplnsBtc) lateFind,
          ∃ job ∈ findJob s.jobs (some (hexText 1)),
          ∃ row ∈ after.db.blocksFound.rows, row ∉ s.db.blocksFound.rows ∧
            (row.pplnsWindowDiff : WithTop ℚ) ≠
              ownWindow .exact (plainConfig .pplnsBtc) (jobDifficulty .exact job) := by
      decide +kernel
    obtain ⟨s, ran, after, stepped, job, here, row, member, fresh, other⟩ := ended
    obtain ⟨sized, _⟩ := along.after ran after stepped
    exact other (sized.snapshot (.inr rfl) _ _ job rfl here row member fresh)

end SimplePool.Main
