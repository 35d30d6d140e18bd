/-! Deterministic transition systems driven by a list of events. An event that is
not possible in a state has no successor, and the run ends there. -/
namespace Transition

variable {σ ε : Type} {step : σ → ε → Option σ}

def run (step : σ → ε → Option σ) : σ → List ε → Option σ
  | s, [] => some s
  | s, e :: rest => (step s e).bind (fun t => run step t rest)

theorem run_append (s : σ) (first rest : List ε) :
    run step s (first ++ rest) = (run step s first).bind (fun t => run step t rest) := by
  induction first generalizing s with
  | nil => rfl
  | cons e first ih =>
    rw [List.cons_append, run, run]
    cases step s e with
    | none => rfl
    | some t => exact ih t

/-- Every step taken in a run, with the states before and after it. -/
def Along (step : σ → ε → Option σ) (P : σ → ε → σ → Prop) : σ → List ε → Prop
  | _, [] => True
  | s, e :: rest => ∀ t, step s e = some t → P s e t ∧ Along step P t rest

/-- What an invariant and a condition on a step give for that step holds along every
run that meets the condition. -/
theorem Along.of_invariant {I : σ → Prop} {C P : σ → ε → σ → Prop}
    (preserved : ∀ s e t, I s → C s e t → step s e = some t → I t ∧ P s e t) (initial : I s)
    (along : Along step C s events) : Along step P s events := by
  induction events generalizing s with
  | nil => trivial
  | cons e rest ih =>
    intro t stepped
    obtain ⟨condition, later⟩ := along t stepped
    obtain ⟨kept, holds⟩ := preserved s e t initial condition stepped
    exact ⟨holds, ih kept later⟩

/-- What an invariant gives for a step holds along every run. -/
theorem Along.always {I : σ → Prop} {P : σ → ε → σ → Prop}
    (preserved : ∀ s e t, I s → step s e = some t → I t ∧ P s e t) (initial : I s) :
    Along step P s events := by
  induction events generalizing s with
  | nil => trivial
  | cons e rest ih =>
    intro t stepped
    obtain ⟨kept, holds⟩ := preserved s e t initial stepped
    exact ⟨holds, ih kept⟩

/-- Two properties of a step that an invariant makes equivalent hold along the same runs, when
the invariant is kept by the steps that have them. -/
theorem along_iff_of_guarded {I : σ → Prop} {P Q : σ → ε → σ → Prop}
    (exact : ∀ s e t, I s → step s e = some t → (P s e t ↔ Q s e t))
    (kept : ∀ s e t, I s → step s e = some t → Q s e t → I t) (initial : I s) :
    Along step P s events ↔ Along step Q s events := by
  induction events generalizing s with
  | nil => exact Iff.rfl
  | cons e rest ih =>
    constructor
    · intro along t stepped
      obtain ⟨here, later⟩ := along t stepped
      have there := (exact s e t initial stepped).mp here
      exact ⟨there, (ih (kept s e t initial stepped there)).mp later⟩
    · intro along t stepped
      obtain ⟨there, later⟩ := along t stepped
      exact ⟨(exact s e t initial stepped).mpr there,
        (ih (kept s e t initial stepped there)).mpr later⟩

/-- The same for an invariant that every step keeps. -/
theorem along_iff_of_invariant {I : σ → Prop} {P Q : σ → ε → σ → Prop}
    (preserved : ∀ s e t, I s → step s e = some t → I t ∧ (P s e t ↔ Q s e t)) (initial : I s) :
    Along step P s events ↔ Along step Q s events :=
  along_iff_of_guarded (fun s e t inside stepped => (preserved s e t inside stepped).2)
    (fun s e t inside stepped _ => (preserved s e t inside stepped).1) initial

/-- What an event of the run and a condition on the step give holds along the run. -/
theorem Along.imp {P Q : σ → ε → σ → Prop} (imp : ∀ s e t, e ∈ events → P s e t → Q s e t)
    (along : Along step P s events) : Along step Q s events := by
  induction events generalizing s with
  | nil => trivial
  | cons e rest ih =>
    intro t stepped
    obtain ⟨here, later⟩ := along t stepped
    exact ⟨imp s e t List.mem_cons_self here,
      ih (fun s e t inside => imp s e t (List.mem_cons_of_mem _ inside)) later⟩

theorem Along.and {P Q : σ → ε → σ → Prop} (first : Along step P s events)
    (second : Along step Q s events) :
    Along step (fun s e t => P s e t ∧ Q s e t) s events := by
  induction events generalizing s with
  | nil => trivial
  | cons e rest ih =>
    intro t stepped
    obtain ⟨one, later⟩ := first t stepped
    obtain ⟨other, later'⟩ := second t stepped
    exact ⟨⟨one, other⟩, ih later later'⟩

/-- The rest of a run, from where its first part ends. -/
theorem Along.after {P : σ → ε → σ → Prop} (along : Along step P s (first ++ rest))
    (ran : run step s first = some t) : Along step P t rest := by
  induction first generalizing s with
  | nil =>
    obtain rfl := Option.some.inj ran
    exact along
  | cons e first ih =>
    obtain ⟨u, stepped, later⟩ := Option.bind_eq_some_iff.mp ran
    exact ih (along u stepped).2 later

theorem along_cons_iff {P : σ → ε → σ → Prop} (stepped : step s e = some t) :
    Along step P s (e :: rest) ↔ P s e t ∧ Along step P t rest := by
  constructor
  · exact fun along => along t stepped
  · intro both u other
    obtain rfl := Option.some.inj (stepped.symm.trans other)
    exact both

def decidableAlong (step : σ → ε → Option σ) (P : σ → ε → σ → Prop) [∀ s e t, Decidable (P s e t)] :
    (s : σ) → (events : List ε) → Decidable (Along step P s events)
  | _, [] => .isTrue trivial
  | s, e :: rest =>
    match stepped : step s e with
    | none => .isTrue fun t taken => by rw [stepped] at taken; contradiction
    | some t =>
      have := decidableAlong step P t rest
      decidable_of_iff (P s e t ∧ Along step P t rest) (along_cons_iff stepped).symm

instance {P : σ → ε → σ → Prop} [∀ s e t, Decidable (P s e t)] (s : σ) (events : List ε) :
    Decidable (Along step P s events) := decidableAlong step P s events

/-- A property of states that holds along a run holds where the run ends. -/
theorem Along.final {P : σ → Prop} (initial : P s) (along : Along step (fun _ _ t => P t) s events)
    (ran : run step s events = some t) : P t := by
  induction events generalizing s with
  | nil =>
    obtain rfl := Option.some.inj ran
    exact initial
  | cons e rest ih =>
    obtain ⟨u, stepped, later⟩ := Option.bind_eq_some_iff.mp ran
    obtain ⟨here, along⟩ := along u stepped
    exact ih here along later

/-- Where a computation that is known to end ends. -/
theorem eq_some_getD {o : Option α} (ends : o.isSome) (d : α) : o = some (o.getD d) :=
  (Option.getD_of_ne_none (Option.isSome_iff_ne_none.mp ends) d).symm

/-- What is put out along a run, up to the event that is not possible. -/
def transcript {ω : Type} (step : σ → ε → Option σ) (out : σ → ε → ω) : σ → List ε → List ω
  | _, [] => []
  | s, e :: rest =>
    out s e :: match step s e with
      | none => []
      | some t => transcript step out t rest

/-- States that answer every event alike, and stay so, answer every run alike. -/
theorem transcript_eq_of_alike {ω : Type} {out : σ → ε → ω} {R : σ → σ → Prop}
    (simulates : ∀ s s' e, e ∈ events → R s s' → out s' e = out s e ∧
      Option.Rel R (step s e) (step s' e))
    (alike : R s s') : transcript step out s' events = transcript step out s events := by
  induction events generalizing s s' with
  | nil => rfl
  | cons e rest ih =>
    obtain ⟨same, next⟩ := simulates s s' e List.mem_cons_self alike
    have later : ∀ {t t'}, R t t' → transcript step out t' rest = transcript step out t rest :=
      ih fun s s' e inside => simulates s s' e (List.mem_cons_of_mem _ inside)
    rw [transcript, transcript, same]
    cases here : step s e with
    | none =>
      rw [here] at next
      cases there : step s' e with
      | none => rfl
      | some t' => rw [there] at next; contradiction
    | some t =>
      rw [here] at next
      cases there : step s' e with
      | none => rw [there] at next; contradiction
      | some t' =>
        rw [there] at next
        cases next with
        | some related => exact congrArg _ (later related)

end Transition
