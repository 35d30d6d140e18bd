import Mathlib.Data.List.Basic
import Mathlib.Data.List.Pairwise

/-! Readers that leave a trail: a computation that may fail keeps the marks it left up to
its end. A reader that walks a buffer by offset marks what it does to the buffer, and its
walk is compared, step by step, with an exact reading of the same input that marks only
the lengths the input announces. -/
namespace Cursor

structure Trail (κ ε α : Type) where
  marks : List κ
  outcome : Except ε α

variable {κ ε ε' α β γ δ : Type}

def Trail.bind (x : Trail κ ε α) (next : α → Trail κ ε β) : Trail κ ε β :=
  match x.outcome with
  | .error e => ⟨x.marks, .error e⟩
  | .ok a => ⟨x.marks ++ (next a).marks, (next a).outcome⟩

instance : Monad (Trail κ ε) where
  pure a := ⟨[], .ok a⟩
  bind := Trail.bind

/-- What happens away from the buffer leaves no mark. -/
def lift (outcome : Except ε α) : Trail κ ε α := ⟨[], outcome⟩

def leave (mark : κ) : Trail κ ε Unit := ⟨[mark], .ok ()⟩

@[simp] theorem outcome_pure (a : α) : (pure a : Trail κ ε α).outcome = .ok a := rfl

@[simp] theorem marks_pure (a : α) : (pure a : Trail κ ε α).marks = [] := rfl

@[simp] theorem outcome_lift (r : Except ε α) : (lift r : Trail κ ε α).outcome = r := rfl

@[simp] theorem outcome_leave (mark : κ) : (leave mark : Trail κ ε Unit).outcome = .ok () := rfl

@[simp] theorem outcome_bind (x : Trail κ ε α) (next : α → Trail κ ε β) :
    (x >>= next).outcome = x.outcome >>= fun a => (next a).outcome := by
  change (x.bind next).outcome = _
  rw [Trail.bind]
  split
  next e failed => rw [failed]; rfl
  next a done => rw [done]; rfl

theorem marks_bind_ok {x : Trail κ ε α} (done : x.outcome = .ok a) (next : α → Trail κ ε β) :
    (x >>= next).marks = x.marks ++ (next a).marks := by
  change (x.bind next).marks = _
  rw [Trail.bind, done]

theorem marks_bind_error {x : Trail κ ε α} (failed : x.outcome = .error e)
    (next : α → Trail κ ε β) :
    (x >>= next).marks = x.marks := by
  change (x.bind next).marks = _
  rw [Trail.bind, failed]

/-- Later marks come after the earlier ones. -/
theorem marks_prefix (x : Trail κ ε α) (next : α → Trail κ ε β) :
    ∃ more, (x >>= next).marks = x.marks ++ more := by
  cases done : x.outcome with
  | error e => exact ⟨[], by rw [marks_bind_error done, List.append_nil]⟩
  | ok a => exact ⟨_, marks_bind_ok done next⟩

@[simp] theorem marks_leave_bind (mark : κ) (next : Unit → Trail κ ε β) :
    (leave mark >>= next).marks = mark :: (next ()).marks := rfl

@[simp] theorem marks_lift_ok (a : α) (next : α → Trail κ ε β) :
    ((lift (.ok a) : Trail κ ε α) >>= next).marks = (next a).marks := rfl

inductive Act where
  /-- The offset is set. -/
  | seek (off : Nat)
  /-- Bytes are read, from an offset on. -/
  | read (off n : Nat)
  /-- A loop begins another turn. -/
  | turn
deriving DecidableEq, Repr

def Act.offset? : Act → Option Nat
  | .seek off => some off
  | _ => none

def Act.read? : Act → Option (Nat × Nat)
  | .read off n => some (off, n)
  | _ => none

/-- The values the offset takes, in order. -/
def offsets (acts : List Act) : List Nat := acts.filterMap Act.offset?

def reads (acts : List Act) : List (Nat × Nat) := acts.filterMap Act.read?

def turns (acts : List Act) : Nat := acts.count .turn

@[simp] theorem offsets_append (a b : List Act) : offsets (a ++ b) = offsets a ++ offsets b :=
  List.filterMap_append

@[simp] theorem reads_append (a b : List Act) : reads (a ++ b) = reads a ++ reads b :=
  List.filterMap_append

@[simp] theorem turns_append (a b : List Act) : turns (a ++ b) = turns a + turns b :=
  List.count_append

/-- From a first value on, the offset never decreases. -/
def Ascends (start : Nat) (acts : List Act) : Prop := (start :: offsets acts).Pairwise (· ≤ ·)

instance (start : Nat) (acts : List Act) : Decidable (Ascends start acts) :=
  inferInstanceAs (Decidable (List.Pairwise _ _))

/-- Every byte that is read lies inside the buffer. -/
def Inside (size : Nat) (acts : List Act) : Prop := ∀ r ∈ reads acts, r.1 + r.2 ≤ size

/-- The offset never decreases, and every byte that is read lies inside. -/
def Orderly (size start : Nat) (acts : List Act) : Prop := Ascends start acts ∧ Inside size acts

theorem Ascends.left (ascends : Ascends start (a ++ b)) : Ascends start a := by
  rw [Ascends, offsets_append, ← List.cons_append] at ascends
  exact (List.pairwise_append.mp ascends).1

theorem Ascends.right (ascends : Ascends start (a ++ b)) (passed : middle ∈ start :: offsets a) :
    Ascends middle b := by
  rw [Ascends, offsets_append, ← List.cons_append] at ascends
  obtain ⟨_, later, across⟩ := List.pairwise_append.mp ascends
  exact List.pairwise_cons.mpr ⟨across middle passed, later⟩

theorem Inside.append : Inside size (a ++ b) ↔ Inside size a ∧ Inside size b := by
  simp only [Inside, reads_append, List.mem_append, or_imp, forall_and]

theorem Orderly.left (orderly : Orderly size start (a ++ b)) : Orderly size start a :=
  ⟨orderly.1.left, (Inside.append.mp orderly.2).1⟩

theorem Orderly.right (orderly : Orderly size start (a ++ b))
    (passed : middle ∈ start :: offsets a) :
    Orderly size middle b :=
  ⟨orderly.1.right passed, (Inside.append.mp orderly.2).2⟩

/-- From one offset to another, the acts move forward and stay inside. -/
structure Forward (size start stop : Nat) (acts : List Act) : Prop where
  ascends : Ascends start acts
  range : ∀ off ∈ offsets acts, off ≤ stop
  inside : Inside size acts
  le : start ≤ stop

theorem Forward.none (size start : Nat) : Forward size start start [] :=
  ⟨List.pairwise_singleton _ _, nofun, nofun, Nat.le_refl _⟩

theorem Forward.append (first : Forward size a b left) (second : Forward size b c right) :
    Forward size a c (left ++ right) := by
  have late := second.le
  obtain ⟨beyond, later⟩ := List.pairwise_cons.mp second.ascends
  refine ⟨?_, ?_, ?_, Nat.le_trans first.le late⟩
  · rw [Ascends, offsets_append, ← List.cons_append]
    refine List.pairwise_append.mpr ⟨first.ascends, later, fun x here y there => ?_⟩
    have below : x ≤ b := by
      rcases List.mem_cons.mp here with rfl | member
      · exact first.le
      · exact first.range x member
    exact Nat.le_trans below (beyond y there)
  · intro off member
    rw [offsets_append, List.mem_append] at member
    rcases member with here | there
    · exact Nat.le_trans (first.range off here) late
    · exact second.range off there
  · exact Inside.append.mpr ⟨first.inside, second.inside⟩

theorem Forward.seek (le : start ≤ off) : Forward size start off [.seek off] := by
  refine ⟨by simpa [Ascends, offsets, Act.offset?] using le, fun x here => ?_, nofun, le⟩
  obtain rfl : x = off := by simpa [offsets, Act.offset?] using here
  exact Nat.le_refl x

theorem Forward.read (inside : off + n ≤ size) : Forward size start start [.read off n] := by
  refine ⟨List.pairwise_singleton _ _, nofun, fun r here => ?_, Nat.le_refl _⟩
  obtain rfl : r = (off, n) := by simpa [reads, Act.read?] using here
  exact inside

theorem Forward.turn : Forward size start start [.turn] :=
  ⟨List.pairwise_singleton _ _, nofun, nofun, Nat.le_refl _⟩

/-- The walk keeps beside the exact reading, or it goes wrong at a length that is not
honest. `gain` is the ground a success covers beyond its turns, `slack` the turns a
failure may have begun in vain. -/
inductive Follows (size start : Nat) (pos gain : α → Nat) (slack : Nat) (Honest : γ → Prop)
    (Match : α → β → Prop) (walk : Trail Act ε α) (exact : Trail γ ε' β) : Prop
  | together (a : α) (b : β) (done : walk.outcome = .ok a) (same : exact.outcome = .ok b)
      (honest : ∀ l ∈ exact.marks, Honest l) (agree : Match a b) (within : pos a ≤ size)
      (arrived : pos a ∈ start :: offsets walk.marks) (forward : Forward size start
        (pos a) walk.marks) (spent : turns walk.marks + start + gain a ≤ pos a)
  | refused (failure : ε) (reason : ε') (done : walk.outcome = .error failure)
    (same : exact.outcome = .error reason)
      (honest : ∀ l ∈ exact.marks, Honest l) (stop : Nat) (within : stop ≤ size)
      (forward : Forward size start stop walk.marks)
        (spent : turns walk.marks + start ≤ stop + slack)
  | back (l : γ) (met : l ∈ exact.marks) (dishonest : ¬Honest l)
    (back : ¬Orderly size start walk.marks)

variable {size start slack : Nat} {pos gain : α → Nat} {pos' gain' : δ → Nat} {Honest : γ → Prop}
  {Match : α → β → Prop}

theorem Follows.weaken {slack' : Nat} {gain' : α → Nat} {Match' : α → β → Prop}
    (follows : Follows size start pos gain slack Honest Match walk exact)
    (less : ∀ a, gain' a ≤ gain a) (more : slack ≤ slack')
    (agree : ∀ a b, walk.outcome = .ok a → exact.outcome = .ok b → Match a b → Match' a b) :
    Follows size start pos gain' slack' Honest Match' walk exact := by
  cases follows with
  | together a b done same honest agrees within arrived forward spent =>
    have gained := less a
    exact .together a b done same honest (agree a b done same agrees) within arrived forward
      (by omega)
  | refused failure reason done same honest stop within forward spent =>
    exact .refused failure reason done same honest stop within forward (by omega)
  | back l met dishonest back => exact .back l met dishonest back

theorem Follows.more {slack' : Nat}
    (follows : Follows size start pos gain slack Honest Match walk exact)
    (more : slack ≤ slack') : Follows size start pos gain slack' Honest Match walk exact :=
  follows.weaken (fun _ => Nat.le_refl _) more fun _ _ _ _ same => same

/-- Without the account of the ground. -/
theorem Follows.free (follows : Follows size start pos gain 0 Honest Match walk exact) :
    Follows size start pos (fun _ => 0) slack Honest Match walk exact :=
  follows.weaken (fun _ => Nat.zero_le _) (Nat.zero_le _) fun _ _ _ _ same => same

/-- A sequence of two steps. The ground the first gains makes up for turns of the second. -/
theorem Follows.bind {ζ : Type} {Match' : δ → ζ → Prop} {next : α → Trail Act ε δ}
    {next' : β → Trail γ ε' ζ} (first : Follows size start pos gain slack Honest Match walk exact)
    (second : ∀ a b, walk.outcome = .ok a → exact.outcome = .ok b → Match a b → pos a ≤ size →
      Follows size (pos a) pos' (fun d => gain' d - gain a) (slack + gain a) Honest Match' (next a)
      (next' b)) :
    Follows size start pos' gain' slack Honest Match' (walk >>= next) (exact >>= next') := by
  cases first with
  | refused failure reason done same honest stop within forward spent =>
    refine .refused failure reason ?_ ?_ ?_ stop within ?_ ?_
    · rw [outcome_bind, done]; rfl
    · rw [outcome_bind, same]; rfl
    · rwa [marks_bind_error same]
    · rwa [marks_bind_error done]
    · rwa [marks_bind_error done]
  | back l met dishonest back =>
    obtain ⟨more, marks⟩ := marks_prefix walk next
    obtain ⟨more', marks'⟩ := marks_prefix exact next'
    refine .back l (by rw [marks']; exact List.mem_append_left _ met) dishonest fun ascends =>
      back ?_
    rw [marks] at ascends
    exact ascends.left
  | together a b done same honest agree within arrived forward spent =>
    have marks := marks_bind_ok done next
    have marks' := marks_bind_ok same next'
    have both : ∀ {l}, l ∈ (exact >>= next').marks → l ∈ exact.marks ∨ l ∈ (next' b).marks := by
      intro l met
      rw [marks'] at met
      exact List.mem_append.mp met
    cases second a b done same agree within with
    | together c d done₂ same₂ honest₂ agree₂ within₂ arrived₂ forward₂ spent₂ =>
      refine .together c d ?_ ?_ (fun l met => (both met).elim (honest l) (honest₂ l)) agree₂
        within₂ ?_ ?_ ?_
      · rw [outcome_bind, done]; exact done₂
      · rw [outcome_bind, same]; exact same₂
      · rw [marks, offsets_append, ← List.cons_append]
        rcases List.mem_cons.mp arrived₂ with here | later
        · exact List.mem_append_left _ (here ▸ arrived)
        · exact List.mem_append_right _ later
      · rw [marks]; exact forward.append forward₂
      · rw [marks, turns_append]; omega
    | refused failure reason done₂ same₂ honest₂ stop within₂ forward₂ spent₂ =>
      refine .refused failure reason ?_ ?_ (fun l met => (both met).elim (honest l) (honest₂ l))
        stop within₂ ?_ ?_
      · rw [outcome_bind, done]; exact done₂
      · rw [outcome_bind, same]; exact same₂
      · rw [marks]; exact forward.append forward₂
      · rw [marks, turns_append]; omega
    | back l met dishonest back =>
      refine .back l (by rw [marks']; exact List.mem_append_right _ met) dishonest fun ascends =>
        back ?_
      rw [marks] at ascends
      exact ascends.right arrived

theorem Follows.pure (agree : Match a b) (within : pos a ≤ size) (here : pos a = start)
    (free : gain a = 0) :
    Follows size start pos gain slack Honest Match (Pure.pure a : Trail Act ε α)
      (Pure.pure b : Trail γ ε' β) := by
  subst here
  refine .together a b rfl rfl nofun agree within List.mem_cons_self (Forward.none size _) ?_
  rw [free]
  exact Nat.le_of_eq (Nat.zero_add _)

/-- A test that both make. -/
theorem Follows.lift {r : Except ε α} {r' : Except ε' β}
    (both : (∃ a b, r = .ok a ∧ r' = .ok b ∧ Match a b ∧ pos a = start ∧ gain a = 0) ∨
      ∃ failure reason, r = .error failure ∧ r' = .error reason) (within : start ≤ size) :
    Follows size start pos gain slack Honest Match (Cursor.lift r : Trail Act ε α)
      (Cursor.lift r' : Trail γ ε' β) := by
  rcases both with ⟨a, b, rfl, rfl, agree, here, free⟩ | ⟨failure, reason, rfl, rfl⟩
  · exact .pure agree (by omega) here free
  · refine .refused failure reason rfl rfl nofun start within (Forward.none size start) ?_
    rw [show turns (Cursor.lift (.error failure) : Trail Act ε α).marks = 0 from rfl]
    omega

theorem Follows.seek (le : start ≤ off)
    (follows : Follows size off pos (fun a => gain a - (off - start)) (slack + (off - start)) Honest
      Match walk exact) :
    Follows size start pos gain slack Honest Match (leave (.seek off) >>= fun _ => walk) exact := by
  have moved : Forward size start off [.seek off] := Forward.seek le
  cases follows with
  | together a b done same honest agree within arrived forward spent =>
    refine .together a b done same honest agree within ?_ (moved.append forward) ?_
    · exact List.mem_cons_of_mem start arrived
    · change turns walk.marks + start + _ ≤ _
      omega
  | refused failure reason done same honest stop within forward spent =>
    refine .refused failure reason done same honest stop within (moved.append forward) ?_
    change turns walk.marks + start ≤ _
    omega
  | back l met dishonest back =>
    refine .back l met dishonest fun ascends => back ?_
    exact Orderly.right (a := [.seek off]) ascends (List.mem_cons_of_mem start List.mem_cons_self)

theorem Follows.read (inside : off + n ≤ size)
    (follows : Follows size start pos gain slack Honest Match walk exact) :
    Follows size start pos gain slack Honest Match (leave (.read off n) >>= fun _ => walk)
      exact := by
  have seen : Forward size start start [.read off n] := Forward.read inside
  cases follows with
  | together a b done same honest agree within arrived forward spent =>
    exact .together a b done same honest agree within arrived (seen.append forward) spent
  | refused failure reason done same honest stop within forward spent =>
    exact .refused failure reason done same honest stop within (seen.append forward) spent
  | back l met dishonest back =>
    exact .back l met dishonest fun orderly =>
      back (orderly.right (a := [.read off n]) List.mem_cons_self)

theorem Follows.turn
    (follows : Follows size start pos (fun a => gain a + 1) slack Honest Match walk exact) :
    Follows size start pos gain (slack + 1) Honest Match (leave .turn >>= fun _ => walk) exact := by
  have begun : Forward size start start [.turn] := Forward.turn
  have count : turns (leave Act.turn >>= fun _ => walk).marks = turns walk.marks + 1 :=
    List.count_cons_self
  cases follows with
  | together a b done same honest agree within arrived forward spent =>
    exact .together a b done same honest agree within arrived (begun.append forward) (by omega)
  | refused failure reason done same honest stop within forward spent =>
    exact .refused failure reason done same honest stop within (begun.append forward) (by omega)
  | back l met dishonest back =>
    exact .back l met dishonest fun orderly =>
      back (orderly.right (a := [.turn]) List.mem_cons_self)

/-- A length that only the exact reading announces. -/
theorem Follows.announce (honest : Honest l)
    (follows : Follows size start pos gain slack Honest Match walk exact) :
    Follows size start pos gain slack Honest Match walk (leave l >>= fun _ => exact) := by
  have all (others : ∀ m ∈ exact.marks, Honest m) :
      ∀ m ∈ (leave l >>= fun _ => exact).marks, Honest m := by
    intro m met
    rcases List.mem_cons.mp met with rfl | later
    · exact honest
    · exact others m later
  cases follows with
  | together a b done same others agree within arrived forward spent =>
    exact .together a b done same (all others) agree within arrived forward spent
  | refused failure reason done same others stop within forward spent =>
    exact .refused failure reason done same (all others) stop within forward spent
  | back m met dishonest back => exact .back m (List.mem_cons_of_mem l met) dishonest back

/-- What the exact reading makes of its result. -/
theorem Follows.map {ζ : Type} {Match' : α → ζ → Prop} {g : β → ζ}
    (follows : Follows size start pos gain slack Honest Match walk exact)
    (agree : ∀ a b, Match a b → Match' a (g b)) :
    Follows size start pos gain slack Honest Match' walk (exact >>= fun b => Pure.pure (g b)) := by
  have marks : (exact >>= fun b => Pure.pure (g b)).marks = exact.marks := by
    cases done : exact.outcome with
    | error e => exact marks_bind_error done _
    | ok b => rw [marks_bind_ok done, marks_pure, List.append_nil]
  cases follows with
  | together a b done same honest matched within arrived forward spent =>
    refine .together a (g b) done ?_ (by rwa [marks]) (agree a b matched) within arrived forward
      spent
    rw [outcome_bind, same]
    rfl
  | refused failure reason done same honest stop within forward spent =>
    refine .refused failure reason done ?_ (by rwa [marks]) stop within forward spent
    rw [outcome_bind, same]
    rfl
  | back l met dishonest back => exact .back l (by rwa [marks]) dishonest back

/-- It reads, and takes turns, but sets no offset. -/
structure Stays (size most : Nat) (x : Trail Act ε α) : Prop where
  still : offsets x.marks = []
  inside : Inside size x.marks
  turns : turns x.marks ≤ most

theorem Stays.quiet {x : Trail Act ε α} (unmarked : x.marks = []) : Stays size 0 x := by
  refine ⟨?_, ?_, ?_⟩
  · rw [unmarked]; rfl
  · rw [unmarked]; exact nofun
  · rw [unmarked]; exact Nat.le_refl 0

theorem Stays.bind {x : Trail Act ε α} {next : α → Trail Act ε β} (first : Stays size m x)
    (second : ∀ a, x.outcome = .ok a → Stays size n (next a)) :
    Stays size (m + n) (x >>= next) := by
  cases done : x.outcome with
  | error e =>
    have marks := marks_bind_error done next
    refine ⟨?_, ?_, ?_⟩
    · rw [marks]; exact first.still
    · rw [marks]; exact first.inside
    · rw [marks]; exact Nat.le_trans first.turns (Nat.le_add_right m n)
  | ok a =>
    have marks := marks_bind_ok done next
    have later := second a done
    refine ⟨?_, ?_, ?_⟩
    · rw [marks, offsets_append, first.still, later.still]; rfl
    · rw [marks]; exact Inside.append.mpr ⟨first.inside, later.inside⟩
    · rw [marks, turns_append]; exact Nat.add_le_add first.turns later.turns

theorem Stays.read (inside : off + n ≤ size) :
    Stays size 0 (leave (.read off n) : Trail Act ε Unit) := by
  have seen : Forward size 0 0 [.read off n] := Forward.read inside
  exact ⟨rfl, seen.inside, Nat.le_refl 0⟩

theorem Stays.turn : Stays size 1 (leave .turn : Trail Act ε Unit) := ⟨rfl, nofun, Nat.le_refl 1⟩

end Cursor
