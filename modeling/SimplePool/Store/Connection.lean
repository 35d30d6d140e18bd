import SimplePool.Store.Schema

/-! The sqlite connection the statements of store.c run on, with its one open
transaction. Every call may fail. -/
namespace SimplePool.Store

/-- The statements of store.c that can fail one row at a time. -/
inductive Statement where
  | due | window | credit | mark | boundary | payees
  | stageFraction | anyPending | settledHashes | applyFraction | dropPending
deriving DecidableEq, Repr

inductive Call where
  | prepare (statement : Statement)
  | step (statement : Statement)
  | begin
  | commit
deriving DecidableEq, Repr

/-- What a call into sqlite comes to. On some errors (IOERR, FULL, NOMEM) sqlite
rolls the open transaction back by itself, and the connection is in autocommit
from then on. -/
inductive Outcome where
  | served | error | rolledBack
deriving DecidableEq, Repr

/-- An outcome for every call, given its position in the run. -/
def Oracle : Type := Call → Nat → Outcome

def Oracle.served : Oracle := fun _ _ => .served

@[simp] theorem Oracle.served_apply (call : Call) (position : Nat) :
    Oracle.served call position = .served := rfl

/-- A connection with its open transaction, if any, and the calls made so far. -/
structure Connection where
  committed : Db
  working : Option Db
  calls : Nat

/-- What a statement on the connection sees. -/
def Connection.db (c : Connection) : Db := c.working.getD c.committed

/-- A statement outside a transaction commits by itself. -/
def Connection.write (c : Connection) (f : Db → Db) : Connection :=
  match c.working with
  | none => { c with committed := f c.committed }
  | some db => { c with working := some (f db) }

theorem Connection.write_db (c : Connection) (f : Db → Db) : (c.write f).db = f c.db := by
  rw [Connection.write]
  split
  next closed => simp only [Connection.db, closed, Option.getD_none]
  next db opened => simp only [Connection.db, opened, Option.getD_some]

/-- Account for one call. -/
def Connection.ask (oracle : Oracle) (c : Connection) (call : Call) : Outcome × Connection :=
  let outcome := oracle call c.calls
  let c := { c with calls := c.calls + 1 }
  (outcome, if outcome = .rolledBack then { c with working := none } else c)

section Transactions

variable (oracle : Oracle)

/-- `BEGIN IMMEDIATE`, refused inside a transaction. -/
def txnBegin (c : Connection) : Bool × Connection :=
  let (outcome, c) := c.ask oracle .begin
  match outcome, c.working with
  | .served, none => (true, { c with working := some c.committed })
  | _, _ => (false, c)

def txnRollback (c : Connection) : Connection := { c with working := none }

/-- A COMMIT that does not land is rolled back; outside a transaction it fails. -/
def txnCommit (c : Connection) : Bool × Connection :=
  let (outcome, c) := c.ask oracle .commit
  match outcome, c.working with
  | .served, some db => (true, { c with committed := db, working := none })
  | _, _ => (false, txnRollback c)

end Transactions

section Calls

variable {oracle : Oracle} {c after : Connection} {call : Call} {outcome : Outcome}

theorem ask_committed (asked : c.ask oracle call = (outcome, after)) :
    after.committed = c.committed := by
  cases asked
  dsimp only
  split <;> rfl

theorem ask_closed (closed : c.working = none) (asked : c.ask oracle call = (outcome, after)) :
    after.working = none := by
  cases asked
  dsimp only
  split
  · rfl
  · exact closed

theorem ask_served (asked : c.ask oracle call = (.served, after)) :
    after.committed = c.committed ∧ after.working = c.working := by
  simp only [Connection.ask, Prod.mk.injEq] at asked
  obtain ⟨served, rfl⟩ := asked
  simp [served]

theorem ask_outcome (asked : c.ask oracle call = (outcome, after)) :
    outcome = oracle call c.calls := by
  cases asked
  rfl

theorem txnBegin_spec (closed : c.working = none) (begun : txnBegin oracle c = (ok, after)) :
    after.committed = c.committed ∧ (ok = true → after.working = some c.committed) ∧
      (ok = false → after.working = none) := by
  rw [txnBegin] at begun
  cases asked : c.ask oracle .begin with
  | mk outcome mid =>
    have committed := ask_committed asked
    have still := ask_closed closed asked
    simp only [asked] at begun
    split at begun
    · cases begun
      exact ⟨committed, fun _ => congrArg some committed, by simp⟩
    · cases begun
      exact ⟨committed, by simp, fun _ => still⟩

theorem txnCommit_spec (committing : txnCommit oracle c = (ok, after)) :
    after.working = none ∧ (after.committed = c.committed ∨ some after.committed = c.working) := by
  rw [txnCommit] at committing
  cases asked : c.ask oracle .commit with
  | mk outcome mid =>
    have committed := ask_committed asked
    simp only [asked] at committing
    split at committing
    next db opened =>
      cases committing
      exact ⟨rfl, Or.inr (opened.symm.trans (ask_served asked).2)⟩
    · cases committing
      exact ⟨rfl, Or.inl committed⟩

end Calls

/-- `f` reads `x` off everything the connection holds. -/
def Connection.Keeps {α : Type} (f : Db → α) (x : α) (c : Connection) : Prop :=
  f c.committed = x ∧ ∀ db, c.working = some db → f db = x

section Keeps

variable {α : Type} {f : Db → α} {x : α} {oracle : Oracle} {c after : Connection}

theorem Connection.Keeps.ask (keeps : c.Keeps f x) (asked : c.ask oracle call = (outcome, after)) :
    after.Keeps f x := by
  cases asked
  dsimp only
  split
  · exact ⟨keeps.1, nofun⟩
  · exact keeps

theorem Connection.Keeps.write (keeps : c.Keeps f x) {g : Db → Db} (frame : ∀ db, f (g db) = f db) :
    (c.write g).Keeps f x := by
  simp only [Connection.write]
  split
  next closed =>
    exact ⟨(frame _).trans keeps.1, fun db opened => keeps.2 db (by simpa using opened)⟩
  next db opened =>
    refine ⟨keeps.1, fun other same => ?_⟩
    obtain rfl := Option.some.inj same
    exact (frame _).trans (keeps.2 db opened)

theorem Connection.Keeps.begin (keeps : c.Keeps f x) (begun : txnBegin oracle c = (ok, after)) :
    after.Keeps f x := by
  rw [txnBegin] at begun
  cases asked : c.ask oracle .begin with
  | mk outcome mid =>
    have kept := keeps.ask asked
    simp only [asked] at begun
    split at begun
    · cases begun
      exact ⟨kept.1, fun db same => by cases same; exact kept.1⟩
    · cases begun
      exact kept

theorem Connection.Keeps.rollback (keeps : c.Keeps f x) : (txnRollback c).Keeps f x :=
  ⟨keeps.1, nofun⟩

theorem Connection.Keeps.commit (keeps : c.Keeps f x)
    (committing : txnCommit oracle c = (ok, after)) :
    after.Keeps f x := by
  rw [txnCommit] at committing
  cases asked : c.ask oracle .commit with
  | mk outcome mid =>
    have kept := keeps.ask asked
    simp only [asked] at committing
    split at committing
    next db opened =>
      cases committing
      exact ⟨kept.2 db opened, nofun⟩
    · cases committing
      exact kept.rollback

end Keeps

end SimplePool.Store
