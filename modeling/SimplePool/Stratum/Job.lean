import SimplePool.Stratum.Share

/-! Jobs, and the server's table of the ones that can still be submitted: the
current job and a small ring of retired ones. C strings are the bytes before their
terminator, and both clocks count milliseconds in a `uint64_t`. -/
namespace SimplePool.Stratum
open Wire Coinbase

def extranonce1Size : Nat := 4
def extranonce2Size : Nat := 8
def recentJobs : Nat := 16
def recentJobTtlMs : UInt64 := 300000

/-- `fnv1a` on a string and `fnv1a_bytes` on a buffer. -/
def fnv1a (bytes : Bytes) : UInt64 :=
  bytes.foldl (fun h b => (h ^^^ b.toUInt64) * 1099511628211) 1469598103934665603

/-- What `snprintf` leaves of a text in a buffer of `cap` bytes. -/
def snprintf (cap : Nat) (text : Bytes) : Bytes := text.take (cap - 1)

theorem snprintf_of_le {text : Bytes} (short : text.length ≤ cap - 1) : snprintf cap text = text :=
  List.take_of_length_le short

/-- The buffers an id is kept in are all of one size. -/
def jobIdCap : Nat := 32

/-- `stratum_job`. The id fits its buffer, so copying it elsewhere loses nothing. -/
structure Job where
  jobId : Bytes
  jobId_fits : jobId.length ≤ jobIdCap - 1
  version : UInt32
  prevHash : Bytes32
  valueSats : Int
  wcHex : Option Bytes
  coinbasetxnHex : Option Bytes
  coinbaseHasWitness : Bool
  en1Size : Nat
  en2Size : Nat
  merkleBranches : List Bytes32
  nbits : UInt32
  ntime : UInt32
  networkTarget : Bytes32
  height : UInt32
  cbSalt : UInt32
  txHexList : List Bytes
  payees : List Payee
  payeeWorkerIds : List Int
  createdMs : UInt64
deriving DecidableEq

/-- The salt is never 0, which would mean no salt push at all. -/
def cbSaltOf (jobId : Bytes) : UInt32 :=
  let salt := (fnv1a jobId).toUInt32
  if salt = 0 then 1 else salt

def Job.new (jobId : Bytes) (version : UInt32) (prevHash : Bytes32) (valueSats : Int)
    (witnessCommitmentHex : Option Bytes)
    (en1Size en2Size : Nat) (merkleBranches : List Bytes32) (nbits ntime : UInt32)
    (networkTarget : Bytes32)
    (height : UInt32) (txHexList : List Bytes) (coinbasetxnHex : Option Bytes)
    (coinbaseHasWitness : Bool) (mono : UInt64) : Job where
  jobId := snprintf jobIdCap jobId
  jobId_fits := List.length_take_le _ _
  version := version
  prevHash := prevHash
  valueSats := valueSats
  wcHex := nonEmpty witnessCommitmentHex
  coinbasetxnHex := nonEmpty coinbasetxnHex
  coinbaseHasWitness := coinbaseHasWitness
  en1Size := en1Size
  en2Size := en2Size
  merkleBranches := merkleBranches
  nbits := nbits
  ntime := ntime
  networkTarget := networkTarget
  height := height
  cbSalt := cbSaltOf (snprintf jobIdCap jobId)
  txHexList := txHexList
  payees := []
  payeeWorkerIds := []
  createdMs := mono

/-- `stratum_job_set_window`: the addresses are copied into an arena of 128 bytes each, and
the workers beside them. -/
def Job.setWindow (j : Job) (payees : List Payee) (workerIds : Nat → Int) : Job :=
  { j with
    payees := payees.map fun p => { p with address := some (snprintf 128 (p.address.getD [])) }
    payeeWorkerIds := (List.range payees.length).map workerIds }

/-- `current_job`, `recent` and `recent_head`. -/
structure Jobs where
  current : Option Job
  recent : Nat → Option Job
  head : Nat

def Jobs.empty : Jobs := ⟨none, fun _ => none, 0⟩

/-- The first sweep of `retire_job`, in unsigned arithmetic. -/
def expired (mono : UInt64) (j : Job) : Bool := recentJobTtlMs < mono - j.createdMs

def retireJob (jobs : Jobs) (mono : UInt64) (j : Job) : Jobs :=
  let swept := fun i => (jobs.recent i).filter fun j => !expired mono j
  { jobs with
    recent := Function.update swept jobs.head (some j), head := (jobs.head + 1) % recentJobs }

def named (jobId : Bytes) : Option Job → Option Job := Option.filter fun j => j.jobId = jobId

def findJob (jobs : Jobs) (jobId : Option Bytes) : Option Job :=
  match jobId with
  | none => none
  | some jobId =>
    match named jobId jobs.current with
    | some j => some j
    | none => (List.range recentJobs).findSome? fun i => named jobId (jobs.recent i)

/-- The slots of `stratum_server_set_job`. -/
def Jobs.publish (jobs : Jobs) (mono : UInt64) (newJob : Job) : Jobs :=
  let swapped := { jobs with current := some newJob }
  match jobs.current with
  | none => swapped
  | some old => retireJob swapped mono old

theorem named_eq_some (found : named jobId slot = some j) : j.jobId = jobId := by
  rw [named, Option.filter_eq_some_iff] at found
  exact of_decide_eq_true found.2

end SimplePool.Stratum
