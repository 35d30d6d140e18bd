import SimplePool.Lib.Framing
import SimplePool.Lib.Wire

/-! The receive loop of `conn_thread`: a fixed buffer refilled by `recv`,
scanned for line ends and compacted, under the checks at the entry of
`stratum_handle_message`. -/
namespace SimplePool.Stratum

open Wire Framing

/-- `MAX_LINE_BYTES`; the buffer has one byte more. -/
def maxLineBytes : Nat := 16384

def lineFeed : UInt8 := 10

/-- The entry of `stratum_handle_message`. What follows it, from the parser on, is `request`. -/
def handleLine {σ : Type} (request : σ → Bytes → σ × Bool) (s : σ) (line : Bytes) : σ × Bool :=
  if maxLineBytes < line.length then (s, true)
  else
    match line.dropWhile fun b => b == 32 || b == 9 || b == 13 with
    | [] => (s, false)
    | p => request s p

/-- `n` bytes at an offset, or nothing when the access leaves the buffer. -/
def loadBytes (buf : Bytes) (off n : Nat) : Option Bytes :=
  if off + n ≤ buf.length then some ((buf.drop off).take n) else none

def storeBytes (buf : Bytes) (off : Nat) (data : Bytes) : Option Bytes :=
  if off + data.length ≤ buf.length then
    some (buf.take off ++ data ++ buf.drop (off + data.length))
  else none

/-- The string a `char *` to the buffer's start stands for. -/
def cString (buf : Bytes) : Option Bytes :=
  if 0 ∈ buf then some (buf.takeWhile (· ≠ 0)) else none

/-- How the inner loop of `conn_thread` is left: by `goto done`, or to receive more. -/
inductive Scanned (σ : Type)
  | done (framed : Framed σ UInt8)
  | waiting (pieces : List Bytes) (state : σ) (buf : Bytes) (blen : Nat)

def Scanned.after {σ : Type} (piece : Bytes) : Scanned σ → Scanned σ
  | .done framed => .done (framed.after [piece])
  | .waiting pieces state buf blen => .waiting (piece :: pieces) state buf blen

/-- The inner loop of `conn_thread`. -/
def scanLines {σ : Type} (handle : σ → Bytes → σ × Bool) (s : σ) (buf : Bytes) (blen : Nat) :
    Option (Scanned σ) :=
  match _ : loadBytes buf 0 blen with
  | none => none
  | some content =>
    match content.finIdxOf? lineFeed with
    | none =>
      some (if maxLineBytes ≤ blen then .done ⟨[], .overlong, s⟩ else .waiting [] s buf blen)
    | some nl => do
      let ended ← storeBytes buf nl [0]
      let line ← cString ended
      match handle s line with
      | (s, true) => some (.done ⟨[content.take nl], .handler, s⟩)
      | (s, false) =>
        let consumed := nl.val + 1
        let unhandled ← loadBytes ended consumed (blen - consumed)
        let moved ← storeBytes ended 0 unhandled
        let scanned ← scanLines handle s moved (blen - consumed)
        some (scanned.after (content.take nl))
termination_by blen
decreasing_by
  have size : content.length ≤ blen := by
    have held := ‹loadBytes buf 0 blen = some content›
    rw [loadBytes] at held
    split_ifs at held
    rw [← Option.some.inj held]
    exact List.length_take_le ..
  have := nl.isLt
  omega

/-- What the socket has for the connection: bytes, or a wake within the idle
budget (`EINTR`, `SO_RCVTIMEO`). No bytes at all mean that the peer closed. -/
inductive Arrival
  | bytes (chunk : Bytes)
  | wake
  deriving DecidableEq, Repr

/-- The socket keeps what a `recv` had no room for. -/
def unread (left : Bytes) (later : List Arrival) : List Arrival :=
  if left = [] then later else .bytes left :: later

def Arrival.size : Arrival → Nat
  | .bytes chunk => chunk.length + 1
  | .wake => 1

def pending (arrivals : List Arrival) : Nat := (arrivals.map Arrival.size).sum

theorem pending_unread (nonempty : chunk.take room ≠ []) (later : List Arrival) :
    pending (unread (chunk.drop room) later) < pending (.bytes chunk :: later) := by
  have progress := List.length_pos_iff.mpr nonempty
  rw [unread]
  split_ifs
  · simp [pending, Arrival.size]
  · simp only [pending, List.length_take, List.map_cons, List.sum_cons, Arrival.size,
      List.length_drop] at progress ⊢
    omega

/-- The bytes of all arrivals. -/
def streamOf (arrivals : List Arrival) : Bytes :=
  arrivals.flatMap fun
    | .bytes chunk => chunk
    | .wake => []

/-- A connection's life: what was made of its lines, the room each `recv` was given
and `blen` after each that brought bytes. -/
structure LineRun (σ : Type) where
  framed : Framed σ UInt8
  rooms : List Nat
  fills : List Nat

/-- `conn_thread`, while the server is not stopping. -/
def connThread {σ : Type} (handle : σ → Bytes → σ × Bool) (s : σ) (buf : Bytes) (blen : Nat) :
    List Arrival → Option (LineRun σ)
  | [] => some ⟨⟨[], .exhausted, s⟩, [maxLineBytes - blen], []⟩
  | .wake :: later => do
    let run ← connThread handle s buf blen later
    some { run with rooms := (maxLineBytes - blen) :: run.rooms }
  | .bytes chunk :: later =>
    let room := maxLineBytes - blen
    let received := chunk.take room
    if _ : received = [] then some ⟨⟨[], .exhausted, s⟩, [room], []⟩
    else do
      let filled ← storeBytes buf blen received
      let fill := blen + received.length
      let ended ← storeBytes filled fill [0]
      match ← scanLines handle s ended fill with
      | .done framed => some ⟨framed, [room], [fill]⟩
      | .waiting pieces s moved left =>
        let run ← connThread handle s moved left (unread (chunk.drop room) later)
        some ⟨run.framed.after pieces, room :: run.rooms, fill :: run.fills⟩
termination_by arrivals => pending arrivals
decreasing_by
  · simp [pending, Arrival.size]
  · exact pending_unread ‹¬chunk.take (maxLineBytes - blen) = []› later

theorem loadBytes_eq (within : off + n ≤ buf.length) :
    loadBytes buf off n = some ((buf.drop off).take n) :=
  if_pos within

theorem storeBytes_eq (within : off + data.length ≤ buf.length) :
    storeBytes buf off data = some (buf.take off ++ data ++ buf.drop (off + data.length)) :=
  if_pos within

/-- A store keeps the buffer's size and what lies before it. -/
theorem storeBytes_spec (within : off + data.length ≤ buf.length) :
    ∃ stored, storeBytes buf off data = some stored ∧ stored.length = buf.length ∧
      stored.take (off + data.length) = buf.take off ++ data ∧
      stored.drop (off + data.length) = buf.drop (off + data.length) := by
  have size : (buf.take off ++ data).length = off + data.length := by
    rw [List.length_append, List.length_take]
    omega
  refine ⟨_, storeBytes_eq within, ?_, List.take_left' size, List.drop_left' size⟩
  rw [List.length_append, size, List.length_drop]
  omega

theorem cString_terminated (piece rest : Bytes) :
    cString (piece ++ 0 :: rest) = some (piece.takeWhile (· ≠ 0)) := by
  rw [cString, if_pos (by simp)]
  congr 1
  induction piece with
  | nil => rfl
  | cons b piece ih => simp only [List.cons_append, List.takeWhile_cons, ih]

/-- What the handler makes of a piece: the buffer holds a zero byte in place of its line end. -/
def onPiece {σ : Type} (handle : σ → Bytes → σ × Bool) (s : σ) (piece : Bytes) : σ × Bool :=
  handle s (piece.takeWhile (· ≠ 0))

/-- The lines of a stream, as the connection is to handle them. -/
def linesOf {σ : Type} (handle : σ → Bytes → σ × Bool) (s : σ) (stream : Bytes) : Framed σ UInt8 :=
  frames maxLineBytes lineFeed (onPiece handle) s stream

variable {σ : Type} {handle : σ → Bytes → σ × Bool}

/-- The scan of a content is right, whatever the stream goes on with. -/
def Scans (handle : σ → Bytes → σ × Bool) (s : σ) (content : Bytes) : Scanned σ → Prop
  | .done framed => ∀ rest, linesOf handle s (content ++ rest) = framed
  | .waiting pieces state buf blen =>
    buf.length = maxLineBytes + 1 ∧ blen < maxLineBytes ∧ lineFeed ∉ buf.take blen ∧
      ∀ rest, linesOf handle s (content ++ rest) =
        (linesOf handle state (buf.take blen ++ rest)).after pieces

theorem Scans.after {piece content : Bytes} {s s' : σ} {scanned : Scanned σ}
    (unstopped : lineFeed ∉ piece)
    (short : piece.length < maxLineBytes) (goes : onPiece handle s piece = (s', false))
    (scans : Scans handle s' content scanned) :
    Scans handle s (piece ++ lineFeed :: content) (scanned.after piece) := by
  have first : ∀ rest, linesOf handle s (piece ++ lineFeed :: content ++ rest) =
      (linesOf handle s' (content ++ rest)).after [piece] := by
    intro rest
    rw [List.append_assoc, List.cons_append, linesOf, frames_piece unstopped short, goes]
    rfl
  cases scanned with
  | done framed =>
    intro rest
    rw [first, scans rest]
  | waiting pieces state buf blen =>
    obtain ⟨size, room, waits, follows⟩ := scans
    refine ⟨size, room, waits, fun rest => ?_⟩
    rw [first, follows, Framed.after_after]
    rfl

/-- The line end replaced, the line read, and what follows it moved to the front. -/
theorem consume_line {buf : Bytes} {blen i : Nat} (inside : i < blen) (fits : blen < buf.length) :
    ∃ ended moved, storeBytes buf i [0] = some ended ∧
    cString ended = some ((buf.take i).takeWhile (· ≠ 0)) ∧
      loadBytes ended (i + 1) (blen - (i + 1)) = some ((buf.take blen).drop (i + 1)) ∧
      storeBytes ended 0 ((buf.take blen).drop (i + 1)) = some moved ∧ moved.length = buf.length ∧
      moved.take (blen - (i + 1)) = (buf.take blen).drop (i + 1) := by
  have room : i + ([0] : Bytes).length ≤ buf.length := by
    rw [List.length_singleton]
    omega
  obtain ⟨ended, stored, size, before, behind⟩ := storeBytes_spec room
  rw [List.length_singleton] at before behind
  have left : ((buf.take blen).drop (i + 1)).length = blen - (i + 1) := by
    rw [List.length_drop, List.length_take]
    omega
  obtain ⟨moved, compacted, movedSize, front, _⟩ :=
    storeBytes_spec (by omega : 0 + ((buf.take blen).drop (i + 1)).length ≤ ended.length)
  rw [Nat.zero_add, left, List.take_zero, List.nil_append] at front
  refine ⟨ended, moved, stored, ?_, ?_, compacted, movedSize.trans size, front⟩
  · rw [← List.take_append_drop (i + 1) ended, before, List.append_assoc, List.singleton_append,
      cString_terminated]
  · rw [loadBytes_eq (by omega), behind, List.drop_take]

theorem scanLines_spec (handle : σ → Bytes → σ × Bool) (s : σ) {buf : Bytes} {blen : Nat}
    (size : buf.length = maxLineBytes + 1) (fits : blen ≤ maxLineBytes) :
    ∃ scanned, scanLines handle s buf blen = some scanned ∧
    Scans handle s (buf.take blen) scanned := by
  induction blen using Nat.strongRecOn generalizing s buf with
  | ind blen ih =>
    have loaded : loadBytes buf 0 blen = some (buf.take blen) := by
      rw [loadBytes_eq (by omega), List.drop_zero]
    have held : (buf.take blen).length = blen := List.length_take_of_le (by omega)
    rw [scanLines]
    split
    next missing => rw [loaded] at missing; contradiction
    next content found =>
      obtain rfl := Option.some.inj (loaded.symm.trans found)
      cases scan : (buf.take blen).finIdxOf? lineFeed with
      | none =>
        have unstopped := List.finIdxOf?_eq_none_iff.mp scan
        by_cases full : maxLineBytes ≤ blen
        · refine ⟨_, congrArg some (if_pos full), fun rest => ?_⟩
          exact frames_overlong unstopped (by omega) s rest
        · refine ⟨_, congrArg some (if_neg full), size, by omega, unstopped, fun rest => ?_⟩
          exact (Framed.after_nil _).symm
      | some nl =>
        obtain ⟨i, bound⟩ := nl
        obtain ⟨unstopped, content⟩ := finIdxOf?_splits scan
        have inside : i < blen := by omega
        have piece : (buf.take blen).take i = buf.take i := by
          rw [List.take_take, min_eq_left inside.le]
        have short : (buf.take i).length = i := List.length_take_of_le (by omega)
        obtain ⟨ended, moved, stored, string, unhandled, compacted, movedSize, front⟩ :=
          consume_line inside (by omega : blen < buf.length)
        simp only [piece] at unstopped content ⊢
        simp only [stored, string, unhandled, compacted, Option.bind_eq_bind, Option.bind_some]
        cases answer : handle s ((buf.take i).takeWhile (· ≠ 0)) with
        | mk s' closes =>
          cases closes with
          | true =>
            refine ⟨_, rfl, fun rest => ?_⟩
            rw [content, List.append_assoc, List.cons_append, linesOf,
              frames_piece unstopped (by omega), onPiece, answer]
          | false =>
            obtain ⟨scanned, ran, scans⟩ :=
              ih (blen - (i + 1)) (by omega) s' (movedSize.trans size) (by omega)
            rw [front] at scans
            refine ⟨scanned.after (buf.take i), by simp only [ran, Option.bind_some], ?_⟩
            rw [content]
            exact scans.after unstopped (by omega) answer

theorem streamOf_bytes (chunk : Bytes) (later : List Arrival) :
    streamOf (.bytes chunk :: later) = chunk ++ streamOf later := rfl

theorem streamOf_unread (left : Bytes) (later : List Arrival) :
    streamOf (unread left later) = left ++ streamOf later := by
  rw [unread]
  split_ifs with all
  · rw [all, List.nil_append]
  · rfl

/-- No chunk is empty: an empty one is the peer's end of the connection. -/
def Flowing (arrivals : List Arrival) : Prop := ∀ chunk, .bytes chunk ∈ arrivals → chunk ≠ []

theorem Flowing.tail {arrival : Arrival} {later : List Arrival}
    (given : Flowing (arrival :: later)) : Flowing later :=
  fun chunk member => given chunk (List.mem_cons_of_mem _ member)

theorem Flowing.unread {later : List Arrival} (given : Flowing later) (left : Bytes) :
    Flowing (unread left later) := by
  intro chunk member
  rw [Stratum.unread] at member
  split_ifs at member with all
  · exact given chunk member
  · rcases List.mem_cons.mp member with same | rest
    · rw [Arrival.bytes.inj same]
      exact all
    · exact given chunk rest

/-- A run of the loop from a buffer that holds the start of a line. -/
structure LineRun.Right (handle : σ → Bytes → σ × Bool) (s : σ) (stream : Bytes) (run : LineRun σ) :
    Prop where
  framed : run.framed = linesOf handle s stream
  rooms : ∀ room ∈ run.rooms, 0 < room
  fills : ∀ fill ∈ run.fills, fill ≤ maxLineBytes

theorem receive_spec {buf received : Bytes} {blen : Nat} (size : buf.length = maxLineBytes + 1)
    (fits : blen + received.length ≤ maxLineBytes) :
    ∃ filled ended, storeBytes buf blen received = some filled ∧
      storeBytes filled (blen + received.length) [0] = some ended ∧
      ended.length = maxLineBytes + 1 ∧
      ended.take (blen + received.length) = buf.take blen ++ received := by
  obtain ⟨filled, stored, filledSize, front, _⟩ :=
    storeBytes_spec (by omega : blen + received.length ≤ buf.length)
  have room : blen + received.length + ([0] : Bytes).length ≤ filled.length := by
    rw [List.length_singleton]
    omega
  obtain ⟨ended, terminated, endedSize, before, _⟩ := storeBytes_spec room
  refine ⟨filled, ended, stored, terminated, by omega, ?_⟩
  have filling : (buf.take blen ++ received).length = blen + received.length := by
    rw [List.length_append, List.length_take_of_le (by omega)]
  have cut := congrArg (List.take (blen + received.length)) before
  rwa [front, List.take_take, List.length_singleton, min_eq_left (Nat.le_succ _),
    List.take_left' filling] at cut

theorem connThread_spec (handle : σ → Bytes → σ × Bool) (s : σ) {buf : Bytes} {blen : Nat}
    (arrivals : List Arrival) (size : buf.length = maxLineBytes + 1) (room : blen < maxLineBytes)
    (waits : lineFeed ∉ buf.take blen) (given : Flowing arrivals) :
    ∃ run, connThread handle s buf blen arrivals = some run ∧
    run.Right handle s (buf.take blen ++ streamOf arrivals) := by
  have held : (buf.take blen).length = blen := List.length_take_of_le (by omega)
  induction left : pending arrivals using Nat.strongRecOn generalizing s buf blen arrivals with
  | ind n ih =>
    cases arrivals with
    | nil =>
      rw [connThread]
      refine ⟨_, rfl, ?_, by simpa using room, by simp⟩
      rw [streamOf, List.flatMap_nil, List.append_nil, linesOf, frames_exhausted waits (by omega)]
    | cons arrival later =>
      cases arrival with
      | wake =>
        obtain ⟨run, ran, right⟩ :=
          ih (pending later) (by simp [← left, pending, Arrival.size]) s later size room waits
          given.tail held rfl
        rw [connThread, ran]
        refine ⟨_, rfl, right.framed, ?_, right.fills⟩
        intro r member
        rcases List.mem_cons.mp member with rfl | earlier
        · omega
        · exact right.rooms r earlier
      | bytes chunk =>
        have some' := given chunk List.mem_cons_self
        have received : chunk.take (maxLineBytes - blen) ≠ [] := by
          rw [Ne, List.take_eq_nil_iff]
          exact not_or.mpr ⟨by omega, some'⟩
        have fits : blen + (chunk.take (maxLineBytes - blen)).length ≤ maxLineBytes := by
          have := List.length_take_le (maxLineBytes - blen) chunk
          omega
        obtain ⟨filled, ended, stored, terminated, endedSize, content⟩ := receive_spec size fits
        obtain ⟨scanned, found, scans⟩ := scanLines_spec handle s endedSize fits
        have whole : buf.take blen ++ streamOf (.bytes chunk :: later) =
            buf.take blen ++ chunk.take (maxLineBytes - blen) ++
              streamOf (unread (chunk.drop (maxLineBytes - blen)) later) := by
          rw [streamOf_unread, streamOf_bytes, List.append_assoc,
            ← List.append_assoc (chunk.take _), List.take_append_drop]
        rw [content] at scans
        rw [connThread, dif_neg received, stored]
        simp only [Option.bind_eq_bind, Option.bind_some, terminated, found]
        cases scanned with
        | done framed =>
          refine ⟨_, rfl, ?_, by simpa using room, by simpa using fits⟩
          rw [whole, scans]
        | waiting pieces state moved left' =>
          obtain ⟨movedSize, movedRoom, movedWaits, follows⟩ := scans
          obtain ⟨run, ran, right⟩ :=
            ih _ (left ▸ pending_unread received later) state _ movedSize movedRoom movedWaits
            (given.tail.unread _) (List.length_take_of_le (by omega)) rfl
          simp only [ran, Option.bind_some]
          refine ⟨_, rfl, ?_, ?_, ?_⟩
          · rw [whole, follows, right.framed]
          · intro r member
            rcases List.mem_cons.mp member with rfl | earlier
            · omega
            · exact right.rooms r earlier
          · intro fill member
            rcases List.mem_cons.mp member with rfl | earlier
            · exact fits
            · exact right.fills fill earlier

/-- However the peer's bytes are cut, the same lines are handled, and no access leaves the
buffer. -/
theorem lines_of_stream (request : σ → Bytes → σ × Bool) (s : σ)
    (garbage : Vector UInt8 (maxLineBytes + 1))
    (arrivals : List Arrival) (given : Flowing arrivals) :
    ∃ run, connThread (handleLine request) s garbage.toList 0 arrivals = some run ∧
      run.framed = linesOf (handleLine request) s (streamOf arrivals) ∧
      (∀ piece ∈ run.framed.pieces, piece.length < maxLineBytes) ∧
      (∀ room ∈ run.rooms, 0 < room) ∧ ∀ fill ∈ run.fills, fill ≤ maxLineBytes := by
  obtain ⟨run, ran, framed, rooms, fills⟩ := connThread_spec (handleLine request) s arrivals
    garbage.length_toList (by decide : 0 < maxLineBytes) List.not_mem_nil given
  rw [List.take_zero, List.nil_append] at framed
  refine ⟨run, ran, framed, ?_, rooms, fills⟩
  rw [framed]
  exact handlePieces_short maxLineBytes _ s _

/-- A request over two chunks, a blank line and the start of a third. -/
theorem lines_of_stream_two :
    ∃ run, connThread (handleLine fun (handled : Nat) _ => (handled + 1, false)) 0
        (Vector.replicate (maxLineBytes + 1) (0 : UInt8)).toList 0
          [.bytes [123], .wake, .bytes [125, 10, 32, 10, 49]] = some run ∧
      run.framed = ⟨[[123, 125], [32]], .exhausted, 1⟩ := by
  obtain ⟨run, ran, framed, _⟩ := lines_of_stream (fun (handled : Nat) _ => (handled + 1, false)) 0
    (Vector.replicate (maxLineBytes + 1) 0)
      [.bytes [123], .wake, .bytes [125, 10, 32, 10, 49]] (by simp [Flowing])
  exact ⟨run, ran, framed.trans (by decide)⟩

end SimplePool.Stratum
