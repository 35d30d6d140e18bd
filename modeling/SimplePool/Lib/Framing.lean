import Mathlib.Init

/-! Pieces of a stream between the occurrences of a delimiter, handled one
after the other until the handler closes or a piece reaches the limit. -/
namespace Framing

variable {α σ : Type}

/-- Why no further piece is handled. -/
inductive Ending
  | handler
  | overlong
  | exhausted
  deriving DecidableEq, Repr

structure Framed (σ α : Type) where
  pieces : List (List α)
  ending : Ending
  state : σ
  deriving DecidableEq, Repr

def Framed.after (earlier : List (List α)) (framed : Framed σ α) : Framed σ α :=
  { framed with pieces := earlier ++ framed.pieces }

@[simp] theorem Framed.after_nil (framed : Framed σ α) : framed.after [] = framed := rfl

theorem Framed.after_after (first second : List (List α)) (framed : Framed σ α) :
    (framed.after second).after first = framed.after (first ++ second) := by
  simp [Framed.after]

/-- The last piece has no delimiter after it, and is not handled. -/
def handlePieces (limit : Nat) (handle : σ → List α → σ × Bool) : σ → List (List α) → Framed σ α
  | s, [] => ⟨[], .exhausted, s⟩
  | s, [last] => ⟨[], if limit ≤ last.length then .overlong else .exhausted, s⟩
  | s, piece :: next :: more =>
    if limit ≤ piece.length then ⟨[], .overlong, s⟩
    else
      match handle s piece with
      | (s, true) => ⟨[piece], .handler, s⟩
      | (s, false) => (handlePieces limit handle s (next :: more)).after [piece]

/-- What becomes of a whole stream. -/
def frames [BEq α] (limit : Nat) (stop : α) (handle : σ → List α → σ × Bool) (s : σ)
    (stream : List α) : Framed σ α :=
  handlePieces limit handle s (stream.splitOn stop)

theorem handlePieces_overlong {limit : Nat} {piece : List α} (handle : σ → List α → σ × Bool)
    (s : σ) (full : limit ≤ piece.length) (more : List (List α)) :
    handlePieces limit handle s (piece :: more) = ⟨[], .overlong, s⟩ := by
  cases more with
  | nil => rw [handlePieces, if_pos full]
  | cons next more => rw [handlePieces, if_pos full]

theorem handlePieces_short (limit : Nat) (handle : σ → List α → σ × Bool) (s : σ)
    (pieces : List (List α)) :
    ∀ piece ∈ (handlePieces limit handle s pieces).pieces, piece.length < limit := by
  fun_induction handlePieces limit handle s pieces with
  | case1 => simp
  | case2 => simp
  | case3 => simp
  | case4 s piece next more short s' closed => simpa using short
  | case5 s piece next more short s' goes ih =>
    intro other member
    rcases List.mem_cons.mp member with rfl | later
    · exact Nat.not_le.mp short
    · exact ih other later

variable [BEq α] [LawfulBEq α] {limit : Nat} {stop : α} {handle : σ → List α → σ × Bool}

/-- A piece in front of bytes without a delimiter becomes part of the first piece. -/
theorem splitOn_append {content : List α} (unstopped : stop ∉ content) (rest : List α) :
    ∃ first more, (content ++ rest).splitOn stop = (content ++ first) :: more := by
  induction content with
  | nil =>
    obtain ⟨first, more, split⟩ := List.exists_cons_of_ne_nil (List.splitOn_ne_nil stop rest)
    exact ⟨first, more, split⟩
  | cons a content ih =>
    obtain ⟨other, unstopped⟩ := List.ne_and_not_mem_of_not_mem_cons unstopped
    obtain ⟨first, more, split⟩ := ih unstopped
    refine ⟨first, more, ?_⟩
    rw [List.cons_append, List.splitOn_cons_eq_if_modifyHead, if_neg (by simpa using Ne.symm other),
      split]
    rfl

/-- A scan for the delimiter finds the end of the first piece. -/
theorem finIdxOf?_splits {content : List α} {i : Fin content.length}
    (found : content.finIdxOf? stop = some i) :
    stop ∉ content.take i ∧ content = content.take i ++ stop :: content.drop (i + 1) := by
  obtain ⟨here, before⟩ := List.finIdxOf?_eq_some_iff.mp found
  constructor
  · intro member
    obtain ⟨j, inside, same⟩ := List.mem_take_iff_getElem.mp member
    exact before ⟨j, by omega⟩ (Fin.mk_lt_of_lt_val (by omega)) same
  · rw [← here, Fin.getElem_fin, List.getElem_cons_drop, List.take_append_drop]

theorem frames_overlong {content : List α} (unstopped : stop ∉ content)
    (full : limit ≤ content.length) (s : σ)
    (rest : List α) : frames limit stop handle s (content ++ rest) = ⟨[], .overlong, s⟩ := by
  obtain ⟨first, more, split⟩ := splitOn_append unstopped rest
  have longer : limit ≤ (content ++ first).length := by
    rw [List.length_append]
    omega
  rw [frames, split, handlePieces_overlong handle s longer]

theorem frames_exhausted {content : List α} (unstopped : stop ∉ content)
    (short : content.length < limit) (s : σ) :
    frames limit stop handle s content = ⟨[], .exhausted, s⟩ := by
  rw [frames, List.splitOn_eq_singleton unstopped, handlePieces, if_neg (Nat.not_le.mpr short)]

theorem frames_piece {piece : List α} (unstopped : stop ∉ piece) (short : piece.length < limit)
    (s : σ) (rest : List α) :
    frames limit stop handle s (piece ++ stop :: rest) =
      match handle s piece with
      | (s, true) => ⟨[piece], .handler, s⟩
      | (s, false) => (frames limit stop handle s rest).after [piece] := by
  obtain ⟨next, more, split⟩ := List.exists_cons_of_ne_nil (List.splitOn_ne_nil stop rest)
  rw [frames, List.splitOn_append_cons_self_of_not_mem unstopped, split, handlePieces,
    if_neg (Nat.not_le.mpr short)]
  simp only [frames, split]

end Framing
