import Mathlib.Data.List.Sort
import Mathlib.Order.Monotone.Defs

/-! Pages of a table, the greatest keys first. The cursor of the next page is the key of the last
row, and the next page starts strictly below it. Keys need not be unique, and the cursor may be
rounded on its way to the next request. -/
namespace KeysetPages

variable {α K : Type} [LinearOrder K]

/-- An order by the key, greatest first. Rows of one key come in any order. -/
structure Listing (key : α → K) where
  list : List α → List α
  perm : ∀ rows, (list rows).Perm rows
  sorted : ∀ rows, (list rows).Pairwise fun a b => key b ≤ key a

/-- What a key becomes when it is handed out as a cursor. -/
structure Rounding (K : Type) [LinearOrder K] where
  round : K → K
  mono : Monotone round
  idem : ∀ k, round (round k) = round k

/-- Ties in the order of the table. -/
def Listing.stable (key : α → K) : Listing key where
  list rows := rows.insertionSort fun a b => key b ≤ key a
  perm rows := List.perm_insertionSort _ rows
  sorted rows := by
    have total : Std.Total fun a b : α => key b ≤ key a := ⟨fun a b => le_total (key b) (key a)⟩
    have trans : IsTrans α fun a b => key b ≤ key a := ⟨fun a b c ab bc => bc.trans ab⟩
    exact List.pairwise_insertionSort _ rows

def Rounding.exact : Rounding K := ⟨id, monotone_id, fun _ => rfl⟩

/-- The rows that a cursor leaves. -/
def below (key : α → K) (rows : List α) : Option K → List α
  | none => rows
  | some cursor => rows.filter fun a => key a < cursor

/-- The keys of a table, greatest first. -/
def keysOf (key : α → K) (rows : List α) : List K := (rows.map key).insertionSort fun a b => b ≤ a

section
variable {key : α → K} (listing : Listing key) (rounding : Rounding K) (size : Nat) (rows : List α)

def page (before : Option K) : List α := (listing.list (below key rows before)).take size

/-- A page that is full has a next one. -/
def nextBefore (key : α → K) (rounding : Rounding K) (size : Nat) (items : List α) : Option K :=
  if items.length = size then items.getLast?.map fun a => rounding.round (key a) else none

/-- The rows of a page and of the pages after it, if there is an end to them. -/
def walk : Nat → Option K → Option (List α)
  | 0, _ => none
  | fuel + 1, before =>
    let items := page listing size rows before
    match nextBefore key rounding size items with
    | none => some items
    | some cursor => (walk fuel (some cursor)).map (items ++ ·)

/-- Each row once, and an end. -/
def Complete : Prop :=
  ∃ fuel visited, walk listing rounding size rows fuel none = some visited ∧ visited.Perm rows

/-- The cursor after each full page stands between the last key of the page and the next key. -/
def Separated (rounding : Rounding K) (size : Nat) (keys : List K) : Prop :=
  ∀ k last, keys[(k + 1) * size - 1]? = some last →
    rounding.round last ≤ last ∧ ∀ next ∈ keys[(k + 1) * size]?, next < rounding.round last

end

section Boundaries
variable {rounding : Rounding K} {size : Nat}

theorem separated_short {keys : List K} (short : keys.length < size) :
    Separated rounding size keys := by
  intro k last found
  have inside := (List.getElem?_eq_some_iff.mp found).1
  have pages : size ≤ (k + 1) * size := Nat.le_mul_of_pos_left size (Nat.succ_pos k)
  omega

/-- No key stands on both sides of a page boundary. -/
def Untied (size : Nat) (keys : List K) : Prop :=
  ∀ k last, keys[(k + 1) * size - 1]? = some last → ∀ next ∈ keys[(k + 1) * size]?, next ≠ last

theorem separated_untied {keys : List K} (positive : 0 < size)
    (sorted : keys.Pairwise fun a b => b ≤ a) (unrounded : ∀ k ∈ keys, rounding.round k = k) :
    Separated rounding size keys ↔ Untied size keys := by
  constructor
  · intro separated k last found next after
    have same := unrounded last (List.mem_of_getElem? found)
    have apart := (separated k last found).2 next after
    exact ne_of_lt (same ▸ apart)
  · intro untied k last found
    have same := unrounded last (List.mem_of_getElem? found)
    rw [same]
    refine ⟨le_refl last, fun next after => ?_⟩
    apply lt_of_le_of_ne _ (untied k last found next after)
    obtain ⟨inside, rfl⟩ := List.getElem?_eq_some_iff.mp found
    obtain ⟨beyond, rfl⟩ := List.getElem?_eq_some_iff.mp after
    have pages : size ≤ (k + 1) * size := Nat.le_mul_of_pos_left size (Nat.succ_pos k)
    exact List.pairwise_iff_getElem.mp sorted _ _ inside beyond (by omega)

theorem separated_page {front back : List K} {last : K} (full : front.length + 1 = size) :
    Separated rounding size (front ++ last :: back) ↔
      (rounding.round last ≤ last ∧ ∀ next ∈ back.head?, next < rounding.round last) ∧
      Separated rounding size back := by
  have split : front ++ last :: back = (front ++ [last]) ++ back := by simp
  have length : (front ++ [last]).length = size := by simpa using full
  have later : ∀ i, (front ++ last :: back)[size + i]? = back[i]? := by
    intro i
    rw [split, List.getElem?_append_right (by omega), length, Nat.add_sub_cancel_left]
  have here : (front ++ last :: back)[size - 1]? = some last := by
    rw [← full, Nat.add_sub_cancel, List.getElem?_append_right (Nat.le_refl _), Nat.sub_self]
    rfl
  have shift : ∀ k, (k + 1 + 1) * size - 1 = size + ((k + 1) * size - 1) := by
    intro k
    have pages : size ≤ (k + 1) * size := Nat.le_mul_of_pos_left size (Nat.succ_pos k)
    rw [Nat.succ_mul (k + 1)]
    omega
  have shift' : ∀ k, (k + 1 + 1) * size = size + (k + 1) * size := by
    intro k
    rw [Nat.succ_mul (k + 1), Nat.add_comm]
  constructor
  · intro separated
    constructor
    · have first := separated 0 last
      rw [Nat.zero_add, Nat.one_mul, here] at first
      have next := later 0
      rw [Nat.add_zero] at next
      rw [next, ← List.head?_eq_getElem?] at first
      exact first rfl
    · intro k last' found
      have boundary := separated (k + 1) last'
      rw [shift, later, shift', later] at boundary
      exact boundary found
  · rintro ⟨local_, rest⟩ k last' found
    cases k with
    | zero =>
      rw [Nat.zero_add, Nat.one_mul] at found ⊢
      have next := later 0
      rw [Nat.add_zero] at next
      rw [next, ← List.head?_eq_getElem?]
      rw [here] at found
      exact Option.some.inj found ▸ local_
    | succ k =>
      rw [shift, later] at found
      rw [shift', later]
      exact rest k last' found

end Boundaries

section Walk
variable {key : α → K} {listing : Listing key} {rounding : Rounding K} {size : Nat} {rows : List α}

theorem keysOf_sorted (key : α → K) (rows : List α) :
    (keysOf key rows).Pairwise fun a b => b ≤ a := by
  have total : Std.Total fun a b : K => b ≤ a := ⟨fun a b => le_total b a⟩
  have trans : IsTrans K fun a b => b ≤ a := ⟨fun a b c ab bc => bc.trans ab⟩
  exact List.pairwise_insertionSort _ _

theorem keysOf_perm (key : α → K) (rows : List α) : (keysOf key rows).Perm (rows.map key) :=
  List.perm_insertionSort _ _

theorem keysOf_eq {items : List α} (perm : items.Perm rows)
    (sorted : items.Pairwise fun a b => key b ≤ key a) :
    keysOf key rows = items.map key := by
  have right : (items.map key).Pairwise fun a b => b ≤ a := List.pairwise_map.mpr sorted
  apply List.Perm.eq_of_pairwise _ (keysOf_sorted key rows) right
  · exact (keysOf_perm key rows).trans (perm.symm.map key)
  · exact fun a b _ _ ab ba => le_antisymm ba ab

theorem cut (positive : 0 < size) (items : List α) :
    items.length < size ∨ ∃ front last back, items = front ++ last :: back ∧
    front.length + 1 = size := by
  by_cases short : items.length < size
  · exact .inl short
  · have inside : size - 1 < items.length := by omega
    refine .inr ⟨items.take (size - 1), items[size - 1], items.drop (size - 1 + 1), ?_, ?_⟩
    · rw [← List.drop_eq_getElem_cons inside, List.take_append_drop]
    · rw [List.length_take_of_le inside.le]
      omega

theorem page_short (rounding : Rounding K)
    (short : (listing.list (below key rows before)).length < size) :
    page listing size rows before = listing.list (below key rows before) ∧
      nextBefore key rounding size (page listing size rows before) = none := by
  have whole : page listing size rows before = listing.list (below key rows before) :=
    List.take_of_length_le short.le
  exact ⟨whole, whole ▸ if_neg short.ne⟩

theorem page_full (rounding : Rounding K)
    (split : listing.list (below key rows before) = front ++ last :: back)
    (full : front.length + 1 = size) :
    page listing size rows before = front ++ [last] ∧
      nextBefore key rounding size (page listing size rows before) =
        some (rounding.round (key last)) := by
  have length : (front ++ [last]).length = size := by simpa using full
  have here : page listing size rows before = front ++ [last] := by
    rw [page, split, List.append_cons]
    exact List.take_left' length
  refine ⟨here, ?_⟩
  rw [here, nextBefore, if_pos length, List.getLast?_concat, Option.map_some]

/-- The first page, and the walk from its cursor on. -/
theorem walk_cases (positive : 0 < size)
    (done : walk listing rounding size rows (fuel + 1) before = some visited) :
    ((listing.list (below key rows before)).length < size ∧
      visited = listing.list (below key rows before)) ∨
      ∃ front last back more, listing.list (below key rows before) = front ++ last :: back ∧
      front.length + 1 = size ∧
        walk listing rounding size rows fuel (some (rounding.round (key last))) = some more ∧
        visited = front ++ last :: more := by
  rw [walk] at done
  rcases cut positive (listing.list (below key rows before)) with short | ⟨front, last, back, split,
    full⟩
  · obtain ⟨whole, stop⟩ := page_short rounding short
    rw [stop] at done
    exact .inl ⟨short, (Option.some.inj done).symm.trans whole⟩
  · obtain ⟨here, next⟩ := page_full rounding split full
    rw [next] at done
    obtain ⟨more, later, rfl⟩ := Option.map_eq_some_iff.mp done
    exact .inr ⟨front, last, back, more, split, full,
      later, by rw [here, List.append_assoc, List.singleton_append]⟩

theorem walk_stop (short : (listing.list (below key rows before)).length < size) :
    walk listing rounding size rows (fuel + 1) before =
      some (listing.list (below key rows before)) := by
  obtain ⟨whole, stop⟩ := page_short rounding short
  rw [walk, stop, whole]

theorem walk_turn (split : listing.list (below key rows before) = front ++ last :: back)
    (full : front.length + 1 = size)
    (later : walk listing rounding size rows fuel (some (rounding.round (key last))) = some more) :
    walk listing rounding size rows (fuel + 1) before = some (front ++ last :: more) := by
  obtain ⟨here, next⟩ := page_full rounding split full
  rw [walk, next]
  dsimp only
  rw [later, Option.map_some, here, List.append_assoc, List.singleton_append]

theorem mem_below (listing : Listing key)
    (listed : a ∈ listing.list (below key rows (some cursor))) : key a < cursor := by
  have member := (listing.perm _).mem_iff.mp listed
  simpa using (List.mem_filter.mp member).2

theorem last_below (split : listing.list (below key rows (some cursor)) = front ++ last :: back) :
    key last < cursor := by
  apply mem_below listing
  rw [split]
  exact List.mem_append_right front List.mem_cons_self

/-- A cursor only goes down. -/
theorem walk_below (positive : 0 < size)
    (done : walk listing rounding size rows fuel (some (rounding.round k)) = some visited) :
    ∀ a ∈ visited, key a < rounding.round k := by
  induction fuel generalizing k visited with
  | zero => contradiction
  | succ fuel ih =>
    intro a member
    rcases walk_cases positive done with ⟨_, rfl⟩ | ⟨front, last, back, more, split, _, later, rfl⟩
    · exact mem_below listing member
    · have listed : ∀ b ∈ front ++ [last], key b < rounding.round k := by
        intro b inside
        apply mem_below listing
        rw [split, List.append_cons]
        exact List.mem_append_left back inside
      have down : rounding.round (key last) ≤ rounding.round k := by
        rw [← rounding.idem k]
        exact rounding.mono (last_below split).le
      rw [List.append_cons] at member
      rcases List.mem_append.mp member with now | then_
      · exact listed a now
      · exact (ih later a then_).trans_le down

/-- A walk from the cursor of a row that its own rounding leaves below it comes past every row
with a key as high. -/
theorem walk_counts (positive : 0 < size)
    (done : walk listing rounding size rows fuel (some (rounding.round k)) = some visited) :
    (below key rows (some (rounding.round k))).countP (fun a => k ≤ key a) ≤ visited.countP fun a =>
      k ≤ key a := by
  induction fuel generalizing visited with
  | zero => contradiction
  | succ fuel ih =>
    have same := (listing.perm (below key rows (some (rounding.round k)))).countP_eq fun a =>
      decide (k ≤ key a)
    rcases walk_cases positive done with ⟨_, rfl⟩ | ⟨front, last, back, more, split, _, later, rfl⟩
    · exact same.ge
    · by_cases high : k ≤ key last
      · -- The cursor has not moved, so the rest of the walk is a walk from the same cursor.
        have down : rounding.round (key last) ≤ rounding.round k := by
          rw [← rounding.idem k]
          exact rounding.mono (last_below split).le
        have stays : rounding.round (key last) = rounding.round k :=
          le_antisymm down (rounding.mono high)
        rw [stays] at later
        have rest := ih later
        rw [List.append_cons, List.countP_append]
        omega
      · have sorted := split ▸ listing.sorted (below key rows (some (rounding.round k)))
        have lower : back.countP (fun a => decide (k ≤ key a)) = 0 := by
          apply List.countP_eq_zero.mpr
          intro b member
          have under : key b ≤ key last :=
            (List.pairwise_cons.mp (List.pairwise_append.mp sorted).2.1).1 b member
          simpa using under.trans_lt (not_le.mp high)
        rw [← same, split, List.countP_append, List.countP_cons, lower, List.countP_append,
          List.countP_cons]
        omega

/-- What a cursor leaves that is not above the last row of the page. -/
theorem below_rest (split : listing.list (below key rows before) = front ++ last :: back)
    (low : rounding.round (key last) ≤ key last) :
    (below key rows (some (rounding.round (key last)))).Perm (back.filter fun a => key a <
      rounding.round (key last)) := by
  have sorted := split ▸ listing.sorted (below key rows before)
  have no_front : front.filter (fun a => decide (key a < rounding.round (key last))) = [] := by
    apply List.filter_eq_nil_iff.mpr
    intro a member
    have order := (List.pairwise_append.mp sorted).2.2 a member last List.mem_cons_self
    simpa using low.trans order
  have narrower : below key rows (some (rounding.round (key last))) =
      (below key rows before).filter fun a => key a < rounding.round (key last) := by
    cases before with
    | none => rfl
    | some cursor =>
      have inside : key last < cursor := last_below split
      simp only [below, List.filter_filter]
      apply List.filter_congr
      intro a _
      have both : key a < rounding.round (key last) → key a < cursor :=
        fun small => small.trans (low.trans_lt inside)
      by_cases small : key a < rounding.round (key last)
      · simp [small, both small]
      · simp [small]
  have perm := (listing.perm (below key rows before)).symm.filter fun a =>
    decide (key a < rounding.round (key last))
  rw [split, List.filter_append, no_front, List.nil_append,
    List.filter_cons_of_neg (by simpa using low)] at perm
  rw [narrower]
  exact perm

theorem below_next (split : listing.list (below key rows before) = front ++ last :: back)
    (low : rounding.round (key last) ≤ key last)
    (under : ∀ b ∈ back, key b < rounding.round (key last)) :
    (below key rows (some (rounding.round (key last)))).Perm back := by
  have all_back : back.filter (fun a => decide (key a < rounding.round (key last))) = back := by
    apply List.filter_eq_self.mpr
    intro b member
    simpa using under b member
  exact all_back ▸ below_rest split low

/-- Rows below a cursor are left by it. -/
theorem subperm_below (listing : Listing key) {items : List α}
    (part : items.Sublist (listing.list (below key rows before)))
    (under : ∀ a ∈ items, key a < cursor) : items.Subperm (below key rows (some cursor)) := by
  have kept : items.filter (fun a => decide (key a < cursor)) = items := by
    apply List.filter_eq_self.mpr
    intro a member
    simpa using under a member
  have narrower : (below key rows before).Sublist rows := by
    cases before with
    | none => exact List.Sublist.refl rows
    | some cursor => exact List.filter_sublist
  have listed := (part.filter fun a => decide (key a < cursor)).subperm
  have unsorted :=
    ((listing.perm (below key rows before)).filter fun a => decide (key a < cursor)).subperm
  rw [kept] at listed
  exact (listed.trans unsorted).trans (narrower.filter _).subperm

theorem separated_of_walk (positive : 0 < size)
    (done : walk listing rounding size rows fuel before = some visited)
    (whole : visited.Perm (below key rows before)) :
    Separated rounding size (keysOf key (below key rows before)) := by
  induction fuel generalizing before visited with
  | zero => contradiction
  | succ fuel ih =>
    have perm := listing.perm (below key rows before)
    have sorted := listing.sorted (below key rows before)
    rw [keysOf_eq perm sorted]
    rcases walk_cases positive done with ⟨short, _⟩ | ⟨front, last, back, more, split, full, later,
      rfl⟩
    · exact separated_short (by simpa using short)
    rw [split] at perm sorted
    have rest : more.Perm back := by
      have both := whole.trans perm.symm
      rw [List.append_cons front last more, List.append_cons front last back] at both
      exact (List.perm_append_left_iff _).mp both
    have under : ∀ b ∈ back, key b < rounding.round (key last) := by
      intro b member
      exact walk_below positive later b (rest.mem_iff.mpr member)
    have low : rounding.round (key last) ≤ key last := by
      by_contra up
      have high : key last < rounding.round (key last) := not_le.mp up
      -- Rounded up, the cursor would not leave out the last row, which would be visited again.
      have counts := walk_counts positive later
      rw [rest.countP_eq] at counts
      have again : (last :: back).countP (fun a => decide (key last ≤ key a)) ≤
          (below key rows (some (rounding.round (key last)))).countP fun a =>
            decide (key last ≤ key a) := by
        apply List.Subperm.countP_le
        apply subperm_below listing (split ▸ List.sublist_append_right front (last :: back))
        intro a member
        rcases List.mem_cons.mp member with rfl | later
        · exact high
        · exact under a later
      rw [List.countP_cons_of_pos (by simp)] at again
      omega
    rw [split, List.map_append, List.map_cons, separated_page (by simpa using full)]
    refine ⟨⟨low, ?_⟩, ?_⟩
    · intro next head
      obtain ⟨b, member, rfl⟩ := List.mem_map.mp (List.mem_of_mem_head? head)
      exact under b member
    · have next := below_next split low under
      have keys := ih later (rest.trans next.symm)
      rwa [keysOf_eq next.symm (List.pairwise_cons.mp (List.pairwise_append.mp sorted).2.1).2]
        at keys

theorem walk_of_separated (positive : 0 < size)
    (separated : Separated rounding size (keysOf key (below key rows before))) :
    ∃ fuel visited, walk listing rounding size rows fuel before = some visited ∧
    visited.Perm (below key rows before) := by
  have perm := listing.perm (below key rows before)
  have sorted := listing.sorted (below key rows before)
  rcases cut positive (listing.list (below key rows before)) with short | ⟨front, last, back, split,
    full⟩
  · exact ⟨1, _, walk_stop short, perm⟩
  rw [keysOf_eq perm sorted, split, List.map_append, List.map_cons,
    separated_page (by simpa using full)] at separated
  obtain ⟨⟨low, apart⟩, later⟩ := separated
  rw [split] at perm sorted
  have descending := List.pairwise_cons.mp (List.pairwise_append.mp sorted).2.1
  have under : ∀ b ∈ back, key b < rounding.round (key last) := by
    cases back with
    | nil => nofun
    | cons head tail =>
      have first : key head < rounding.round (key last) := apart (key head) rfl
      intro b member
      rcases List.mem_cons.mp member with rfl | later
      · exact first
      · exact ((List.pairwise_cons.mp descending.2).1 b later).trans_lt first
  have next := below_next split low under
  rw [← keysOf_eq next.symm descending.2] at later
  have fewer : (below key rows (some (rounding.round (key last)))).length <
        (below key rows before).length := by
    have sizes := perm.length_eq
    rw [List.length_append, List.length_cons] at sizes
    rw [next.length_eq]
    omega
  obtain ⟨fuel, more, done, all⟩ := walk_of_separated positive later
  refine ⟨fuel + 1, front ++ last :: more, walk_turn split full done, ?_⟩
  exact (((all.trans next).cons last).append_left front).trans perm
termination_by (below key rows before).length

/-- A walk over the pages visits each row once exactly when the cursor separates the rows of each
full page from the rows that are left. -/
theorem complete_iff (listing : Listing key) (rounding : Rounding K) (positive : 0 < size)
    (rows : List α) :
    Complete listing rounding size rows ↔ Separated rounding size (keysOf key rows) := by
  constructor
  · rintro ⟨fuel, visited, done, whole⟩
    exact separated_of_walk positive done whole
  · intro separated
    have all : Separated rounding size (keysOf key (below key rows none)) := separated
    exact walk_of_separated positive all

/-- A cursor that is never rounded up leads to an end, and past no row twice. -/
theorem walk_ends (listing : Listing key) (positive : 0 < size)
    (down : ∀ a ∈ rows, rounding.round (key a) ≤ key a) (before : Option K) :
    ∃ fuel visited, walk listing rounding size rows fuel before = some visited ∧
    visited.Subperm (below key rows before) := by
  have perm := listing.perm (below key rows before)
  rcases cut positive (listing.list (below key rows before)) with short | ⟨front, last, back, split,
    full⟩
  · exact ⟨1, _, walk_stop short, perm.subperm⟩
  rw [split] at perm
  have low : rounding.round (key last) ≤ key last := by
    apply down
    have member := perm.mem_iff.mp (List.mem_append_right front List.mem_cons_self)
    cases before with
    | none => exact member
    | some cursor => exact List.mem_of_mem_filter member
  have next := below_rest split low
  have fewer : (below key rows (some (rounding.round (key last)))).length <
        (below key rows before).length := by
    have sizes := perm.length_eq
    have kept := List.length_filter_le (fun a => decide (key a < rounding.round (key last))) back
    rw [List.length_append, List.length_cons] at sizes
    rw [next.length_eq]
    omega
  obtain ⟨fuel, more, done, once⟩ :=
    walk_ends listing positive down (some (rounding.round (key last)))
  refine ⟨fuel + 1, front ++ last :: more, walk_turn split full done, ?_⟩
  have rest : more.Subperm back := (once.trans next.subperm).trans List.filter_sublist.subperm
  exact ((List.subperm_append_left front).mpr ((List.subperm_cons last).mpr rest)).trans
    perm.subperm
termination_by (below key rows before).length

end Walk

end KeysetPages
