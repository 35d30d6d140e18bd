import SimplePool.Main.ParserWalk

/-! Where the coinbase parsers are safe. An exact reading of the transaction announces the
lengths it meets; a parser keeps beside it unless a length wraps the check `off + len`
around 2^64, and then the parser turns back. -/
namespace SimplePool.Coinbase
open Wire Cursor

/-- A reading that announces the offset and the size of every length. -/
abbrev Lengths (α : Type) := Trail (Nat × Nat) Unit α

def orStop {α : Type} : Option α → Except Unit α
  | some a => .ok a
  | none => .error ()

def stopUnless (condition : Prop) [Decidable condition] : Except Unit Unit :=
  if condition then .ok () else .error ()

def announced (size n : Nat) (rest : Bytes) : Lengths (Bytes × Bytes) := do
  leave (size - rest.length, n)
  lift (orStop (takeBytes n rest))

def exactOutput (size : Nat) (input : Bytes) : Lengths (TxOut × Bytes) := do
  let (value, rest) ← lift (orStop (takeNat 8 input))
  let (len, rest) ← lift (orStop (takeCompact rest))
  let (script, rest) ← announced size len rest
  pure (⟨UInt64.ofNat value, script⟩, rest)

/-- The outputs, as long as the tally goes on, and the tally. -/
def exactOutputs (tally : Nat → TxOut → Option Nat) (size : Nat) :
    Nat → Nat → Bytes → Lengths (List TxOut × Nat × Bytes)
  | 0, count, input => pure ([], count, input)
  | n + 1, count, input => do
    let (out, rest) ← exactOutput size input
    let count ← lift (orStop (tally count out))
    let (more, count, rest) ← exactOutputs tally size n count rest
    pure (out :: more, count, rest)

/-- The builder counts spendable outputs in an `int`. -/
def intTally (count : Nat) (out : TxOut) : Option Nat :=
  if out.spendable then
    if 2 ^ 31 ≤ count + 1 then none else some (count + 1)
  else some count

def exactItems (size : Nat) : Nat → Bytes → Lengths (List Bytes × Bytes)
  | 0, input => pure ([], input)
  | n + 1, input => do
    let (len, rest) ← lift (orStop (takeCompact input))
    let (item, rest) ← announced size len rest
    let (more, rest) ← exactItems size n rest
    pure (item :: more, rest)

def exactWitness (size : Nat) (segwit : Bool) (input : Bytes) :
    Lengths (Option (List Bytes) × Bytes) :=
  match segwit with
  | false => pure (none, input)
  | true => do
    let (n, rest) ← lift (orStop (takeCompact input))
    let (items, rest) ← exactItems size n rest
    pure (some items, rest)

/-- The format the builder reads: one input, and outputs for which memory can be asked,
one of them spendable. -/
def exactTx (tx : Bytes) : Lengths Tx := do
  let (version, rest) ← lift (orStop (takeNat 4 tx))
  let (segwit, rest) ← pure (readMarker rest)
  let (vin, rest) ← lift (orStop (takeCompact rest))
  lift (stopUnless (vin = 1))
  let (prevout, rest) ← lift (orStop (Prevout.read rest))
  let (ssLen, rest) ← lift (orStop (takeCompact rest))
  let (scriptSig, rest) ← announced tx.length ssLen rest
  let (sequence, rest) ← lift (orStop (takeNat 4 rest))
  let (vout, rest) ← lift (orStop (takeCompact rest))
  lift (stopUnless (vout ≠ 0))
  lift (stopUnless (vout * 32 < 2 ^ 64))
  let (outputs, count, rest) ← exactOutputs intTally tx.length vout 0 rest
  let (witness, rest) ← exactWitness tx.length segwit rest
  let (lockTime, rest) ← lift (orStop (takeNat 4 rest))
  lift (stopUnless (rest = []))
  lift (stopUnless (count = 1))
  pure ⟨UInt32.ofNat version, prevout, scriptSig, UInt32.ofNat sequence, outputs, witness,
    UInt32.ofNat lockTime⟩

/-- The counter takes a scriptSig and its sequence in one step, of 64 bits. -/
def exactInputs (size : Nat) : Nat → Bytes → Lengths Bytes
  | 0, input => pure input
  | n + 1, input => do
    let (_, rest) ← lift (orStop (Prevout.read input))
    let (ss, rest) ← lift (orStop (takeCompact rest))
    let (_, rest) ← announced size (sizeT (ss + 4)) rest
    exactInputs size n rest

/-- The format the counter reads: any inputs, and what follows the outputs left alone. -/
def exactCount (tx : Bytes) : Lengths (List TxOut × Nat × Bytes) := do
  let (_, rest) ← lift (orStop (takeNat 4 tx))
  let (_, rest) ← pure (readMarker rest)
  let (vin, rest) ← lift (orStop (takeCompact rest))
  let rest ← exactInputs tx.length vin rest
  let (vout, rest) ← lift (orStop (takeCompact rest))
  exactOutputs (fun count _ => some count) tx.length vout 0 rest

/-- A length that passes the check `off + len` does fit. -/
def Honest (size : Nat) (l : Nat × Nat) : Prop := sizeT (l.1 + l.2) ≤ size → l.1 + l.2 ≤ size

instance (size : Nat) (l : Nat × Nat) : Decidable (Honest size l) :=
  inferInstanceAs (Decidable (_ → _))

theorem takeNat_short (short : ¬width ≤ input.length) : takeNat width input = none := by
  rw [takeNat, takeBytes, if_neg short]
  rfl

theorem walkFixed_follows (message : String) (fits : Fits tx) (here : At tx off input)
    (small : width ≤ 8) :
    Follows tx.length off Prod.snd (fun _ => width) 0 (Honest tx.length)
      (fun a b => a.1 = b.1 ∧ b.1 < 256 ^ width ∧ At tx a.2 b.2)
      (walkFixed message width tx off) (lift (orStop (takeNat width input))) := by
  have length := here.length
  have bound := fits
  rw [Fits] at bound
  have noWrap : sizeT (off + width) = off + width := Nat.mod_eq_of_lt (by omega)
  by_cases room : width ≤ input.length
  · have split := (List.take_append_drop width input).symm
    have size : (input.take width).length = width := List.length_take_of_le room
    have taken : takeNat width input = some (decode (input.take width), input.drop width) := by
      rw [takeNat, takeBytes, if_pos room]
      rfl
    have small := decode_lt (input.take width)
    rw [size] at small
    have next : At tx (off + width) (input.drop width) := by
      rw [split] at here
      have after := here.advance
      rwa [size] at after
    rw [taken, walkFixed, noWrap, if_neg (by omega), here.ahead]
    refine Follows.read (by omega) (Follows.seek (Nat.le_add_right off width) ?_)
    exact Follows.pure ⟨rfl, small, next⟩ next.inside rfl (by omega)
  · rw [takeNat_short room, walkFixed, noWrap, if_pos (by omega)]
    exact Follows.lift (.inr ⟨_, _, rfl, rfl⟩) here.inside

theorem walkVarint_follows (message : String) (fits : Fits tx) (here : At tx off input) :
    Follows tx.length off Prod.snd (fun _ => 1) 0 (Honest tx.length)
      (fun a b => a.1 = b.1 ∧ b.1 < 2 ^ 64 ∧ At tx a.2 b.2)
      (walkVarint message tx off) (lift (orStop (takeCompact input))) := by
  cases input with
  | nil =>
    have ended : tx[off]? = none := by simpa using here.getElem? 0
    rw [walkVarint, ended]
    exact Follows.lift (.inr ⟨_, _, rfl, rfl⟩) here.inside
  | cons b input =>
    have first : tx[off]? = some b := by simpa using here.getElem? 0
    have next : At tx (off + 1) input := At.advance (show At tx off ([b] ++ input) from here)
    have inside := next.inside
    rw [walkVarint, first]
    have compactly : ∀ n rest, takeCompact (b :: input) = some (n, rest) → n < 2 ^ 64 :=
      fun n rest => takeCompact_lt
    rw [takeCompact] at compactly ⊢
    refine Follows.read (by omega) (Follows.seek (Nat.le_succ off) ?_)
    by_cases short : b < 0xfd
    · rw [if_pos short] at compactly ⊢
      rw [if_pos short]
      exact Follows.pure ⟨rfl, compactly _ _ rfl, next⟩ next.inside rfl (by omega)
    · rw [if_neg short] at compactly ⊢
      rw [if_neg short]
      have width : compactWidth b ≤ 8 := by
        rw [compactWidth]
        split_ifs <;> omega
      refine (walkFixed_follows message fits next width).weaken (fun _ => by omega)
        (Nat.zero_le _) ?_
      rintro a ⟨n, rest⟩ _ same ⟨equal, _, after⟩
      refine ⟨equal, compactly n rest ?_, after⟩
      cases taken : takeNat (compactWidth b) input with
      | none => rw [taken] at same; cases same
      | some read =>
        rw [taken] at same
        exact congrArg some (Except.ok.inj same)

/-- A dishonest length turns the offset back. -/
theorem dishonest_back (fits : Fits tx) (inside : off ≤ tx.length) (small : n < 2 ^ 64)
    (dishonest : ¬Honest tx.length (off, n)) :
    sizeT (off + n) ≤ tx.length ∧ sizeT (off + n) < off := by
  obtain ⟨passes, long⟩ := Classical.not_imp.mp dishonest
  dsimp only [Fits] at fits
  refine ⟨passes, ?_⟩
  rw [sizeT] at passes ⊢
  omega

/-- The length is announced where its bytes begin. -/
theorem announced_eq (here : At tx off input) (n : Nat) :
    announced tx.length n input = leave (off, n) >>= fun _ =>
      lift (orStop (takeBytes n input)) := by
  have start : tx.length - input.length = off := by
    have length := here.length
    omega
  rw [announced, start]

/-- A length that fails the check, or passes it honestly. -/
theorem room_of_check (fits : Fits tx) (here : At tx off input)
    (honest : Honest tx.length (off, n)) :
    (n ≤ input.length ∧ sizeT (off + n) = off + n) ∨
    (¬n ≤ input.length ∧ tx.length < sizeT (off + n)) := by
  have length := here.length
  by_cases room : n ≤ input.length
  · exact .inl ⟨room, fits.sizeT (by omega)⟩
  · refine .inr ⟨room, ?_⟩
    by_contra passes
    have fit := honest (Nat.le_of_not_lt passes)
    dsimp only at fit
    omega

theorem walkCheck_passes (passes : ¬tx.length < sizeT (off + n)) :
    walkCheck message tx off n = lift (.ok ()) := by
  rw [walkCheck, if_neg passes]

theorem walkCheck_fails (short : tx.length < sizeT (off + n)) :
    walkCheck message tx off n = lift (fail message) := by
  rw [walkCheck, if_pos short]

/-- The step over an announced length. -/
theorem walkSkip_follows (message : String) (fits : Fits tx) (here : At tx off input)
    (small : n < 2 ^ 64) :
    Follows tx.length off id (fun _ => 0) 0 (Honest tx.length) (fun a b => At tx a b.2)
      (walkSkip message tx off n) (announced tx.length n input) := by
  rw [walkSkip, announced_eq here]
  by_cases honest : Honest tx.length (off, n)
  · refine Follows.announce honest ?_
    rcases room_of_check fits here honest with ⟨room, noWrap⟩ | ⟨short, fails⟩
    · have taken : takeBytes n input = some (input.take n, input.drop n) := if_pos room
      have next := (here.takeBytes taken).2
      have inside := next.inside
      rw [walkCheck_passes (by omega), taken, noWrap]
      exact Follows.seek (Nat.le_add_right off n) (Follows.pure next inside rfl (by omega))
    · rw [walkCheck_fails fails, takeBytes, if_neg short]
      exact Follows.lift (.inr ⟨_, _, rfl, rfl⟩) here.inside
  · obtain ⟨passes, back⟩ := dishonest_back fits here.inside small honest
    rw [walkCheck_passes (by omega)]
    refine .back (off, n) List.mem_cons_self honest fun orderly => ?_
    have ascends := (List.pairwise_cons.mp orderly.1).1 (sizeT (off + n)) List.mem_cons_self
    omega

/-- The same, with a look at the first byte. -/
theorem walkScript_follows (message : String) (fits : Fits tx) (here : At tx off input)
    (small : n < 2 ^ 64) :
    Follows tx.length off Prod.snd (fun _ => 0) 0 (Honest tx.length)
      (fun a b => a.1 = !(TxOut.mk 0 b.1).spendable ∧ At tx a.2 b.2)
      (walkScript message tx off n) (announced tx.length n input) := by
  have length := here.length
  rw [walkScript, announced_eq here, walkReturn]
  by_cases honest : Honest tx.length (off, n)
  · refine Follows.announce honest ?_
    rcases room_of_check fits here honest with ⟨room, noWrap⟩ | ⟨short, fails⟩
    · have taken : takeBytes n input = some (input.take n, input.drop n) := if_pos room
      have next := (here.takeBytes taken).2
      have inside := next.inside
      rw [walkCheck_passes (by omega), taken, noWrap]
      by_cases empty : n = 0
      · subst empty
        exact Follows.seek (Nat.le_add_right off 0) (Follows.pure ⟨rfl, next⟩ inside rfl (by omega))
      · obtain ⟨b, rest, rfl⟩ := List.exists_cons_of_length_pos (by omega : 0 < input.length)
        have first : tx[off]? = some b := by simpa using here.getElem? 0
        obtain ⟨m, rfl⟩ := Nat.exists_eq_succ_of_ne_zero empty
        rw [if_neg empty, first]
        refine Follows.read (by omega) (Follows.seek (Nat.le_add_right off (m + 1))
          (Follows.pure ⟨?_, next⟩ inside rfl (by omega)))
        simp [TxOut.spendable]
    · rw [walkCheck_fails fails, takeBytes, if_neg short]
      exact Follows.lift (.inr ⟨_, _, rfl, rfl⟩) here.inside
  · obtain ⟨passes, back⟩ := dishonest_back fits here.inside small honest
    rw [walkCheck_passes (by omega)]
    refine .back (off, n) List.mem_cons_self honest fun orderly => ?_
    have some : n ≠ 0 := by
      rintro rfl
      exact honest fun _ => here.inside
    rw [if_neg some] at orderly
    cases first : tx[off]? with
    | none =>
      rw [first] at orderly
      have inside := orderly.2 (off, 1) List.mem_cons_self
      have ended := List.getElem?_eq_none_iff.mp first
      dsimp only at inside
      omega
    | some b =>
      rw [first] at orderly
      have ascends := (List.pairwise_cons.mp orderly.1).1 (sizeT (off + n)) List.mem_cons_self
      omega

theorem walkOutput_follows (valueError scriptError : String) (fits : Fits tx)
    (here : At tx off input) :
    Follows tx.length off Prod.snd (fun _ => 9) 0 (Honest tx.length)
      (fun a b => a.1.opReturn = !b.1.spendable ∧ At tx a.2 b.2)
      (walkOutput valueError scriptError tx off) (exactOutput tx.length input) := by
  rw [walkOutput, exactOutput]
  refine Follows.bind (walkFixed_follows _ fits here (Nat.le_refl 8)) ?_
  rintro ⟨value, off₁⟩ ⟨_, rest₁⟩ _ _ ⟨rfl, _, at₁⟩ _
  refine Follows.bind ((walkVarint_follows _ fits at₁).more (Nat.zero_le _)) ?_
  rintro ⟨len, off₂⟩ ⟨_, rest₂⟩ _ _ ⟨rfl, small, at₂⟩ _
  refine Follows.bind (walkScript_follows _ fits at₂ small).free ?_
  rintro ⟨opReturn, off₃⟩ ⟨script, rest₃⟩ _ _ ⟨marked, at₃⟩ within
  exact Follows.pure ⟨marked, at₃⟩ within rfl rfl

/-- The tally of the walk is the tally of the exact reading. -/
theorem scan_add (scan : Scan) (out : CbOut) (off : Nat) (tally : scan.rewardCount = count)
    (kind : out.opReturn = !txOut.spendable) :
    (∃ scan', scan.add out off = .ok scan' ∧ intTally count txOut = some scan'.rewardCount ∧
      scan'.outs.length = scan.outs.length + 1 ∧ scan'.off = off) ∨
    (scan.add out off = .error .undefined ∧ intTally count txOut = none) := by
  subst tally
  rw [Scan.add, intTally, kind]
  cases txOut.spendable with
  | false => exact .inl ⟨_, rfl, rfl, by simp, rfl⟩
  | true =>
    by_cases overflow : 2147483647 ≤ scan.rewardCount
    · exact .inr ⟨by simp [overflow], by simp [overflow]⟩
    · exact .inl ⟨⟨off, scan.outs ++ [out], some scan.outs.length,
          scan.rewardCount + 1⟩, by simp [overflow],
        by simp [overflow], by simp, rfl⟩

theorem walkOutputs_follows (fits : Fits tx) (n : Nat) (scan : Scan) (here : At tx scan.off input) :
    Follows tx.length scan.off Scan.off (fun a => 8 * (a.outs.length - scan.outs.length)) 1
      (Honest tx.length)
      (fun a b => a.rewardCount = b.2.1 ∧ At tx a.off b.2.2)
      (walkOutputs tx n scan) (exactOutputs intTally tx.length n scan.rewardCount input) := by
  induction n generalizing scan input with
  | zero => exact Follows.pure ⟨rfl, here⟩ here.inside rfl (by omega)
  | succ n ih =>
    rw [walkOutputs, exactOutputs]
    refine Follows.turn ?_
    refine Follows.bind (walkOutput_follows _ _ fits here) ?_
    rintro ⟨out, off⟩ ⟨txOut, rest⟩ _ _ ⟨kind, next⟩ _
    rcases scan_add scan out off rfl kind with ⟨scan', added, tallied, one, rfl⟩ | ⟨overflow,
      stopped⟩
    · dsimp only
      rw [added, tallied]
      refine Follows.map (g := fun p => (txOut :: p.1, p.2.1, p.2.2))
        (Follows.weaken (ih scan' next) ?_ ?_ ?_) fun _ _ same => same
      · intro a
        omega
      · omega
      · exact fun _ _ _ _ same => same
    · dsimp only
      rw [overflow, stopped]
      refine .refused .undefined () rfl rfl ?_ off next.inside (Forward.none _ _) ?_
      · exact fun mark inside => by cases inside
      · change 0 + off ≤ _
        omega

theorem walkItems_follows (fits : Fits tx) (n : Nat) (here : At tx off input) :
    Follows tx.length off id (fun _ => 0) 1 (Honest tx.length) (fun a b => At tx a b.2)
      (walkItems tx n off) (exactItems tx.length n input) := by
  induction n generalizing off input with
  | zero => exact Follows.pure here here.inside rfl rfl
  | succ n ih =>
    rw [walkItems, exactItems]
    refine Follows.turn ?_
    refine Follows.bind (walkVarint_follows _ fits here) ?_
    rintro ⟨len, off₁⟩ ⟨_, rest₁⟩ _ _ ⟨rfl, small, at₁⟩ _
    refine Follows.bind (walkSkip_follows _ fits at₁ small).free ?_
    rintro off₂ ⟨item, rest₂⟩ _ _ at₂ _
    refine Follows.map (g := fun p => (item :: p.1, p.2)) (Follows.weaken (ih at₂) ?_ ?_ ?_) fun _ _
      same => same
    · exact fun _ => Nat.le_refl 0
    · omega
    · exact fun _ _ _ _ same => same

theorem walkWitness_follows (fits : Fits tx) (here : At tx off input) (segwit : Bool) :
    Follows tx.length off id (fun _ => 0) 1 (Honest tx.length) (fun a b => At tx a b.2)
      (walkWitness tx segwit off) (exactWitness tx.length segwit input) := by
  cases segwit with
  | false => exact Follows.pure here here.inside rfl rfl
  | true =>
    rw [walkWitness, exactWitness]
    refine Follows.bind (walkVarint_follows _ fits here).free ?_
    rintro ⟨n, off₁⟩ ⟨_, rest₁⟩ _ _ ⟨rfl, _, at₁⟩ _
    refine Follows.map (g := fun p => (some p.1, p.2)) (walkItems_follows fits n at₁) ?_
    exact fun _ _ same => same

theorem walkMarker_follows (here : At tx off input) (slack : Nat) :
    Follows tx.length off Prod.snd (fun _ => 0) slack (Honest tx.length)
      (fun a b => a.1 = b.1 ∧ At tx a.2 b.2)
      (walkMarker tx off) (pure (readMarker input) : Lengths (Bool × Bytes)) := by
  have length := here.length
  have first := here.getElem? 0
  have second := here.getElem? 1
  rw [Nat.add_zero] at first
  rw [walkMarker, first, second]
  cases input with
  | nil => exact Follows.pure ⟨rfl, here⟩ here.inside rfl rfl
  | cons marker later =>
    cases later with
    | nil => exact Follows.pure ⟨rfl, here⟩ here.inside rfl rfl
    | cons flag rest =>
      have after : At tx (off + 2) rest :=
        At.advance (show At tx off ([marker, flag] ++ rest) from here)
      have inside := after.inside
      dsimp only [List.getElem?_cons_zero, List.getElem?_cons_succ, readMarker]
      refine Follows.read (by omega) ?_
      by_cases zero : marker = 0x00
      · rw [if_pos zero]
        refine Follows.read (by omega) ?_
        by_cases set : flag ≠ 0x00
        · have both : (decide (marker = 0x00) && decide (flag ≠ 0x00)) = true := by simp [zero, set]
          rw [if_pos set, if_pos both]
          exact Follows.seek (Nat.le_add_right off 2)
            (Follows.pure ⟨rfl, after⟩ inside rfl (by omega))
        · have not : ¬(decide (marker = 0x00) && decide (flag ≠ 0x00)) = true := by simp [set]
          rw [if_neg set, if_neg not]
          exact Follows.pure ⟨rfl, here⟩ here.inside rfl rfl
      · have not : ¬(decide (marker = 0x00) && decide (flag ≠ 0x00)) = true := by simp [zero]
        rw [if_neg zero, if_neg not]
        exact Follows.pure ⟨rfl, here⟩ here.inside rfl rfl

/-- The skip of the prevout is honest as it stands. -/
theorem walkPrevout_follows (message : String) (fits : Fits tx) (here : At tx off input) :
    Follows tx.length off id (fun _ => 36) 0 (Honest tx.length) (fun a b => At tx a b.2)
      (walkSkip message tx off 36) (lift (orStop (Prevout.read input))) := by
  have length := here.length
  have bound := fits
  rw [Fits] at bound
  have noWrap : sizeT (off + 36) = off + 36 := Nat.mod_eq_of_lt (by omega)
  rw [walkSkip]
  by_cases room : 36 ≤ input.length
  · have split : At tx off (input.take 36 ++ input.drop 36) := by rwa [List.take_append_drop]
    have next := split.advance
    rw [List.length_take_of_le room] at next
    have inside := next.inside
    rw [walkCheck_passes (by omega), noWrap, Prevout.read, dif_pos room]
    exact Follows.seek (Nat.le_add_right off 36) (Follows.pure next inside rfl (by omega))
  · rw [walkCheck_fails (by omega), Prevout.read, dif_neg room]
    exact Follows.lift (.inr ⟨_, _, rfl, rfl⟩) here.inside

/-- A condition on what both have read. -/
theorem condition_follows {condition condition' : Prop} [Decidable condition] [Decidable condition']
    (message : String) (same : condition ↔ condition') (within : start ≤ size) (slack : Nat) :
    Follows size start (fun _ => start) (fun _ => 0) slack (Honest size) (fun _ _ => condition')
      (lift (ensure condition message)) (lift (stopUnless condition')) := by
  refine Follows.lift ?_ within
  rw [ensure, stopUnless]
  by_cases holds : condition
  · exact .inl ⟨(), (), if_pos holds, if_pos (same.mp holds), same.mp holds, rfl, rfl⟩
  · exact .inr ⟨_, (), if_neg holds, if_neg fun holds' => holds (same.mpr holds')⟩

theorem walkTemplate_follows (fits : Fits tx) :
    Follows tx.length 0 (fun _ => tx.length) (fun a => 8 * a.scan.outs.length) 0 (Honest tx.length)
      (fun _ _ => True)
      (walkTemplate tx) (exactTx tx) := by
  rw [walkTemplate, exactTx]
  refine Follows.bind (walkFixed_follows _ fits (At.start tx) (by omega)) ?_
  rintro ⟨version, off₁⟩ ⟨_, rest₁⟩ _ _ ⟨rfl, _, at₁⟩ _
  refine Follows.bind (walkMarker_follows at₁ _) ?_
  rintro ⟨segwit, off₂⟩ ⟨_, rest₂⟩ _ _ ⟨rfl, at₂⟩ _
  refine Follows.bind (walkVarint_follows _ fits at₂).free ?_
  rintro ⟨vin, off₃⟩ ⟨_, rest₃⟩ _ _ ⟨rfl, _, at₃⟩ inside₃
  refine Follows.bind (condition_follows _ Iff.rfl inside₃ _) ?_
  rintro _ _ _ _ one _
  refine Follows.bind (walkPrevout_follows _ fits at₃).free ?_
  rintro off₄ ⟨prevout, rest₄⟩ _ _ at₄ _
  refine Follows.bind (walkVarint_follows _ fits at₄).free ?_
  rintro ⟨ssLen, off₅⟩ ⟨_, rest₅⟩ _ _ ⟨rfl, ssSmall, at₅⟩ _
  refine Follows.bind (walkSkip_follows _ fits at₅ ssSmall).free ?_
  rintro off₆ ⟨scriptSig, rest₆⟩ _ _ at₆ _
  refine Follows.bind (walkFixed_follows _ fits at₆ (by omega)).free ?_
  rintro ⟨sequence, off₇⟩ ⟨_, rest₇⟩ _ _ ⟨rfl, _, at₇⟩ _
  refine Follows.bind (walkVarint_follows _ fits at₇).free ?_
  rintro ⟨vout, off₈⟩ ⟨_, rest₈⟩ _ _ ⟨rfl, _, at₈⟩ inside₈
  refine Follows.bind (condition_follows _ Iff.rfl inside₈ _) ?_
  rintro _ _ _ _ _ _
  refine Follows.bind (condition_follows _ Iff.rfl inside₈ _) ?_
  rintro _ _ _ _ _ _
  refine Follows.bind ((walkOutputs_follows fits vout ⟨off₈, [], none, 0⟩ at₈).more ?_) ?_
  · omega
  rintro scan ⟨outputs, count, rest₉⟩ _ _ ⟨counted, at₉⟩ _
  refine Follows.bind ((walkWitness_follows fits at₉ segwit).more ?_) ?_
  · omega
  rintro off₁₀ ⟨witness, rest₁₀⟩ _ _ at₁₀ _
  refine Follows.bind (walkFixed_follows _ fits at₁₀ (by omega)).free ?_
  rintro ⟨lockTime, off₁₁⟩ ⟨_, rest₁₁⟩ _ _ ⟨rfl, _, at₁₁⟩ inside₁₁
  have ended : off₁₁ = tx.length ↔ rest₁₁ = [] := by
    have length := at₁₁.length
    dsimp only at length
    rw [← List.length_eq_zero_iff]
    omega
  refine Follows.bind (condition_follows _ ended inside₁₁ _) ?_
  rintro _ _ _ _ last _
  refine Follows.bind (condition_follows _ (by rw [counted]) inside₁₁ _) ?_
  rintro _ _ _ _ _ _
  refine Follows.pure trivial (Nat.le_refl _) (ended.mpr last).symm ?_
  dsimp only [List.length_nil]
  omega

theorem walkSkip_wraps (message : String) (tx : Bytes) (off n : Nat) :
    walkSkip message tx off n = walkSkip message tx off (sizeT n) := by
  have same : sizeT (off + n) = sizeT (off + sizeT n) := by
    simp only [sizeT]
    omega
  simp only [walkSkip, walkCheck, same]

theorem walkInputs_follows (fits : Fits tx) (n : Nat) (here : At tx off input) :
    Follows tx.length off id (fun _ => 0) 1 (Honest tx.length) (fun a b => At tx a b)
      (walkInputs tx n off) (exactInputs tx.length n input) := by
  induction n generalizing off input with
  | zero => exact Follows.pure here here.inside rfl rfl
  | succ n ih =>
    rw [walkInputs, exactInputs]
    refine Follows.turn ?_
    refine Follows.bind (walkPrevout_follows _ fits here) ?_
    rintro off₁ ⟨prevout, rest₁⟩ _ _ at₁ _
    refine Follows.bind (walkVarint_follows _ fits at₁).free ?_
    rintro ⟨ss, off₂⟩ ⟨_, rest₂⟩ _ _ ⟨rfl, _, at₂⟩ _
    dsimp only
    rw [walkSkip_wraps]
    refine Follows.bind (walkSkip_follows _ fits at₂ (Nat.mod_lt _ (by decide))).free ?_
    rintro off₃ ⟨_, rest₃⟩ _ _ at₃ _
    refine Follows.weaken (ih at₃) ?_ ?_ ?_
    · exact fun _ => Nat.zero_le _
    · omega
    · exact fun _ _ _ _ same => same

theorem walkTally_follows (fits : Fits tx) (n : Nat) (counts : Int32 × Int32) (count : Nat)
    (here : At tx off input) :
    Follows tx.length off Prod.fst (fun _ => 0) 1 (Honest tx.length) (fun _ _ => True)
      (walkTally tx n off counts)
        (exactOutputs (fun count _ => some count) tx.length n count input) := by
  induction n generalizing off input counts count with
  | zero => exact Follows.pure trivial here.inside rfl rfl
  | succ n ih =>
    rw [walkTally, exactOutputs]
    refine Follows.turn ?_
    refine Follows.bind (walkOutput_follows _ _ fits here) ?_
    rintro ⟨out, off₁⟩ ⟨txOut, rest₁⟩ _ _ ⟨_, at₁⟩ _
    refine Follows.map (g := fun p => (txOut :: p.1, p.2.1, p.2.2))
      (Follows.weaken (ih _ count at₁) ?_ ?_ ?_) fun _ _ same => same
    · exact fun _ => Nat.zero_le _
    · omega
    · exact fun _ _ _ _ same => same

theorem walkCounts_follows (fits : Fits tx) :
    Follows tx.length 0 Prod.fst (fun _ => 0) 0 (Honest tx.length) (fun _ _ => True)
      (walkCounts tx) (exactCount tx) := by
  rw [walkCounts, exactCount]
  refine Follows.bind (walkFixed_follows _ fits (At.start tx) (by omega)) ?_
  rintro ⟨version, off₁⟩ ⟨_, rest₁⟩ _ _ ⟨rfl, _, at₁⟩ _
  refine Follows.bind (walkMarker_follows at₁ _) ?_
  rintro ⟨segwit, off₂⟩ ⟨_, rest₂⟩ _ _ ⟨rfl, at₂⟩ _
  refine Follows.bind (walkVarint_follows _ fits at₂).free ?_
  rintro ⟨vin, off₃⟩ ⟨_, rest₃⟩ _ _ ⟨rfl, _, at₃⟩ _
  refine Follows.bind ((walkInputs_follows fits vin at₃).more ?_) ?_
  · omega
  rintro off₄ rest₄ _ _ at₄ _
  refine Follows.bind (walkVarint_follows _ fits at₄).free ?_
  rintro ⟨vout, off₅⟩ ⟨_, rest₅⟩ _ _ ⟨rfl, _, at₅⟩ _
  refine Follows.weaken (walkTally_follows fits vout (0, 0) 0 at₅) ?_ ?_ ?_
  · exact fun _ => Nat.zero_le _
  · omega
  · exact fun _ _ _ _ same => same

theorem orStop_ok {value : Option α} (got : orStop value = .ok a) : value = some a := by
  cases value with
  | none => cases got
  | some b => exact congrArg some (Except.ok.inj got)

theorem stopUnless_ok {condition : Prop} [Decidable condition]
    (passed : stopUnless condition = .ok u) : condition := by
  rw [stopUnless] at passed
  split at passed
  next holds => exact holds
  next => cases passed

theorem exact_bind {x : Lengths α} {next : α → Lengths β} (done : (x >>= next).outcome = .ok b) :
    ∃ a, x.outcome = .ok a ∧ (next a).outcome = .ok b := by
  rw [outcome_bind] at done
  cases first : x.outcome with
  | error reason => rw [first] at done; cases done
  | ok a => rw [first] at done; exact ⟨a, rfl, done⟩

theorem exactOutput_read (done : (exactOutput size input).outcome = .ok (out, rest)) :
    TxOut.read input = some (out, rest) := by
  rw [exactOutput] at done
  obtain ⟨⟨value, rest₁⟩, first, done⟩ := exact_bind done
  obtain ⟨⟨len, rest₂⟩, second, done⟩ := exact_bind done
  obtain ⟨⟨script, rest₃⟩, third, done⟩ := exact_bind done
  cases done
  have value := orStop_ok first
  have count := orStop_ok second
  have body := orStop_ok third
  simp only [TxOut.read, takeCounted, value, count, body, Option.bind_some, Option.map_some]

theorem exactOutputs_read (n count : Nat)
    (done : (exactOutputs tally size n count input).outcome = .ok (outs, total, rest)) :
    takeMany TxOut.read n input = some (outs, rest) := by
  induction n generalizing count input outs with
  | zero => cases done; rfl
  | succ n ih =>
    rw [exactOutputs] at done
    obtain ⟨⟨out, rest₁⟩, first, done⟩ := exact_bind done
    obtain ⟨count', _, done⟩ := exact_bind done
    obtain ⟨⟨more, total', rest₂⟩, others, done⟩ := exact_bind done
    cases done
    simp only [takeMany, exactOutput_read first, Option.bind_some, ih count' others,
      Option.map_some]

theorem exactItems_read (n : Nat) (done : (exactItems size n input).outcome = .ok (items, rest)) :
    takeMany takeCounted n input = some (items, rest) := by
  induction n generalizing input items with
  | zero => cases done; rfl
  | succ n ih =>
    rw [exactItems] at done
    obtain ⟨⟨len, rest₁⟩, first, done⟩ := exact_bind done
    obtain ⟨⟨item, rest₂⟩, second, done⟩ := exact_bind done
    obtain ⟨⟨more, rest₃⟩, others, done⟩ := exact_bind done
    cases done
    have count := orStop_ok first
    have body := orStop_ok second
    simp only [takeMany, takeCounted, count, body, Option.bind_some, ih others, Option.map_some]

theorem exactWitness_read (done : (exactWitness size segwit input).outcome = .ok (witness, rest)) :
    readWitness segwit input = some (witness, rest) := by
  cases segwit with
  | false => cases done; rfl
  | true =>
    rw [exactWitness] at done
    obtain ⟨⟨n, rest₁⟩, first, done⟩ := exact_bind done
    obtain ⟨⟨items, rest₂⟩, others, done⟩ := exact_bind done
    cases done
    have count := orStop_ok first
    simp only [readWitness, count, Option.bind_some, exactItems_read n others, Option.map_some]

theorem exactTx_read (done : (exactTx buf).outcome = .ok tx) : Tx.read buf = some tx := by
  rw [exactTx] at done
  obtain ⟨⟨version, rest₁⟩, versionTaken, done⟩ := exact_bind done
  obtain ⟨⟨segwit, rest₂⟩, marker, done⟩ := exact_bind done
  obtain ⟨⟨vin, rest₃⟩, vinTaken, done⟩ := exact_bind done
  obtain ⟨_, one, done⟩ := exact_bind done
  obtain ⟨⟨prevout, rest₄⟩, prevoutTaken, done⟩ := exact_bind done
  obtain ⟨⟨ssLen, rest₅⟩, ssLenTaken, done⟩ := exact_bind done
  obtain ⟨⟨scriptSig, rest₆⟩, scriptSigTaken, done⟩ := exact_bind done
  obtain ⟨⟨sequence, rest₇⟩, sequenceTaken, done⟩ := exact_bind done
  obtain ⟨⟨vout, rest₈⟩, voutTaken, done⟩ := exact_bind done
  obtain ⟨_, _, done⟩ := exact_bind done
  obtain ⟨_, _, done⟩ := exact_bind done
  obtain ⟨⟨outputs, count, rest₉⟩, outputsTaken, done⟩ := exact_bind done
  obtain ⟨⟨witness, rest₁₀⟩, witnessTaken, done⟩ := exact_bind done
  obtain ⟨⟨lockTime, rest₁₁⟩, lockTimeTaken, done⟩ := exact_bind done
  obtain ⟨_, last, done⟩ := exact_bind done
  obtain ⟨_, _, done⟩ := exact_bind done
  cases done
  have marked : readMarker rest₁ = (segwit, rest₂) := Except.ok.inj marker
  have counted : takeCounted rest₄ = some (scriptSig, rest₆) := by
    have ssLen := orStop_ok ssLenTaken
    have body := orStop_ok scriptSigTaken
    simp only [takeCounted, ssLen, Option.bind_some, body]
  have single : vin = 1 := stopUnless_ok one
  have ended : rest₁₁ = [] := stopUnless_ok last
  simp only [Tx.read, orStop_ok versionTaken, marked, orStop_ok vinTaken, single,
    orStop_ok prevoutTaken, counted,
    orStop_ok sequenceTaken, orStop_ok voutTaken, exactOutputs_read vout 0 outputsTaken,
    exactWitness_read witnessTaken,
    orStop_ok lockTimeTaken, ended, Option.bind_eq_bind, Option.bind_some, ne_eq, not_true_eq_false,
    if_false]

/-- What a parser may do to a transaction of a size. -/
structure Safe (size : Nat) (acts : List Act) : Prop where
  steps : turns acts ≤ size
  ascends : Ascends 0 acts
  inside : Inside size acts

/-- The builder and the counter are safe on a string, and what the builder accepts is a
transaction whose fields tile its bytes. -/
structure ParsersSafe (hex : Bytes) : Prop where
  builder : ∀ scale resolver coinbaseTag jobSalt size1 size2,
    Safe (hex.length / 2) (walkBuild scale resolver hex coinbaseTag jobSalt size1 size2).marks
  accepts : ∀ scale resolver coinbaseTag jobSalt size1 size2 r,
    buildFromTemplate scale resolver hex coinbaseTag jobSalt size1 size2 = .ok r →
      ∃ tx, (hexPairs hex).bind Tx.read = some tx
  counter : Safe (hex.length / 2) (walkCount hex).marks

/-- No length that is met passes its check only because the sum wraps around. -/
def NoLengthWraps (hex : Bytes) : Prop :=
  ∀ tx, hexPairs hex = some tx →
    (∀ l ∈ (exactTx tx).marks, Honest tx.length l) ∧ ∀ l ∈ (exactCount tx).marks, Honest tx.length l

/-- A walk beside an exact reading is orderly if and only if the lengths are honest. -/
theorem orderly_iff {walk : Walk α} {exact : Lengths β} {Match : α → β → Prop}
    (follows : Follows size 0 pos gain slack Honest' Match walk exact) :
    Orderly size 0 walk.marks ↔ ∀ l ∈ exact.marks, Honest' l := by
  cases follows with
  | together a b done same honest agree within arrived forward spent =>
    exact ⟨fun _ => honest, fun _ => ⟨forward.ascends, forward.inside⟩⟩
  | refused failure reason done same honest stop within forward spent =>
    exact ⟨fun _ => honest, fun _ => ⟨forward.ascends, forward.inside⟩⟩
  | back l met dishonest back =>
    exact ⟨fun orderly => absurd orderly back, fun honest => absurd (honest l met) dishonest⟩

theorem walkCosts_stays (outs : List CbOut) : Stays size outs.length (walkCosts outs) := by
  induction outs with
  | nil => exact Stays.quiet rfl
  | cons out rest ih =>
    rw [walkCosts, List.length_cons, Nat.add_comm]
    exact Stays.turn.bind fun _ _ => ih

theorem walkCopy_stays (mirrors : Mirrors tx c out) (i : Nat) :
    Stays tx.length 0 (walkCopy tx rewardIdx repl c i) := by
  rw [walkCopy]
  cases decide (i = rewardIdx) with
  | true => exact Stays.quiet rfl
  | false => exact (Stays.read (slice_inside mirrors.script)).bind fun _ _ => Stays.quiet rfl

theorem walkEmit_stays (mirrors : List.Forall₂ (Mirrors tx) outs outputs) (i : Nat) :
    Stays tx.length outs.length (walkEmit tx rewardIdx repl outs i) := by
  induction mirrors generalizing i with
  | nil => exact Stays.quiet rfl
  | @cons c out outs outputs here rest ih =>
    rw [walkEmit, List.length_cons, show outs.length + 1 = 1 + (0 + (outs.length + 0)) by omega]
    exact Stays.turn.bind fun _ _ => (walkCopy_stays here i).bind fun _ _ =>
      (ih (i + 1)).bind fun _ _ => Stays.quiet rfl

theorem walkRewrite_stays (parsed : Parsed tx old t) :
    Stays tx.length t.scan.outs.length (walkRewrite tx t rewardIdx repl push newSsLen) := by
  rw [walkRewrite,
    show t.scan.outs.length = 0 + (0 + (0 + (0 + (t.scan.outs.length + 0)))) by omega]
  refine (Stays.read (slice_inside parsed.prevout)).bind fun _ _ =>
    (Stays.quiet rfl).bind fun _ _ => ?_
  refine (Stays.read (slice_inside parsed.scriptSig)).bind fun _ _ =>
    (Stays.quiet rfl).bind fun _ _ => ?_
  exact (walkEmit_stays parsed.scan.outs 0).bind fun _ _ => Stays.quiet rfl

theorem walkResolve_stays (parsed : Parsed tx old t) : Stays tx.length (2 * t.scan.outs.length)
    (walkResolve scale resolver tx t coinbaseTag jobSalt size1 size2) := by
  rw [walkResolve, show 2 * t.scan.outs.length =
    0 + (0 + (t.scan.outs.length + (0 + (0 + (0 + (0 + (0 + t.scan.outs.length))))))) by omega]
  refine (Stays.quiet rfl).bind fun _ _ => (Stays.quiet rfl).bind fun _ _ =>
    (walkCosts_stays _).bind fun _ _ => ?_
  refine (Stays.quiet rfl).bind fun _ _ => (Stays.quiet rfl).bind fun _ _ =>
    (Stays.quiet rfl).bind fun _ _ => ?_
  exact (Stays.quiet rfl).bind fun _ _ => (Stays.quiet rfl).bind fun _ _ => walkRewrite_stays parsed

theorem walkBuild_marks (decoded : hexPairs hex = some tx) :
    (walkBuild scale resolver hex coinbaseTag jobSalt size1 size2).marks =
      (walkTemplate tx >>= fun t =>
        walkResolve scale resolver tx t coinbaseTag jobSalt size1 size2).marks := by
  rw [walkBuild, decodeTemplateHex_ok.mpr decoded]
  rfl

theorem walkCount_marks (decoded : hexPairs hex = some tx) :
    (walkCount hex).marks = (walkCounts tx).marks := by
  rw [walkCount, decodeTemplateHex_ok.mpr decoded]
  change (walkCounts tx >>= _).marks = _
  cases done : (walkCounts tx).outcome with
  | error failure => exact marks_bind_error done _
  | ok a => rw [marks_bind_ok done]; exact List.append_nil _

/-- Without bytes nothing is walked. -/
theorem undecoded_marks (undecoded : hexPairs hex = none) (next : Bytes → Walk α) :
    (lift (decodeTemplateHex hex) >>= next).marks = [] := by
  cases decoded : decodeTemplateHex hex with
  | error failure => rfl
  | ok tx => rw [decodeTemplateHex_ok.mp decoded] at undecoded; cases undecoded

theorem safe_nothing (size : Nat) : Safe size [] :=
  ⟨Nat.zero_le size, List.pairwise_singleton _ _, nofun⟩

/-- What the builder parses, when every length is honest, is a transaction. -/
theorem walkTemplate_read (fits : Fits tx) (honest : ∀ l ∈ (exactTx tx).marks, Honest tx.length l)
    (parsed : parseTemplate tx = .ok t) :
    ∃ old, Tx.read tx = some old ∧ Parsed tx old t ∧
    turns (walkTemplate tx).marks + 8 * t.scan.outs.length ≤ tx.length := by
  rw [← walkTemplate_outcome] at parsed
  cases walkTemplate_follows fits with
  | back l met dishonest back => exact absurd (honest l met) dishonest
  | refused failure reason done same honest stop within forward spent =>
    rw [done] at parsed; cases parsed
  | together a old done same honest agree within arrived forward spent =>
    obtain rfl := Except.ok.inj (done.symm.trans parsed)
    have read := exactTx_read same
    rw [walkTemplate_outcome] at done
    exact ⟨old, read, parseTemplate_at fits read done, by omega⟩

theorem walkTemplate_safe (fits : Fits tx) (honest : ∀ l ∈ (exactTx tx).marks, Honest tx.length l) :
    Safe tx.length
      (walkTemplate tx >>= fun t =>
        walkResolve scale resolver tx t coinbaseTag jobSalt size1 size2).marks := by
  obtain ⟨ascends, inside⟩ := (orderly_iff (walkTemplate_follows fits)).mpr honest
  cases parsed : parseTemplate tx with
  | error failure =>
    rw [← walkTemplate_outcome] at parsed
    rw [marks_bind_error parsed]
    refine ⟨?_, ascends, inside⟩
    cases walkTemplate_follows fits with
    | back l met dishonest back => exact absurd (honest l met) dishonest
    | together a old done same honest agree within arrived forward spent => omega
    | refused failure reason done same honest stop within forward spent => omega
  | ok t =>
    obtain ⟨old, _, fields, spent⟩ := walkTemplate_read fits honest parsed
    rw [← walkTemplate_outcome] at parsed
    have stays : Stays tx.length (2 * t.scan.outs.length)
        (walkResolve scale resolver tx t coinbaseTag jobSalt size1 size2) :=
          walkResolve_stays fields
    rw [marks_bind_ok parsed]
    refine ⟨?_, ?_, Inside.append.mpr ⟨inside, stays.inside⟩⟩
    · have more := stays.turns
      rw [turns_append]
      omega
    · rw [Ascends, offsets_append, stays.still, List.append_nil]
      exact ascends

theorem walkCounts_safe (fits : Fits tx)
    (honest : ∀ l ∈ (exactCount tx).marks, Honest tx.length l) :
    Safe tx.length (walkCounts tx).marks := by
  obtain ⟨ascends, inside⟩ := (orderly_iff (walkCounts_follows fits)).mpr honest
  refine ⟨?_, ascends, inside⟩
  cases walkCounts_follows fits with
  | back l met dishonest back => exact absurd (honest l met) dishonest
  | together a old done same honest agree within arrived forward spent => omega
  | refused failure reason done same honest stop within forward spent => omega

/-- The parsers are safe exactly on the strings in which no length wraps. The string is an
object in memory. -/
theorem parsers_safe_iff (hex : Bytes) (inMemory : hex.length < 2 ^ 64) :
    ParsersSafe hex ↔ NoLengthWraps hex := by
  constructor
  · intro safe tx decoded
    have fits : Fits tx := by
      rw [Fits, hexPairs_length decoded]
      omega
    have size := hexPairs_length decoded
    constructor
    · have builder := safe.builder .exact (.single [] none ⟨0, by decide⟩) none 0 0 0
      rw [walkBuild_marks decoded, ← size] at builder
      obtain ⟨more, marks⟩ := marks_prefix (walkTemplate tx) _
      rw [marks] at builder
      exact (orderly_iff (walkTemplate_follows fits)).mp (Orderly.left
          ⟨builder.ascends, builder.inside⟩)
    · have counter := safe.counter
      rw [walkCount_marks decoded, ← size] at counter
      exact (orderly_iff (walkCounts_follows fits)).mp ⟨counter.ascends, counter.inside⟩
  · intro noWrap
    cases decoded : hexPairs hex with
    | none =>
      refine ⟨?_, ?_, ?_⟩
      · intros
        rw [walkBuild, undecoded_marks decoded]
        exact safe_nothing _
      · intro scale resolver coinbaseTag jobSalt size1 size2 r accepted
        obtain ⟨buf, _, _, _, _, _, _, _, pairs, _⟩ := buildFromTemplate_spec accepted
        rw [decoded] at pairs
        cases pairs
      · rw [walkCount, undecoded_marks decoded]
        exact safe_nothing _
    | some tx =>
      have fits : Fits tx := by
        rw [Fits, hexPairs_length decoded]
        omega
      have size := hexPairs_length decoded
      obtain ⟨built, counted⟩ := noWrap tx decoded
      refine ⟨?_, ?_, ?_⟩
      · intros
        rw [walkBuild_marks decoded, ← size]
        exact walkTemplate_safe fits built
      · intro scale resolver coinbaseTag jobSalt size1 size2 r accepted
        obtain ⟨buf, t, _, _, _, _, _, _, pairs, parsed, _⟩ := buildFromTemplate_spec accepted
        obtain rfl := Option.some.inj (pairs.symm.trans decoded)
        obtain ⟨old, read, _⟩ := walkTemplate_read fits built parsed
        exact ⟨old, by rw [decoded]; exact read⟩
      · rw [walkCount_marks decoded, ← size]
        exact walkCounts_safe fits counted

/-- The reward's script claims 2^64 - 1 bytes. The check wraps, the offset goes back by one
byte, and from there the rest reads as an OP_RETURN output. -/
def wrappedTx : Bytes :=
  [2, 0, 0, 0] ++ [1] ++ List.replicate 32 0 ++ [0xff, 0xff, 0xff, 0xff] ++
    [2, 0x51, 0x51] ++ [0xff, 0xff, 0xff, 0xff] ++
    [2] ++ ([0, 0xf2, 0x05, 0x2a, 1, 0, 0, 0] ++ List.replicate 9 0xff) ++
      (List.replicate 7 0 ++ [1, 0x6a]) ++ [0, 0, 0, 0]

def onePayee : Resolver := .single (ascii "tb1qw508d6qejxtdg4y5r3zarvary0c5xw7kxpjzsx") none .free

/-- The builder reads backwards, and accepts what is no transaction. -/
theorem wrapped_length_reads_back : ¬ParsersSafe (hexEncode wrappedTx) ∧
    (buildFromTemplate .exact onePayee (hexEncode wrappedTx) none 0 4 4).isOk ∧
    Tx.read wrappedTx = none := by
  have back : ¬Ascends 0 (walkBuild .exact onePayee (hexEncode wrappedTx) none 0 4 4).marks ∧
      (buildFromTemplate .exact onePayee (hexEncode wrappedTx) none 0 4 4).isOk ∧
      Tx.read wrappedTx = none := by
    decide +kernel
  exact ⟨fun safe => back.1 (safe.builder .exact onePayee none 0 4 4).ascends, back.2⟩

theorem commitment_parses_safely : ParsersSafe (hexEncode commitmentTx.write) := by
  refine (parsers_safe_iff (hexEncode commitmentTx.write) (by decide +kernel)).mpr fun tx decoded =>
    ?_
  obtain rfl := Option.some.inj ((hexPairs_hexEncode _).symm.trans decoded)
  decide +kernel

end SimplePool.Coinbase
