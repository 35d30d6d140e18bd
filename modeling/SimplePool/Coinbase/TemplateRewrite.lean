import SimplePool.Coinbase.Template
import SimplePool.Coinbase.Transaction

/-! Rewriting a template coinbase preserves the transaction: the halves around any
extranonces are the old transaction with a longer scriptSig and a divided reward. -/
namespace SimplePool.Coinbase
open Wire

theorem skip_at (fits : Fits buf) (here : At buf off (front ++ rest)) (size : front.length = n)
    (skipped : skip message buf off n = .ok off') :
    slice buf off n = some front ∧ At buf off' rest := by
  subst size
  have next := here.advance
  rw [skip, fits.sizeT next.inside] at skipped
  split at skipped
  next => cases skipped
  next =>
    obtain rfl := Except.ok.inj skipped
    exact ⟨here.slice, next⟩

/-- The two readers return the same number. -/
theorem need_varint_at (fits : Fits buf) (here : At buf off input)
    (taken : takeCompact input = some (v, rest))
    (read : need message (rdVarint buf off) = .ok (w, off')) : w = v ∧ At buf off' rest := by
  obtain ⟨next, same, after⟩ := rdVarint_at fits here taken
  obtain ⟨rfl, rfl⟩ := Prod.mk.inj (Option.some.inj ((need_ok read).symm.trans same))
  exact ⟨rfl, after⟩

theorem need_fixed_at (fits : Fits buf) (here : At buf off input)
    (taken : takeNat width input = some (v, rest))
    (read : need message (rdFixed width buf off) = .ok (w, off')) :
    w = v ∧ v < 256 ^ width ∧ off' = off + width ∧ At buf off' rest := by
  obtain ⟨same, after⟩ := rdFixed_at fits here taken
  obtain ⟨rfl, rfl⟩ := Prod.mk.inj (Option.some.inj ((need_ok read).symm.trans same))
  exact ⟨rfl, (takeNat_spec taken).2, rfl, after⟩

theorem takeCounted_split (taken : takeCounted input = some (bytes, rest)) :
    ∃ middle, takeCompact input = some (bytes.length, middle) ∧ middle = bytes ++ rest := by
  obtain ⟨⟨n, middle⟩, count, body⟩ := Option.bind_eq_some_iff.mp taken
  obtain ⟨split, rfl⟩ := takeBytes_spec body
  exact ⟨middle, count, split⟩

/-- A scanned output stands for an output of the transaction. -/
structure Mirrors (buf : Bytes) (c : CbOut) (out : TxOut) : Prop where
  value : c.value = out.value.toNat
  script : slice buf c.spkOff c.spkLen = some out.script
  opReturn : c.opReturn = !out.spendable

theorem startsWithReturn_at (here : At buf off (script ++ rest))
    (read : startsWithReturn buf off script.length = .ok opReturn) :
    opReturn = !(TxOut.mk value script).spendable := by
  cases script with
  | nil =>
    obtain rfl := Except.ok.inj read
    rfl
  | cons b script =>
    rw [startsWithReturn, if_neg (by simp)] at read
    obtain ⟨first, got, read⟩ := bind_ok read
    have head : buf[off]? = some b := by simpa using here.getElem? 0
    obtain rfl := Option.some.inj ((orUndefined_ok got).symm.trans head)
    obtain rfl := Except.ok.inj read
    simp [TxOut.spendable]

theorem readOutput_at (fits : Fits buf) (here : At buf off input)
    (taken : TxOut.read input = some (out, rest))
    (read : readOutput buf off = .ok (c, off')) : Mirrors buf c out ∧ At buf off' rest := by
  obtain ⟨⟨value, afterValue⟩, valueTaken, taken⟩ := Option.bind_eq_some_iff.mp taken
  obtain ⟨⟨script, afterScript⟩, scriptTaken, same⟩ := Option.map_eq_some_iff.mp taken
  obtain ⟨rfl, rfl⟩ := Prod.mk.inj same
  obtain ⟨middle, count, rfl⟩ := takeCounted_split scriptTaken
  rw [readOutput] at read
  obtain ⟨⟨w, off₁⟩, readValue, read⟩ := bind_ok read
  obtain ⟨⟨n, off₂⟩, readLen, read⟩ := bind_ok read
  obtain ⟨next, skipped, read⟩ := bind_ok read
  obtain ⟨opReturn, marked, read⟩ := bind_ok read
  obtain ⟨rfl, rfl⟩ := Prod.mk.inj (Except.ok.inj read)
  obtain ⟨rfl, small, _, at₁⟩ := need_fixed_at fits here valueTaken readValue
  obtain ⟨rfl, at₂⟩ := need_varint_at fits at₁ count readLen
  obtain ⟨body, at₃⟩ := skip_at fits at₂ rfl skipped
  refine ⟨⟨?_, body, startsWithReturn_at at₂ marked⟩, at₃⟩
  exact (UInt64.toNat_ofNat_of_lt' small).symm

/-- What the output loop knows of the outputs it has read. -/
structure Tracks (buf : Bytes) (outputs : List TxOut) (scan : Scan) : Prop where
  outs : List.Forall₂ (Mirrors buf) scan.outs outputs
  count : scan.rewardCount = outputs.countP TxOut.spendable
  last : ∀ i, scan.rewardIdx = some i → ∃ before out after, outputs = before ++ out :: after ∧
    before.length = i ∧ out.spendable = true ∧ ∀ other ∈ after, other.spendable = false

theorem Tracks.add (tracks : Tracks buf outputs scan) (mirrors : Mirrors buf c out)
    (added : scan.add c off = .ok scan') :
    Tracks buf (outputs ++ [out]) scan' ∧ scan'.off = off := by
  have outs := List.rel_append tracks.outs (List.Forall₂.cons mirrors .nil)
  rw [Scan.add] at added
  split at added
  next returns =>
    obtain rfl := Except.ok.inj added
    have kept : out.spendable = false := by simpa [mirrors.opReturn] using returns
    refine ⟨⟨outs, by simp [tracks.count, kept], fun i found => ?_⟩, rfl⟩
    obtain ⟨before, reward, after, rfl, length, spendable, rest⟩ := tracks.last i found
    refine ⟨before, reward, after ++ [out], by simp, length, spendable, ?_⟩
    intro other member
    rcases List.mem_append.mp member with old | new
    · exact rest other old
    · obtain rfl := List.mem_singleton.mp new
      exact kept
  next returns =>
    split at added
    next => cases added
    next =>
      obtain rfl := Except.ok.inj added
      have found : out.spendable = true := by simpa [mirrors.opReturn] using returns
      refine ⟨⟨outs, by simp [tracks.count, found], fun i same => ?_⟩, rfl⟩
      obtain rfl := Option.some.inj same
      exact ⟨outputs, out, [], rfl, tracks.outs.length_eq.symm, found, by simp⟩

theorem readOutputs_at (fits : Fits buf) (tracks : Tracks buf done scan)
    (here : At buf scan.off input) (taken : takeMany TxOut.read n input = some (more, rest))
    (read : readOutputs buf n scan = .ok scan') :
    Tracks buf (done ++ more) scan' ∧ At buf scan'.off rest ∧
    scan'.outs.length = scan.outs.length + n := by
  induction n generalizing done scan input more with
  | zero =>
    obtain ⟨rfl, rfl⟩ := Prod.mk.inj (Option.some.inj taken)
    obtain rfl := Except.ok.inj read
    exact ⟨by simpa using tracks, here, rfl⟩
  | succ n ih =>
    obtain ⟨⟨out, after⟩, outTaken, taken⟩ := Option.bind_eq_some_iff.mp taken
    obtain ⟨⟨others, _⟩, moreTaken, same⟩ := Option.map_eq_some_iff.mp taken
    obtain ⟨rfl, rfl⟩ := Prod.mk.inj same
    rw [readOutputs] at read
    obtain ⟨⟨c, off⟩, readOut, read⟩ := bind_ok read
    obtain ⟨next, added, readMore⟩ := bind_ok read
    obtain ⟨mirrors, atOut⟩ := readOutput_at fits here outTaken readOut
    obtain ⟨tracksNext, rfl⟩ := tracks.add mirrors added
    obtain ⟨tracksAll, atEnd, length⟩ := ih tracksNext atOut moreTaken readMore
    have one := tracksNext.outs.length_eq
    have old := tracks.outs.length_eq
    rw [List.length_append, List.length_singleton] at one
    exact ⟨by simpa using tracksAll, atEnd, by omega⟩

theorem skipItems_at (fits : Fits buf) (here : At buf off input)
    (taken : takeMany takeCounted n input = some (items, rest))
    (read : skipItems buf n off = .ok off') :
    At buf off' rest := by
  induction n generalizing off input items with
  | zero =>
    obtain ⟨rfl, rfl⟩ := Prod.mk.inj (Option.some.inj taken)
    obtain rfl := Except.ok.inj read
    exact here
  | succ n ih =>
    obtain ⟨⟨item, after⟩, itemTaken, taken⟩ := Option.bind_eq_some_iff.mp taken
    obtain ⟨⟨others, _⟩, moreTaken, same⟩ := Option.map_eq_some_iff.mp taken
    obtain ⟨rfl, rfl⟩ := Prod.mk.inj same
    obtain ⟨middle, count, rfl⟩ := takeCounted_split itemTaken
    rw [skipItems] at read
    obtain ⟨⟨w, off₁⟩, readLen, read⟩ := bind_ok read
    obtain ⟨off₂, skipped, readMore⟩ := bind_ok read
    obtain ⟨rfl, at₁⟩ := need_varint_at fits here count readLen
    exact ih (skip_at fits at₁ rfl skipped).2 moreTaken readMore

theorem skipWitness_at (fits : Fits buf) (here : At buf off input)
    (taken : readWitness segwit input = some (witness, rest))
    (read : skipWitness buf segwit off = .ok off') :
    At buf off' rest ∧ witness.isSome = segwit := by
  cases segwit with
  | false =>
    obtain ⟨rfl, rfl⟩ := Prod.mk.inj (Option.some.inj taken)
    obtain rfl := Except.ok.inj read
    exact ⟨here, rfl⟩
  | true =>
    obtain ⟨⟨n, after⟩, count, taken⟩ := Option.bind_eq_some_iff.mp taken
    obtain ⟨⟨items, _⟩, itemsTaken, same⟩ := Option.map_eq_some_iff.mp taken
    obtain ⟨rfl, rfl⟩ := Prod.mk.inj same
    obtain ⟨⟨w, off₁⟩, readCount, read⟩ := bind_ok read
    obtain ⟨rfl, at₁⟩ := need_varint_at fits here count readCount
    exact ⟨skipItems_at fits at₁ itemsTaken read, rfl⟩

theorem witnessMarker_at (here : At buf off input) :
    witnessMarker buf off = (readMarker input).1 ∧
      At buf (if witnessMarker buf off then off + 2 else off) (readMarker input).2 := by
  have first := here.getElem? 0
  have second := here.getElem? 1
  rw [Nat.add_zero] at first
  match input with
  | [] => simpa [witnessMarker, first, readMarker] using here
  | [b] => simpa [witnessMarker, first, second, readMarker] using here
  | marker :: flag :: rest =>
    have after : At buf off ([marker, flag] ++ rest) := here
    simp only [witnessMarker, first, second, readMarker, List.getElem?_cons_zero,
      List.getElem?_cons_succ]
    cases (marker = 0x00 && flag ≠ 0x00 : Bool) with
    | true => exact ⟨rfl, after.advance⟩
    | false => exact ⟨rfl, here⟩

/-- What the parse of a template knows of the transaction. -/
structure Parsed (buf : Bytes) (tx : Tx) (t : Template) : Prop where
  version : t.version = tx.version.toNat
  hasWitness : t.hasWitness = tx.witness.isSome
  prevout : slice buf t.prevoutOff 36 = some tx.prevout.bytes
  scriptSig : slice buf t.ssOff t.ssLen = some tx.scriptSig
  ssLen : t.ssLen = tx.scriptSig.length
  sequence : t.sequence = tx.sequence.toNat
  scan : Tracks buf tx.outputs t.scan
  single : t.scan.rewardCount = 1
  lockTime : t.locktime = tx.lockTime.toNat

theorem Prevout.read_split (taken : Prevout.read input = some (prevout, rest)) :
    input = prevout.bytes ++ rest := by
  rw [Prevout.read] at taken
  split at taken
  next =>
    obtain ⟨rfl, rfl⟩ := Prod.mk.inj (Option.some.inj taken)
    exact (List.take_append_drop 36 input).symm
  next => contradiction

/-- A transaction the format admits and the parser accepts is read field by field. -/
theorem parseTemplate_at (fits : Fits buf) (wellFormed : Tx.read buf = some tx)
    (parsed : parseTemplate buf = .ok t) : Parsed buf tx t := by
  rw [Tx.read] at wellFormed
  obtain ⟨⟨version, rest₁⟩, versionTaken, wellFormed⟩ := Option.bind_eq_some_iff.mp wellFormed
  dsimp only at wellFormed
  obtain ⟨⟨vin, rest₂⟩, vinTaken, wellFormed⟩ := Option.bind_eq_some_iff.mp wellFormed
  dsimp only at wellFormed
  split at wellFormed
  next => contradiction
  next =>
  obtain ⟨⟨prevout, rest₃⟩, prevoutTaken, wellFormed⟩ := Option.bind_eq_some_iff.mp wellFormed
  obtain ⟨⟨scriptSig, rest₄⟩, scriptSigTaken, wellFormed⟩ := Option.bind_eq_some_iff.mp wellFormed
  obtain ⟨⟨sequence, rest₅⟩, sequenceTaken, wellFormed⟩ := Option.bind_eq_some_iff.mp wellFormed
  obtain ⟨⟨vout, rest₆⟩, voutTaken, wellFormed⟩ := Option.bind_eq_some_iff.mp wellFormed
  obtain ⟨⟨outputs, rest₇⟩, outputsTaken, wellFormed⟩ := Option.bind_eq_some_iff.mp wellFormed
  obtain ⟨⟨witness, rest₈⟩, witnessTaken, wellFormed⟩ := Option.bind_eq_some_iff.mp wellFormed
  obtain ⟨⟨lockTime, rest₉⟩, lockTimeTaken, wellFormed⟩ := Option.bind_eq_some_iff.mp wellFormed
  dsimp only at wellFormed prevoutTaken scriptSigTaken sequenceTaken
  dsimp only at voutTaken outputsTaken witnessTaken lockTimeTaken
  split at wellFormed
  next => contradiction
  next =>
  obtain rfl := Option.some.inj wellFormed
  rw [parseTemplate] at parsed
  obtain ⟨⟨v, off₁⟩, readVersion, parsed⟩ := bind_ok parsed
  obtain ⟨⟨n, off₂⟩, readVin, parsed⟩ := bind_ok parsed
  obtain ⟨_, _, parsed⟩ := bind_ok parsed
  obtain ⟨off₃, skipPrevout, parsed⟩ := bind_ok parsed
  obtain ⟨⟨ssLen, ssOff⟩, readSsLen, parsed⟩ := bind_ok parsed
  obtain ⟨off₄, skipScriptSig, parsed⟩ := bind_ok parsed
  obtain ⟨⟨seq, off₅⟩, readSequence, parsed⟩ := bind_ok parsed
  obtain ⟨⟨count, off₆⟩, readVout, parsed⟩ := bind_ok parsed
  obtain ⟨_, _, parsed⟩ := bind_ok parsed
  obtain ⟨_, _, parsed⟩ := bind_ok parsed
  obtain ⟨scan, readScan, parsed⟩ := bind_ok parsed
  obtain ⟨off₇, skippedWitness, parsed⟩ := bind_ok parsed
  obtain ⟨⟨lock, off₈⟩, readLock, parsed⟩ := bind_ok parsed
  obtain ⟨_, _, parsed⟩ := bind_ok parsed
  obtain ⟨_, single, parsed⟩ := bind_ok parsed
  obtain rfl := Except.ok.inj parsed
  -- both parses advance together
  obtain ⟨rfl, versionSmall, _, at₁⟩ := need_fixed_at fits (At.start buf) versionTaken readVersion
  obtain ⟨marker, at₂⟩ := witnessMarker_at at₁
  obtain ⟨_, at₃⟩ := need_varint_at fits at₂ vinTaken readVin
  obtain rfl := Prevout.read_split prevoutTaken
  obtain ⟨prevoutSlice, at₄⟩ := skip_at fits at₃ prevout.size skipPrevout
  obtain ⟨middle, ssCount, rfl⟩ := takeCounted_split scriptSigTaken
  obtain ⟨rfl, at₅⟩ := need_varint_at fits at₄ ssCount readSsLen
  obtain ⟨ssSlice, at₆⟩ := skip_at fits at₅ rfl skipScriptSig
  obtain ⟨rfl, sequenceSmall, _, at₇⟩ := need_fixed_at fits at₆ sequenceTaken readSequence
  obtain ⟨rfl, at₈⟩ := need_varint_at fits at₇ voutTaken readVout
  obtain ⟨tracks, at₉, _⟩ := readOutputs_at fits ⟨.nil, rfl, by simp⟩ at₈ outputsTaken readScan
  rw [marker] at skippedWitness
  obtain ⟨at₁₀, segwit⟩ := skipWitness_at fits at₉ witnessTaken skippedWitness
  obtain ⟨rfl, lockTimeSmall, _, _⟩ := need_fixed_at fits at₁₀ lockTimeTaken readLock
  exact
  { version := (UInt32.toNat_ofNat_of_lt' versionSmall).symm
    hasWitness := marker.trans segwit.symm
    prevout := prevoutSlice
    scriptSig := ssSlice
    ssLen := rfl
    sequence := (UInt32.toNat_ofNat_of_lt' sequenceSmall).symm
    scan := tracks
    single := ensure_ok single
    lockTime := (UInt32.toNat_ofNat_of_lt' lockTimeSmall).symm }

theorem pushOutput_eq (out : TxOut) : pushOutput out.value.toNat out.script = out.write := by
  simp only [pushOutput, TxOut.write, counted, pushU64Le_eq, pushVarint_eq, List.append_assoc]

/-- An output of the rewritten transaction. -/
def ReplOut.txOut (out : ReplOut) : TxOut := ⟨UInt64.ofNat (toUInt64 out.sats), out.spk⟩

theorem pushReplOut_eq : pushReplOut = fun out => out.txOut.write := by
  funext out
  rw [← pushOutput_eq, pushReplOut, ReplOut.txOut, UInt64.toNat_ofNat_of_lt' (toUInt64_lt out.sats)]

/-- Away from the reward, outputs are copied. -/
theorem emitOutputs_copy (mirrors : List.Forall₂ (Mirrors buf) outs outputs) (away : rewardIdx < i)
    (emitted : emitOutputs buf rewardIdx repl outs i = .ok bytes) :
    bytes = outputs.flatMap TxOut.write := by
  induction mirrors generalizing i bytes with
  | nil =>
    obtain rfl := Except.ok.inj emitted
    rfl
  | @cons c out outs outputs here rest ih =>
    rw [emitOutputs, decide_eq_false (by omega)] at emitted
    obtain ⟨first, copied, emitted⟩ := bind_ok emitted
    obtain ⟨more, later, emitted⟩ := bind_ok emitted
    obtain rfl := Except.ok.inj emitted
    rw [copyOutput, here.script] at copied
    obtain rfl := Except.ok.inj copied
    rw [here.value, pushOutput_eq, ih (by omega) later, List.flatMap_cons]

/-- At the reward, the replacement stands. -/
theorem emitOutputs_replace (mirrors : List.Forall₂ (Mirrors buf) outs (before ++ reward :: after))
    (here : rewardIdx = i + before.length)
    (emitted : emitOutputs buf rewardIdx repl outs i = .ok bytes) :
    bytes = before.flatMap TxOut.write ++ repl.flatMap pushReplOut ++
      after.flatMap TxOut.write := by
  induction before generalizing i outs bytes with
  | nil =>
    obtain ⟨c, rest, _, restMirrors, rfl⟩ := List.forall₂_cons_right_iff.mp mirrors
    rw [emitOutputs, decide_eq_true (by simpa using here.symm)] at emitted
    obtain ⟨first, replaced, emitted⟩ := bind_ok emitted
    obtain ⟨more, later, emitted⟩ := bind_ok emitted
    obtain rfl := Except.ok.inj emitted
    obtain rfl := Except.ok.inj replaced
    rw [emitOutputs_copy restMirrors (by simp [here]) later]
    rfl
  | cons out before ih =>
    obtain ⟨c, rest, first, restMirrors, rfl⟩ := List.forall₂_cons_right_iff.mp mirrors
    rw [List.length_cons] at here
    rw [emitOutputs, decide_eq_false (by omega)] at emitted
    obtain ⟨copy, copied, emitted⟩ := bind_ok emitted
    obtain ⟨more, later, emitted⟩ := bind_ok emitted
    obtain rfl := Except.ok.inj emitted
    rw [copyOutput, first.script] at copied
    obtain rfl := Except.ok.inj copied
    rw [first.value, pushOutput_eq, ih restMirrors (by omega) later]
    simp

/-- The transaction that stands where the old one did: its scriptSig goes on with the
tag, the salt and the extranonces, and the reward is paid out to others. -/
def rewritten (old : Tx) (coinbaseTag : Option Bytes) (jobSalt : UInt32)
    (extranonce1 extranonce2 : Bytes) (before after : List TxOut) (repl : List ReplOut) : Tx :=
  { old with
    scriptSig :=
      old.scriptSig ++ tagPush coinbaseTag ++ saltPush jobSalt ++ extranonce1 ++ extranonce2
    outputs := before ++ repl.map ReplOut.txOut ++ after
    witness := none }

theorem script_le_write {outputs : List TxOut} (member : out ∈ outputs) :
    out.script.length ≤ (outputs.flatMap TxOut.write).length := by
  have inside : out.write.length ≤ (outputs.flatMap TxOut.write).length := by
    rw [List.flatMap_def]
    exact (List.sublist_flatten_of_mem (List.mem_map_of_mem member)).length_le
  rw [TxOut.write, counted, List.length_append, List.length_append] at inside
  omega

theorem length_le_write (outputs : List TxOut) :
    outputs.length ≤ (outputs.flatMap TxOut.write).length := by
  induction outputs with
  | nil => exact Nat.le_refl _
  | cons out outputs ih =>
    rw [List.length_cons, List.flatMap_cons, List.length_append, TxOut.write, List.length_append,
      length_encode]
    omega

/-- The one spendable output of a transaction the parser accepts, with the scanned
output that stands for it. -/
theorem Parsed.reward (parsed : Parsed buf old t) (found : t.scan.rewardIdx = some i)
    (scanned : t.scan.outs[i]? = some c) :
    ∃ before reward after, old.outputs = before ++ reward :: after ∧ before.length = i ∧
      reward.spendable = true ∧ (∀ out ∈ before ++ after, out.spendable = false) ∧
      Mirrors buf c reward := by
  obtain ⟨before, reward, after, split, length, spendable, rest⟩ := parsed.scan.last i found
  have count := parsed.scan.count
  rw [parsed.single, split, List.countP_append, List.countP_cons, spendable, if_pos rfl] at count
  refine ⟨before, reward, after, split, length, spendable, ?_, ?_⟩
  · intro out member
    rcases List.mem_append.mp member with old | later
    · have none : before.countP TxOut.spendable = 0 := by omega
      simpa using List.countP_eq_zero.mp none out old
    · exact rest out later
  · obtain ⟨inside, rfl⟩ := List.getElem?_eq_some_iff.mp scanned
    have same : old.outputs[i]? = some reward := by rw [split, ← length]; simp
    obtain ⟨there, rfl⟩ := List.getElem?_eq_some_iff.mp same
    exact parsed.scan.outs.get inside there

/-- What the builder has established when it succeeds. -/
theorem buildFromTemplate_spec
    (accepted : buildFromTemplate scale resolver hex coinbaseTag jobSalt size1 size2 =
      .ok (parts, hasWitness)) :
    ∃ buf t i c repl scriptSig prevout outputs, hexPairs hex = some buf ∧
    parseTemplate buf = .ok t ∧
      t.scan.rewardIdx = some i ∧ t.scan.outs[i]? = some c ∧ hasWitness = t.hasWitness ∧
      resolver.resolve scale (toInt64 c.value)
        (templateFixedBytes t i
          (newScriptSigLen t.ssLen (cbTagPushLen coinbaseTag jobSalt) size1 size2)) = .ok repl ∧
      newScriptSigLen t.ssLen (cbTagPush coinbaseTag jobSalt).length size1 size2 ≤ 100 ∧
      (repl.map ReplOut.sats).sum = toInt64 c.value ∧
      slice buf t.prevoutOff 36 = some prevout ∧ slice buf t.ssOff t.ssLen = some scriptSig ∧
      emitOutputs buf i repl t.scan.outs 0 = .ok outputs ∧
      parts.cb1 = pushU32Le t.version ++ pushVarint 1 ++ prevout ++
        pushVarint (newScriptSigLen t.ssLen (cbTagPush coinbaseTag jobSalt).length size1 size2) ++
          scriptSig ++
        cbTagPush coinbaseTag jobSalt ∧
      parts.cb2 = pushU32Le t.sequence ++
        pushVarint (sizeT (t.scan.outs.length - 1 + repl.length)) ++ outputs ++
        pushU32Le t.locktime := by
  rw [buildFromTemplate] at accepted
  obtain ⟨buf, decoded, accepted⟩ := bind_ok accepted
  obtain ⟨t, parsed, accepted⟩ := bind_ok accepted
  obtain ⟨i, found, accepted⟩ := bind_ok accepted
  obtain ⟨c, scanned, accepted⟩ := bind_ok accepted
  obtain ⟨repl, resolved, accepted⟩ := bind_ok accepted
  obtain ⟨_, _, accepted⟩ := bind_ok accepted
  obtain ⟨total, summed, accepted⟩ := bind_ok accepted
  obtain ⟨_, balanced, accepted⟩ := bind_ok accepted
  obtain ⟨_, ranged, accepted⟩ := bind_ok accepted
  obtain ⟨prevout, prevoutSlice, accepted⟩ := bind_ok accepted
  obtain ⟨scriptSig, scriptSigSlice, accepted⟩ := bind_ok accepted
  obtain ⟨outputs, emitted, accepted⟩ := bind_ok accepted
  obtain ⟨rfl, rfl⟩ := Prod.mk.inj (Except.ok.inj accepted)
  rw [decodeTemplateHex] at decoded
  obtain ⟨_, _, decoded⟩ := bind_ok decoded
  have pairs := need_ok decoded
  rw [hexDecode] at pairs
  split at pairs
  next => contradiction
  next =>
    split at pairs
    next => contradiction
    next =>
      exact ⟨buf, t, i, c, repl, scriptSig, prevout, outputs, pairs, parsed, orUndefined_ok found,
        orUndefined_ok scanned, rfl, resolved, (ensure_ok ranged).2,
        (int64_ok summed).1 ▸ ensure_ok balanced,
        orUndefined_ok prevoutSlice, orUndefined_ok scriptSigSlice, emitted, rfl, rfl⟩

/-- Any extranonces between the halves give the old transaction rewritten. The hex text
and the assembled coinbase are objects in memory, so their sizes fit 64 bits. -/
theorem template_rewrite_preserves (scale : Scale) (resolver : Resolver) (hex : Bytes)
    (coinbaseTag : Option Bytes)
    (jobSalt : UInt32) (extranonce1 extranonce2 : Bytes) (old : Tx) (parts : Parts)
    (hasWitness : Bool)
    (hexFits : hex.length < 2 ^ 64) (wellFormed : (hexPairs hex).bind Tx.read = some old)
    (accepted : buildFromTemplate scale resolver hex coinbaseTag jobSalt extranonce1.length
      extranonce2.length = .ok (parts, hasWitness))
    (fits : (parts.cb1 ++ extranonce1 ++ extranonce2 ++ parts.cb2).length < 2 ^ 64) :
    ∃ before reward after fixedBytes repl, old.outputs = before ++ reward :: after ∧
    reward.spendable = true ∧
      (∀ out ∈ before ++ after, out.spendable = false) ∧
      resolver.resolve scale (toInt64 reward.value.toNat) fixedBytes = .ok repl ∧
      (repl.map fun out => out.txOut.value.toNat).sum = reward.value.toNat ∧
      Tx.read (parts.cb1 ++ extranonce1 ++ extranonce2 ++ parts.cb2) =
        some (rewritten old coinbaseTag jobSalt extranonce1 extranonce2 before after repl) ∧
      parts.cb1 ++ extranonce1 ++ extranonce2 ++ parts.cb2 =
        (rewritten old coinbaseTag jobSalt extranonce1 extranonce2 before after repl).write ∧
      hasWitness = old.witness.isSome := by
  obtain ⟨buf, t, i, c, repl, scriptSig, prevout, outputs, pairs, parse, found, scanned, rfl,
    resolved, _,
    total, prevoutSlice, scriptSigSlice, emitted, cb1, cb2⟩ := buildFromTemplate_spec accepted
  rw [pairs] at wellFormed
  have bufFits : Fits buf := by
    rw [Fits, hexPairs_length pairs]
    omega
  have parsed := parseTemplate_at bufFits wellFormed parse
  obtain ⟨before, reward, after, split, length, spendable, others, mirrors⟩ :=
    parsed.reward found scanned
  rw [mirrors.value] at resolved total
  obtain ⟨scripts, values⟩ := Resolver.resolve_values reward.value.toNat_lt resolved total
  obtain rfl := Option.some.inj (parsed.prevout.symm.trans prevoutSlice)
  obtain rfl := Option.some.inj (parsed.scriptSig.symm.trans scriptSigSlice)
  have body : outputs = (before ++ repl.map ReplOut.txOut ++ after).flatMap TxOut.write := by
    rw [emitOutputs_replace (split ▸ parsed.scan.outs) (by omega) emitted]
    simp only [List.flatMap_append, List.flatMap_map, pushReplOut_eq]
  have vout : t.scan.outs.length - 1 + repl.length =
        (before ++ repl.map ReplOut.txOut ++ after).length := by
    have scannedLength := parsed.scan.outs.length_eq
    rw [split] at scannedLength
    simp only [List.length_append, List.length_cons, List.length_map] at scannedLength ⊢
    omega
  -- the sizes the builder adds up are those of the assembled coinbase, so nothing wraps
  have bodyFits : (before ++ repl.map ReplOut.txOut ++ after).length ≤ outputs.length := by
    rw [body]
    exact length_le_write _
  rw [cb1, cb2] at fits
  simp only [List.length_append] at fits
  have ssLen : newScriptSigLen t.ssLen (cbTagPush coinbaseTag jobSalt).length extranonce1.length
    extranonce2.length =
      (old.scriptSig ++ cbTagPush coinbaseTag jobSalt ++ extranonce1 ++ extranonce2).length := by
    simp only [newScriptSigLen, sizeT, parsed.ssLen, List.length_append]
    rw [Nat.mod_eq_of_lt (a := extranonce1.length + extranonce2.length) (by omega),
      Nat.mod_eq_of_lt (by omega)]
    omega
  have written : parts.cb1 ++ extranonce1 ++ extranonce2 ++ parts.cb2 =
      (rewritten old coinbaseTag jobSalt extranonce1 extranonce2 before after repl).write := by
    have voutFits :
        sizeT (t.scan.outs.length - 1 + repl.length) = t.scan.outs.length - 1 + repl.length :=
      Nat.mod_eq_of_lt (by omega)
    rw [cb1, cb2, ssLen, voutFits, vout, body, parsed.version, parsed.sequence, parsed.lockTime]
    simp only [rewritten, Tx.write, counted, cbTagPush, pushU32Le_eq, pushVarint_eq, writeWitness,
      Option.isSome_none, Bool.false_eq_true, if_false, List.nil_append, List.append_assoc]
  refine ⟨before, reward, after, _, repl, split, spendable, others, resolved, ?_, ?_, written,
    parsed.hasWitness⟩
  · simpa only [ReplOut.txOut, UInt64.toNat_ofNat_of_lt' (toUInt64_lt _)] using values
  · rw [written]
    apply Tx.read_write
    exact
    { scriptSig := by
        simp only [rewritten, cbTagPush, List.length_append] at ssLen fits ⊢
        omega
      outputs := by
        simp only [rewritten]
        omega
      scripts := by
        intro out member
        have script := script_le_write member
        rw [show (rewritten old coinbaseTag jobSalt extranonce1 extranonce2 before after
            repl).outputs.flatMap TxOut.write = outputs from body.symm] at script
        omega
      witness := by simp [rewritten] }

def coinbasePrevout : Prevout := ⟨List.replicate 32 0 ++ [0xff, 0xff, 0xff, 0xff], rfl⟩

/-- A segwit coinbase with a commitment on either side of its reward. -/
def commitmentTx : Tx where
  version := 2
  prevout := coinbasePrevout
  scriptSig := [0x03, 0xe8, 0x03, 0x00]
  sequence := 0xffffffff
  outputs := [⟨0, [0x6a, 0x01, 0xab]⟩, ⟨5000000000, [0x51]⟩, ⟨0, [0x6a, 0x02, 0xaa, 0x21]⟩]
  witness := some [List.replicate 32 0]
  lockTime := 0

def windowPair : Resolver :=
  .window [⟨some (ascii "tb1qw508d6qejxtdg4y5r3zarvary0c5xw7kxpjzsx"), 4000000000⟩,
      ⟨some (ascii "tb1qrp33g0q5c5txsp9arysrx4k6zdkfs4nce4xj0gdcccefvpysxf3q0sl5k7"), 950000000⟩]
    (some (ascii "tb1qw508d6qejxtdg4y5r3zarvary0c5xw7kxpjzsx")) .onePercent 0 0

def commitmentParts : Parts :=
  match buildFromTemplate .exact windowPair (hexEncode commitmentTx.write) (some (ascii "pool")) 7 4
    8 with
  | .ok (parts, _) => parts
  | .error _ => ⟨[], []⟩

theorem template_rewrite_window :
    ∃ before reward after repl, commitmentTx.outputs = before ++ reward :: after ∧
    Tx.read (commitmentParts.cb1 ++ [1, 2, 3, 4] ++ [1, 2, 3, 4, 5, 6, 7, 8] ++
      commitmentParts.cb2) =
      some (rewritten commitmentTx (some (ascii "pool")) 7 [1, 2, 3, 4] [1, 2, 3, 4, 5, 6, 7, 8]
        before after repl) := by
  obtain ⟨before, reward, after, _, repl, split, _, _, _, _, parsed, _⟩ :=
    template_rewrite_preserves .exact windowPair (hexEncode commitmentTx.write)
      (some (ascii "pool")) 7 [1, 2, 3, 4]
      [1, 2, 3, 4, 5, 6, 7, 8] commitmentTx commitmentParts true (by decide +kernel)
        (by decide +kernel)
      (by decide +kernel) (by decide +kernel)
  exact ⟨before, reward, after, repl, split, parsed⟩

end SimplePool.Coinbase
