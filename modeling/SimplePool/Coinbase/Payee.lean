import SimplePool.Coinbase.TemplateRewrite

/-! Whom a coinbase with one miner pays: the first output that can be spent is the
miner's, whichever builder made it. -/
namespace SimplePool.Coinbase
open Wire

/-- The bytes are a transaction whose miner output goes to the script of the address. -/
def Pays (coinbase address : Bytes) : Prop :=
  ∃ tx out, Tx.read coinbase = some tx ∧ tx.outputs.find? TxOut.spendable = some out ∧
    addressToScript address spkCap = .ok out.script

theorem segwitToScript_head (resolved : segwitToScript addr cap = .ok spk) :
    spk.head? ≠ some 0x6a := by
  simp only [segwitToScript, fail] at resolved
  repeat' (split at resolved)
  all_goals first
    | contradiction
    | (obtain rfl := Except.ok.inj resolved
       simp only [List.head?_cons]
       decide)

theorem base58ToScript_head (resolved : base58ToScript addr cap = .ok spk) :
    spk.head? ≠ some 0x6a := by
  simp only [base58ToScript, fail] at resolved
  repeat' (split at resolved)
  all_goals first
    | contradiction
    | (obtain rfl := Except.ok.inj resolved
       simp only [List.cons_append, List.head?_cons]
       decide)

theorem addressToScript_head (resolved : addressToScript addr cap = .ok spk) :
    spk.head? ≠ some 0x6a := by
  rw [addressToScript] at resolved
  split at resolved
  next => exact segwitToScript_head resolved
  next => exact base58ToScript_head resolved

theorem positiveFee_spk (fee : positiveFee reward operatorAddress feeBps = .ok operator) :
    ∀ op ∈ operator, op.spk.length ≤ spkCap := by
  intro op same
  obtain rfl := Option.mem_def.mp same
  rw [positiveFee] at fee
  split at fee
  next => exact (operatorFee_payable fee).spk
  next => cases fee

/-- The outputs for one miner: its own, spendable, and then at most the operator's. -/
structure PaysFirst (miner : Bytes) (repl : List ReplOut) (first : ReplOut) (more : List ReplOut) :
    Prop where
  split : repl = first :: more
  script : addressToScript miner spkCap = .ok first.spk
  count : more.length ≤ 1
  fits : ∀ out ∈ repl, out.spk.length ≤ spkCap

theorem paysFirst_of_address (script : addressToScript miner spkCap = .ok spk)
    (fee : positiveFee reward operatorAddress feeBps = .ok operator) (sats : Int) :
    PaysFirst miner (⟨spk, sats⟩ :: operator.toList) ⟨spk, sats⟩ operator.toList where
  split := rfl
  script := script
  count := by cases operator <;> simp
  fits := by
    intro out member
    rcases List.mem_cons.mp member with rfl | last
    · exact addressToScript_le script
    · exact positiveFee_spk fee out (Option.mem_toList.mp last)

theorem PaysFirst.spendable (pays : PaysFirst miner repl first more) :
    first.txOut.spendable = true :=
  decide_eq_true (addressToScript_head pays.script)

theorem replSingle_paysFirst
    (resolved : replSingle reward miner operatorAddress feeBps = .ok repl) :
    ∃ first more, PaysFirst miner repl first more := by
  rw [replSingle] at resolved
  obtain ⟨operator, fee, resolved⟩ := bind_ok resolved
  obtain ⟨spk, script, resolved⟩ := bind_ok resolved
  obtain rfl := Except.ok.inj resolved
  exact ⟨_, _, paysFirst_of_address script fee _⟩

/-- Commitments before the miner's output do not hide it. -/
theorem PaysFirst.find (pays : PaysFirst miner repl first more)
    (hidden : ∀ out ∈ front, TxOut.spendable out = false) (back : List TxOut) :
    (front ++ repl.map ReplOut.txOut ++ back).find? TxOut.spendable = some first.txOut := by
  have passed : front.find? TxOut.spendable = none := by
    rw [List.find?_eq_none]
    intro out member
    simp [hidden out member]
  rw [pays.split, List.append_assoc, List.find?_append, passed, Option.none_or, List.map_cons,
    List.cons_append, List.find?_cons_of_pos pays.spendable]

theorem encode_mod (width value : Nat) :
    encode width (value % 256 ^ width) = encode width value := by
  have same := encode_decode (encode width value)
  rwa [length_encode, decode_encode] at same

theorem pushU32Le_write (value : Nat) : pushU32Le value = encode 4 (UInt32.ofNat value).toNat := by
  have low : (UInt32.ofNat value).toNat = value % 256 ^ 4 := by simp
  rw [pushU32Le_eq, low, encode_mod]

theorem pushOutput_write (value : Nat) (spk : Bytes) :
    pushOutput value spk = TxOut.write ⟨UInt64.ofNat value, spk⟩ := by
  have low : (UInt64.ofNat value).toNat = value % 256 ^ 8 := by simp
  rw [← pushOutput_eq, low, pushOutput, pushOutput, pushU64Le_eq, pushU64Le_eq, encode_mod]

theorem halves_read (version sequence lockTime : Nat) (prevout : Prevout)
    {script extranonce1 extranonce2 : Bytes}
    {outputs : List TxOut} (length : ssLen = (script ++ extranonce1 ++ extranonce2).length)
    (small : ssLen < 2 ^ 64)
    (count : outputs.length < 2 ^ 64) (scripts : ∀ out ∈ outputs, out.script.length < 2 ^ 64) :
    Tx.read (pushU32Le version ++ pushVarint 1 ++ prevout.bytes ++ pushVarint ssLen ++ script ++
      extranonce1 ++ extranonce2 ++
        (pushU32Le sequence ++ pushVarint outputs.length ++ outputs.flatMap TxOut.write ++
        pushU32Le lockTime)) =
      some ⟨UInt32.ofNat version, prevout, script ++ extranonce1 ++ extranonce2,
        UInt32.ofNat sequence, outputs, none,
        UInt32.ofNat lockTime⟩ := by
  rw [← Tx.read_write _ ⟨length ▸ small, count, scripts, by simp⟩]
  congr 1
  simp only [Tx.write, counted, pushU32Le_write, pushVarint_eq, writeWitness, Option.isSome_none,
    Bool.false_eq_true, if_false, List.nil_append, List.append_assoc, length]

theorem cbTagPush_length (coinbaseTag : Option Bytes) (jobSalt : UInt32) :
    (cbTagPush coinbaseTag jobSalt).length ≤ 81 := by
  have salt : (saltPush jobSalt).length ≤ 5 := by
    rw [saltPush]
    split <;> simp
  have tag : (tagPush coinbaseTag).length ≤ 76 := by
    rw [tagPush]
    split
    next => simp
    next =>
      rw [List.length_cons, List.length_take]
      omega
  rw [cbTagPush, List.length_append]
  omega

theorem scriptNumBytes_length (fuel v : Nat) : (scriptNumBytes fuel v).length ≤ fuel := by
  induction fuel generalizing v with
  | zero => simp [scriptNumBytes]
  | succ fuel ih =>
    cases v with
    | zero => simp [scriptNumBytes]
    | succ v =>
      rw [scriptNumBytes, List.length_cons]
      exact Nat.succ_le_succ (ih _)
      simp

theorem bip34HeightPush_length (height : UInt32) : (bip34HeightPush height).length ≤ 6 := by
  have digits := scriptNumBytes_length 4 height.toNat
  simp only [bip34HeightPush]
  split_ifs
  · simp
  · simp
  · simp only [List.length_cons, List.length_append, List.length_nil]
    omega
  · simp only [List.length_cons]
    omega

theorem decodeCommitment_length (decoded : decodeCommitment hex = .ok commitment) :
    ∀ bytes ∈ commitment, bytes.length ≤ 256 := by
  intro bytes same
  obtain rfl := Option.mem_def.mp same
  rw [decodeCommitment] at decoded
  split at decoded
  next => cases decoded
  next hex _ =>
    obtain ⟨out, read, decoded⟩ := bind_ok decoded
    obtain rfl := Option.some.inj (Except.ok.inj decoded)
    have pairs := need_ok read
    rw [hexDecode] at pairs
    split_ifs at pairs with even cap
    rw [hexPairs_length pairs]
    omega

/-- The outputs of a coinbase from scratch. -/
def splitOutputs (repl : List ReplOut) (commitment : Option Bytes) : List TxOut :=
  repl.map ReplOut.txOut ++ commitment.toList.map fun script => ⟨0, script⟩

theorem splitOutputs_write (repl : List ReplOut) (commitment : Option Bytes) :
    repl.map pushReplOut ++ commitment.toList.map (pushOutput 0) =
      (splitOutputs repl commitment).map TxOut.write := by
  have commitments : pushOutput 0 = fun script => TxOut.write ⟨0, script⟩ :=
    funext (pushOutput_write 0)
  rw [pushReplOut_eq, commitments, splitOutputs, List.map_append, List.map_map, List.map_map]
  rfl

theorem PaysFirst.splitOutputs_fits (pays : PaysFirst miner repl first more)
    (decoded : decodeCommitment hex = .ok commitment) : (splitOutputs repl commitment).length ≤ 3 ∧
      ∀ out ∈ splitOutputs repl commitment, out.script.length ≤ 256 := by
  have count := pays.count
  have one : commitment.toList.length ≤ 1 := by cases commitment <;> simp
  constructor
  · rw [splitOutputs, List.length_append, List.length_map, List.length_map, pays.split,
      List.length_cons]
    omega
  · intro out member
    rcases List.mem_append.mp member with paid | committed
    · obtain ⟨r, inside, rfl⟩ := List.mem_map.mp paid
      exact (pays.fits r inside).trans (by decide)
    · obtain ⟨script, inside, rfl⟩ := List.mem_map.mp committed
      exact decodeCommitment_length decoded script (Option.mem_toList.mp inside)

/-- A coinbase from scratch pays its miner. -/
theorem buildSplit_pays (built : buildSplit height valueSats miner operatorAddress feeBps
      commitmentHex coinbaseTag jobSalt
      extranonce1.length extranonce2.length = .ok result) (small1 : extranonce1.length < 2 ^ 62)
    (small2 : extranonce2.length < 2 ^ 62) :
    Pays (result.parts.cb1 ++ extranonce1 ++ extranonce2 ++ result.parts.cb2) miner := by
  rw [buildSplit] at built
  obtain ⟨spk, script, afterScript⟩ := bind_ok built
  obtain ⟨operator, fee, afterFee⟩ := bind_ok afterScript
  obtain ⟨commitment, decoded, afterCommitment⟩ := bind_ok afterFee
  obtain ⟨_, _, done⟩ := bind_ok afterCommitment
  obtain rfl := Except.ok.inj done
  have pays := paysFirst_of_address script fee (valueSats - feeOf operator)
  obtain ⟨count, scripts⟩ := pays.splitOutputs_fits decoded
  have height6 := bip34HeightPush_length height
  have push81 := cbTagPush_length coinbaseTag jobSalt
  have total : sizeT ((bip34HeightPush height).length + (cbTagPush coinbaseTag jobSalt).length +
      sizeT (extranonce1.length + extranonce2.length)) =
      (bip34HeightPush height ++ cbTagPush coinbaseTag jobSalt ++ extranonce1 ++
        extranonce2).length := by
    simp only [sizeT, List.length_append]
    rw [Nat.mod_eq_of_lt (a := extranonce1.length + extranonce2.length) (by omega),
      Nat.mod_eq_of_lt (by omega)]
    omega
  have reads := halves_read 1 0xffffffff 0 coinbasePrevout total (Nat.mod_lt _ (by decide))
    (lt_of_le_of_lt count (by decide)) fun out member =>
      lt_of_le_of_lt (scripts out member) (by decide)
  refine ⟨_, _, Eq.trans (congrArg Tx.read ?_) reads, pays.find (List.forall_mem_nil _) _, script⟩
  have listed :=
    splitOutputs_write (⟨spk, valueSats - feeOf operator⟩ :: operator.toList) commitment
  rw [List.map_cons] at listed
  simp only [assembleParts, listed, List.length_map, coinbasePrevout, List.append_assoc,
    List.flatMap_def]
  rfl

/-- The flag the parser sets is the one the copied script calls for. -/
theorem startsWithReturn_slice (read : startsWithReturn buf off len = .ok opReturn)
    (cut : slice buf off len = some script) (value : UInt64) :
    opReturn = !(TxOut.mk value script).spendable := by
  rw [slice] at cut
  split at cut
  next inside =>
    have here : At buf off (script ++ (buf.drop off).drop len) := by
      refine ⟨by omega, ?_⟩
      rw [← Option.some.inj cut, List.take_append_drop]
    have size : len = script.length := by
      rw [← Option.some.inj cut, List.length_take, List.length_drop]
      omega
    exact startsWithReturn_at here (size ▸ read)
  next => contradiction

/-- What the output loop has established about the outputs it scanned. -/
structure Scan.Sound (buf : Bytes) (scan : Scan) : Prop where
  marked : ∀ c ∈ scan.outs, startsWithReturn buf c.spkOff c.spkLen = .ok c.opReturn
  count : scan.rewardCount = scan.outs.countP fun c => !c.opReturn
  found : ∀ i, scan.rewardIdx = some i → ∃ before c after, scan.outs = before ++ c :: after ∧
  before.length = i ∧
    c.opReturn = false

theorem Scan.Sound.add (sound : Scan.Sound buf scan)
    (marked : startsWithReturn buf c.spkOff c.spkLen = .ok c.opReturn)
    (added : scan.add c next = .ok scan') :
    Scan.Sound buf scan' ∧ scan'.outs.length = scan.outs.length + 1 := by
  have each : ∀ d ∈ scan.outs ++ [c], startsWithReturn buf d.spkOff d.spkLen = .ok d.opReturn := by
    intro d member
    rcases List.mem_append.mp member with old | new
    · exact sound.marked d old
    · obtain rfl := List.mem_singleton.mp new
      exact marked
  rw [Scan.add] at added
  split at added
  next returns =>
    obtain rfl := Except.ok.inj added
    refine ⟨⟨each, by simp [sound.count, returns], fun i found => ?_⟩, by simp⟩
    obtain ⟨before, reward, after, split, length, kept⟩ := sound.found i found
    exact ⟨before, reward, after ++ [c], by simp [split], length, kept⟩
  next returns =>
    have kept : c.opReturn = false := by simpa using returns
    split at added
    next => cases added
    next =>
      obtain rfl := Except.ok.inj added
      refine ⟨⟨each, by simp [sound.count, kept], fun i found => ?_⟩, by simp⟩
      obtain rfl := Option.some.inj found
      exact ⟨scan.outs, c, [], rfl, rfl, kept⟩

theorem readOutputs_sound (sound : Scan.Sound buf scan)
    (read : readOutputs buf n scan = .ok scan') :
    Scan.Sound buf scan' ∧ scan'.outs.length = scan.outs.length + n := by
  induction n generalizing scan with
  | zero =>
    obtain rfl := Except.ok.inj read
    exact ⟨sound, rfl⟩
  | succ n ih =>
    rw [readOutputs] at read
    obtain ⟨⟨c, off⟩, readOut, afterOut⟩ := bind_ok read
    obtain ⟨next, added, readMore⟩ := bind_ok afterOut
    rw [readOutput] at readOut
    obtain ⟨⟨value, off₁⟩, _, afterValue⟩ := bind_ok readOut
    obtain ⟨⟨spkLen, off₂⟩, _, afterLen⟩ := bind_ok afterValue
    obtain ⟨_, _, afterSkip⟩ := bind_ok afterLen
    obtain ⟨opReturn, marked, done⟩ := bind_ok afterSkip
    obtain ⟨rfl, _⟩ := Prod.mk.inj (Except.ok.inj done)
    obtain ⟨soundNext, one⟩ := sound.add marked added
    obtain ⟨soundAll, length⟩ := ih soundNext readMore
    exact ⟨soundAll, by omega⟩

theorem parseTemplate_sound (parsed : parseTemplate buf = .ok t) : Scan.Sound buf t.scan ∧
    t.scan.outs.length < 2 ^ 59 ∧ t.scan.rewardCount = 1 := by
  rw [parseTemplate] at parsed
  obtain ⟨⟨version, _⟩, _, afterVersion⟩ := bind_ok parsed
  obtain ⟨⟨vin, _⟩, _, afterVin⟩ := bind_ok afterVersion
  obtain ⟨_, _, afterOne⟩ := bind_ok afterVin
  obtain ⟨_, _, afterInput⟩ := bind_ok afterOne
  obtain ⟨⟨ssLen, _⟩, _, afterSsLen⟩ := bind_ok afterInput
  obtain ⟨_, _, afterSs⟩ := bind_ok afterSsLen
  obtain ⟨⟨sequence, _⟩, _, afterSequence⟩ := bind_ok afterSs
  obtain ⟨⟨vout, _⟩, _, afterVout⟩ := bind_ok afterSequence
  obtain ⟨_, _, afterSome⟩ := bind_ok afterVout
  obtain ⟨_, room, afterRoom⟩ := bind_ok afterSome
  obtain ⟨scan, scanned, afterScan⟩ := bind_ok afterRoom
  obtain ⟨_, _, afterWitness⟩ := bind_ok afterScan
  obtain ⟨⟨lockTime, _⟩, _, afterLockTime⟩ := bind_ok afterWitness
  obtain ⟨_, _, afterEnd⟩ := bind_ok afterLockTime
  obtain ⟨_, single, done⟩ := bind_ok afterEnd
  obtain rfl := Except.ok.inj done
  obtain ⟨sound, length⟩ := readOutputs_sound ⟨by simp, rfl, by simp⟩ scanned
  have few := ensure_ok room
  rw [List.length_nil] at length
  refine ⟨sound, ?_, ensure_ok single⟩
  dsimp only
  omega

/-- Outputs that are copied are commitments, written as they were read. -/
structure Copied (buf : Bytes) (outs : List CbOut) (copies : List TxOut) : Prop where
  length : copies.length = outs.length
  hidden : ∀ out ∈ copies, out.spendable = false
  fits : ∀ out ∈ copies, out.script.length ≤ buf.length

theorem copyOutput_copied (marked : startsWithReturn buf c.spkOff c.spkLen = .ok c.opReturn)
    (returns : c.opReturn = true) (copied : copyOutput buf c = .ok bytes) :
    ∃ out : TxOut, bytes = out.write ∧ out.spendable = false ∧ out.script.length ≤ buf.length := by
  rw [copyOutput] at copied
  obtain ⟨script, cut, done⟩ := bind_ok copied
  obtain rfl := Except.ok.inj done
  have sliced := orUndefined_ok cut
  have flag := startsWithReturn_slice marked sliced (UInt64.ofNat c.value)
  refine ⟨⟨UInt64.ofNat c.value, script⟩, pushOutput_write .., ?_, ?_⟩
  · rw [returns] at flag
    simpa using flag.symm
  · rw [slice] at sliced
    split at sliced
    next =>
      rw [← Option.some.inj sliced, List.length_take, List.length_drop]
      omega
    next => contradiction

theorem Copied.cons (copied : Copied buf outs copies) (hidden : out.spendable = false)
    (fits : out.script.length ≤ buf.length) : Copied buf (c :: outs) (out :: copies) where
  length := by rw [List.length_cons, List.length_cons, copied.length]
  hidden := by
    intro other member
    rcases List.mem_cons.mp member with rfl | later
    · exact hidden
    · exact copied.hidden other later
  fits := by
    intro other member
    rcases List.mem_cons.mp member with rfl | later
    · exact fits
    · exact copied.fits other later

theorem emitOutputs_after {outs : List CbOut}
    (marked : ∀ c ∈ outs, startsWithReturn buf c.spkOff c.spkLen = .ok c.opReturn)
    (returns : ∀ c ∈ outs, c.opReturn = true) (away : rewardIdx < i)
    (emitted : emitOutputs buf rewardIdx repl outs i = .ok bytes) :
    ∃ copies, Copied buf outs copies ∧ bytes = copies.flatMap TxOut.write := by
  induction outs generalizing i bytes with
  | nil =>
    obtain rfl := Except.ok.inj emitted
    exact ⟨[], ⟨rfl, by simp, by simp⟩, rfl⟩
  | cons c outs ih =>
    rw [emitOutputs, decide_eq_false (by omega)] at emitted
    obtain ⟨first, copied, afterFirst⟩ := bind_ok emitted
    obtain ⟨more, later, done⟩ := bind_ok afterFirst
    obtain rfl := Except.ok.inj done
    obtain ⟨out, rfl, hidden, fits⟩ :=
      copyOutput_copied (marked c (by simp)) (returns c (by simp)) copied
    obtain ⟨copies, rest, rfl⟩ := ih (fun d member => marked d (by simp [member]))
      (fun d member => returns d (by simp [member])) (by omega) later
    exact ⟨out :: copies, rest.cons hidden fits, rfl⟩

theorem emitOutputs_around {before after : List CbOut}
    (marked : ∀ c ∈ before ++ after, startsWithReturn buf c.spkOff c.spkLen = .ok c.opReturn)
    (returns : ∀ c ∈ before ++ after, c.opReturn = true) (here : rewardIdx = i + before.length)
    (emitted : emitOutputs buf rewardIdx repl (before ++ reward :: after) i = .ok bytes) :
    ∃ front back, Copied buf before front ∧ Copied buf after back ∧
      bytes = (front ++ repl.map ReplOut.txOut ++ back).flatMap TxOut.write := by
  induction before generalizing i bytes with
  | nil =>
    rw [List.nil_append, emitOutputs, decide_eq_true (by simpa using here.symm)] at emitted
    obtain ⟨first, replaced, afterFirst⟩ := bind_ok emitted
    obtain ⟨more, later, done⟩ := bind_ok afterFirst
    obtain rfl := Except.ok.inj done
    obtain rfl := Except.ok.inj replaced
    obtain ⟨back, copied, rfl⟩ := emitOutputs_after marked returns (by simp [here]) later
    refine ⟨[], back, ⟨rfl, by simp, by simp⟩, copied, ?_⟩
    simp only [pushReplOut_eq, List.nil_append, List.flatMap_append, List.flatMap_map]
  | cons c before ih =>
    rw [List.length_cons] at here
    rw [List.cons_append, emitOutputs, decide_eq_false (by omega)] at emitted
    obtain ⟨first, copied, afterFirst⟩ := bind_ok emitted
    obtain ⟨more, later, done⟩ := bind_ok afterFirst
    obtain rfl := Except.ok.inj done
    obtain ⟨out, rfl, hidden, fits⟩ :=
      copyOutput_copied (marked c (by simp)) (returns c (by simp)) copied
    obtain ⟨front, back, copiedFront, copiedBack, rfl⟩ :=
      ih (fun d member => marked d (by simp [member]))
      (fun d member => returns d (by simp [member])) (by omega) later
    exact ⟨out :: front, back, copiedFront.cons hidden fits, copiedBack, rfl⟩

/-- The one output that the scan counted is the reward; all others are commitments. -/
theorem Scan.Sound.reward (sound : Scan.Sound buf scan) (single : scan.rewardCount = 1)
    (found : scan.rewardIdx = some i) :
    ∃ before c after, scan.outs = before ++ c :: after ∧ before.length = i ∧ ∀ d ∈ before ++ after,
      d.opReturn = true := by
  obtain ⟨before, c, after, split, length, kept⟩ := sound.found i found
  have count := sound.count
  rw [single, split, List.countP_append, List.countP_cons, kept, Bool.not_false,
    if_pos rfl] at count
  refine ⟨before, c, after, split, length, ?_⟩
  intro d member
  have none : (before ++ after).countP (fun c => !c.opReturn) = 0 := by
    rw [List.countP_append]
    omega
  simpa using List.countP_eq_zero.mp none d member

/-- A coinbase rewritten from the server's pays its miner. The hex text is an object in
memory. -/
theorem buildFromTemplate_pays
    (built : buildFromTemplate scale (.single miner operatorAddress feeBps) hex coinbaseTag jobSalt
      extranonce1.length
      extranonce2.length = .ok (parts, hasWitness)) (hexFits : hex.length < 2 ^ 63)
    (small1 : extranonce1.length < 2 ^ 61) (small2 : extranonce2.length < 2 ^ 61) :
    Pays (parts.cb1 ++ extranonce1 ++ extranonce2 ++ parts.cb2) miner := by
  obtain ⟨buf, t, i, c, repl, scriptSig, prevout, outputs, pairs, parse, found, _, _, resolved, _,
    _,
    prevoutSlice, scriptSigSlice, emitted, cb1, cb2⟩ := buildFromTemplate_spec built
  obtain ⟨sound, few, single⟩ := parseTemplate_sound parse
  obtain ⟨before, reward, after, split, rfl, returns⟩ := sound.reward single found
  obtain ⟨first, more, pays⟩ := replSingle_paysFirst resolved
  have bufSize := hexPairs_length pairs
  obtain ⟨ssSize, ssInside⟩ := slice_length scriptSigSlice
  obtain ⟨prevoutSize, _⟩ := slice_length prevoutSlice
  have push81 := cbTagPush_length coinbaseTag jobSalt
  have pair : repl.length ≤ 2 := by
    have := pays.count
    rw [pays.split, List.length_cons]
    omega
  have marked : ∀ c ∈ before ++ after, startsWithReturn buf c.spkOff c.spkLen = .ok c.opReturn := by
    intro c member
    apply sound.marked
    rw [split]
    simp only [List.mem_append, List.mem_cons] at member ⊢
    tauto
  rw [split] at emitted few
  obtain ⟨front, back, copiedFront, copiedBack, rfl⟩ :=
    emitOutputs_around marked returns (by simp) emitted
  have frontLength := copiedFront.length
  have backLength := copiedBack.length
  simp only [List.length_append, List.length_cons] at few
  have vout : sizeT (t.scan.outs.length - 1 + repl.length) =
        (front ++ repl.map ReplOut.txOut ++ back).length := by
    simp only [split, sizeT, List.length_append, List.length_cons, List.length_map]
    rw [Nat.mod_eq_of_lt (by omega)]
    omega
  have total : newScriptSigLen t.ssLen (cbTagPush coinbaseTag jobSalt).length extranonce1.length
    extranonce2.length =
      (scriptSig ++ cbTagPush coinbaseTag jobSalt ++ extranonce1 ++ extranonce2).length := by
    simp only [newScriptSigLen, sizeT, List.length_append]
    rw [Nat.mod_eq_of_lt (a := extranonce1.length + extranonce2.length) (by omega),
      Nat.mod_eq_of_lt (by omega)]
    omega
  have scripts : ∀ out ∈ front ++ repl.map ReplOut.txOut ++ back, out.script.length < 2 ^ 64 := by
    intro out member
    simp only [List.mem_append, List.mem_map] at member
    rcases member with (copied | ⟨r, inside, rfl⟩) | copied
    · have := copiedFront.fits out copied
      omega
    · exact lt_of_le_of_lt (pays.fits r inside) (by decide)
    · have := copiedBack.fits out copied
      omega
  have reads := halves_read t.version t.sequence t.locktime
    ⟨prevout, prevoutSize⟩ total (Nat.mod_lt _ (by decide))
    (by simp only [List.length_append, List.length_map]; omega) scripts
  refine ⟨_, _, Eq.trans (congrArg Tx.read ?_) reads, pays.find copiedFront.hidden back,
    pays.script⟩
  rw [cb1, cb2, vout]
  simp only [List.append_assoc]

end SimplePool.Coinbase
