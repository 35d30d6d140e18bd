import SimplePool.Coinbase.Block
import SimplePool.Coinbase.Budget
import SimplePool.Lib.GrowBuffer
import SimplePool.Stratum.MinerOutput

/-! The block that is handed to the node, against the coinbase that was hashed for it. -/
namespace SimplePool.Stratum
open Wire Coinbase GrowBuffer

def bytesAppend (b : Buffer UInt8) (src : Bytes) : Option (Buffer UInt8) :=
  b.append 64 0 src.length src

/-- What `varint_append` stores at the end of the buffer. -/
def varintBytes (n : Nat) : Bytes :=
  if n < 0xfd then [UInt8.ofNat n]
  else if n ≤ 0xffff then [0xfd, UInt8.ofNat (n &&& 0xff), UInt8.ofNat (n >>> 8 &&& 0xff)]
  else if n ≤ 0xffffffff then
    0xfe :: (List.range 4).map fun i => UInt8.ofNat (n >>> (8 * i) &&& 0xff)
  else 0xff :: (List.range 8).map fun i => UInt8.ofNat (n >>> (8 * i) &&& 0xff)

/-- Room for the longest form is made first. -/
def varintAppend (b : Buffer UInt8) (n : Nat) : Option (Buffer UInt8) :=
  b.append 64 0 9 (varintBytes n)

def appendTxs (b : Buffer UInt8) : List Bytes → Option (Buffer UInt8)
  | [] => some b
  | hex :: more => do
    let tx ← hexToBytesAlloc (some hex)
    let b ← bytesAppend b tx
    appendTxs b more

/-- The legacy coinbase, or its pieces with the witness between them. -/
def appendCoinbase (job : Job) (b : Buffer UInt8) (coinbase : Bytes) : Option (Buffer UInt8) :=
  if job.coinbaseHasWitness && 8 ≤ coinbase.length then do
    let b ← bytesAppend b (coinbase.take 4)
    let b ← bytesAppend b [0x00, 0x01]
    let b ← bytesAppend b ((coinbase.drop 4).take (coinbase.length - 8))
    let b ← bytesAppend b ([0x01, 0x20] ++ List.replicate 32 0)
    bytesAppend b (coinbase.drop (coinbase.length - 4))
  else bytesAppend b coinbase

def assembleBlockBuffer (job : Job) (coinbase header : Bytes) : Option Bytes := do
  let b ← bytesAppend ⟨[], 0⟩ header
  let b ← varintAppend b (job.txHexList.length + 1)
  let b ← appendCoinbase job b coinbase
  let b ← appendTxs b job.txHexList
  some (hexEncode (b.mem.take b.len))

theorem bytesAppend_spec (holds : b.Holds bytes) (src : Bytes) :
    ∃ b', bytesAppend b src = some b' ∧ b'.Holds (bytes ++ src) :=
  holds.append 64 0 (Nat.le_refl src.length)

/-- A mask before the conversion to a byte changes nothing. -/
theorem ofNat_masked (n : Nat) : UInt8.ofNat (n &&& 0xff) = UInt8.ofNat n := by
  apply UInt8.toNat_inj.mp
  simp only [UInt8.toNat_ofNat', Nat.and_two_pow_sub_one_eq_mod n 8, Nat.mod_mod]

theorem varintBytes_eq (n : Nat) : varintBytes n = pushVarint n := by
  simp only [varintBytes, ofNat_masked, pushVarint, pushU32Le, pushU64Le]
  rfl

theorem varintAppend_spec (holds : b.Holds bytes) (n : Nat) :
    ∃ b', varintAppend b n = some b' ∧ b'.Holds (bytes ++ pushVarint n) := by
  have size : (varintBytes n).length ≤ 9 := by
    rw [varintBytes]
    split_ifs <;> simp
  rw [← varintBytes_eq]
  exact holds.append 64 0 size

theorem appendCoinbase_spec (job : Job) (holds : b.Holds bytes) (coinbase : Bytes) :
    ∃ b', appendCoinbase job b coinbase = some b' ∧ b'.Holds (bytes ++
      if job.coinbaseHasWitness && 8 ≤ coinbase.length then
        segwitCoinbase coinbase
      else coinbase) := by
  rw [appendCoinbase]
  split_ifs
  · obtain ⟨b₁, version, holds₁⟩ := bytesAppend_spec holds (coinbase.take 4)
    obtain ⟨b₂, marker, holds₂⟩ := bytesAppend_spec holds₁ [0x00, 0x01]
    obtain ⟨b₃, body, holds₃⟩ :=
      bytesAppend_spec holds₂ ((coinbase.drop 4).take (coinbase.length - 8))
    obtain ⟨b₄, witness, holds₄⟩ := bytesAppend_spec holds₃ ([0x01, 0x20] ++ List.replicate 32 0)
    obtain ⟨b₅, lockTime, holds₅⟩ := bytesAppend_spec holds₄ (coinbase.drop (coinbase.length - 4))
    refine ⟨b₅, ?_, ?_⟩
    · simp only [version, marker, body, witness, lockTime, Option.bind_eq_bind, Option.bind_some]
    · simpa only [segwitCoinbase, List.append_assoc] using holds₅
  · exact bytesAppend_spec holds coinbase

theorem appendTxs_spec (holds : b.Holds bytes) (hexes : List Bytes) :
    (appendTxs b hexes).map (fun b => b.mem.take b.len) = (hexes.mapM hexPairs).map fun txs =>
      bytes ++ txs.flatten := by
  induction hexes generalizing b bytes with
  | nil =>
    rw [appendTxs, Option.map_some, holds.used]
    exact congrArg some (List.append_nil bytes).symm
  | cons hex hexes ih =>
    rw [appendTxs, List.mapM_cons, hexToBytesAlloc, Option.bind_some]
    cases hexPairs hex with
    | none => rfl
    | some tx =>
      obtain ⟨b', appended, holds'⟩ := bytesAppend_spec holds tx
      simp only [appended, Option.bind_eq_bind, Option.bind_some, ih holds']
      cases hexes.mapM hexPairs with
      | none => rfl
      | some txs => exact congrArg some (List.append_assoc bytes tx txs.flatten)

/-- However often the buffer is moved, it ends up holding the pieces one after the other. -/
theorem assembleBlockBuffer_eq (job : Job) (coinbase header : Bytes) :
    assembleBlockBuffer job coinbase header = assembleBlockHex job coinbase header := by
  obtain ⟨b₁, first, holds₁⟩ := bytesAppend_spec (Buffer.holds_nil []) header
  obtain ⟨b₂, count, holds₂⟩ := varintAppend_spec holds₁ (job.txHexList.length + 1)
  obtain ⟨b₃, second, holds₃⟩ := appendCoinbase_spec job holds₂ coinbase
  have others := appendTxs_spec holds₃ job.txHexList
  simp only [assembleBlockBuffer, first, count, second, Option.bind_eq_bind, Option.bind_some,
    assembleBlockHex]
  cases decoded : job.txHexList.mapM hexPairs with
  | none =>
    rw [decoded, Option.map_none, Option.map_eq_none_iff] at others
    rw [others]
    rfl
  | some txs =>
    rw [decoded] at others
    obtain ⟨b₄, appended, used⟩ := Option.map_eq_some_iff.mp others
    rw [appended, Option.bind_some, Option.map_some, used, List.nil_append]

/-- What a builder has made for extranonces of these sizes. -/
inductive Built (scale : Scale) (size1 size2 : Nat) : Parts → Prop
  | split (built : buildSplit height valueSats miner operatorAddress feeBps witnessCommitment
    coinbaseTag jobSalt size1 size2 = .ok result) : Built scale size1 size2 result.parts
  | window (built : buildWindow scale height valueSats payees operatorAddress feeBps
    witnessCommitment coinbaseTag jobSalt
      size1 size2 maxBytes floor = .ok (parts, result)) : Built scale size1 size2 parts
  | template (built : buildFromTemplate scale resolver hex coinbaseTag jobSalt size1 size2 =
    .ok (parts, hasWitness)) :
      Built scale size1 size2 parts

/-- Whatever a connection renders for a job, a builder has made. -/
theorem renderFresh_built {c : Conn} (rendered : renderFresh fp cfg c job = .ok parts) :
    Built fp.scale job.en1Size job.en2Size parts := by
  have single : ∀ address, renderSingle fp cfg job address = .ok parts →
      Built fp.scale job.en1Size job.en2Size parts := by
    intro address rendered
    rw [renderSingle] at rendered
    split at rendered
    next =>
      obtain ⟨⟨parts, hasWitness⟩, built, rfl⟩ := map_ok rendered
      exact .template built
    next =>
      obtain ⟨result, built, rfl⟩ := map_ok rendered
      exact .split built
  rw [renderFresh] at rendered
  split_ifs at rendered
  · rw [renderWindowCoinbase] at rendered
    split at rendered
    next =>
      obtain ⟨⟨parts, hasWitness⟩, built, rfl⟩ := map_ok rendered
      exact .template built
    next =>
      obtain ⟨⟨parts, result⟩, built, rfl⟩ := map_ok rendered
      exact .window built
  · exact single cfg.poolBtcAddress rendered
  · exact single c.payoutAddress rendered

/-- Where the fields of the transaction stand in the halves. -/
structure Halves (parts : Parts) (size1 size2 version sequence lockTime : Nat) (prevout : Prevout)
    (script : Bytes) (outputs : List TxOut) : Prop where
  front : parts.cb1 = pushU32Le version ++ pushVarint 1 ++ prevout.bytes ++
    pushVarint (sizeT (script.length + sizeT (size1 + size2))) ++ script
  back : ∃ count, (outputs.length < 2 ^ 64 → count = outputs.length) ∧
  parts.cb2 = pushU32Le sequence ++
    pushVarint count ++ outputs.flatMap TxOut.write ++ pushU32Le lockTime

theorem assembleParts_halves (version : Nat) (heightPush push : Bytes) (outputs : List TxOut)
    (size1 size2 : Nat) :
    Halves (assembleParts version heightPush push
      (sizeT (heightPush.length + push.length + sizeT (size1 + size2)))
      (outputs.map TxOut.write)) size1 size2 version 0xffffffff 0 coinbasePrevout
        (heightPush ++ push) outputs where
  front := by
    simp only [assembleParts, coinbasePrevout, List.append_assoc, List.length_append]
    rfl
  back :=
    ⟨outputs.length, fun _ => rfl, by simp only [assembleParts, List.length_map, List.flatMap_def]⟩

/-- Outputs are written one after the other, whatever the replacement and the index. -/
theorem emitOutputs_written (emitted : emitOutputs buf rewardIdx repl outs i = .ok bytes) :
    ∃ outputs : List TxOut, bytes = outputs.flatMap TxOut.write ∧
      outputs.length = if i ≤ rewardIdx ∧
      rewardIdx < i + outs.length then outs.length - 1 + repl.length else outs.length := by
  induction outs generalizing i bytes with
  | nil =>
    obtain rfl := Except.ok.inj emitted
    exact ⟨[], rfl, by simp⟩
  | cons c outs ih =>
    rw [emitOutputs] at emitted
    by_cases reward : i = rewardIdx
    · rw [decide_eq_true reward] at emitted
      obtain ⟨here, written, afterHere⟩ := bind_ok emitted
      obtain ⟨more, later, done⟩ := bind_ok afterHere
      obtain rfl := Except.ok.inj done
      obtain rfl := Except.ok.inj written
      obtain ⟨rest, rfl, count⟩ := ih later
      refine ⟨repl.map ReplOut.txOut ++ rest, ?_, ?_⟩
      · rw [List.flatMap_append, List.flatMap_map, pushReplOut_eq]
      · rw [if_neg (by omega)] at count
        rw [if_pos ⟨reward.le, by rw [List.length_cons]; omega⟩, List.length_append,
          List.length_map, count, List.length_cons]
        omega
    · rw [decide_eq_false reward] at emitted
      obtain ⟨here, written, afterHere⟩ := bind_ok emitted
      obtain ⟨more, later, done⟩ := bind_ok afterHere
      obtain rfl := Except.ok.inj done
      rw [copyOutput] at written
      obtain ⟨script, _, copied⟩ := bind_ok written
      obtain rfl := Except.ok.inj copied
      obtain ⟨rest, rfl, count⟩ := ih later
      refine ⟨⟨UInt64.ofNat c.value, script⟩ :: rest, by rw [pushOutput_write,
          List.flatMap_cons], ?_⟩
      rw [List.length_cons, List.length_cons, count]
      split_ifs <;> omega

/-- Every builder's halves are those of a transaction. -/
theorem Built.halves (built : Built scale size1 size2 parts) :
    ∃ version sequence lockTime prevout script outputs,
    Halves parts size1 size2 version sequence lockTime prevout script outputs := by
  cases built with
  | @split height valueSats _ _ _ _ _ _ _ built =>
    rw [buildSplit] at built
    obtain ⟨spk, script, afterScript⟩ := bind_ok built
    obtain ⟨operator, fee, afterFee⟩ := bind_ok afterScript
    obtain ⟨commitment, decoded, afterCommitment⟩ := bind_ok afterFee
    obtain ⟨_, _, done⟩ := bind_ok afterCommitment
    obtain rfl := Except.ok.inj done
    have listed :=
      splitOutputs_write (⟨spk, valueSats - feeOf operator⟩ :: operator.toList) commitment
    rw [List.map_cons] at listed
    rw [listed]
    exact ⟨_, _, _, _, _, _, assembleParts_halves ..⟩
  | window built =>
    obtain ⟨repl, commitment, ssLen, _, _, _, rfl, _, rfl⟩ := buildWindow_ok built
    rw [splitOutputs_write]
    exact ⟨_, _, _, _, _, _, assembleParts_halves ..⟩
  | @template _ _ coinbaseTag jobSalt _ _ built =>
    obtain ⟨buf, t, i, c, repl, scriptSig, prevout, outputs, _, _, _, scanned, _, _, _, _,
      prevoutSlice, scriptSigSlice,
      emitted, cb1, cb2⟩ := buildFromTemplate_spec built
    obtain ⟨written, rfl, count⟩ := emitOutputs_written emitted
    have inside := (List.getElem?_eq_some_iff.mp scanned).1
    rw [if_pos ⟨Nat.zero_le i, by omega⟩] at count
    refine ⟨t.version, t.sequence, t.locktime, ⟨prevout, (slice_length prevoutSlice).1⟩,
      scriptSig ++ cbTagPush coinbaseTag jobSalt, written, ?_, _, fun few => ?_, cb2⟩
    · rw [cb1, newScriptSigLen, List.length_append, (slice_length scriptSigSlice).1,
        List.append_assoc]
    · rw [count] at few ⊢
      exact sizeT_eq few

theorem txOut_size (out : TxOut) : out.script.length < out.write.length := by
  rw [TxOut.write, counted, List.length_append, List.length_append, length_encode]
  omega

theorem outputs_size (outputs : List TxOut) :
    outputs.length ≤ (outputs.flatMap TxOut.write).length ∧
    ∀ out ∈ outputs, out.script.length < (outputs.flatMap TxOut.write).length := by
  induction outputs with
  | nil => simp
  | cons out outputs ih =>
    have size := txOut_size out
    rw [List.length_cons, List.flatMap_cons, List.length_append]
    refine ⟨by omega, fun other member => ?_⟩
    rcases List.mem_cons.mp member with rfl | later
    · omega
    · have := ih.2 other later
      omega

def legacyCoinbase (version sequence lockTime : Nat) (prevout : Prevout) (script : Bytes)
    (outputs : List TxOut) : BlockTx where
  version := UInt32.ofNat version
  inputs := [⟨prevout, script, UInt32.ofNat sequence, []⟩]
  outputs := outputs
  lockTime := UInt32.ofNat lockTime

/-- The bytes that are hashed are a transaction in the legacy serialization, with any
extranonces. The coinbase is an object in memory. -/
theorem Built.stripped {extranonce1 extranonce2 : Bytes}
    (built : Built scale extranonce1.length extranonce2.length parts)
    (fits : (parts.cb1 ++ extranonce1 ++ extranonce2 ++ parts.cb2).length < 2 ^ 64) :
    ∃ version sequence lockTime prevout script outputs,
      parts.cb1 ++ extranonce1 ++ extranonce2 ++ parts.cb2 =
        (legacyCoinbase version sequence lockTime prevout script outputs).stripped ∧
        script.length < 2 ^ 64 ∧
      outputs.length < 2 ^ 64 ∧ ∀ out ∈ outputs, out.script.length < 2 ^ 64 := by
  obtain ⟨version, sequence, lockTime, prevout, script, outputs, front, count, few, back⟩ :=
    built.halves
  obtain ⟨many, scripts⟩ := outputs_size outputs
  simp only [front, back, List.length_append] at fits
  obtain rfl := few (by omega)
  rw [sizeT_eq (n := extranonce1.length + extranonce2.length) (by omega),
    sizeT_eq (by omega)] at front
  refine ⟨version, sequence, lockTime, prevout, script ++ extranonce1 ++ extranonce2, outputs, ?_,
    ?_, by omega, ?_⟩
  · rw [front, back]
    simp only [legacyCoinbase, BlockTx.stripped, BlockTx.body, TxIn.write, counted, pushU32Le_write,
      pushVarint_eq,
      List.length_append, List.flatMap_singleton, List.length_singleton, List.append_assoc]
  · simp only [List.length_append]
    omega
  · intro out member
    have := scripts out member
    omega

/-- The cut leaves the body whole. -/
theorem segwitCoinbase_stripped (tx : BlockTx) : segwitCoinbase tx.stripped =
    encode 4 tx.version.toNat ++
      ([0x00, 0x01] ++ (tx.body ++ (([0x01, 0x20] ++ List.replicate 32 0) ++
      encode 4 tx.lockTime.toNat))) := by
  have size : tx.stripped.length - 8 = tx.body.length := by
    simp only [BlockTx.stripped, List.length_append, length_encode]
    omega
  have version : (encode 4 tx.version.toNat).length = 4 := length_encode ..
  have last : tx.stripped.drop (tx.stripped.length - 4) = encode 4 tx.lockTime.toNat := by
    have front : tx.stripped.length - 4 = (encode 4 tx.version.toNat ++ tx.body).length := by
      simp only [BlockTx.stripped, List.length_append, length_encode]
      omega
    rw [front, BlockTx.stripped, ← List.append_assoc, List.drop_left]
  rw [segwitCoinbase, last, size, BlockTx.stripped, List.take_left' version,
    List.drop_left' version, List.take_left]
  simp only [List.append_assoc]

/-- The coinbase as the block carries it: with the reserved value for its witness, or none. -/
def withReserved (hasWitness : Bool) (tx : BlockTx) : BlockTx :=
  { tx with
    inputs := tx.inputs.map fun input =>
      input.withStack (if hasWitness then [List.replicate 32 0] else []) }

theorem withReserved_stripped (hasWitness : Bool) (tx : BlockTx) :
    (withReserved hasWitness tx).stripped = tx.stripped := by
  simp only [withReserved, BlockTx.stripped, BlockTx.body, List.length_map, List.flatMap_map]
  rfl

/-- Both serializations the block may carry are those of the transaction that was hashed. -/
theorem withReserved_write (hasWitness : Bool) (single : tx.inputs = [input]) :
    (withReserved hasWitness tx).write =
    if hasWitness && 8 ≤ tx.stripped.length then segwitCoinbase tx.stripped else tx.stripped := by
  have long : 8 ≤ tx.stripped.length := by
    simp only [BlockTx.stripped, List.length_append, length_encode]
    omega
  have same := withReserved_stripped hasWitness tx
  rw [decide_eq_true long, Bool.and_true, BlockTx.write]
  cases hasWitness with
  | false =>
    have bare : (withReserved false tx).segwit = false := by
      simp [withReserved, BlockTx.segwit, single, TxIn.withStack]
    rw [bare, if_neg Bool.false_ne_true, if_neg Bool.false_ne_true, same]
  | true =>
    have announced : (withReserved true tx).segwit = true := by
      simp [withReserved, BlockTx.segwit, single, TxIn.withStack]
    have body : (withReserved true tx).body = tx.body := by
      simp only [withReserved, BlockTx.body, List.length_map, List.flatMap_map]
      rfl
    have witness : (withReserved true tx).inputs.flatMap TxIn.writeStack =
        [0x01, 0x20] ++ List.replicate 32 0 := by
      rw [withReserved, single]
      rfl
    rw [announced, if_pos rfl, if_pos rfl, segwitCoinbase_stripped, body, witness]
    rfl

theorem withReserved_fits (hasWitness : Bool) (version sequence lockTime : Nat) (prevout : Prevout)
    {script : Bytes}
    {outputs : List TxOut} (short : script.length < 2 ^ 64) (count : outputs.length < 2 ^ 64)
    (scripts : ∀ out ∈ outputs, out.script.length < 2 ^ 64) :
    (withReserved hasWitness
      (legacyCoinbase version sequence lockTime prevout script outputs)).Fits where
  some := List.cons_ne_nil _ _
  inputs := by simp [withReserved, legacyCoinbase]
  outputs := count
  scriptSigs := by simpa [withReserved, legacyCoinbase, TxIn.withStack] using short
  scripts := scripts
  witnesses := by cases hasWitness <;> simp [withReserved, legacyCoinbase, TxIn.withStack]

/-- What is submitted for a solved share is the block that was mined. The coinbase and the list
are objects in memory. -/
theorem assembled_block (scale : Scale) (job : Job) (header : Header)
    (extranonce1 extranonce2 : Bytes) (parts : Parts)
    (hex : Bytes) (built : Built scale extranonce1.length extranonce2.length parts)
    (fits : (parts.cb1 ++ extranonce1 ++ extranonce2 ++ parts.cb2).length < 2 ^ 64)
    (few : job.txHexList.length + 1 < 2 ^ 64)
    (assembled : assembleBlockBuffer job (parts.cb1 ++ extranonce1 ++ extranonce2 ++ parts.cb2)
      header.bytes = some hex) :
    ∃ raw coinbase, job.txHexList.mapM hexPairs = some raw ∧
      (hexPairs hex).bind Front.read = some (⟨header, job.txHexList.length + 1, coinbase⟩,
        raw.flatten) ∧
      coinbase.stripped = parts.cb1 ++ extranonce1 ++ extranonce2 ++ parts.cb2 ∧
      coinbase.inputs.map TxIn.witness =
        [if job.coinbaseHasWitness then [List.replicate 32 0] else []] ∧
      ∀ txs : List BlockTx, (∀ tx ∈ txs, tx.Fits) → raw = txs.map BlockTx.write →
        (hexPairs hex).bind Block.read = some ⟨header, coinbase, txs⟩ := by
  obtain ⟨version, sequence, lockTime, prevout, script, outputs, hashed, short, count, scripts⟩ :=
    built.stripped fits
  rw [assembleBlockBuffer_eq] at assembled
  obtain ⟨raw, decoded, text⟩ := Option.map_eq_some_iff.mp assembled
  rw [hashed] at text ⊢
  have fitting :=
    withReserved_fits job.coinbaseHasWitness version sequence lockTime prevout short count scripts
  have single : (legacyCoinbase version sequence lockTime prevout script outputs).inputs =
      [⟨prevout, script, UInt32.ofNat sequence, []⟩] := rfl
  generalize legacyCoinbase version sequence lockTime prevout script outputs =
      tx at text single fitting ⊢
  rw [← withReserved_write _ single, pushVarint_eq, List.append_assoc, List.append_assoc] at text
  have bytes : hexPairs hex = some (header.bytes ++ (compact (job.txHexList.length + 1) ++
      ((withReserved job.coinbaseHasWitness tx).write ++ raw.flatten))) := by
    rw [← text, hexPairs_hexEncode]
  have front := Front.read_write header fitting few raw.flatten
  refine ⟨raw, withReserved job.coinbaseHasWitness tx, decoded, ?_, withReserved_stripped .., ?_,
    ?_⟩
  · rw [bytes, Option.bind_some, front]
  · rw [withReserved, single]
    rfl
  · intro txs each same
    have many : job.txHexList.length = txs.length := by
      rw [← mapM_length decoded, same, List.length_map]
    rw [bytes, Option.bind_some]
    rw [many, same, ← List.flatMap_def] at front ⊢
    exact Block.read_of_front front each

def spendTx : BlockTx where
  version := 2
  inputs := [⟨⟨List.replicate 36 7, rfl⟩, [0x51], 0xffffffff, [[1, 2]]⟩,
    ⟨⟨List.replicate 36 8, rfl⟩, [], 0, []⟩]
  outputs := [⟨5000, [0x51]⟩]
  lockTime := 0

theorem spendTx_fits : spendTx.Fits where
  some := List.cons_ne_nil _ _
  inputs := by decide
  outputs := by decide
  scriptSigs := by decide
  scripts := by decide
  witnesses := by simp [spendTx]

def busyJob : Job :=
  { regtestJob with coinbaseHasWitness := true, txHexList := [hexEncode spendTx.write] }

def zeroHeader : Header := ⟨List.replicate 80 0, rfl⟩

def busySplit : SplitResult :=
  match buildSplit 1 5000000000 firstAddress none .free none none 0 4 8 with
  | .ok result => result
  | .error _ => ⟨⟨[], []⟩, 0, 0⟩

def busyCoinbase : Bytes :=
  busySplit.parts.cb1 ++ [1, 2, 3, 4] ++ List.replicate 8 0 ++ busySplit.parts.cb2

theorem assembled_block_two :
    ∃ hex coinbase, assembleBlockBuffer busyJob busyCoinbase zeroHeader.bytes = some hex ∧
    (hexPairs hex).bind Block.read = some ⟨zeroHeader, coinbase, [spendTx]⟩ ∧
    coinbase.stripped = busyCoinbase ∧
    coinbase.inputs.map TxIn.witness = [[List.replicate 32 0]] := by
  have facts :
    buildSplit 1 5000000000 firstAddress none ⟨0, by decide⟩ none none 0 4 8 = .ok busySplit ∧
      busyCoinbase.length < 2 ^ 64 ∧
      (assembleBlockBuffer busyJob busyCoinbase zeroHeader.bytes).isSome ∧
      busyJob.txHexList.mapM hexPairs = some [spendTx.write] := by decide +kernel
  obtain ⟨built, fits, ends, decoded⟩ := facts
  obtain ⟨hex, assembled⟩ := Option.isSome_iff_exists.mp ends
  obtain ⟨raw, coinbase, each, _, stripped, witness, whole⟩ :=
    assembled_block .exact busyJob zeroHeader [1, 2, 3, 4]
    (List.replicate 8 0) busySplit.parts hex (.split built) fits (by decide) assembled
  obtain rfl := Option.some.inj (decoded.symm.trans each)
  exact ⟨hex, coinbase, assembled, whole [spendTx] (by simpa using spendTx_fits) rfl, stripped,
    witness⟩

end SimplePool.Stratum
