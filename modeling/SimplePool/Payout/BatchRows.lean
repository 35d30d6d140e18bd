import SimplePool.Coinbase.Address
import SimplePool.Payout.PaidTo
import SimplePool.Payout.TransferBatch

/-! What a batch transaction pays. On the Thunder rail the one payment of a transfer that the
node built is split by rows; on the other rail the rows are merged by address. -/
namespace SimplePool.Payout

/-- The sum of the rows with this address. -/
def owedTo (recipients : List Recipient) (address : String) : Int :=
  ((recipients.filter fun r => r.address = address).map Recipient.sats).sum

namespace Thunder

/-- What the outputs with this address carry. -/
def paidAt (outs : List Json) (address : String) : Int :=
  ((outs.filter fun o => Json.isString address (o.field "address")).map fun o =>
    (valueOf o).getD 0).sum

/-- `tx` is the transaction that the node built, with its one payment of the total to the
first recipient split into `parts`. -/
structure SplitOf (recipients : List Recipient) (address : String) (unsigned tx : Json)
    (before : List Json) (payment : Json) (parts after : List Json) : Prop where
  built : unsigned.field "outputs" = some (.array (before ++ payment :: after))
  pays : isPayment address (totalSats recipients) payment = some true
  only : ∀ o ∈ before ++ after, isPayment address (totalSats recipients) o = some false
  outputs : tx.field "outputs" = some (.array (before ++ parts ++ after))
  rest : ∀ name ≠ "outputs", tx.field name = unsigned.field name
  rows : ∀ address, paidAt parts address = owedTo recipients address
  conserved : ∃ total, sumOf (before ++ payment :: after) = some total ∧
  sumOf (before ++ parts ++ after) = some total

/-- The calls of `transferBatchDetailed`: none, the one that builds the transfer, or also those
that sign and submit the answer to it with the payment split. -/
def PaysRows (node : Node) (recipients : List Recipient) (feeSats : Int) (calls : List Call) :
    Prop :=
  calls = [] ∨ ∃ address,
    let create := Call.createTransfer address (totalSats recipients) feeSats
    calls = [create] ∨ ∃ unsigned tx before payment parts after,
      node.createTransfer address (totalSats recipients) feeSats = .ok unsigned ∧
      SplitOf recipients address unsigned tx before payment parts after ∧
      (calls = [create, .signTransaction tx false] ∨
        ∃ signed, node.signTransaction tx = .ok signed ∧
          calls = [create, .signTransaction tx false, .submitTransaction signed])

section

variable {outs : List Json} {recipients : List Recipient}

theorem mapM_map {α β : Type} {f : α → Option β} {xs : List α} {ys : List β}
    (mapped : xs.mapM f = some ys) :
    xs.map f = ys.map some := by
  induction xs generalizing ys with
  | nil =>
    obtain rfl := Option.some.inj mapped
    rfl
  | cons x rest ih =>
    rw [List.mapM_cons] at mapped
    obtain ⟨y, here, mapped⟩ := Option.bind_eq_some_iff.mp mapped
    obtain ⟨later, there, same⟩ := Option.bind_eq_some_iff.mp mapped
    obtain rfl := Option.some.inj same
    rw [List.map_cons, List.map_cons, here, ih there]

/-- The one position that is marked. -/
theorem marked_split (flags : List Bool) (start : Nat)
    (one : ((flags.zipIdx start).filter Prod.fst).map Prod.snd = [hit]) :
    ∃ before after, flags = before ++ true :: after ∧ hit = start + before.length ∧
    ∀ flag ∈ before ++ after, flag = false := by
  induction flags generalizing start with
  | nil => contradiction
  | cons flag rest ih =>
    rw [List.zipIdx_cons] at one
    cases flag with
    | true =>
      rw [List.filter_cons_of_pos rfl, List.map_cons, List.cons.injEq, List.map_eq_nil_iff,
        List.filter_eq_nil_iff] at one
      refine ⟨[], rest, rfl, one.1.symm, fun flag member => ?_⟩
      obtain ⟨i, inside, rfl⟩ := List.mem_iff_getElem.mp member
      have unmarked := one.2 (rest[i], start + 1 + i)
        (List.mk_add_mem_zipIdx_iff_getElem?.mpr (List.getElem?_eq_getElem inside))
      simpa using unmarked
    | false =>
      rw [List.filter_cons_of_neg Bool.false_ne_true] at one
      obtain ⟨before, after, rfl, position, unmarked⟩ := ih (start + 1) one
      refine ⟨false :: before, after, rfl, ?_, ?_⟩
      · rw [List.length_cons]
        omega
      · rintro flag (_ | ⟨_, member⟩)
        · rfl
        · exact unmarked flag member

/-- Exactly one output is the payment, and this is where it stands. -/
theorem hitsOf_split (found : hitsOf address total outs = some [hit]) :
    ∃ before payment after, outs = before ++ payment :: after ∧ before.length = hit ∧
      isPayment address total payment = some true ∧ ∀ o ∈ before ++ after,
      isPayment address total o = some false := by
  obtain ⟨flags, mapped, one⟩ := Option.map_eq_some_iff.mp found
  obtain ⟨marksBefore, marksAfter, rfl, position, unmarked⟩ := marked_split flags 0 one
  have marks := mapM_map mapped
  rw [List.map_append, List.map_cons] at marks
  obtain ⟨before, later, rfl, first, second⟩ := List.map_eq_append_iff.mp marks
  obtain ⟨payment, after, rfl, here, third⟩ := List.map_eq_cons_iff.mp second
  refine ⟨before, payment, after, rfl, ?_, here, ?_⟩
  · have marks : (before.map (isPayment address total)).length = before.length := List.length_map _
    rw [← marks, first, List.length_map, position, zero_add]
  · intro o member
    have mark : isPayment address total o ∈ (marksBefore ++ marksAfter).map some := by
      rw [List.map_append, ← first, ← third, ← List.map_append]
      exact List.mem_map_of_mem member
    obtain ⟨flag, listed, same⟩ := List.mem_map.mp mark
    rw [← same, unmarked flag listed]

/-- The outputs that are put in are the rows. -/
theorem paidAt_outputs (recipients : List Recipient) (address : String) :
    paidAt (recipients.map outputOf) address = owedTo recipients address := by
  induction recipients with
  | nil => rfl
  | cons r rest ih =>
    rw [paidAt, owedTo] at ih ⊢
    rw [List.map_cons, List.filter_cons, List.filter_cons, outputOf_address, Json.isString]
    split_ifs
    · rw [List.map_cons, List.map_cons, List.sum_cons, List.sum_cons, outputOf_value, ih,
        Option.getD_some]
    · exact ih

theorem splitOutputs_ok (split : splitOutputs address recipients unsigned = .ok tx) :
    ∃ before payment after,
      SplitOf recipients address unsigned tx before payment (recipients.map outputOf) after := by
  simp only [splitOutputs] at split
  split at split
  next out outs listed =>
    split at split
    next total hit summed found =>
      obtain ⟨before, payment, after, outputs, rfl, pays, only⟩ := hitsOf_split found
      have front : (before ++ payment :: after).take before.length = before := List.take_left
      have back : (before ++ payment :: after).drop (before.length + 1) = after := by simp
      rw [outputs] at summed listed
      rw [outputs, front, back] at split
      split at split
      next total' summed' =>
        split at split
        next => cases split
        next conserved =>
          cases split
          refine ⟨before, payment, after, listed, pays, only, ?_, ?_, paidAt_outputs recipients,
            total, summed, ?_⟩
          · exact Json.field_setField unsigned _ listed
          · exact fun name other => Json.field_setField_other unsigned _ other
          · rw [summed', not_not.mp conserved]
      next => cases split
    next => cases split
    next => cases split
  next => cases split

theorem transferBatchDetailed_pays (node : Node) (recipients : List Recipient) (feeSats : Int) :
    PaysRows node recipients feeSats (transferBatchDetailed node recipients feeSats).calls := by
  simp only [transferBatchDetailed]
  split
  next => exact .inl rfl
  next first rest =>
    split
    next => exact .inl rfl
    next =>
      split
      next => exact .inl rfl
      next =>
        refine .inr ⟨first.address, ?_⟩
        split
        next => exact .inl rfl
        next unsigned answered =>
          split
          next => exact .inl rfl
          next =>
            split
            next => exact .inl rfl
            next tx split =>
              obtain ⟨before, payment, after, parts⟩ := splitOutputs_ok split
              refine .inr ⟨unsigned, tx, before, payment, _, after, answered, parts, ?_⟩
              split
              next => exact .inl rfl
              next signed signs =>
                refine .inr ⟨signed, signs, ?_⟩
                split
                next => rfl
                next => rfl

end

end Thunder

namespace Enforcer

section

variable {recipients : List Recipient} {start merged destinations : List (String × Int)}

theorem owedTo_absent (absent : address ∉ recipients.map Recipient.address) :
    owedTo recipients address = 0 := by
  have nobody : recipients.filter (fun r => r.address = address) = [] := by
    rw [List.filter_eq_nil_iff]
    exact fun r member same => absent (List.mem_map.mpr ⟨r, member, of_decide_eq_true same⟩)
  rw [owedTo, nobody]
  rfl

/-- The keys of the map are distinct, and it adds the rows of an address to what it had. -/
theorem merges (keyed : (start.map Prod.fst).Nodup)
    (done : recipients.foldlM mergeRecipient start = .ok merged) :
    (merged.map Prod.fst).Nodup ∧ ∀ address, merged.lookup address =
      if address ∈ recipients.map Recipient.address then
        some ((start.lookup address).getD 0 + owedTo recipients address)
      else start.lookup address := by
  induction recipients generalizing start with
  | nil =>
    cases done
    exact ⟨keyed, fun address => (if_neg List.not_mem_nil).symm⟩
  | cons r rest ih =>
    rw [List.foldlM_cons, mergeRecipient] at done
    split_ifs at done with negative missing
    · cases done
    · cases done
    · obtain ⟨distinct, sums⟩ := ih (KeyedTable.upsert_keyed (fun _ => rfl) keyed) done
      refine ⟨distinct, fun address => ?_⟩
      rw [sums, KeyedTable.lookup_eq_find, KeyedTable.find_upsert fun _ => rfl,
        KeyedTable.lookup_eq_find start]
      by_cases mine : address = r.address
      · subst mine
        have here : owedTo (r :: rest) r.address = r.sats + owedTo rest r.address := by
          simp [owedTo]
        have listed : r.address ∈ (r :: rest).map Recipient.address := List.mem_cons_self
        rw [if_pos rfl, if_pos listed, here]
        have held (old : Option (String × Int)) :
            (((old.map fun old => (old.1, old.2 + r.sats)).getD (r.address, r.sats)).2 : Int) =
              (old.map Prod.snd).getD 0 + r.sats := by
          cases old with
          | none => simp
          | some => rfl
        rw [Option.map_some, held, Option.getD_some, ← add_assoc]
        split_ifs with again
        · rfl
        · rw [owedTo_absent again, add_zero]
      · have same : owedTo (r :: rest) address = owedTo rest address := by
          simp [owedTo, Ne.symm mine]
        rw [if_neg mine, same]
        simp only [List.map_cons, List.mem_cons, mine, false_or]

theorem lookup_absent (absent : address ∉ merged.map Prod.fst) : merged.lookup address = none := by
  refine List.lookup_eq_none_iff.mpr fun entry member => bne_iff_ne.mpr ?_
  rintro rfl
  exact absent (List.mem_map_of_mem member)

/-- The object holds what the map holds. -/
theorem assigns (keyed : (merged.map Prod.fst).Nodup) (plain : "__proto__" ∉ merged.map Prod.fst)
    (done : merged.foldlM setDestination start = .ok destinations) (address : String) :
    destinations.lookup address = (merged.lookup address).or (start.lookup address) := by
  induction merged generalizing start with
  | nil =>
    cases done
    rfl
  | cons entry rest ih =>
    rw [List.map_cons, List.nodup_cons] at keyed
    rw [List.map_cons, List.mem_cons, not_or] at plain
    rw [List.foldlM_cons, setDestination, if_neg (Ne.symm plain.1)] at done
    split_ifs at done with unsafe'
    · cases done
    · rw [ih keyed.2 plain.2 done, KeyedTable.lookup_eq_find (KeyedTable.upsert ..),
        KeyedTable.find_upsert fun _ => rfl, List.lookup_cons]
      by_cases mine : address = entry.1
      · subst mine
        have value (old : Option (String × Int)) :
            ((old.map fun old => (old.1, entry.2)).getD entry).2 = entry.2 := by
          cases old with
          | none => rfl
          | some => rfl
        rw [if_pos rfl, Option.map_some, value, lookup_absent keyed.1, beq_self_eq_true]
        rfl
      · rw [if_neg mine, ← KeyedTable.lookup_eq_find, beq_eq_false_iff_ne.mpr mine]

/-- The destinations that are sent hold the sum of its rows for each address, and nothing
else. -/
theorem mergedDestinations_sums (plain : ∀ r ∈ recipients, r.address ≠ "__proto__")
    (done : mergedDestinations recipients = .ok (merged, destinations)) (address : String) :
    destinations.lookup address =
      if address ∈ recipients.map Recipient.address then
        some (owedTo recipients address)
      else none := by
  rw [mergedDestinations] at done
  split at done
  next => cases done
  next sums summed =>
    have keyed : (([] : List (String × Int)).map Prod.fst).Nodup := List.nodup_nil
    obtain ⟨distinct, held⟩ := merges keyed summed
    cases assigned : sums.foldlM setDestination [] with
    | error => rw [assigned] at done; cases done
    | ok entries =>
      rw [assigned] at done
      cases done
      have absent : "__proto__" ∉ merged.map Prod.fst := by
        intro member
        obtain ⟨entry, inside, key⟩ := List.mem_map.mp member
        have present : (merged.lookup "__proto__").isSome :=
          List.lookup_isSome_iff.mpr ⟨entry, inside, by rw [key]; rfl⟩
        rw [held, if_neg] at present
        · contradiction
        · intro listed
          obtain ⟨r, named, same⟩ := List.mem_map.mp listed
          exact plain r named same
      rw [assigns distinct absent assigned, held, List.lookup_nil, Option.or_none, Option.getD_none,
        zero_add]

theorem ensureUnlocked_quiet (node : Node) (client : Client) :
    ∀ call ∈ (ensureUnlocked node client).1,
    ∃ password, call = .unlockWallet password := by
  intro call made
  rw [ensureUnlocked] at made
  split at made
  next password _ =>
    split_ifs at made
    · contradiction
    · split at made
      · exact ⟨password, List.mem_singleton.mp made⟩
      · exact ⟨password, List.mem_singleton.mp made⟩
  next => contradiction

/-- What is sent is the merged map. -/
theorem transferBatchDetailed_sends (node : Node) (client : Client)
    (sent : .sendTransaction destinations feeRate ∈
      (transferBatchDetailed node client recipients).calls) :
    ∃ merged, mergedDestinations recipients = .ok (merged, destinations) := by
  have quiet := ensureUnlocked_quiet node client
  rw [transferBatchDetailed] at sent
  split_ifs at sent
  · contradiction
  · split at sent
    next calls e unlocks =>
      rw [unlocks] at quiet
      obtain ⟨password, other⟩ := quiet _ sent
      contradiction
    next calls unlocked unlocks =>
      rw [unlocks] at quiet
      split at sent
      next =>
        obtain ⟨password, other⟩ := quiet _ sent
        contradiction
      next merged entries found =>
        have made : .sendTransaction destinations feeRate ∈
              calls ++ [.sendTransaction entries client.feeRate] := by
          split at sent
          next => exact sent
          next =>
            split at sent
            next => exact sent
            next =>
              split_ifs at sent
              · exact sent
              · exact sent
        rcases List.mem_append.mp made with unlock | mine
        · obtain ⟨password, other⟩ := quiet _ unlock
          contradiction
        · cases List.mem_singleton.mp mine
          exact ⟨merged, found⟩

end

end Enforcer

/-- The recipients of a batch, as `runOnce` hands them over. -/
def Batch.recipients (batch : Batch) : List Recipient :=
  batch.items.map fun item => ⟨item.address, item.sats⟩

theorem Batch.owedTo_recipients (batch : Batch) (address : String) :
    SimplePool.Payout.owedTo batch.recipients address = batch.owedTo address := by
  rw [SimplePool.Payout.owedTo, Batch.owedTo, Batch.recipients, List.filter_map, List.map_map]
  rfl

theorem Batch.totalSats_recipients (batch : Batch) : totalSats batch.recipients = batch.total := by
  rw [totalSats, Batch.total, Batch.recipients, List.map_map]
  rfl

/-- An output as the ticks see it. -/
def Thunder.readOutput (o : Json) : Output :=
  ⟨Json.textOf (o.field "address"), (Thunder.valueOf o).getD 0⟩

theorem Thunder.readOutput_outputOf (r : Recipient) :
    Thunder.readOutput (Thunder.outputOf r) = ⟨r.address, r.sats⟩ := by
  rw [Thunder.readOutput, Thunder.outputOf_address, Thunder.outputOf_value]
  rfl

/-- The payment, as `splice` looks for it. -/
def Output.pays (address : String) (total : Int) (output : Output) : Bool :=
  output.address = address && output.value = total

/-- Both find the payment alike. -/
theorem Thunder.readOutput_pays (named : address ≠ "")
    (decided : Thunder.isPayment address total o = some pays) :
    (Thunder.readOutput o).pays address total = pays := by
  rw [Thunder.isPayment.eq_def] at decided
  split at decided
  next => contradiction
  next =>
    rw [Output.pays, Thunder.readOutput, ← Json.isString_textOf named]
    split_ifs at decided with mine
    · obtain ⟨value, held, rfl⟩ := Option.map_eq_some_iff.mp decided
      rw [held, mine, Bool.true_and, Option.getD_some]
    · obtain rfl := Option.some.inj decided
      rw [Bool.not_eq_true] at mine
      rw [mine, Bool.false_and]

/-- What is not the payment stays. -/
theorem flatMap_others {pays : Output → Bool} {outputs : List Output} (parts : List Output)
    (others : ∀ output ∈ outputs, pays output = false) :
    outputs.filter pays = [] ∧
    (outputs.flatMap fun output => if pays output then parts else [output]) = outputs := by
  constructor
  · exact List.filter_eq_nil_iff.mpr fun output member => by simp [others output member]
  · induction outputs with
    | nil => rfl
    | cons output rest ih =>
      rw [List.flatMap_cons, others output List.mem_cons_self,
        ih fun other member => others other (List.mem_cons_of_mem _ member)]
      rfl

/-- The tick splits a transfer as the call does. -/
theorem Thunder.SplitOf.splice {batch : Batch} {first : BatchItem}
    (head : batch.items.head? = some first) (named : first.address ≠ "")
    (split : Thunder.SplitOf batch.recipients first.address unsigned tx before payment
      (batch.recipients.map Thunder.outputOf) after) :
    Payout.splice batch ((before ++ payment :: after).map Thunder.readOutput) =
      some ((before ++ batch.recipients.map Thunder.outputOf ++ after).map Thunder.readOutput) := by
  have pays := split.pays
  have only := split.only
  rw [batch.totalSats_recipients] at pays only
  have parts : (batch.recipients.map Thunder.outputOf).map Thunder.readOutput =
      batch.items.map fun item => ⟨item.address, item.sats⟩ := by
    rw [Batch.recipients, List.map_map, List.map_map]
    exact List.map_congr_left fun item _ => Thunder.readOutput_outputOf _
  have others (outs : List Json) (within : outs ⊆ before ++ after) :=
    have skipped : ∀ output ∈ outs.map Thunder.readOutput,
        Output.pays first.address batch.total output = false := by
      intro output member
      obtain ⟨o, inside, rfl⟩ := List.mem_map.mp member
      exact Thunder.readOutput_pays named (only o (within inside))
    flatMap_others (batch.items.map fun item => ⟨item.address, item.sats⟩) skipped
  obtain ⟨noneBefore, keptBefore⟩ := others before (List.subset_append_left before after)
  obtain ⟨noneAfter, keptAfter⟩ := others after (List.subset_append_right before after)
  have here := Thunder.readOutput_pays named pays
  have one : (((before ++ payment :: after).map Thunder.readOutput).filter
      (Output.pays first.address batch.total)).length = 1 := by
    rw [List.map_append, List.map_cons, List.filter_append, List.filter_cons_of_pos here,
      noneBefore, noneAfter]
    rfl
  rw [Payout.splice, head]
  refine (if_pos one).trans (congrArg some ?_)
  rw [List.map_append, List.map_cons, List.flatMap_append, List.flatMap_cons]
  refine (congrArg₂ (· ++ ·) keptBefore (congrArg₂ (· ++ ·) (if_pos here) keptAfter)).trans ?_
  rw [List.map_append, List.map_append, parts, List.append_assoc]

/-- The tick has the destinations of the call. -/
theorem Enforcer.destinations_held (batch : Batch)
    (plain : ∀ r ∈ batch.recipients, r.address ≠ "__proto__")
    (done : Enforcer.mergedDestinations batch.recipients = .ok (merged, entries))
    (address : String) :
    entries.lookup address = ((destinations batch).find? fun output => output.address = address).map
      Output.value := by
  have addresses : batch.recipients.map Recipient.address = batch.items.map BatchItem.address := by
    rw [Batch.recipients, List.map_map]
    rfl
  rw [Enforcer.mergedDestinations_sums plain done, addresses, batch.owedTo_recipients, destinations]
  refine (if_congr List.mem_dedup.symm rfl rfl).trans ?_
  induction (batch.items.map BatchItem.address).dedup with
  | nil => rfl
  | cons other rest ih =>
    rw [List.map_cons, List.find?_cons]
    by_cases mine : other = address
    · subst mine
      simp [Batch.owedTo]
    · simp only [List.mem_cons, Ne.symm mine, false_or, ih, mine, decide_false]

/-- The proxy records an address for a worker of this rail only when it parses, and this text
does not. -/
theorem proto_no_address (cap : Nat) :
    (Coinbase.addressToScript (Coinbase.ascii "__proto__") cap).isOk = false := by
  rfl

/-- For every list of recipients and every answer of the node. On the Thunder rail nothing is
signed or submitted but the transfer that the node built, with its one payment split by rows. On
the enforcer rail every spend that is sent has the sum of its rows for each address. -/
theorem batch_pays_rows (recipients : List Recipient)
    (plain : ∀ r ∈ recipients, r.address ≠ "__proto__") :
    (∀ node feeSats, Thunder.PaysRows node recipients feeSats
      (Thunder.transferBatchDetailed node recipients feeSats).calls) ∧
    ∀ node client destinations feeRate,
      .sendTransaction destinations feeRate ∈
        (Enforcer.transferBatchDetailed node client recipients).calls →
        ∀ address, destinations.lookup address =
          if address ∈ recipients.map Recipient.address then
            some (owedTo recipients address)
          else none := by
  refine ⟨fun node feeSats => Thunder.transferBatchDetailed_pays node recipients feeSats, ?_⟩
  intro node client destinations feeRate sent address
  obtain ⟨merged, done⟩ := Enforcer.transferBatchDetailed_sends node client sent
  exact Enforcer.mergedDestinations_sums plain done address

/-- Two addresses, one of them with two rows. -/
def threeRows : List Recipient := [⟨"ta", 300⟩, ⟨"tb", 200⟩, ⟨"ta", 50⟩]

/-- A node that leaves transfers unsigned, with its change to the first recipient. -/
def unsignedNode : Thunder.Node where
  createTransfer dest valueSats _ :=
    .ok (.object [("inputs", .array [.number 7]),
      ("outputs", .array [Thunder.outputOf ⟨"ta", 9000⟩, Thunder.outputOf ⟨dest, valueSats⟩])])
  signTransaction tx := .ok (.object [("authorized", tx)])
  submitTransaction _ := .ok (.string "t1")

/-- What it is given to sign for them. -/
def threeRowsTx : Json :=
  .object [("inputs", .array [.number 7]),
    ("outputs", .array (Thunder.outputOf ⟨"ta", 9000⟩ :: threeRows.map Thunder.outputOf))]

def sendingNode : Enforcer.Node where
  unlockWallet _ := .ok ()
  sendTransaction _ _ := .ok (.object [("txid", .object [("hex", .string "e1")])])

theorem batch_pays_rows_three :
    ((Thunder.transferBatchDetailed unsignedNode threeRows 100).calls =
        [.createTransfer "ta" 550 100, .signTransaction threeRowsTx false,
          .submitTransaction (.object [("authorized", threeRowsTx)])] ∧
      Thunder.PaysRows unsignedNode threeRows 100
        (Thunder.transferBatchDetailed unsignedNode threeRows 100).calls) ∧
    (Enforcer.transferBatchDetailed sendingNode ⟨none, 5, false⟩ threeRows).calls =
        [.sendTransaction [("ta", 350), ("tb", 200)] 5] ∧
      ∀ address, List.lookup address [("ta", (350 : Int)), ("tb", 200)] =
        if address ∈ threeRows.map Recipient.address then
          some (owedTo threeRows address)
        else none := by
  have both := batch_pays_rows threeRows (by decide)
  have sent : (Enforcer.transferBatchDetailed sendingNode ⟨none, 5, false⟩ threeRows).calls =
      [.sendTransaction [("ta", 350), ("tb", 200)] 5] := rfl
  refine ⟨⟨rfl, both.1 unsignedNode 100⟩, sent, both.2 sendingNode ⟨none, 5, false⟩ _ 5 ?_⟩
  rw [sent]
  exact List.mem_singleton_self _

end SimplePool.Payout
