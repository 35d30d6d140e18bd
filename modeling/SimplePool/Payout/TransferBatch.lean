import SimplePool.Lib.KeyedTable
import SimplePool.Payout.Json
import SimplePool.Payout.RunOnce

/-! `transferBatchDetailed` of the two rails: what is sent to the node for a list of
recipients, on every answer. -/
namespace SimplePool.Payout

structure Recipient where
  address : String
  sats : Int
deriving DecidableEq, Repr

def totalSats (recipients : List Recipient) : Int := (recipients.map Recipient.sats).sum

namespace Thunder

inductive Call where
  | createTransfer (dest : String) (valueSats feeSats : Int)
  | signTransaction (tx : Json) (broadcast : Bool)
  | submitTransaction (signed : Json)

/-- What the node answers to each call, or the error of the call. -/
structure Node where
  createTransfer : String → Int → Int → Except String Json
  signTransaction : Json → Except String Json
  submitTransaction : Json → Except String Json

inductive Stage where
  | create | sign | submit
deriving DecidableEq, Repr

/-- `engine` stands for what the language itself throws. -/
inductive Cause where
  | node (error : String)
  | message (text : String)
  | engine

structure Failure where
  stage : Option Stage
  cause : Cause
  unsigned : Option Json
  signed : Option Json
  broadcastTxid : Option String

def refusal (cause : Cause) : Failure := ⟨none, cause, none, none, none⟩

structure Sent where
  txid : Json
  unsigned : Option Json
  signed : Option Json
  recipients : Nat
  total : Int
  broadcastByNode : Bool

/-- The calls that were made, the first one first, and how it ended. -/
structure Exchange where
  calls : List Call
  result : Except Failure Sent

/-- A txid in the answer of a node that has signed and sent the transfer. -/
def nodeTxid : Json → Option String
  | .string txid => some txid
  | unsigned =>
    match unsigned.field "txid" with
    | some (.string txid) => some txid
    | _ => none

def distinctAddresses (recipients : List Recipient) : Nat :=
  (recipients.map Recipient.address).dedup.length

def sentByNode (recipients : List Recipient) (unsigned : Json) (txid : String) :
    Except Failure Sent :=
  let total := totalSats recipients
  let distinct := distinctAddresses recipients
  if distinct ≠ 1 then
    let first := (recipients.head?.map Recipient.address).getD ""
    let text :=
      s!"transferBatch: thunder already broadcast {txid} paying the full {total} sats to " ++
        s!"{first}, but this batch has {distinct} distinct addresses. Funds are on the " ++
        "network -- reconcile by hand (payout/README.md)."
    .error ⟨some .submit, .message text, some unsigned, none, some txid⟩
  else .ok ⟨.string txid, none, none, recipients.length, total, true⟩

/-- `BigInt(o?.content?.Value ?? o?.content?.value ?? 0)`. -/
def valueOf (o : Json) : Option Int :=
  let content := o.field "content"
  match Json.given (content.bind (Json.field "Value")) with
  | some value => value.bigInt
  | none =>
    match Json.given (content.bind (Json.field "value")) with
    | some value => value.bigInt
    | none => some 0

def sumOf (outs : List Json) : Option Int := (outs.mapM valueOf).map List.sum

/-- `o.address === address && valueOf(o) === total`. -/
def isPayment (address : String) (total : Int) : Json → Option Bool
  | .null => none
  | o =>
    if Json.isString address (o.field "address") then (valueOf o).map fun value => value = total
      else some false

def hitsOf (address : String) (total : Int) (outs : List Json) : Option (List Nat) :=
  (outs.mapM (isPayment address total)).map fun flags => (flags.zipIdx.filter Prod.fst).map Prod.snd

def outputOf (r : Recipient) : Json :=
  .object [("address", .string r.address), ("content", .object [("Value", .number r.sats)])]

theorem outputOf_address (r : Recipient) :
    (outputOf r).field "address" = some (.string r.address) := rfl

theorem outputOf_value (r : Recipient) : valueOf (outputOf r) = some r.sats :=
  Json.bigInt_int r.sats

/-- The transaction with one output a recipient in the place of the payment. -/
def splitOutputs (address : String) (recipients : List Recipient) (unsigned : Json) :
    Except Failure Json :=
  let total := totalSats recipients
  let fail (text : String) (unsigned : Json) : Except Failure Json :=
    .error ⟨some .create, .message text, some unsigned, none, none⟩
  match unsigned.field "outputs" with
  | some (.array (out :: outs)) =>
    match sumOf (out :: outs), hitsOf address total (out :: outs) with
    | some before, some [hit] =>
      let outs := (out :: outs).take hit ++ recipients.map outputOf ++ (out :: outs).drop (hit + 1)
      let spliced := unsigned.setField "outputs" (.array outs)
      match sumOf outs with
      | some after =>
        if after ≠ before then fail
          s!"transferBatch: value not conserved ({before} -> {after}); refusing to sign" spliced
        else .ok spliced
      | none => .error (refusal .engine)
    | some _, some hits =>
      fail
        s!"transferBatch: expected exactly one output of {total} to {address}, found {hits.length}"
        unsigned
    | _, _ => .error (refusal .engine)
  | _ => fail "create_transfer returned no outputs" unsigned

def transferBatchDetailed (node : Node) (recipients : List Recipient) (feeSats : Int) : Exchange :=
  let total := totalSats recipients
  match recipients with
  | [] => ⟨[], .error (refusal (.message "transferBatch: no recipients"))⟩
  | first :: _ =>
    if recipients.any fun r => r.sats ≤ 0 then
      ⟨[], .error (refusal (.message "transferBatch: non-positive amount"))⟩
    else if maxSafeInteger < total then
      ⟨[], .error (refusal (.message s!"transferBatch: total {total} exceeds safe integer range"))⟩
    else
      let create := Call.createTransfer first.address total feeSats
      match node.createTransfer first.address total feeSats with
      | .error e => ⟨[create], .error ⟨some .create, .node e, none, none, none⟩⟩
      | .ok unsigned =>
        match nodeTxid unsigned with
        | some txid => ⟨[create], sentByNode recipients unsigned txid⟩
        | none =>
          match splitOutputs first.address recipients unsigned with
          | .error failure => ⟨[create], .error failure⟩
          | .ok unsigned =>
            let sign := Call.signTransaction unsigned false
            match node.signTransaction unsigned with
            | .error e => ⟨[create, sign], .error ⟨some .sign, .node e, some unsigned, none, none⟩⟩
            | .ok signed =>
              let calls := [create, sign, .submitTransaction signed]
              match node.submitTransaction signed with
              | .error e =>
                ⟨calls, .error ⟨some .submit, .node e, some unsigned, some signed, none⟩⟩
              | .ok txid =>
                ⟨calls, .ok ⟨txid, some unsigned, some signed, recipients.length, total, false⟩⟩

end Thunder

namespace Enforcer

inductive Call where
  | unlockWallet (password : String)
  /-- The destinations as the properties of an object. -/
  | sendTransaction (destinations : List (String × Int)) (satPerVbyte : ℚ)

structure RpcError where
  code : Option String
  message : String

structure Node where
  unlockWallet : String → Except RpcError Unit
  sendTransaction : List (String × Int) → ℚ → Except RpcError Json

structure Client where
  passphrase : Option String
  feeRate : ℚ
  unlocked : Bool

inductive Cause where
  | node (error : RpcError)
  | message (text : String)
  /-- `SendTransaction returned no txid`, and the reply. -/
  | noTxid (reply : Json)
  | engine

structure Failure where
  stage : Option Thunder.Stage
  cause : Cause

structure Sent where
  txid : Json
  recipients : List Recipient

structure Exchange where
  calls : List Call
  result : Except Failure Sent
  /-- `_unlocked` afterwards. -/
  unlocked : Bool

def alreadyUnlocked (e : RpcError) : Bool :=
  e.code = some "already_exists" || (e.message.toList.map Char.toLower).tails.any
    "already unlocked".toList.isPrefixOf

/-- The unlocking that comes before the spend, and whether the wallet is taken for unlocked. -/
def ensureUnlocked (node : Node) (client : Client) : List Call × Except RpcError Bool :=
  match client.passphrase with
  | some password =>
    if client.unlocked || password = "" then ([], .ok client.unlocked)
    else
      match node.unlockWallet password with
      | .ok () => ([.unlockWallet password], .ok true)
      | .error e => ([.unlockWallet password], if alreadyUnlocked e then .ok true else .error e)
  | none => ([], .ok client.unlocked)

/-- `merged.set(address, (merged.get(address) || 0n) + sats)`. -/
def mergeRecipient (merged : List (String × Int)) (r : Recipient) :
    Except Failure (List (String × Int)) :=
  if r.sats ≤ 0 then .error ⟨none, .message "transferBatch: non-positive amount"⟩
  else if r.address = "" then .error ⟨none, .message "transferBatch: missing address"⟩
  else .ok (KeyedTable.upsert Prod.fst (fun old new => (old.1, old.2 + new.2))
      (r.address, r.sats) merged)

/-- `destinations[address] = number`. A number is no prototype, and an assignment of one to
`__proto__` does nothing. -/
def setDestination (destinations : List (String × Int)) (entry : String × Int) :
    Except Failure (List (String × Int)) :=
  if maxSafeInteger < entry.2 then
    .error ⟨none, .message s!"destination {entry.1}: {entry.2} exceeds safe integer range"⟩
  else if entry.1 = "__proto__" then .ok destinations
  else .ok (KeyedTable.upsert Prod.fst (fun old new => (old.1, new.2)) entry destinations)

/-- The map by address, and the object that is made of it. -/
def mergedDestinations (recipients : List Recipient) :
    Except Failure (List (String × Int) × List (String × Int)) :=
  match recipients.foldlM mergeRecipient [] with
  | .error failure => .error failure
  | .ok merged => (merged.foldlM setDestination []).map (merged, ·)

def falsy : Json → Bool
  | .null => true
  | .bool value => !value
  | .number value => value = 0
  | .string text => text = ""
  | .array _ | .object _ => false

/-- `j.txid?.hex ?? j.txid ?? j.txId ?? null`, where it can be evaluated. -/
def txidOf : Json → Option Json
  | .null => none
  | j =>
    let txid := Json.given (j.field "txid")
    match Json.given (txid.bind (Json.field "hex")) with
    | some hex => some hex
    | none => some ((txid.or (Json.given (j.field "txId"))).getD .null)

def transferBatchDetailed (node : Node) (client : Client) (recipients : List Recipient) :
    Exchange :=
  if recipients = [] then
    ⟨[], .error ⟨none, .message "transferBatch: no recipients"⟩, client.unlocked⟩
  else
    match ensureUnlocked node client with
    | (calls, .error e) => ⟨calls, .error ⟨none, .node e⟩, client.unlocked⟩
    | (calls, .ok unlocked) =>
      match mergedDestinations recipients with
      | .error failure => ⟨calls, .error failure, unlocked⟩
      | .ok (merged, destinations) =>
        let calls := calls ++ [.sendTransaction destinations client.feeRate]
        match node.sendTransaction destinations client.feeRate with
        | .error e => ⟨calls, .error ⟨some .create, .node e⟩, unlocked⟩
        | .ok j =>
          match txidOf j with
          | none => ⟨calls, .error ⟨none, .engine⟩, unlocked⟩
          | some txid =>
            if falsy txid then ⟨calls, .error ⟨some .create, .noTxid j⟩, unlocked⟩
            else ⟨calls, .ok ⟨txid, merged.map fun entry => ⟨entry.1, entry.2⟩⟩, unlocked⟩

end Enforcer

end SimplePool.Payout
