import SimplePool.Stratum.Authorize

/-! The node's JSON-RPC as bitcoind.c speaks it: one call over HTTP, and submitblock. -/
namespace SimplePool.Bitcoind
open Wire Coinbase Stratum

/-- What `curl_easy_perform` comes back with. The body of a reply is there as text and as
the JSON it parses to, if it does. -/
inductive Exchange where
  | curl (error : String)
  | tooLarge
  | reply (httpCode : Int) (text : String) (body : Option Json)

/-- A call that failed, with the code and the text it fails with. -/
structure RpcError where
  rc : Int
  message : String
deriving DecidableEq

def rpcFail {α : Type} (rc : Int) (message : String) : Except RpcError α := .error ⟨rc, message⟩

def Json.isNull : Json → Bool
  | .null => true
  | _ => false

/-- The message of an error object. -/
def rpcMessage (err : Json) : String :=
  match (err.member (ascii "message")).bind Json.valuestring with
  | some msg => text msg
  | none => "unknown rpc error"

def rpcCall : Exchange → Except RpcError Json
  | .curl error => rpcFail (-10) ("curl: " ++ error)
  | .tooLarge => rpcFail (-11) "response too large"
  | .reply httpCode body parsed =>
    if httpCode ≠ 200 ∧ httpCode ≠ 500 then
      rpcFail (-12) ("http " ++ toString httpCode ++ ": " ++ String.ofList (body.toList.take 200))
    else
      match parsed with
      | none => rpcFail (-13) "json parse failed"
      | some root =>
        match (root.member (ascii "error")).filter fun err => !Json.isNull err with
        | some err => rpcFail (-14) ("rpc error: " ++ rpcMessage err)
        | none =>
          match root.member (ascii "result") with
          | none => rpcFail (-15) "missing result"
          | some result => .ok result

/-- `bitcoind_submit_block`: null is success, a text is the reason for a refusal. -/
def submitBlock (exchange : Exchange) : Except RpcError Unit :=
  match rpcCall exchange with
  | .error failure => .error failure
  | .ok result =>
    match result.valuestring with
    | some (first :: rest) => rpcFail (-30) ("rejected: " ++ text (first :: rest))
    | _ => .ok ()

/-- How a reply gets lost: the connection fails or times out, the reply is too long, some
proxy answers in the node's place, or what arrives cannot be parsed. -/
inductive Loss where
  | curl (error : String)
  | tooLarge
  | http (code : Int) (text : String) (other : code ≠ 200 ∧ code ≠ 500)
  | garbled (code : Int) (text : String)

def Loss.exchange : Loss → Exchange
  | .curl error => .curl error
  | .tooLarge => .tooLarge
  | .http code text _ => .reply code text none
  | .garbled code text => .reply code text none

/-- A node that has the block answers `duplicate`, and `inconclusive` while it has not
decided on it. -/
inductive NodeBehaviour where
  | accepts
  | acceptsUnheard (loss : Loss)
  | duplicate
  | inconclusive
  | refuses (reason : Bytes) (some : reason ≠ [])
  | unreached (error : String)

def NodeBehaviour.took : NodeBehaviour → Bool
  | .accepts | .acceptsUnheard _ | .duplicate | .inconclusive => true
  | .refuses _ _ | .unreached _ => false

def rpcResult (result : Json) : Exchange :=
  .reply 200 "" (some (.object [(ascii "result", result), (ascii "error", .null),
    (ascii "id", .string (ascii "proxy"))]))

def NodeBehaviour.exchange : NodeBehaviour → Exchange
  | .accepts => rpcResult .null
  | .acceptsUnheard loss => loss.exchange
  | .duplicate => rpcResult (.string (ascii "duplicate"))
  | .inconclusive => rpcResult (.string (ascii "inconclusive"))
  | .refuses reason _ => rpcResult (.string reason)
  | .unreached error => .curl error

theorem rpcCall_result (result : Json) : rpcCall (rpcResult result) = .ok result := rfl

theorem rpcCall_loss (loss : Loss) : ∃ failure, rpcCall loss.exchange = .error failure := by
  cases loss with
  | curl error => exact ⟨_, rfl⟩
  | tooLarge => exact ⟨_, rfl⟩
  | http code text other => exact ⟨_, by rw [Loss.exchange, rpcCall, if_pos other]; rfl⟩
  | garbled code text =>
    simp only [Loss.exchange, rpcCall]
    split_ifs <;> exact ⟨_, rfl⟩

theorem submitBlock_text (reason : Bytes) (some : reason ≠ []) :
    ∃ failure, submitBlock (rpcResult (.string reason)) = .error failure := by
  rw [submitBlock, rpcCall_result]
  cases reason with
  | nil => contradiction
  | cons first rest => exact ⟨_, rfl⟩

/-- The call succeeds only when the node took the block and said so. -/
theorem submitBlock_ok_iff (behaviour : NodeBehaviour) :
    submitBlock behaviour.exchange = .ok () ↔ behaviour = .accepts := by
  cases behaviour with
  | accepts => simp [NodeBehaviour.exchange, submitBlock, rpcCall_result, Json.valuestring]
  | acceptsUnheard loss =>
    obtain ⟨failure, lost⟩ := rpcCall_loss loss
    simp [NodeBehaviour.exchange, submitBlock, lost]
  | duplicate =>
    obtain ⟨failure, refused⟩ := submitBlock_text (ascii "duplicate") (by decide)
    simp [NodeBehaviour.exchange, refused]
  | inconclusive =>
    obtain ⟨failure, refused⟩ := submitBlock_text (ascii "inconclusive") (by decide)
    simp [NodeBehaviour.exchange, refused]
  | refuses reason some =>
    obtain ⟨failure, refused⟩ := submitBlock_text reason some
    simp [NodeBehaviour.exchange, refused]
  | unreached error => simp [NodeBehaviour.exchange, submitBlock, rpcCall, rpcFail]

end SimplePool.Bitcoind
