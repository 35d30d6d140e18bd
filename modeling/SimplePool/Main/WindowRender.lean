import SimplePool.Coinbase.Payee
import SimplePool.Coinbase.WindowAccepts
import SimplePool.Main.WindowJob
import SimplePool.Stratum.Server

/-! The decision to publish a window job, against the renderer of every connection. The
publisher checks the reward, the split and the floor; what the renderer asks beyond that is
left to the template, the window and the configuration. -/
namespace SimplePool.Main
open Wire Coinbase Stratum

/-- The settings main.c starts the server with, once the operator's address was read. -/
structure Serves (cfg : Config) (server : Stratum.Cfg) : Prop where
  window : server.coinbasePaysWindow = decide (cfg.poolMode = .pplnsCoinbase)
  operator : server.operatorAddress = cfg.operatorAddress
  readable : ∀ address ∈ nonEmpty cfg.operatorAddress, ∃ spk,
  addressToScript address spkCap = .ok spk
  fee : server.feeBps = cfg.feeBps
  bytes : server.maxCoinbaseBytes = cfg.coinbaseMaxBytes.toNat
  floor : server.payoutFloorSats = cfg.payoutFloorSats

/-- An authorised connection of one of the listeners. -/
structure Served (cfg : Config) (c : Conn) : Prop where
  authorized : c.authorized = true
  address : c.payoutAddress ≠ []
  listener : c.polMaxCoinbaseBytes = 0 ∨ ∃ limit ∈ cfg.listenerMaxBytes,
  c.polMaxCoinbaseBytes = limit.toNat

def RendersEverywhere (fp : Fpu) (cfg : Config) (server : Stratum.Cfg) (job : Job) : Prop :=
  ∀ c, Served cfg c → ∃ rendered, connRenderCoinbase fp server c job = some rendered

/-- The byte limits of the listeners, the one without a limit of its own first. -/
def Config.budgets (cfg : Config) : List Nat :=
  cfg.coinbaseMaxBytes.toNat :: cfg.listenerMaxBytes.map fun limit => if 0 < limit then limit.toNat
    else cfg.coinbaseMaxBytes.toNat

/-- What the entries of a window are worth, in the order of the window. -/
def windowClaims (fp : Fpu) (cfg : Config) (t : BlockTemplate) (window : Store.PplnsWindow) :
    List Payee :=
  match windowValue t with
  | .error _ => []
  | .ok value =>
    match Pplns.splitWindow fp value cfg.feeBps (nonEmpty cfg.operatorAddress).isSome
      (window.entries.map claimOf)
        window.totalDiff cfg.payoutFloorSats maxPayoutOutputs with
    | .error _ => []
    | .ok (byClaim, _) => byClaim

/-- Under every limit there is a claim whose output fits, and what is dropped can be spread. -/
def PaysUnder (fp : Fpu) (cfg : Config) (job : Job) (claims : List Payee) (fixedBytes : Nat) :
    Prop :=
  ∀ budget ∈ cfg.budgets,
    SomeoneFits (effectiveFloor cfg.payoutFloorSats) (payoutBudget budget fixedBytes) claims ∧
    Spreads fp.scale (claims.map Payee.sats).sum (effectiveFloor cfg.payoutFloorSats)
      (payoutBudget budget fixedBytes) job.payees

/-- What the renderer asks of a window job and its publisher did not: readable addresses, a
scriptSig with the tag and the salt that is short enough, and room for someone under every
limit. -/
def Deliverable (fp : Fpu) (cfg : Config) (coinbaseTag : Option Bytes) (job : Job)
    (claims : List Payee) : Prop :=
  Readable (effectiveFloor cfg.payoutFloorSats) claims ∧
    match job.coinbasetxnHex with
    | none => (∃ commitment, decodeCommitment job.wcHex = .ok commitment) ∧
        PaysUnder fp cfg job claims (scratchFixedBytes job.height cfg.operatorAddress job.wcHex
          coinbaseTag job.cbSalt job.en1Size job.en2Size)
    | some hex =>
      ∀ tx t i, decodeTemplateHex hex = .ok tx → parseTemplate tx = .ok t → t.scan.rewardIdx = some
        i →
        Copyable tx t i ∧ 2 ≤ newScriptSigLen t.ssLen (cbTagPush coinbaseTag job.cbSalt).length
          job.en1Size job.en2Size ∧
        newScriptSigLen t.ssLen (cbTagPush coinbaseTag job.cbSalt).length job.en1Size job.en2Size ≤
          100 ∧
        PaysUnder fp cfg job claims
          (templateFixedBytes t i (newScriptSigLen t.ssLen (cbTagPush coinbaseTag job.cbSalt).length
            job.en1Size job.en2Size))

theorem divide_claims
    (divided : Pplns.divide fp payable totalDiff claims before = .ok (payees, assigned)) :
    payees.map Payee.address = claims.map Pplns.Claim.payoutAddress ∧ ∀ payee ∈ payees,
    0 ≤ payee.sats := by
  induction claims generalizing before payees with
  | nil =>
    obtain ⟨rfl, rfl⟩ := Prod.mk.inj (Except.ok.inj divided)
    exact ⟨rfl, nofun⟩
  | cons claim rest ih =>
    rw [Pplns.divide] at divided
    split at divided
    next => cases divided
    next =>
      obtain ⟨sats, _, divided⟩ := bind_ok divided
      split at divided
      next => cases divided
      next nonneg =>
        obtain ⟨more, _, divided⟩ := bind_ok divided
        obtain ⟨⟨later, total⟩, others, divided⟩ := bind_ok divided
        obtain ⟨rfl, rfl⟩ := Prod.mk.inj (Except.ok.inj divided)
        obtain ⟨addresses, amounts⟩ := ih others
        exact ⟨congrArg (claim.payoutAddress :: ·) addresses,
          List.forall_mem_cons.mpr ⟨not_lt.mp nonneg, amounts⟩⟩

/-- The payees of a split are the claims, with amounts that are not negative. -/
theorem splitWindow_claims
    (split : Pplns.splitWindow fp reward feeBps haveOperator claims totalDiff floor cap =
      .ok (payees, r)) :
    payees.map Payee.address = claims.map Pplns.Claim.payoutAddress ∧
    (∀ payee ∈ payees, 0 ≤ payee.sats) ∧
      0 < reward ∧ claims ≠ [] ∧ claims.length ≤ cap := by
  rw [Pplns.splitWindow] at split
  split at split
  next => cases split
  next fits =>
    obtain ⟨someone, few⟩ := not_or.mp fits
    split at split
    next => cases split
    next =>
      split at split
      next => cases split
      next positive =>
        obtain ⟨fee, _, split⟩ := bind_ok split
        dsimp only at split
        split at split
        next => cases split
        next =>
          obtain ⟨⟨shares, assigned⟩, divided, split⟩ := bind_ok split
          obtain ⟨addresses, amounts⟩ := divide_claims divided
          dsimp only at split
          split at split
          next => cases split
          next =>
            obtain ⟨rfl, rfl⟩ := Prod.mk.inj (Except.ok.inj split)
            refine ⟨?_, ?_, not_le.mp positive, someone, not_lt.mp few⟩
            · split
              next =>
                cases shares with
                | nil => exact addresses
                | cons first rest => exact addresses
              next => exact addresses
            · split
              next short =>
                cases shares with
                | nil => exact amounts
                | cons first rest =>
                  obtain ⟨largest, others⟩ := List.forall_mem_cons.mp amounts
                  exact List.forall_mem_cons.mpr ⟨by dsimp only; omega, others⟩
              next => exact amounts

/-- The renderer takes the fee that the split took. -/
theorem operatorFee_total
    (taken : Pplns.splitFee reward feeBps (nonEmpty operatorAddress).isSome = .ok fee)
    (readable : ∀ address ∈ nonEmpty operatorAddress, ∃ spk, addressToScript address spkCap =
      .ok spk) :
    ∃ operator, operatorFee reward operatorAddress feeBps = .ok operator := by
  apply operatorFee_of_readable _ readable
  intro named charged
  rw [Pplns.splitFee, if_pos ⟨named, Nat.pos_of_ne_zero charged⟩] at taken
  obtain ⟨product, computed, _⟩ := bind_ok taken
  exact ⟨product, computed⟩

theorem claimedSats_total (addressed : ∀ payee ∈ payees, (nonEmpty payee.address).isSome = true)
    (nonneg : ∀ payee ∈ payees, 0 ≤ payee.sats) (begun : 0 ≤ claimed)
    (typed : claimed + (payees.map Payee.sats).sum < 2 ^ 63) (i : Nat) :
    claimedSats payees i claimed = .ok (claimed + (payees.map Payee.sats).sum) := by
  induction payees generalizing i claimed with
  | nil =>
    rw [claimedSats, List.map_nil, List.sum_nil, Int.add_zero]
  | cons payee rest ih =>
    obtain ⟨named, others⟩ := List.forall_mem_cons.mp addressed
    obtain ⟨amount, amounts⟩ := List.forall_mem_cons.mp nonneg
    rw [List.map_cons, List.sum_cons] at typed ⊢
    have later : 0 ≤ (rest.map Payee.sats).sum := by
      refine List.sum_nonneg fun sats member => ?_
      obtain ⟨other, inside, rfl⟩ := List.mem_map.mp member
      exact amounts other inside
    have present : ¬(nonEmpty payee.address).isNone = true := by
      rw [Option.isNone_iff_eq_none]
      intro none
      rw [none] at named
      cases named
    have added : int64 (claimed + payee.sats) = .ok (claimed + payee.sats) := by
      rw [int64, if_pos (by omega)]
    rw [claimedSats, if_neg present, if_neg (not_lt.mpr amount), added]
    dsimp only [bind, Except.bind]
    rw [ih others amounts (by omega) (by omega), Int.add_assoc]

theorem takeEntries_spec (oracle : Store.Oracle) (cap calls : Nat)
    (out entries : List Store.WindowEntry) (room : out.length ≤ cap) :
    (Store.takeEntries oracle cap calls out entries).1.length ≤ cap ∧
      ∀ entry ∈ (Store.takeEntries oracle cap calls out entries).1, entry ∈ out ∨
      entry ∈ entries := by
  induction entries generalizing calls out with
  | nil => exact ⟨room, fun _ member => .inl member⟩
  | cons first rest ih =>
    rw [Store.takeEntries]
    split
    next => exact ⟨room, fun _ member => .inl member⟩
    next =>
      split
      next => exact ⟨room, fun _ member => .inl member⟩
      next space =>
        obtain ⟨few, known⟩ :=
          ih (calls + 1) (out ++ [first]) (by rw [List.length_append, List.length_singleton]; omega)
        refine ⟨few, fun entry member => ?_⟩
        rcases known entry member with old | later
        · rcases List.mem_append.mp old with before | here
          · exact .inl before
          · exact .inr (List.mem_cons.mpr (.inl (List.mem_singleton.mp here)))
        · exact .inr (List.mem_cons_of_mem first later)

/-- An entry has an address, which fits the buffers it is copied to. -/
def Addressed (entry : Store.WindowEntry) : Prop :=
  entry.payoutAddress.toList ≠ [] ∧ entry.payoutAddress.toList.length ≤ 127

theorem windowGroup_addressed (grouped : Store.windowGroup db rows w = some entry) :
    Addressed entry := by
  rw [Store.windowGroup] at grouped
  split at grouped
  next kept =>
    obtain rfl := Option.some.inj grouped
    obtain ⟨⟨present, named⟩, _⟩ := kept
    obtain ⟨text, same⟩ := Option.ne_none_iff_exists'.mp present
    have shown : (Store.windowEntry db rows w).payoutAddress.toList = text.toList.take 127 := by
      rw [Store.windowEntry, Store.buffer, same, Option.getD_some, String.toList_ofList]
      rfl
    rw [Addressed, shown, List.length_take]
    refine ⟨fun none => ?_, Nat.min_le_left _ _⟩
    rcases List.take_eq_nil_iff.mp none with zero | empty
    · cases zero
    · rw [String.toList_eq_nil_iff.mp empty] at same
      exact named same
  next => cases grouped

theorem storePplnsWindow_spec
    (read : Store.storePplnsWindow oracle fuel db size cap = some (.ok window)) :
    window.entries.length ≤ cap ∧ ∀ entry ∈ window.entries, Addressed entry := by
  rw [Store.storePplnsWindow] at read
  split at read
  next => cases read
  next =>
    split at read
    next => cases read
    next =>
      split at read
      next => cases read
      next =>
        split at read
        next => cases read
        next => cases read
        next walk calls _ =>
          split at read
          next => cases read
          next =>
            cases read
            obtain ⟨few, known⟩ := takeEntries_spec oracle cap (calls + 1) []
              (Store.payeesQuery db walk) (Nat.zero_le _)
            refine ⟨few, fun entry member => ?_⟩
            have queried := (known entry member).resolve_left List.not_mem_nil
            rw [Store.payeesQuery, List.mem_insertionSort] at queried
            obtain ⟨w, _, grouped⟩ := List.mem_filterMap.mp queried
            exact windowGroup_addressed grouped

theorem range_getElem? (items : List α) :
    (List.range items.length).filterMap (fun i => items[i]?) = items := by
  have cells : (List.range items.length).map (fun i => items[i]?) = items.map some := by
    refine List.ext_getElem (by rw [List.length_map, List.length_map, List.length_range]) fun i here
      _ => ?_
    rw [List.length_map, List.length_range] at here
    rw [List.getElem_map, List.getElem_map, List.getElem_range, List.getElem?_eq_getElem here]
  have kept := congrArg (List.filterMap id) cells
  rw [List.filterMap_map, List.filterMap_map] at kept
  exact kept.trans List.filterMap_some

/-- The split of a window, in the order of payment. -/
theorem windowPayees_spec (ordered : windowPayees fp cfg t window = some (payees, workers)) :
    ∃ value split, windowValue t = .ok value ∧
      Pplns.splitWindow fp value cfg.feeBps (nonEmpty cfg.operatorAddress).isSome
        (window.entries.map claimOf) window.totalDiff
        cfg.payoutFloorSats maxPayoutOutputs = .ok (windowClaims fp cfg t window, split) ∧
      payees.Perm (windowClaims fp cfg t window) := by
  rw [windowPayees] at ordered
  cases reward : windowValue t with
  | error failure =>
    rw [reward] at ordered
    cases ordered
  | ok value =>
    rw [reward] at ordered
    dsimp only at ordered
    cases divided : Pplns.splitWindow fp value cfg.feeBps (nonEmpty cfg.operatorAddress).isSome
      (window.entries.map claimOf)
        window.totalDiff cfg.payoutFloorSats maxPayoutOutputs with
    | error failure =>
      rw [divided] at ordered
      cases ordered
    | ok pair =>
      obtain ⟨byClaim, split⟩ := pair
      rw [divided] at ordered
      dsimp only at ordered
      split at ordered
      next => cases ordered
      next =>
        obtain ⟨order, permuted, same⟩ := Option.map_eq_some_iff.mp ordered
        obtain ⟨rfl, _⟩ := Prod.mk.inj same
        have claims : windowClaims fp cfg t window = byClaim := by
          rw [windowClaims, reward]
          dsimp only
          rw [divided]
        have addresses := congrArg List.length (splitWindow_claims divided).1
        simp only [List.length_map] at addresses
        have perm := Pplns.orderClaims_perm (by rw [List.length_map, List.length_map]) permuted
        rw [List.length_map, ← addresses] at perm
        have all := perm.filterMap fun i => byClaim[i]?
        rw [range_getElem?] at all
        exact ⟨value, split, rfl, claims ▸ divided, claims ▸ all⟩

/-- Copying the payees onto the job changes none of them. -/
theorem setWindow_payees (job : Job) (workers : Nat → Int) (payees : List Payee)
    (short : ∀ payee ∈ payees, ∃ text, payee.address = some text ∧ text.length ≤ 127) :
    (job.setWindow payees workers).payees = payees := by
  refine (List.map_congr_left fun payee member => ?_).trans (List.map_id payees)
  obtain ⟨text, address, length⟩ := short payee member
  obtain ⟨_, sats⟩ := payee
  obtain rfl : _ = some text := address
  rw [Option.getD_some, snprintf_of_le length]
  rfl

/-- A window job carries the claims of its window, and they add up to the reward without the fee. -/
structure Attached (fp : Fpu) (cfg : Config) (t : BlockTemplate) (window : Store.PplnsWindow)
    (job attached : Job) : Prop where
  perm : attached.payees.Perm (windowClaims fp cfg t window)
  rest : attached =
    { job with payees := attached.payees, payeeWorkerIds := attached.payeeWorkerIds }
  addressed : ∀ payee ∈ attached.payees, (nonEmpty payee.address).isSome = true
  nonneg : ∀ payee ∈ attached.payees, 0 ≤ payee.sats
  few : attached.payees.length ≤ maxPayoutOutputs
  split : ∃ value split, windowValue t = .ok value ∧ 0 < value ∧
    Pplns.splitFee value cfg.feeBps (nonEmpty cfg.operatorAddress).isSome = .ok split ∧
    (attached.payees.map Payee.sats).sum = value - split

theorem ascii_length (text : String) : (ascii text).length = text.toList.length := List.length_map _

theorem attachPplnsWindow_attached {job attached : Job}
    (published : attachPplnsWindow fp oracle cfg netDiff db t job = some (attached, some reading))
    (bare : job.payees = []) (someone : attached.payees ≠ []) :
    cfg.poolMode = .pplnsCoinbase ∧ Attached fp cfg t reading.window job attached := by
  rw [attachPplnsWindow] at published
  split at published
  next => cases published
  next mode =>
    refine ⟨not_not.mp mode, ?_⟩
    split at published
    next => cases published
    next =>
      split at published
      next window read =>
        split at published
        next =>
          cases published
          exact absurd bare someone
        next =>
          obtain ⟨⟨payees, workers⟩, ordered, same⟩ := Option.map_eq_some_iff.mp published
          cases same
          obtain ⟨value, split, reward, divided, perm⟩ := windowPayees_spec ordered
          obtain ⟨_, known⟩ := storePplnsWindow_spec read
          obtain ⟨addresses, nonneg, positive, _, few⟩ := splitWindow_claims divided
          obtain ⟨taken, sum, _, _⟩ := Pplns.splitWindow_sum divided
          have named : ∀ payee ∈ windowClaims fp cfg t window, ∃ text, payee.address = some text ∧
              text ≠ [] ∧ text.length ≤ 127 := by
            intro payee member
            have there := List.mem_map_of_mem (f := Payee.address) member
            rw [addresses, List.map_map] at there
            obtain ⟨entry, inside, address⟩ := List.mem_map.mp there
            obtain ⟨present, short⟩ := known entry inside
            refine ⟨ascii entry.payoutAddress, address.symm,
              fun none => ?_, by rw [ascii_length]; exact short⟩
            exact present (List.map_eq_nil_iff.mp none)
          have copied :=
            setWindow_payees job (fun i => workers[i]?.getD 0) payees fun payee member => by
            obtain ⟨text, address, _, short⟩ := named payee (perm.mem_iff.mp member)
            exact ⟨text, address, short⟩
          refine ⟨?_, rfl, ?_, ?_, ?_, value, split.feeSats, reward, positive, taken, ?_⟩
          · rw [copied]
            exact perm
          · rw [copied]
            intro payee member
            obtain ⟨text, address, present, _⟩ := named payee (perm.mem_iff.mp member)
            rw [address]
            cases text with
            | nil => contradiction
            | cons c rest => rfl
          · rw [copied]
            exact fun payee member => nonneg payee (perm.mem_iff.mp member)
          · have sizes := congrArg List.length addresses
            simp only [List.length_map] at sizes few
            rw [copied, perm.length_eq, sizes]
            exact few
          · rw [copied, (perm.map Payee.sats).sum_eq]
            exact sum
      next => cases published

/-- A connection that has been authorised and was sent nothing yet. -/
def authorisedConn (server : Stratum.Cfg) (address : Bytes) (limit : Nat) : Conn :=
  { Conn.new server [] with
    authorized := true, payoutAddress := address, polMaxCoinbaseBytes := limit }

theorem served_budgets (serves : Serves cfg server) (P : Nat → Prop) :
    (∀ c, Served cfg c → P (connCoinbaseBudget server c)) ↔ ∀ budget ∈ cfg.budgets, P budget := by
  have budget (limit : Nat) : connCoinbaseBudget server (authorisedConn server [0] limit) =
      if 0 < limit then limit else cfg.coinbaseMaxBytes.toNat := by
    rw [← serves.bytes]
    rfl
  constructor
  · intro all b member
    rcases List.mem_cons.mp member with rfl | listed
    · have here := all (authorisedConn server [0] 0) ⟨rfl, List.cons_ne_nil 0 [], .inl rfl⟩
      rwa [budget, if_neg (Nat.lt_irrefl 0)] at here
    · obtain ⟨lb, inside, rfl⟩ := List.mem_map.mp listed
      have here := all (authorisedConn server [0] lb.toNat)
        ⟨rfl, List.cons_ne_nil 0 [], .inr ⟨lb, inside, rfl⟩⟩
      rw [budget] at here
      by_cases limited : 0 < lb
      · rwa [if_pos (by omega)] at here ⊢
      · rwa [if_neg (by omega)] at here ⊢
  · intro all c served
    have main := all cfg.coinbaseMaxBytes.toNat List.mem_cons_self
    rw [connCoinbaseBudget, serves.bytes]
    split
    next limited =>
      rcases served.listener with none | ⟨lb, inside, same⟩
      · omega
      · refine all _ (List.mem_cons_of_mem _ (List.mem_map.mpr ⟨lb, inside, ?_⟩))
        rw [if_pos (by omega), same]
    next => exact main

/-- What the renderer hands to the builders, under a byte limit. -/
def WindowBuilds (fp : Fpu) (server : Stratum.Cfg) (job : Job) (budget : Nat) : Prop :=
  match job.coinbasetxnHex with
  | some hex => ∃ built, buildFromTemplate fp.scale (.window job.payees server.operatorAddress
    server.feeBps budget server.payoutFloorSats)
      hex server.coinbaseTag job.cbSalt job.en1Size job.en2Size = .ok built
  | none =>
    ∃ built, buildWindow fp.scale job.height job.valueSats job.payees server.operatorAddress
      server.feeBps job.wcHex
      server.coinbaseTag job.cbSalt job.en1Size job.en2Size budget server.payoutFloorSats =
        .ok built

theorem map_total {x : Result α} (f : α → β) : (∃ b, x.map f = .ok b) ↔ ∃ a, x = .ok a := by
  cases x with
  | error failure =>
    exact ⟨fun ⟨_, failed⟩ => (by cases failed), fun ⟨_, failed⟩ => (by cases failed)⟩
  | ok a => exact ⟨fun _ => ⟨a, rfl⟩, fun _ => ⟨f a, rfl⟩⟩

theorem windowBuilds_iff (fp : Fpu) (server : Stratum.Cfg) (c : Conn) (job : Job) :
    WindowBuilds fp server job (connCoinbaseBudget server c) ↔ ∃ parts,
    renderWindowCoinbase fp server c job = .ok parts := by
  rw [WindowBuilds, renderWindowCoinbase]
  cases job.coinbasetxnHex with
  | some hex => exact (map_total Prod.fst).symm
  | none => exact (map_total Prod.fst).symm

/-- A window job is rendered everywhere when it is built under every limit. -/
theorem rendersEverywhere_iff (serves : Serves cfg server) (mode : cfg.poolMode = .pplnsCoinbase)
    (someone : job.payees ≠ []) :
    RendersEverywhere fp cfg server job ↔ ∀ budget ∈ cfg.budgets,
    WindowBuilds fp server job budget := by
  have window (c : Conn) : renderFresh fp server c job = renderWindowCoinbase fp server c job := by
    have pays : server.coinbasePaysWindow = true := by
      rw [serves.window, mode]
      rfl
    have present : job.payees.isEmpty = false := List.isEmpty_eq_false_iff.mpr someone
    rw [renderFresh, pays, present]
    rfl
  rw [← served_budgets serves, RendersEverywhere]
  constructor
  · intro everywhere c served
    obtain ⟨rendered, drawn⟩ :=
      everywhere { c with cbForJobId := [] } ⟨served.authorized, served.address, served.listener⟩
    rw [connRenderCoinbase] at drawn
    split at drawn
    next => cases drawn
    next =>
      split at drawn
      next cached => cases cached
      next =>
        rw [windowBuilds_iff]
        split at drawn
        next parts built =>
          rw [window] at built
          exact ⟨parts, built⟩
        next => cases drawn
  · intro all c served
    obtain ⟨parts, built⟩ := (windowBuilds_iff fp server c job).mp (all c served)
    have known : (!c.authorized || c.payoutAddress.isEmpty) = false := by
      rw [served.authorized, List.isEmpty_eq_false_iff.mpr served.address]
      rfl
    rw [connRenderCoinbase, known]
    split
    next impossible => cases impossible
    next =>
      split
      next => exact ⟨c, rfl⟩
      next =>
        rw [window, built]
        exact ⟨_, rfl⟩

theorem bip34HeightPush_pos (height : UInt32) : 1 ≤ (bip34HeightPush height).length := by
  rw [bip34HeightPush]
  split_ifs <;> simp

/-- A scriptSig from scratch is in range whatever the tag. -/
theorem scratchScriptSig_range (height : UInt32) (coinbaseTag : Option Bytes) (jobSalt : UInt32) :
    2 ≤ scratchScriptSigLen height coinbaseTag jobSalt extranonce1Size extranonce2Size ∧
      scratchScriptSigLen height coinbaseTag jobSalt extranonce1Size extranonce2Size ≤ 100 := by
  have least := bip34HeightPush_pos height
  have most := bip34HeightPush_length height
  have push := cbTagPush_length coinbaseTag jobSalt
  rw [scratchScriptSigLen, extranonce1Size, extranonce2Size, sizeT, sizeT]
  omega

theorem readOutputs_values (n : Nat) (before : ∀ out ∈ scan.outs, out.value < 2 ^ 64)
    (read : readOutputs tx n scan = .ok scan') :
    ∀ out ∈ scan'.outs, out.value < 2 ^ 64 := by
  induction n generalizing scan with
  | zero =>
    cases read
    exact before
  | succ n ih =>
    rw [readOutputs] at read
    obtain ⟨⟨out, off⟩, readOut, read⟩ := bind_ok read
    obtain ⟨next, added, later⟩ := bind_ok read
    rw [readOutput] at readOut
    obtain ⟨⟨value, off₁⟩, readValue, readOut⟩ := bind_ok readOut
    obtain ⟨⟨spkLen, off₂⟩, _, readOut⟩ := bind_ok readOut
    obtain ⟨off₃, _, readOut⟩ := bind_ok readOut
    obtain ⟨opReturn, _, readOut⟩ := bind_ok readOut
    cases readOut
    have typed : value < 2 ^ 64 := by
      have fixed := need_ok readValue
      rw [rdU64, rdFixed] at fixed
      split at fixed
      next => cases fixed
      next =>
        cases fixed
        have bound := decode_lt ((tx.drop scan.off).take 8)
        have eight : 256 ^ ((tx.drop scan.off).take 8).length ≤ 256 ^ 8 :=
          Nat.pow_le_pow_right (by decide) (List.length_take_le _ _)
        omega
    refine ih (fun other member => ?_) later
    have members : next.outs = scan.outs ++ [⟨value, off₂, spkLen, opReturn⟩] := by
      rw [Scan.add] at added
      split at added
      next =>
        cases added
        rfl
      next =>
        split at added
        next => cases added
        next =>
          cases added
          rfl
    rw [members] at member
    rcases List.mem_append.mp member with old | new
    · exact before other old
    · rw [List.mem_singleton.mp new]
      exact typed

theorem parseTemplate_values (parsed : parseTemplate tx = .ok t) :
    ∀ out ∈ t.scan.outs, out.value < 2 ^ 64 := by
  rw [parseTemplate] at parsed
  obtain ⟨⟨version, off⟩, _, parsed⟩ := bind_ok parsed
  obtain ⟨⟨vin, prevoutOff⟩, _, parsed⟩ := bind_ok parsed
  obtain ⟨_, _, parsed⟩ := bind_ok parsed
  obtain ⟨_, _, parsed⟩ := bind_ok parsed
  obtain ⟨⟨ssLen, ssOff⟩, _, parsed⟩ := bind_ok parsed
  obtain ⟨_, _, parsed⟩ := bind_ok parsed
  obtain ⟨⟨sequence, _⟩, _, parsed⟩ := bind_ok parsed
  obtain ⟨⟨vout, _⟩, _, parsed⟩ := bind_ok parsed
  obtain ⟨_, _, parsed⟩ := bind_ok parsed
  obtain ⟨_, _, parsed⟩ := bind_ok parsed
  obtain ⟨scan, read, parsed⟩ := bind_ok parsed
  obtain ⟨_, _, parsed⟩ := bind_ok parsed
  obtain ⟨_, _, parsed⟩ := bind_ok parsed
  obtain ⟨_, _, parsed⟩ := bind_ok parsed
  obtain ⟨_, _, parsed⟩ := bind_ok parsed
  cases parsed
  refine readOutputs_values vout (fun out member => ?_) read
  cases member

theorem readable_perm (perm : payees.Perm claims) : Readable floor payees ↔ Readable floor claims :=
  ⟨fun readable payee member => readable payee (perm.mem_iff.mpr member),
    fun readable payee member => readable payee (perm.mem_iff.mp member)⟩

theorem someoneFits_perm (perm : payees.Perm claims) :
    SomeoneFits floor budget payees ↔ SomeoneFits floor budget claims := by
  constructor
  · rintro ⟨payee, member, fits⟩
    exact ⟨payee, perm.mem_iff.mp member, fits⟩
  · rintro ⟨payee, member, fits⟩
    exact ⟨payee, perm.mem_iff.mpr member, fits⟩

/-- Under every limit the window can be resolved. -/
theorem resolvable_everywhere (perm : job.payees.Perm claims) (fixedBytes : Nat) :
    (∀ budget ∈ cfg.budgets,
      Resolvable fp.scale (claims.map Payee.sats).sum (effectiveFloor cfg.payoutFloorSats)
      (payoutBudget budget fixedBytes) job.payees) ↔
      Readable (effectiveFloor cfg.payoutFloorSats) claims ∧
      PaysUnder fp cfg job claims fixedBytes := by
  constructor
  · intro all
    refine ⟨(readable_perm perm).mp (all _ List.mem_cons_self).readable, fun budget member => ?_⟩
    exact ⟨(someoneFits_perm perm).mp (all budget member).fits, (all budget member).spreads⟩
  · rintro ⟨readable, pays⟩ budget member
    obtain ⟨fits, spreads⟩ := pays budget member
    exact ⟨(readable_perm perm).mpr readable, (someoneFits_perm perm).mpr fits, spreads⟩

theorem coinbaseTemplateReward_spec (read : coinbaseTemplateReward hex = .ok value) :
    ∃ tx t i c, decodeTemplateHex hex = .ok tx ∧ parseTemplate tx = .ok t ∧
    t.scan.rewardIdx = some i ∧
      t.scan.outs[i]? = some c ∧ value = toInt64 c.value ∧ value < 2 ^ 63 := by
  rw [coinbaseTemplateReward] at read
  obtain ⟨⟨spendable, _⟩, _, read⟩ := bind_ok read
  obtain ⟨_, _, read⟩ := bind_ok read
  obtain ⟨tx, decoded, read⟩ := bind_ok read
  obtain ⟨t, parsed, read⟩ := bind_ok read
  obtain ⟨i, found, read⟩ := bind_ok read
  obtain ⟨c, scanned, read⟩ := bind_ok read
  obtain ⟨_, _, read⟩ := bind_ok read
  obtain ⟨_, _, read⟩ := bind_ok read
  cases read
  have small := parseTemplate_values parsed c (List.mem_of_getElem? (orUndefined_ok scanned))
  refine ⟨tx, t, i, c, decoded, parsed, orUndefined_ok found, orUndefined_ok scanned, rfl, ?_⟩
  rw [toInt64]
  split <;> omega

/-- The job that main.c makes of a template. -/
theorem buildJobFromTemplate_fields {t : BlockTemplate}
    (made : buildJobFromTemplate t nowMs mono = .ok job) :
    job.coinbasetxnHex = nonEmpty t.coinbasetxnHex ∧ job.valueSats = t.coinbaseValueSats ∧
    job.payees = [] ∧
      job.en1Size = extranonce1Size ∧ job.en2Size = extranonce2Size := by
  rw [buildJobFromTemplate] at made
  obtain ⟨txids, _, made⟩ := bind_ok made
  obtain ⟨prev, _, made⟩ := bind_ok made
  obtain ⟨target, _, made⟩ := bind_ok made
  cases made
  exact ⟨rfl, rfl, rfl, rfl, rfl⟩

theorem nonEmpty_some {given : Option Bytes} (present : nonEmpty given = some bytes) :
    given = some bytes := by
  unfold nonEmpty at present
  split at present
  next => exact present
  next => cases present

/-- No reward is read from an empty text. -/
theorem windowValue_own {t : BlockTemplate} (absent : nonEmpty t.coinbasetxnHex = none)
    (reward : windowValue t = .ok value) :
    value = t.coinbaseValueSats := by
  rw [windowValue] at reward
  cases dictated : t.coinbasetxnHex with
  | none =>
    rw [dictated] at reward
    exact (Except.ok.inj reward).symm
  | some hex =>
    rw [dictated] at absent reward
    cases hex with
    | nil => cases reward
    | cons c rest => cases absent

section

variable (fp : Fpu) {job : Job} (serves : Serves cfg server) (someone : job.payees ≠ [])
  (few : job.payees.length ≤ maxPayoutOutputs)
  (positive : 0 < value) (typed : value < 2 ^ 63)
  (fee : operatorFee value cfg.operatorAddress cfg.feeBps = .ok operator)
  (claims : claimedSats job.payees 0 0 = .ok (value - feeOf operator))
  (size1 : job.en1Size = extranonce1Size)
  (size2 : job.en2Size = extranonce2Size)
include serves someone few positive typed fee claims

include size1 size2 in
theorem windowBuilds_scratch (own : job.valueSats = value) (absent : job.coinbasetxnHex = none)
    (budget : Nat) :
    WindowBuilds fp server job budget ↔
      Resolvable fp.scale (value - feeOf operator) (effectiveFloor cfg.payoutFloorSats)
        (payoutBudget budget
        (scratchFixedBytes job.height cfg.operatorAddress job.wcHex server.coinbaseTag job.cbSalt
          job.en1Size job.en2Size)) job.payees ∧
      ∃ commitment, decodeCommitment job.wcHex = .ok commitment := by
  have range := scratchScriptSig_range job.height server.coinbaseTag job.cbSalt
  rw [← size1, ← size2] at range
  rw [WindowBuilds, absent, serves.operator, serves.fee, serves.floor, own]
  dsimp only
  rw [buildWindow_total someone few positive typed fee claims, and_iff_left range]

theorem windowBuilds_template (decoded : decodeTemplateHex hex = .ok tx)
    (parsed : parseTemplate tx = .ok t)
    (found : t.scan.rewardIdx = some i) (scanned : t.scan.outs[i]? = some c)
    (own : value = toInt64 c.value) (dictated : job.coinbasetxnHex = some hex) (budget : Nat) :
    WindowBuilds fp server job budget ↔
      Resolvable fp.scale (value - feeOf operator) (effectiveFloor cfg.payoutFloorSats)
        (payoutBudget budget
        (templateFixedBytes t i (newScriptSigLen t.ssLen
          (cbTagPush server.coinbaseTag job.cbSalt).length job.en1Size job.en2Size)))
        job.payees ∧
      Copyable tx t i ∧ 2 ≤ newScriptSigLen t.ssLen (cbTagPush server.coinbaseTag job.cbSalt).length
        job.en1Size job.en2Size ∧
      newScriptSigLen t.ssLen (cbTagPush server.coinbaseTag job.cbSalt).length job.en1Size
        job.en2Size ≤ 100 := by
  subst own
  rw [WindowBuilds, dictated, serves.operator, serves.fee, serves.floor]
  exact buildFromTemplate_total someone few decoded parsed found scanned positive typed fee claims

end

/-- A window job that was published is rendered on every authorised connection of every
listener exactly when it meets what only the renderer asks. -/
theorem window_job_renders_iff {job attached : Job} (serves : Serves cfg server)
    (typed : t.coinbaseValueSats < 2 ^ 63) (made : buildJobFromTemplate t nowMs mono = .ok job)
    (published : attachPplnsWindow fp oracle cfg netDiff db t job = some (attached, some reading))
    (someone : attached.payees ≠ []) :
    RendersEverywhere fp cfg server attached ↔
      Deliverable fp cfg server.coinbaseTag attached (windowClaims fp cfg t reading.window) := by
  obtain ⟨dictated, ownValue, bare, size1, size2⟩ := buildJobFromTemplate_fields made
  obtain ⟨mode, window⟩ := attachPplnsWindow_attached published bare someone
  obtain ⟨value, split, reward, positive, taken, sum⟩ := window.split
  obtain ⟨operator, fee⟩ := operatorFee_total taken serves.readable
  obtain rfl : split = feeOf operator := Pplns.splitFee_eq taken fee
  have payable :
      value - feeOf operator = ((windowClaims fp cfg t reading.window).map Payee.sats).sum := by
    rw [← sum, (window.perm.map Payee.sats).sum_eq]
  have part : 0 ≤ feeOf operator := by
    cases operator with
    | none => exact Int.le_refl 0
    | some out => exact (operatorFee_payable fee).sats
  have claims (small : value < 2 ^ 63) :
      claimedSats attached.payees 0 0 = .ok (value - feeOf operator) := by
    have total :=
      claimedSats_total window.addressed window.nonneg (Int.le_refl 0) (by rw [sum]; omega) 0
    rwa [Int.zero_add, sum] at total
  rw [rendersEverywhere_iff serves mode someone, Deliverable]
  have hexes : attached.coinbasetxnHex = nonEmpty t.coinbasetxnHex := by
    rw [window.rest]; exact dictated
  have values : attached.valueSats = t.coinbaseValueSats := by rw [window.rest]; exact ownValue
  have sizes1 : attached.en1Size = extranonce1Size := by rw [window.rest]; exact size1
  have sizes2 : attached.en2Size = extranonce2Size := by rw [window.rest]; exact size2
  cases there : attached.coinbasetxnHex with
  | none =>
    have own : attached.valueSats = value :=
      values.trans (windowValue_own (hexes.symm.trans there) reward).symm
    have small : value < 2 ^ 63 := by rw [← own, values]; exact typed
    have total := windowBuilds_scratch fp serves someone window.few positive small fee
      (claims small) sizes1 sizes2 own there
    simp only [total]
    rw [forall₂_and, payable, resolvable_everywhere window.perm]
    exact ⟨fun ⟨⟨readable, pays⟩, commitment⟩ => ⟨readable, commitment _ List.mem_cons_self, pays⟩,
      fun ⟨readable, commitment, pays⟩ => ⟨⟨readable, pays⟩, fun _ _ => commitment⟩⟩
  | some hex =>
    rw [windowValue, nonEmpty_some (hexes.symm.trans there)] at reward
    obtain ⟨tx, parsedT, i, c, decoded, parsed, found, scanned, own, small⟩ :=
      coinbaseTemplateReward_spec reward
    have total := windowBuilds_template fp serves someone window.few positive small fee
      (claims small) decoded parsed found
      scanned own there
    simp only [total]
    rw [forall₂_and, payable, resolvable_everywhere window.perm]
    constructor
    · rintro ⟨⟨readable, pays⟩, shape⟩
      refine ⟨readable, fun tx' t' i' decoded' parsed' found' => ?_⟩
      obtain rfl := Except.ok.inj (decoded.symm.trans decoded')
      obtain rfl := Except.ok.inj (parsed.symm.trans parsed')
      obtain rfl := Option.some.inj (found.symm.trans found')
      obtain ⟨copyable, low, high⟩ := shape _ List.mem_cons_self
      exact ⟨copyable, low, high, pays⟩
    · rintro ⟨readable, shape⟩
      obtain ⟨copyable, low, high, pays⟩ := shape tx parsedT i decoded parsed found
      exact ⟨⟨readable, pays⟩, fun _ _ => ⟨copyable, low, high⟩⟩

def portTemplate : BlockTemplate where
  height := 800000
  prevHashHex := List.replicate 64 0x30
  coinbaseValueSats := 5000000000
  targetHex := ascii "00000000ffff" ++ List.replicate 52 0x30
  bits := 0x1d00ffff
  curtime := 0
  version := 0x20000000
  defaultWitnessCommitment := some (ascii "6a24aa21a9ed" ++ List.replicate 64 0x30)
  coinbasetxnHex := none
  longpollid := none
  txs := []

def portConfig (listenerMaxBytes : List Int) : Config where
  poolMode := .pplnsCoinbase
  operatorAddress := some crowdAddress
  feeBps := .onePercent
  coinbaseMaxBytes := 1000
  listenerMaxBytes := listenerMaxBytes
  payoutFloorSats := 546
  pplnsWindowDiffMultiple := 2
  multiple_pos _ := by decide
  templateRetentionDays := 30

def portServer : Stratum.Cfg :=
  { soloCfg with
    operatorAddress := some crowdAddress
    feeBps := .onePercent
    coinbaseTag := some (ascii "/simplepool/")
    coinbasePaysWindow := true
    maxCoinbaseBytes := 1000
    payoutFloorSats := 546 }

def portDb : Store.Db :=
  { Store.Db.empty with
    workers := [⟨1, some "tb1qw508d6qejxtdg4y5r3zarvary0c5xw7kxpjzsx"⟩]
    shares := oneShare }

def portPublished (listenerMaxBytes : List Int) : Option (Job × Job × Reading) :=
  match buildJobFromTemplate portTemplate 1 1 with
  | .error _ => none
  | .ok job =>
    match attachPplnsWindow .exact .served (portConfig listenerMaxBytes) 1 portDb portTemplate
      job with
    | some (attached, some reading) => some (job, attached, reading)
    | _ => none

theorem portServes : Serves (portConfig listenerMaxBytes) portServer where
  window := rfl
  operator := rfl
  readable address named := by
    obtain rfl := Option.some.inj named
    have read : (addressToScript crowdAddress spkCap).toOption.isSome = true := by decide +kernel
    change ∃ spk, addressToScript crowdAddress spkCap = .ok spk
    cases script : addressToScript crowdAddress spkCap with
    | ok spk => exact ⟨spk, rfl⟩
    | error failure =>
      rw [script] at read
      cases read
  fee := rfl
  bytes := rfl
  floor := rfl

theorem portPublished_spec
    (published : portPublished listenerMaxBytes = some (job, attached, reading)) :
    buildJobFromTemplate portTemplate 1 1 = .ok job ∧
      attachPplnsWindow .exact .served (portConfig listenerMaxBytes) 1 portDb portTemplate job =
        some (attached, some reading) := by
  rw [portPublished] at published
  split at published
  next => cases published
  next made made_eq =>
    split at published
    next there there_eq =>
      cases published
      exact ⟨made_eq, there_eq⟩
    next => cases published

theorem window_job_renders_port :
    ∃ job attached reading, buildJobFromTemplate portTemplate 1 1 = .ok job ∧
    attachPplnsWindow .exact .served (portConfig [300]) 1 portDb portTemplate job =
      some (attached, some reading) ∧
    (RendersEverywhere .exact (portConfig [300]) portServer attached ↔
      Deliverable .exact (portConfig [300]) portServer.coinbaseTag attached
        (windowClaims .exact (portConfig [300]) portTemplate reading.window)) := by
  have shown : ∃ published ∈ portPublished [300], published.2.1.payees ≠ [] := by decide +kernel
  obtain ⟨⟨job, attached, reading⟩, published, someone⟩ := shown
  obtain ⟨made, attaching⟩ := portPublished_spec published
  exact ⟨job, attached, reading, made, attaching,
    window_job_renders_iff portServes (by decide) made attaching someone⟩

/-- The job is published, and the port with 200 bytes never gets it: the transaction, the
commitment and the output kept for the operator leave it 23. -/
theorem tight_port_gets_nothing :
    ∃ job attached reading, buildJobFromTemplate portTemplate 1 1 = .ok job ∧
    attachPplnsWindow .exact .served (portConfig [200]) 1 portDb portTemplate job =
      some (attached, some reading) ∧
    attached.payees ≠ [] ∧ Serves (portConfig [200]) portServer ∧
    ¬RendersEverywhere .exact (portConfig [200]) portServer attached := by
  have shown : ∃ published ∈ portPublished [200], published.2.1.payees ≠ [] ∧
      (connRenderCoinbase .exact portServer (authorisedConn portServer crowdAddress 200)
        published.2.1).isNone = true := by
    decide +kernel
  obtain ⟨⟨job, attached, reading⟩, published, someone, refused⟩ := shown
  obtain ⟨made, attaching⟩ := portPublished_spec published
  refine ⟨job, attached, reading, made, attaching, someone, portServes, fun everywhere => ?_⟩
  have served : Served (portConfig [200]) (authorisedConn portServer crowdAddress 200) :=
    ⟨rfl, by decide +kernel, .inr ⟨200, List.mem_singleton_self _, rfl⟩⟩
  obtain ⟨rendered, drawn⟩ := everywhere _ served
  dsimp only at refused
  rw [drawn] at refused
  cases refused

end SimplePool.Main
