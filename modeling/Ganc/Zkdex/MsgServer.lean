import Ganc.Lib.Run
import Ganc.Zkdex.Settlement

/-!
# x/zkdex — the message server, the genesis and the module's steps

The handlers of `keeper/msg_*.go` and `keeper/genesis.go`. `step` is what the
chain does with a message: the writes of a handler that returns an error or
panics are discarded.
-/

namespace Ganc.Zkdex

-- ---------------------------------------------------------------------------
-- Deposit ids
-- ---------------------------------------------------------------------------

def hexDigit (n : Nat) : Char := "0123456789abcdef".toList.getD n '0'

/-- `hex.EncodeToString`. -/
def hexEncodeToString (src : List UInt8) : String :=
  String.ofList (src.flatMap fun b => [hexDigit (b.toNat / 16), hexDigit (b.toNat % 16)])

/-- `fmt.Sprintf("dep-%s-%d-%s", req.Creator, sdkCtx.BlockHeight(),
hex.EncodeToString(randBytes))`. -/
def depositIdOf (creator : String) (height : Nat) (randBytes : Vector UInt8 4) : String :=
  "dep-" ++ creator ++ "-" ++ toString height ++ "-" ++ hexEncodeToString randBytes.toList

namespace Keeper

variable (k : Keeper)

-- ---------------------------------------------------------------------------
-- The bank
-- ---------------------------------------------------------------------------

/-- `EscrowFunds`. -/
def escrowFunds (s : State) (sender : AccAddress) (amt : Coins) : Result State := do
  let bank ← s.bank.sendCoinsFromAccountToModule sender amt
  return { s with bank := bank }

/-- `ReleaseFunds`. -/
def releaseFunds (s : State) (recipient : AccAddress) (amt : Coins) : Result State := do
  let bank ← s.bank.sendCoinsFromModuleToAccount recipient amt
  return { s with bank := bank }

-- ---------------------------------------------------------------------------
-- Handlers
-- ---------------------------------------------------------------------------

/-- `addressCodec.StringToBytes(req.Creator)`, the codec's error replaced. -/
def creatorBytes (creator : String) : Result AccAddress :=
  Result.ofExcept (fun _ => .error .invalidAddress ["invalid creator address"])
    (k.sdk.stringToBytes creator)

def updateParams (s : State) (req : MsgUpdateParams) : Result (State × Response) := do
  let authority ← Result.wrap "invalid authority address" (k.sdk.codecBytes req.authority)
  Result.require (k.authority = authority) (.error .invalidSigner
    ["invalid authority; expected " ++ k.sdk.bytesToString k.authority ++ ", got " ++
      req.authority])
  return ({ s with params := some req.params }, .updateParams)

def deposit (ctx : Context) (s : State) (req : MsgDeposit) : Result (State × Response) := do
  let creatorAddr ← k.creatorBytes req.creator
  Result.require (req.denom ≠ "") (.error .invalidRequest ["denom cannot be empty"])
  Result.require (req.amount ≠ "") (.error .invalidRequest ["amount cannot be empty"])
  let coin ← Result.ofExcept
    (fun err => .error .invalidRequest ["invalid amount/denom: " ++ err])
    (k.sdk.parseCoinNormalized (req.amount ++ req.denom))
  Result.require (0 < coin.amount)
    (.error .invalidRequest ["deposit amount must be positive"])
  let randBytes ← Result.ofExcept
    (fun err => .error (.external err) ["failed to generate deposit id"]) ctx.rand
  let depositId := depositIdOf req.creator ctx.height randBytes
  let depositRecord : DepositRecord := {
    depositId := depositId
    owner := req.creator
    denom := req.denom
    amount := req.amount
    processed := false
    createdHeight := ctx.height }
  let s ← Result.wrap "failed to escrow funds" (escrowFunds s creatorAddr (newCoins coin))
  return (s.setDepositRecord depositId depositRecord, .deposit depositRecord)

def submitBatchProof (ctx : Context) (s : State) (req : MsgSubmitBatchProof) :
    Result (State × Response) := do
  let _ ← k.creatorBytes req.creator
  Result.require (req.proofBundle ≠ [])
    (.error .invalidRequest ["proofBundle cannot be empty"])
  let publicInputs ← validateSettlementUpdate s req.settlementUpdate req.batchCommitments
  k.validateProofBundlePublicInputs req.proofBundle publicInputs
  let verifierInput ← Result.wrap "failed to encode MsgSubmitBatchProof verifier input"
    (k.buildMsgSubmitBatchProofVerifierInput req.settlementUpdate req.batchCommitments
      publicInputs)
  Result.require (k.verifyProof verifierInput req.proofBundle)
    (.error .unauthorized ["proof verification failed"])
  let s ← applySettlementUpdate ctx s req.settlementUpdate
  return (s, .submitBatchProof true publicInputs)

def claimWithdraw (s : State) (req : MsgClaimWithdraw) : Result (State × Response) := do
  let creatorAddr ← k.creatorBytes req.creator
  let withdrawId := req.withdrawId
  Result.require (withdrawId ≠ "") (.error .invalidRequest ["withdrawId cannot be empty"])
  let record ← Result.ofOption
    (.error .invalidRequest ["withdraw " ++ withdrawId ++ " not found"])
    s.withdrawRecords[withdrawId]?
  Result.require (record.claimed = false)
    (.error .invalidRequest ["withdraw " ++ withdrawId ++ " already claimed"])
  Result.require (record.destination ≠ "")
    (.error .invalidRequest ["withdraw " ++ withdrawId ++ " destination cannot be empty"])
  Result.require (record.destination = req.creator)
    (.error .unauthorized ["creator must match withdraw destination"])
  let coin ← Result.ofExcept
    (fun _ => .error .invalidRequest ["invalid withdraw amount/denom for " ++ withdrawId])
    (k.sdk.parseCoinNormalized (record.amount ++ record.denom))
  Result.require (0 < coin.amount)
    (.error .invalidRequest ["withdraw " ++ withdrawId ++ " amount must be positive"])
  let s ← Result.wrap "failed to release funds" (releaseFunds s creatorAddr (newCoins coin))
  let record : WithdrawRecord := { record with claimed := true }
  return (s.setWithdrawRecord withdrawId record, .claimWithdraw record)

-- ---------------------------------------------------------------------------
-- Steps
-- ---------------------------------------------------------------------------

def handle (ctx : Context) (s : State) : Msg → Result (State × Response)
  | .updateParams req => k.updateParams s req
  | .deposit req => k.deposit ctx s req
  | .submitBatchProof req => k.submitBatchProof ctx s req
  | .claimWithdraw req => k.claimWithdraw s req

end Keeper

/-- The delivery of one message. -/
structure Op where
  ctx : Context
  msg : Msg

def Keeper.step (k : Keeper) (s : State) (op : Op) : State :=
  commit s (k.handle op.ctx s op.msg)

-- ---------------------------------------------------------------------------
-- Genesis
-- ---------------------------------------------------------------------------

def defaultGenesis : GenesisState where
  params := {}
  currentStateRoot := "0xrootA"
  depositRecords := []
  withdrawRecords := []
  nullifierUsed := []
  depositProcessed := []
  batchRecords := []

/-- The module account is registered, so the first check of the source passes. -/
def initGenesis (s : State) (genState : GenesisState) : Result State := do
  let s := s.setStateRoot genState.currentStateRoot
  let depositRecords ← genState.depositRecords.mapM deref
  let s := depositRecords.foldl (fun s record => s.setDepositRecord record.depositId record) s
  let withdrawRecords ← genState.withdrawRecords.mapM deref
  let s := withdrawRecords.foldl
    (fun s record => s.setWithdrawRecord record.withdrawId record) s
  let s := genState.nullifierUsed.foldl State.setNullifierUsed s
  let s := genState.depositProcessed.foldl State.setDepositProcessed s
  let batchRecords ← genState.batchRecords.mapM deref
  let s := batchRecords.foldl (fun s record => s.setBatchRecord record.batchId record) s
  return { s with params := some genState.params }

/-- The lists of records are left empty, "for now" as the source says. -/
def exportGenesis (s : State) : Result GenesisState := do
  let genesis := defaultGenesis
  let params ← Result.ofOption (.error (.external "collections: not found") []) s.params
  let root := s.getStateRoot
  return { genesis with
    params := params
    currentStateRoot := root
    depositRecords := []
    withdrawRecords := []
    nullifierUsed := []
    depositProcessed := []
    batchRecords := [] }

/-- The state the default genesis leaves. -/
def State.genesis (bank : Bank) : State :=
  { State.empty bank with params := some {}, stateRoot := some "0xrootA" }

theorem initGenesis_default (bank : Bank) :
    initGenesis (State.empty bank) defaultGenesis = .ok (State.genesis bank) := rfl

/-- The state after a run that starts from the default genesis. -/
abbrev Keeper.reach (k : Keeper) (bank : Bank) (ops : List Op) : State :=
  Run.exec k.step (State.genesis bank) ops

end Ganc.Zkdex
