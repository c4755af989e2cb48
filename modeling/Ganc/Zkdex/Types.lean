import Ganc.Lib.Store
import Ganc.Sdk.Bank

/-!
# x/zkdex — records, messages and the state

The records of the stores, the messages of the `Msg` service, the genesis
state and the keeper, field by field as in `proto/ob/zkdex/v1` and
`x/zkdex/keeper/keeper.go`. The elements of a repeated message field are
pointers in the source, and `none` is the nil pointer here.
-/

namespace Ganc.Zkdex

-- ---------------------------------------------------------------------------
-- Records
-- ---------------------------------------------------------------------------

structure Params where
deriving DecidableEq, Repr

structure DepositRecord where
  depositId : String
  owner : String
  denom : String
  amount : String
  processed : Bool
  createdHeight : Nat
deriving DecidableEq, Repr

structure WithdrawRecord where
  withdrawId : String
  owner : String
  denom : String
  amount : String
  destination : String
  nullifier : String
  claimed : Bool
deriving DecidableEq, Repr

structure BatchRecord where
  batchId : String
  oldStateRoot : String
  newStateRoot : String
  depositIds : List String
  withdrawIds : List String
  createdHeight : Nat
deriving DecidableEq, Repr

/-- The stores of the module and the bank. -/
structure State where
  params : Option Params
  stateRoot : Option String
  depositRecords : Store String DepositRecord
  withdrawRecords : Store String WithdrawRecord
  nullifierUsed : Store String Bool
  depositProcessed : Store String Bool
  batchRecords : Store String BatchRecord
  bank : Bank

/-- The stores before the genesis of the module, over a given bank. -/
def State.empty (bank : Bank) : State where
  params := none
  stateRoot := none
  depositRecords := ∅
  withdrawRecords := ∅
  nullifierUsed := ∅
  depositProcessed := ∅
  batchRecords := ∅
  bank := bank

structure GenesisState where
  params : Params
  currentStateRoot : String
  depositRecords : List (Option DepositRecord)
  withdrawRecords : List (Option WithdrawRecord)
  nullifierUsed : List String
  depositProcessed : List String
  batchRecords : List (Option BatchRecord)

-- ---------------------------------------------------------------------------
-- Messages
-- ---------------------------------------------------------------------------

structure MsgUpdateParams where
  authority : String
  params : Params
deriving DecidableEq, Repr

structure MsgDeposit where
  creator : String
  denom : String
  amount : String
deriving DecidableEq, Repr

structure SettlementDeposit where
  depositId : String
  owner : String
  denom : String
  amount : String
deriving DecidableEq, Repr

structure SettlementWithdrawal where
  withdrawId : String
  owner : String
  denom : String
  amount : String
  destination : String
  destinationHash : String
  nullifier : String
deriving DecidableEq, Repr

/-- The transition a relayer proposes. -/
structure SettlementUpdate where
  batchId : String
  oldStateRoot : String
  newStateRoot : String
  deposits : List (Option SettlementDeposit)
  withdrawals : List (Option SettlementWithdrawal)
deriving DecidableEq, Repr

structure BatchCommitments where
  depositsRoot : String
  withdrawalsRoot : String
  nullifiersRoot : String
  withdrawOutputsRoot : String
deriving DecidableEq, Repr

structure MsgSubmitBatchProof where
  creator : String
  settlementUpdate : SettlementUpdate
  batchCommitments : BatchCommitments
  proofBundle : List UInt8
deriving DecidableEq, Repr

structure MsgClaimWithdraw where
  creator : String
  withdrawId : String
deriving DecidableEq, Repr

inductive Msg
  | updateParams (req : MsgUpdateParams)
  | deposit (req : MsgDeposit)
  | submitBatchProof (req : MsgSubmitBatchProof)
  | claimWithdraw (req : MsgClaimWithdraw)
deriving DecidableEq, Repr

inductive Response
  | updateParams
  | deposit (depositRecord : DepositRecord)
  | submitBatchProof (accepted : Bool) (publicInputs : List String)
  | claimWithdraw (withdrawRecord : WithdrawRecord)
deriving DecidableEq, Repr

-- ---------------------------------------------------------------------------
-- Keeper and context
-- ---------------------------------------------------------------------------

structure AgreementProofBundle where
  proof : String
  publicInputs : List String
deriving DecidableEq, Repr

/-- What `SubmitBatchProof` uses of `encoding/json`, as parameters. -/
structure Json where
  /-- `json.Unmarshal` into an `agreementProofBundle`, with the error text. -/
  unmarshalProofBundle : List UInt8 → Except String AgreementProofBundle
  /-- A string as `json.Marshal` writes it, quotes included. -/
  marshalString : String → String

/-- A `ProofVerifier`, given the update and the proof bundle. -/
abbrev ProofVerifier := List UInt8 → List UInt8 → Bool

/-- `StubProofVerifier`; `ProvideModule` wires the one that accepts. -/
def stubProofVerifier (accept : Bool) : ProofVerifier := fun _ _ => accept

structure Keeper where
  sdk : Sdk
  json : Json
  authority : AccAddress
  verifier : Option ProofVerifier

/-- What a handler takes from its surroundings: the block height, and the four
bytes `crypto/rand` gives this node, or the error text. -/
structure Context where
  height : Nat
  rand : Except String (Vector UInt8 4)

end Ganc.Zkdex
