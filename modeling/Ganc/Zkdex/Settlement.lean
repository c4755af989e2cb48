import Ganc.Zkdex.Types

/-!
# x/zkdex — settlement

`keeper/msg_submit_batch_proof.go` and the accessors of `keeper/keeper.go` it
is written with: the checks of a settlement update against the stores, the
input of the verifier, and the writes of an accepted update.
-/

namespace Ganc.Zkdex

-- ---------------------------------------------------------------------------
-- Accessors of the stores
-- ---------------------------------------------------------------------------

namespace State

/-- A root that was never set reads as the default. -/
def getStateRoot (s : State) : String := s.stateRoot.getD "0xrootA"

def isNullifierUsed (s : State) (nullifier : String) : Bool :=
  s.nullifierUsed[nullifier]?.getD false

def isDepositProcessed (s : State) (depositId : String) : Bool :=
  s.depositProcessed[depositId]?.getD false

def setStateRoot (s : State) (root : String) : State :=
  { s with stateRoot := some root }

def setDepositRecord (s : State) (depositId : String) (record : DepositRecord) : State :=
  { s with depositRecords := s.depositRecords.insert depositId record }

def setWithdrawRecord (s : State) (withdrawId : String) (record : WithdrawRecord) : State :=
  { s with withdrawRecords := s.withdrawRecords.insert withdrawId record }

def setNullifierUsed (s : State) (nullifier : String) : State :=
  { s with nullifierUsed := s.nullifierUsed.insert nullifier true }

def setBatchRecord (s : State) (batchId : String) (record : BatchRecord) : State :=
  { s with batchRecords := s.batchRecords.insert batchId record }

/-- Marks the deposit in both places, the second one only when the record
exists. -/
def setDepositProcessed (s : State) (depositId : String) : State :=
  let s := { s with depositProcessed := s.depositProcessed.insert depositId true }
  match s.depositRecords[depositId]? with
  | none => s
  | some record => s.setDepositRecord depositId { record with processed := true }

end State

/-- Follows a pointer. -/
def deref {α : Type} (p : Option α) : Result α := Result.ofOption (.panic .nilPointer) p

-- ---------------------------------------------------------------------------
-- The checks
-- ---------------------------------------------------------------------------

/-- The loop of `validateSettlementDeposits`, with the ids seen so far. -/
def validateDeposits (s : State) : List String → List (Option SettlementDeposit) → Result Unit
  | _, [] => .ok ()
  | seen, p :: deposits => do
    let deposit ← Result.ofOption (.error .invalidRequest ["deposit cannot be nil"]) p
    let depositId := deposit.depositId
    Result.require (depositId ≠ "") (.error .invalidRequest ["depositId cannot be empty"])
    Result.require (depositId ∉ seen)
      (.error .invalidRequest ["duplicate depositId " ++ depositId])
    let record ← Result.ofOption
      (.error .invalidRequest ["deposit " ++ depositId ++ " not found"])
      s.depositRecords[depositId]?
    Result.require (s.isDepositProcessed depositId = false ∧ record.processed = false)
      (.error .invalidRequest ["deposit " ++ depositId ++ " already processed"])
    Result.require (record.owner = deposit.owner ∧ record.denom = deposit.denom ∧
        record.amount = deposit.amount)
      (.error .invalidRequest ["deposit " ++ depositId ++ " does not match on-chain record"])
    validateDeposits s (depositId :: seen) deposits

def validateSettlementDeposits (s : State) (deposits : List (Option SettlementDeposit)) :
    Result Unit :=
  validateDeposits s [] deposits

/-- The loop of `validateSettlementWithdrawals`, with the ids and the nullifiers
seen so far. -/
def validateWithdrawals (s : State) :
    List String → List String → List (Option SettlementWithdrawal) → Result Unit
  | _, _, [] => .ok ()
  | seenWithdrawals, seenNullifiers, p :: withdrawals => do
    let withdrawal ← Result.ofOption (.error .invalidRequest ["withdrawal cannot be nil"]) p
    let withdrawId := withdrawal.withdrawId
    let nullifier := withdrawal.nullifier
    Result.require (withdrawId ≠ "") (.error .invalidRequest ["withdrawId cannot be empty"])
    Result.require (withdrawal.owner ≠ "" ∧ withdrawal.denom ≠ "" ∧ withdrawal.amount ≠ "" ∧
        withdrawal.destination ≠ "")
      (.error .invalidRequest ["withdrawal " ++ withdrawId ++ " has empty required fields"])
    Result.require (withdrawal.destinationHash ≠ "") (.error .invalidRequest
      ["withdrawal " ++ withdrawId ++ " destinationHash cannot be empty"])
    Result.require (nullifier ≠ "") (.error .invalidRequest
      ["withdrawal " ++ withdrawId ++ " nullifier cannot be empty"])
    Result.require (withdrawId ∉ seenWithdrawals)
      (.error .invalidRequest ["duplicate withdrawId " ++ withdrawId])
    Result.require (nullifier ∉ seenNullifiers)
      (.error .invalidRequest ["duplicate nullifier " ++ nullifier])
    Result.require (s.isNullifierUsed nullifier = false)
      (.error .invalidRequest ["nullifier " ++ nullifier ++ " already used"])
    Result.require (withdrawId ∉ s.withdrawRecords)
      (.error .invalidRequest ["withdrawId " ++ withdrawId ++ " already exists"])
    validateWithdrawals s (withdrawId :: seenWithdrawals) (nullifier :: seenNullifiers)
      withdrawals

def validateSettlementWithdrawals (s : State)
    (withdrawals : List (Option SettlementWithdrawal)) : Result Unit :=
  validateWithdrawals s [] [] withdrawals

/-- The loop over the derived public inputs, from index `i` on. -/
def checkPublicInputs : Nat → List String → Result Unit
  | _, [] => .ok ()
  | i, input :: inputs => do
    Result.require (input ≠ "")
      (.error .invalidRequest ["public input " ++ toString i ++ " cannot be empty"])
    checkPublicInputs (i + 1) inputs

/-- Checks the update against the stores and derives the public inputs. -/
def validateSettlementUpdate (s : State) (settlementUpdate : SettlementUpdate)
    (batchCommitments : BatchCommitments) : Result (List String) := do
  let batchId := settlementUpdate.batchId
  Result.require (batchId ≠ "") (.error .invalidRequest ["batchId cannot be empty"])
  Result.require (batchId ∉ s.batchRecords)
    (.error .invalidRequest ["batchId " ++ batchId ++ " already exists"])
  Result.require (settlementUpdate.oldStateRoot ≠ "")
    (.error .invalidRequest ["oldStateRoot cannot be empty"])
  Result.require (settlementUpdate.newStateRoot ≠ "")
    (.error .invalidRequest ["newStateRoot cannot be empty"])
  let currentRoot := s.getStateRoot
  Result.require (settlementUpdate.oldStateRoot = currentRoot)
    (.error .invalidRequest ["oldStateRoot mismatch: got " ++ settlementUpdate.oldStateRoot ++
      ", current " ++ currentRoot])
  Result.require (¬ (settlementUpdate.deposits = [] ∧ settlementUpdate.withdrawals = []))
    (.error .invalidRequest ["settlement update must include at least one deposit or withdrawal"])
  validateSettlementDeposits s settlementUpdate.deposits
  validateSettlementWithdrawals s settlementUpdate.withdrawals
  let publicInputs := [settlementUpdate.oldStateRoot, settlementUpdate.newStateRoot,
    batchCommitments.depositsRoot, batchCommitments.withdrawalsRoot,
    batchCommitments.nullifiersRoot, batchCommitments.withdrawOutputsRoot]
  checkPublicInputs 0 publicInputs
  return publicInputs

namespace Keeper

variable (k : Keeper)

/-- The public inputs the proof was made for are the ones the chain derived. -/
def validateProofBundlePublicInputs (proofBundle : List UInt8) (publicInputs : List String) :
    Result Unit := do
  let bundle ← Result.ofExcept (fun _ => .error .invalidRequest ["proofBundle must be JSON"])
    (k.json.unmarshalProofBundle proofBundle)
  Result.require (bundle.proof ≠ "")
    (.error .invalidRequest ["proofBundle.proof cannot be empty"])
  Result.require (bundle.publicInputs = publicInputs) (.error .invalidRequest
    ["proofBundle.publicInputs do not match derived publicInputs"])

-- ---------------------------------------------------------------------------
-- The input of the verifier
-- ---------------------------------------------------------------------------

def jsonArray (elems : List String) : String := "[" ++ ",".intercalate elems ++ "]"

/-- An object, its values already encoded. -/
def jsonObject (fields : List (String × String)) : String :=
  "\x7b" ++ ",".intercalate (fields.map fun f => "\"" ++ f.1 ++ "\":" ++ f.2) ++ "\x7d"

def jsonDeposit (deposit : SettlementDeposit) : String :=
  jsonObject [
    ("depositId", k.json.marshalString deposit.depositId),
    ("owner", k.json.marshalString deposit.owner),
    ("denom", k.json.marshalString deposit.denom),
    ("amount", k.json.marshalString deposit.amount)]

def jsonWithdrawal (withdrawal : SettlementWithdrawal) : String :=
  jsonObject [
    ("withdrawId", k.json.marshalString withdrawal.withdrawId),
    ("owner", k.json.marshalString withdrawal.owner),
    ("denom", k.json.marshalString withdrawal.denom),
    ("amount", k.json.marshalString withdrawal.amount),
    ("destination", k.json.marshalString withdrawal.destination),
    ("destinationHash", k.json.marshalString withdrawal.destinationHash),
    ("nullifier", k.json.marshalString withdrawal.nullifier)]

/-- The JSON text of the update, the commitments and the public inputs. -/
def buildMsgSubmitBatchProofVerifierInput (settlementUpdate : SettlementUpdate)
    (batchCommitments : BatchCommitments) (publicInputs : List String) :
    Result (List UInt8) := do
  let deposits ← settlementUpdate.deposits.mapM deref
  let withdrawals ← settlementUpdate.withdrawals.mapM deref
  let payload := jsonObject [
    ("settlementUpdate", jsonObject [
      ("batchId", k.json.marshalString settlementUpdate.batchId),
      ("oldStateRoot", k.json.marshalString settlementUpdate.oldStateRoot),
      ("newStateRoot", k.json.marshalString settlementUpdate.newStateRoot),
      ("deposits", jsonArray (deposits.map k.jsonDeposit)),
      ("withdrawals", jsonArray (withdrawals.map k.jsonWithdrawal))]),
    ("batchCommitments", jsonObject [
      ("depositsRoot", k.json.marshalString batchCommitments.depositsRoot),
      ("withdrawalsRoot", k.json.marshalString batchCommitments.withdrawalsRoot),
      ("nullifiersRoot", k.json.marshalString batchCommitments.nullifiersRoot),
      ("withdrawOutputsRoot", k.json.marshalString batchCommitments.withdrawOutputsRoot)]),
    ("publicInputs", jsonArray (publicInputs.map k.json.marshalString))]
  return payload.toUTF8.toList

/-- A keeper without a verifier rejects. -/
def verifyProof (update proofBundle : List UInt8) : Bool :=
  match k.verifier with
  | none => false
  | some verifier => verifier update proofBundle

end Keeper

-- ---------------------------------------------------------------------------
-- The writes
-- ---------------------------------------------------------------------------

/-- The record of a withdrawal that was just settled. -/
def SettlementWithdrawal.toRecord (withdrawal : SettlementWithdrawal) : WithdrawRecord where
  withdrawId := withdrawal.withdrawId
  owner := withdrawal.owner
  denom := withdrawal.denom
  amount := withdrawal.amount
  destination := withdrawal.destination
  nullifier := withdrawal.nullifier
  claimed := false

/-- The loop over the deposits, with the ids collected so far. -/
def applyDeposits (s : State) :
    List String → List (Option SettlementDeposit) → Result (State × List String)
  | depositIds, [] => .ok (s, depositIds)
  | depositIds, p :: deposits => do
    let deposit ← deref p
    applyDeposits (s.setDepositProcessed deposit.depositId) (depositIds ++ [deposit.depositId])
      deposits

/-- The loop over the withdrawals, with the ids collected so far. -/
def applyWithdrawals (s : State) :
    List String → List (Option SettlementWithdrawal) → Result (State × List String)
  | withdrawIds, [] => .ok (s, withdrawIds)
  | withdrawIds, p :: withdrawals => do
    let withdrawal ← deref p
    let s := s.setNullifierUsed withdrawal.nullifier
    let s := s.setWithdrawRecord withdrawal.withdrawId withdrawal.toRecord
    applyWithdrawals s (withdrawIds ++ [withdrawal.withdrawId]) withdrawals

def applySettlementUpdate (ctx : Context) (s : State) (settlementUpdate : SettlementUpdate) :
    Result State := do
  let s := s.setStateRoot settlementUpdate.newStateRoot
  let (s, depositIds) ← applyDeposits s [] settlementUpdate.deposits
  let (s, withdrawIds) ← applyWithdrawals s [] settlementUpdate.withdrawals
  let batchRecord : BatchRecord := {
    batchId := settlementUpdate.batchId
    oldStateRoot := settlementUpdate.oldStateRoot
    newStateRoot := settlementUpdate.newStateRoot
    depositIds := depositIds
    withdrawIds := withdrawIds
    createdHeight := ctx.height }
  return s.setBatchRecord settlementUpdate.batchId batchRecord

end Ganc.Zkdex
