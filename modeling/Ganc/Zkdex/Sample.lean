import Ganc.Sdk.Sample
import Ganc.Zkdex.MsgServer

/-!
# x/zkdex — a concrete keeper and operations

The keeper over the concrete SDK and a verifier that accepts, and a deposit, a
batch and a claim it accepts one after the other.
-/

namespace Ganc.Zkdex.Sample

open Ganc.Sample

/-- Every user account holds a thousand of every denom. -/
def bank : Bank where
  balance
    | .module, _ => 0
    | .user _, _ => 1000
  log := []

def zeros : Vector UInt8 4 := .replicate 4 0

def ones : Vector UInt8 4 := .replicate 4 1

def aliceDeposits : MsgDeposit := ⟨alice, "uatom", "100"⟩

/-- Alice's deposit is processed, and 40 are credited to Bob. -/
def update : SettlementUpdate where
  batchId := "batch-1"
  oldStateRoot := "0xrootA"
  newStateRoot := "0xrootB"
  deposits := [some ⟨depositIdOf alice 1 zeros, alice, "uatom", "100"⟩]
  withdrawals := [some ⟨"wd-1", alice, "uatom", "40", bob, "0xhash", "0xnullifier"⟩]

def commitments : BatchCommitments := ⟨"0xd", "0xw", "0xn", "0xo"⟩

def bundle : AgreementProofBundle :=
  ⟨"0xproof", ["0xrootA", "0xrootB", "0xd", "0xw", "0xn", "0xo"]⟩

/-- A string without characters that JSON escapes. -/
def quoted (t : String) : String := "\"" ++ t ++ "\""

/-- The bundle in JSON. -/
def proofBundle : List UInt8 :=
  (Keeper.jsonObject [("proof", quoted bundle.proof),
    ("publicInputs", Keeper.jsonArray (bundle.publicInputs.map quoted))]).toUTF8.toList

/-- Reads the one bundle back. -/
def json : Json where
  unmarshalProofBundle bytes :=
    if bytes = proofBundle then .ok bundle else .error "invalid character"
  marshalString := quoted

def keeper : Keeper := ⟨Sdk.sample, json, List.replicate 20 9, some fun _ _ => true⟩

def encoded (b : AgreementProofBundle) : List UInt8 :=
  (Keeper.jsonObject [("proof", quoted b.proof),
    ("publicInputs", Keeper.jsonArray (b.publicInputs.map quoted))]).toUTF8.toList

/-- Reads the given bundles back. -/
def reading (bundles : List AgreementProofBundle) : Json where
  unmarshalProofBundle bytes := match bundles.find? fun b => encoded b = bytes with
    | some b => .ok b
    | none => .error "invalid character"
  marshalString := quoted

def deposits : Op := ⟨⟨1, .ok zeros⟩, .deposit aliceDeposits⟩

def settles : Op :=
  ⟨⟨2, .ok zeros⟩, .submitBatchProof ⟨carol, update, commitments, proofBundle⟩⟩

def claims : Op := ⟨⟨3, .ok zeros⟩, .claimWithdraw ⟨bob, "wd-1"⟩⟩

end Ganc.Zkdex.Sample
