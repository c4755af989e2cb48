import Ganc.Lib.Json
import Ganc.Lib.Utf8
import Ganc.Zkdex.Sample
import Ganc.Zkdex.StepSpec

/-!
# x/zkdex — the input of the verifier

The text the verifier is given determines the update, the commitments and the
public inputs it was made from (`verifierInput_inj`). The text is read off with
`JsonText`: no JSON text begins another, so an object falls into its members
and an array into its elements. Of `encoding/json` the argument uses what
`Json.Faithful` says of a single string.
-/

namespace Ganc.Zkdex

open JsonText (Value Literal Plain)

/-- What `json.Marshal` makes of a string of valid UTF-8. -/
structure Json.Faithful (json : Json) : Prop where
  injective : ∀ {s t : String}, json.marshalString s = json.marshalString t → s = t
  literal : ∀ s : String, Literal (json.marshalString s).toList

-- ---------------------------------------------------------------------------
-- Arrays and objects
-- ---------------------------------------------------------------------------

/-- A rendered array is the text of the array. -/
theorem toList_jsonArray (elems : List String) :
    (Keeper.jsonArray elems).toList = JsonText.array (elems.map String.toList) := by
  simp [Keeper.jsonArray, JsonText.array, JsonText.bracketed, String.toList_append,
    String.toList_intercalate]

/-- A member of an object, with the name in quotes. -/
def memberOf (f : String × String) : List Char × List Char :=
  ('\"' :: (f.1.toList ++ ['\"']), f.2.toList)

/-- The text of a member determines its key and value. -/
theorem memberOf_injective : Function.Injective memberOf := by
  intro f g h
  obtain ⟨hName, hValue⟩ := Prod.mk.inj h
  have hChars := List.append_cancel_right (List.cons.inj hName).2
  exact Prod.ext (String.toList_inj.mp hChars) (String.toList_inj.mp hValue)

/-- A rendered object is the text of the object. -/
theorem toList_jsonObject (fields : List (String × String)) :
    (Keeper.jsonObject fields).toList = JsonText.object (fields.map memberOf) := by
  have hMembers : ∀ f : String × String,
      ("\"" ++ f.1 ++ "\":" ++ f.2).toList = JsonText.member (memberOf f) := by
    intro f
    simp [JsonText.member, memberOf, String.toList_append]
  simp [Keeper.jsonObject, JsonText.object, JsonText.bracketed, String.toList_append,
    String.toList_intercalate, Function.comp_def, ← hMembers]

def IsValue (t : String) : Prop := Value t.toList

/-- The fields of an object: names without escapes, and values. -/
structure Fields (fields : List (String × String)) : Prop where
  names : ∀ name ∈ fields.map Prod.fst, Plain name.toList
  values : ∀ value ∈ fields.map Prod.snd, IsValue value

section Fields

variable {fields fields' : List (String × String)}

theorem Fields.literals (h : Fields fields) : ∀ m ∈ fields.map memberOf, Literal m.1 := by
  intro m hm
  obtain ⟨f, hf, rfl⟩ := List.mem_map.mp hm
  exact ⟨_, (h.names _ (List.mem_map_of_mem hf)).escaped, rfl⟩

theorem Fields.isValues (h : Fields fields) : ∀ m ∈ fields.map memberOf, Value m.2 := by
  intro m hm
  obtain ⟨f, hf, rfl⟩ := List.mem_map.mp hm
  exact h.values _ (List.mem_map_of_mem hf)

/-- An object with proper fields is a value. -/
theorem Fields.isValue (h : Fields fields) : IsValue (Keeper.jsonObject fields) := by
  unfold IsValue
  rw [toList_jsonObject]
  exact .object h.literals h.isValues

/-- An object determines its fields. -/
theorem jsonObject_inj (h : Fields fields) (h' : Fields fields')
    (hEq : Keeper.jsonObject fields = Keeper.jsonObject fields') : fields = fields' := by
  have hChars := congrArg String.toList hEq
  rw [toList_jsonObject, toList_jsonObject] at hChars
  exact List.map_injective_iff.mpr memberOf_injective
    (JsonText.object_inj h.literals h.isValues h'.literals h'.isValues hChars)

end Fields

section Elements

variable {α : Type} {f : α → String} {as as' : List α}

/-- An array of values is a value. -/
theorem isValue_jsonArray (hf : ∀ a, IsValue (f a)) : IsValue (Keeper.jsonArray (as.map f)) := by
  unfold IsValue
  rw [toList_jsonArray]
  refine .array ?_
  intro t ht
  simp only [List.map_map, List.mem_map] at ht
  obtain ⟨a, -, rfl⟩ := ht
  exact hf a

/-- An array determines its elements. -/
theorem jsonArray_inj (hf : ∀ a, IsValue (f a)) (hInj : Function.Injective f)
    (hEq : Keeper.jsonArray (as.map f) = Keeper.jsonArray (as'.map f)) : as = as' := by
  have hChars := congrArg String.toList hEq
  rw [toList_jsonArray, toList_jsonArray, List.map_map, List.map_map] at hChars
  have hValues : ∀ bs : List α, ∀ t ∈ bs.map (String.toList ∘ f), Value t := by
    intro bs t ht
    obtain ⟨a, -, rfl⟩ := List.mem_map.mp ht
    exact hf a
  refine List.map_injective_iff.mpr ?_ (JsonText.array_inj (hValues as) (hValues as') hChars)
  exact fun a a' hSame => hInj (String.toList_injective hSame)

end Elements

-- ---------------------------------------------------------------------------
-- The records of the payload
-- ---------------------------------------------------------------------------

section Payload

variable {k : Keeper}

/-- A rendered string is a value. -/
theorem Json.Faithful.isValue {json : Json} (h : json.Faithful) (s : String) :
    IsValue (json.marshalString s) :=
  .string (h.literal s)

/-- The members of a rendered deposit. -/
theorem fields_deposit (h : k.json.Faithful) (d : SettlementDeposit) : Fields [
    ("depositId", k.json.marshalString d.depositId),
    ("owner", k.json.marshalString d.owner),
    ("denom", k.json.marshalString d.denom),
    ("amount", k.json.marshalString d.amount)] where
  names := by
    show ∀ name ∈ ["depositId", "owner", "denom", "amount"], Plain name.toList
    decide
  values := by simp [h.isValue]

/-- Two deposits are rendered differently. -/
theorem jsonDeposit_injective (h : k.json.Faithful) : Function.Injective k.jsonDeposit := by
  intro d d' hEq
  have hFields := jsonObject_inj (fields_deposit h d) (fields_deposit h d') hEq
  simp only [List.cons.injEq, Prod.mk.injEq, true_and, and_true] at hFields
  obtain ⟨hId, hOwner, hDenom, hAmount⟩ := hFields
  cases d
  cases d'
  rw [SettlementDeposit.mk.injEq]
  exact ⟨h.injective hId, h.injective hOwner, h.injective hDenom, h.injective hAmount⟩

/-- The members of a rendered withdrawal. -/
theorem fields_withdrawal (h : k.json.Faithful) (w : SettlementWithdrawal) : Fields [
    ("withdrawId", k.json.marshalString w.withdrawId),
    ("owner", k.json.marshalString w.owner),
    ("denom", k.json.marshalString w.denom),
    ("amount", k.json.marshalString w.amount),
    ("destination", k.json.marshalString w.destination),
    ("destinationHash", k.json.marshalString w.destinationHash),
    ("nullifier", k.json.marshalString w.nullifier)] where
  names := by
    show ∀ name ∈ ["withdrawId", "owner", "denom", "amount", "destination", "destinationHash",
      "nullifier"], Plain name.toList
    decide
  values := by simp [h.isValue]

/-- Two withdrawals are rendered differently. -/
theorem jsonWithdrawal_injective (h : k.json.Faithful) : Function.Injective k.jsonWithdrawal := by
  intro w w' hEq
  have hFields := jsonObject_inj (fields_withdrawal h w) (fields_withdrawal h w') hEq
  simp only [List.cons.injEq, Prod.mk.injEq, true_and, and_true] at hFields
  obtain ⟨hId, hOwner, hDenom, hAmount, hDestination, hHash, hNullifier⟩ := hFields
  cases w
  cases w'
  rw [SettlementWithdrawal.mk.injEq]
  exact ⟨h.injective hId, h.injective hOwner, h.injective hDenom, h.injective hAmount,
    h.injective hDestination, h.injective hHash, h.injective hNullifier⟩

/-- The members of a rendered settlement update. -/
theorem fields_update (h : k.json.Faithful) (batchId oldStateRoot newStateRoot : String)
    (deposits : List SettlementDeposit) (withdrawals : List SettlementWithdrawal) : Fields [
    ("batchId", k.json.marshalString batchId),
    ("oldStateRoot", k.json.marshalString oldStateRoot),
    ("newStateRoot", k.json.marshalString newStateRoot),
    ("deposits", Keeper.jsonArray (deposits.map k.jsonDeposit)),
    ("withdrawals", Keeper.jsonArray (withdrawals.map k.jsonWithdrawal))] where
  names := by
    show ∀ name ∈ ["batchId", "oldStateRoot", "newStateRoot", "deposits", "withdrawals"],
      Plain name.toList
    decide
  values := by
    have hDeposits : IsValue (Keeper.jsonArray (deposits.map k.jsonDeposit)) :=
      isValue_jsonArray fun d => (fields_deposit h d).isValue
    have hWithdrawals : IsValue (Keeper.jsonArray (withdrawals.map k.jsonWithdrawal)) :=
      isValue_jsonArray fun w => (fields_withdrawal h w).isValue
    simp [h.isValue, hDeposits, hWithdrawals]

/-- The members of the rendered commitments. -/
theorem fields_commitments (h : k.json.Faithful) (c : BatchCommitments) : Fields [
    ("depositsRoot", k.json.marshalString c.depositsRoot),
    ("withdrawalsRoot", k.json.marshalString c.withdrawalsRoot),
    ("nullifiersRoot", k.json.marshalString c.nullifiersRoot),
    ("withdrawOutputsRoot", k.json.marshalString c.withdrawOutputsRoot)] where
  names := by
    show ∀ name ∈ ["depositsRoot", "withdrawalsRoot", "nullifiersRoot", "withdrawOutputsRoot"],
      Plain name.toList
    decide
  values := by simp [h.isValue]

/-- The members of the payload. -/
theorem fields_payload (h : k.json.Faithful) {update commitments : String}
    (publicInputs : List String) (hUpdate : IsValue update)
    (hCommitments : IsValue commitments) : Fields [
    ("settlementUpdate", update),
    ("batchCommitments", commitments),
    ("publicInputs", Keeper.jsonArray (publicInputs.map k.json.marshalString))] where
  names := by
    show ∀ name ∈ ["settlementUpdate", "batchCommitments", "publicInputs"], Plain name.toList
    decide
  values := by
    have hInputs : IsValue (Keeper.jsonArray (publicInputs.map k.json.marshalString)) :=
      isValue_jsonArray h.isValue
    simp [hUpdate, hCommitments, hInputs]

end Payload

-- ---------------------------------------------------------------------------
-- The whole input
-- ---------------------------------------------------------------------------

/-- **The verifier sees everything.** Two updates without nil elements, with
their commitments and public inputs, are encoded alike only when they are equal
in every field. -/
theorem verifierInput_inj {k : Keeper} (hJson : k.json.Faithful) {u u' : SettlementUpdate}
    {c c' : BatchCommitments} {publicInputs publicInputs' : List String} {input : List UInt8}
    (h : k.buildMsgSubmitBatchProofVerifierInput u c publicInputs = .ok input)
    (h' : k.buildMsgSubmitBatchProofVerifierInput u' c' publicInputs' = .ok input) :
    u = u' ∧ c = c' ∧ publicInputs = publicInputs' := by
  simp only [Keeper.buildMsgSubmitBatchProofVerifierInput, Result.bind_eq_ok, mapM_deref_eq_ok,
    Result.pure_eq_ok] at h h'
  obtain ⟨ds, hDeposits, ws, hWithdrawals, hInput⟩ := h
  obtain ⟨ds', hDeposits', ws', hWithdrawals', hInput'⟩ := h'
  have hPayload := jsonObject_inj
    (fields_payload hJson publicInputs
      (fields_update hJson u.batchId u.oldStateRoot u.newStateRoot ds ws).isValue
      (fields_commitments hJson c).isValue)
    (fields_payload hJson publicInputs'
      (fields_update hJson u'.batchId u'.oldStateRoot u'.newStateRoot ds' ws').isValue
      (fields_commitments hJson c').isValue)
    (Utf8.toUTF8_inj (hInput.trans hInput'.symm))
  simp only [List.cons.injEq, Prod.mk.injEq, true_and, and_true] at hPayload
  obtain ⟨hUpdate, hCommitments, hInputs⟩ := hPayload
  have hUpdateFields := jsonObject_inj
    (fields_update hJson u.batchId u.oldStateRoot u.newStateRoot ds ws)
    (fields_update hJson u'.batchId u'.oldStateRoot u'.newStateRoot ds' ws') hUpdate
  have hCommitmentFields := jsonObject_inj (fields_commitments hJson c)
    (fields_commitments hJson c') hCommitments
  simp only [List.cons.injEq, Prod.mk.injEq, true_and, and_true] at hUpdateFields hCommitmentFields
  obtain ⟨hBatch, hOld, hNew, hDs, hWs⟩ := hUpdateFields
  obtain ⟨hDepositsRoot, hWithdrawalsRoot, hNullifiersRoot, hOutputsRoot⟩ := hCommitmentFields
  have hDs : ds = ds' :=
    jsonArray_inj (fun d => (fields_deposit hJson d).isValue) (jsonDeposit_injective hJson) hDs
  have hWs : ws = ws' :=
    jsonArray_inj (fun w => (fields_withdrawal hJson w).isValue) (jsonWithdrawal_injective hJson)
      hWs
  refine ⟨?_, ?_, ?_⟩
  · cases u
    cases u'
    rw [SettlementUpdate.mk.injEq]
    refine ⟨hJson.injective hBatch, hJson.injective hOld, hJson.injective hNew, ?_, ?_⟩
    · exact hDeposits.trans (hDs ▸ hDeposits'.symm)
    · exact hWithdrawals.trans (hWs ▸ hWithdrawals'.symm)
  · cases c
    cases c'
    rw [BatchCommitments.mk.injEq]
    exact ⟨hJson.injective hDepositsRoot, hJson.injective hWithdrawalsRoot,
      hJson.injective hNullifiersRoot, hJson.injective hOutputsRoot⟩
  · exact jsonArray_inj hJson.isValue (fun _ _ => hJson.injective) hInputs

namespace Sample

/-- A backslash before every quote and every backslash. -/
def escape : List Char → List Char
  | [] => []
  | c :: cs => if c = '\"' ∨ c = '\\' then '\\' :: c :: escape cs else c :: escape cs

/-- What is escaped holds no bare quote. -/
theorem escaped_escape (cs : List Char) : JsonText.Escaped (escape cs) := by
  induction cs with
  | nil => exact .nil
  | cons c cs ih =>
    rw [escape]
    split
    next => exact .escape ih
    next hPlain =>
      rw [not_or] at hPlain
      exact .char hPlain.1 hPlain.2 ih

/-- Escaping loses nothing. -/
theorem escape_injective : Function.Injective escape := by
  intro cs
  induction cs with
  | nil =>
    intro cs' h
    cases cs' with
    | nil => rfl
    | cons c' cs' =>
      rw [escape, escape] at h
      split at h <;> cases h
  | cons c cs ih =>
    intro cs' h
    cases cs' with
    | nil =>
      rw [escape, escape] at h
      split at h <;> cases h
    | cons c' cs' =>
      rw [escape, escape] at h
      split at h <;> split at h
      next =>
        obtain ⟨rfl, hRest⟩ := List.cons.inj (List.cons.inj h).2
        rw [ih hRest]
      next hPlain => exact absurd (.inr (List.cons.inj h).1.symm) hPlain
      next hPlain _ => exact absurd (.inr (List.cons.inj h).1) hPlain
      next =>
        obtain ⟨rfl, hRest⟩ := List.cons.inj h
        rw [ih hRest]

/-- The keeper of the sample with a JSON that escapes quotes and backslashes. -/
def escaping : Keeper where
  sdk := Sdk.sample
  json := { json with
    marshalString := fun t => String.ofList ('\"' :: (escape t.toList ++ ['\"'])) }
  authority := List.replicate 20 9
  verifier := some fun _ _ => true

/-- The escaping of the sample is faithful. -/
theorem escaping_faithful : escaping.json.Faithful where
  injective := by
    intro s t h
    have hChars := String.ofList_injective h
    exact String.toList_injective
      (escape_injective (List.append_cancel_right (List.cons.inj hChars).2))
  literal s := ⟨escape s.toList, escaped_escape _, String.toList_ofList⟩

end Sample

open Ganc.Zkdex.Sample in
/-- The input of the sample batch encodes nothing but this batch. -/
theorem verifierInput_inj_sample : ∃ input,
    escaping.buildMsgSubmitBatchProofVerifierInput update commitments bundle.publicInputs =
      .ok input ∧
    ∀ u c publicInputs,
      escaping.buildMsgSubmitBatchProofVerifierInput u c publicInputs = .ok input →
      u = update ∧ c = commitments ∧ publicInputs = bundle.publicInputs := by
  obtain ⟨input, hInput⟩ := Result.exists_of_isOk
    (x := escaping.buildMsgSubmitBatchProofVerifierInput update commitments bundle.publicInputs)
    (by decide +kernel)
  exact ⟨input, hInput, fun u c publicInputs h => verifierInput_inj escaping_faithful h hInput⟩

end Ganc.Zkdex
