import Mathlib.Algebra.Order.Ring.Int
import Mathlib.Tactic.Common

/-!
# The Cosmos SDK surface the keepers are written against

What `x/dex` and `x/zkdex` use of the Go runtime and of the SDK packages
that are not part of the repository:

* `Result` — a handler returns a value, returns an error, or panics. The
  transaction runner discards the writes of a handler in the last two cases.
* `MathInt` — `math.Int`, whose zero value wraps a nil pointer.
* `Coin`, `newCoin`, `newCoins` — `sdk.Coin` and its constructors.
* `Sdk` — the parsers of the SDK, as parameters; `Sdk.Lawful` is what their
  documentation promises and the keepers rely on.
-/

namespace Ganc

-- ---------------------------------------------------------------------------
-- Accounts and failures
-- ---------------------------------------------------------------------------

/-- `sdk.AccAddress`. -/
abbrev AccAddress := List UInt8

/-- An account of x/bank as a keeper sees it: the account of its own module,
which no message can be signed for, or the account of an address. -/
inductive Account
  | module
  | user (addr : AccAddress)
deriving DecidableEq, Repr

/-- The root errors the handlers return. -/
inductive SdkError
  | invalidRequest
  | invalidAddress
  | invalidSigner
  | keyNotFound
  | unauthorized
  | logic
  /-- x/bank refused a send: `sender` does not hold the coins. -/
  | insufficientFunds (sender : Account)
  /-- An error of a library, with its own text. -/
  | external (text : String)
deriving DecidableEq, Repr

/-- Why a handler panicked. -/
inductive PanicReason
  /-- A nil pointer was dereferenced. -/
  | nilPointer
  /-- `math.Int` arithmetic left 256 bits. -/
  | intOverflow
  /-- `sdk.NewCoin` on an invalid denom, a nil or a negative amount. -/
  | invalidCoin
  /-- A slice expression beyond the length of the string. -/
  | sliceBounds
deriving DecidableEq, Repr

/-- How a handler can fail: an error with the texts wrapped around its root,
outermost first, or a panic. -/
inductive Failure
  | error (root : SdkError) (wraps : List String)
  | panic (reason : PanicReason)
deriving DecidableEq, Repr

/-- `errorsmod.Wrap(err, text)`; a panic unwinds past it. -/
def Failure.wrap (text : String) : Failure → Failure
  | .error root wraps => .error root (text :: wraps)
  | .panic reason => .panic reason

def Failure.IsPanic (f : Failure) : Prop :=
  ∃ reason, f = .panic reason

/-- The outcome of a handler or of a helper it calls. -/
abbrev Result (α : Type) := Except Failure α

namespace Result

variable {α β : Type}

/-- Goes on when `p` holds. -/
def require (p : Prop) [Decidable p] (f : Failure) : Result Unit :=
  if p then .ok () else .error f

/-- The value, or `f` when there is none. -/
def ofOption (f : Failure) : Option α → Result α
  | some a => .ok a
  | none => .error f

/-- The value of a library call, its error `err` reported as `f err`. -/
def ofExcept {ε : Type} (f : ε → Failure) : Except ε α → Result α
  | .ok a => .ok a
  | .error err => .error (f err)

/-- Wraps the error of a call. -/
def wrap (text : String) : Result α → Result α
  | .ok a => .ok a
  | .error f => .error (f.wrap text)

@[simp] theorem bind_eq_ok {x : Result α} {f : α → Result β} {b : β} :
    x >>= f = .ok b ↔ ∃ a, x = .ok a ∧ f a = .ok b := by
  cases x <;> simp [bind, Except.bind]

@[simp] theorem bind_eq_error {x : Result α} {f : α → Result β} {e : Failure} :
    x >>= f = .error e ↔ x = .error e ∨ ∃ a, x = .ok a ∧ f a = .error e := by
  cases x <;> simp [bind, Except.bind]

/-- Two continuations that agree on the value of `x` cannot be told apart. -/
theorem bind_congr {x : Result α} {f g : α → Result β} (h : ∀ a, x = .ok a → f a = g a) :
    x >>= f = x >>= g := by
  cases x with
  | error e => rfl
  | ok a => exact h a rfl

/-- A result that is not a failure has a value. -/
theorem exists_of_isOk {x : Result α} (h : x.isOk = true) : ∃ a, x = .ok a := by
  cases x with
  | error e => cases h
  | ok a => exact ⟨a, rfl⟩

@[simp] theorem pure_eq_ok {a b : α} : (pure a : Result α) = .ok b ↔ a = b := by
  simp [pure, Except.pure]

@[simp] theorem pure_ne_error {a : α} {e : Failure} : (pure a : Result α) ≠ .error e := by
  simp [pure, Except.pure]

@[simp] theorem require_eq_ok {p : Prop} [Decidable p] {f : Failure} {u : Unit} :
    require p f = .ok u ↔ p := by
  unfold require
  split <;> simp_all

@[simp] theorem require_eq_error {p : Prop} [Decidable p] {f e : Failure} :
    require p f = .error e ↔ ¬ p ∧ f = e := by
  unfold require
  split <;> simp_all

@[simp] theorem ofOption_eq_ok {o : Option α} {f : Failure} {a : α} :
    ofOption f o = .ok a ↔ o = some a := by
  cases o <;> simp [ofOption]

@[simp] theorem ofOption_eq_error {o : Option α} {f e : Failure} :
    ofOption f o = .error e ↔ o = none ∧ f = e := by
  cases o <;> simp [ofOption]

@[simp] theorem ofExcept_eq_ok {ε : Type} {f : ε → Failure} {x : Except ε α} {a : α} :
    ofExcept f x = .ok a ↔ x = .ok a := by
  cases x <;> simp [ofExcept]

@[simp] theorem ofExcept_eq_error {ε : Type} {f : ε → Failure} {x : Except ε α} {e : Failure} :
    ofExcept f x = .error e ↔ ∃ err, x = .error err ∧ f err = e := by
  cases x <;> simp [ofExcept]

@[simp] theorem wrap_eq_ok {x : Result α} {text : String} {a : α} :
    wrap text x = .ok a ↔ x = .ok a := by
  cases x <;> simp [wrap]

@[simp] theorem wrap_eq_error {x : Result α} {text : String} {e : Failure} :
    wrap text x = .error e ↔ ∃ f, x = .error f ∧ f.wrap text = e := by
  cases x <;> simp [wrap]

end Result

/-- What the transaction runner keeps of a handler: its state when it
succeeded, the state before it otherwise. -/
def commit {σ ρ : Type} (s : σ) : Result (σ × ρ) → σ
  | .ok (s', _) => s'
  | .error _ => s

/-- What the transaction runner reports of a handler. -/
def response {σ ρ : Type} : Result (σ × ρ) → Result ρ
  | .ok (_, r) => .ok r
  | .error f => .error f

/-- What is written down of a handler: `notes` when it succeeded, nothing
otherwise. -/
def recorded {σ ρ β : Type} (notes : List β) : Result (σ × ρ) → List β
  | .ok _ => notes
  | .error _ => []

section Commit

variable {σ ρ : Type}

@[simp] theorem commit_ok (s s' : σ) (r : ρ) : commit s (.ok (s', r)) = s' := rfl

@[simp] theorem commit_error (s : σ) (f : Failure) :
    commit s (.error f : Result (σ × ρ)) = s := rfl

/-- A property the old state has, and the new state of every success, is one
of the committed state. -/
theorem commit_induction {P : σ → Prop} {s : σ} {x : Result (σ × ρ)} (hs : P s)
    (hok : ∀ s' r, x = .ok (s', r) → P s') : P (commit s x) := by
  match x with
  | .ok (s', r) => exact hok s' r rfl
  | .error _ => exact hs

/-- The same of what is written down of the handler and the committed state. -/
theorem recorded_induction {β : Type} {notes : List β} {P : List β → σ → Prop} {s : σ}
    {x : Result (σ × ρ)} (hs : P [] s) (hok : ∀ s' r, x = .ok (s', r) → P notes s') :
    P (recorded notes x) (commit s x) := by
  match x with
  | .ok (s', r) => exact hok s' r rfl
  | .error _ => exact hs

end Commit

-- ---------------------------------------------------------------------------
-- math.Int
-- ---------------------------------------------------------------------------

/-- `math.Int`; `none` is the zero value `Int{}`, which wraps a nil pointer. -/
abbrev MathInt := Option Int

namespace MathInt

/-- The value behind the pointer. -/
def deref (a : MathInt) : Result Int :=
  Result.ofOption (.panic .nilPointer) a

/-- `a.GT(b)`. The comparison of `big.Int` answers "equal" on two identical
pointers before it looks behind them, so two nil values do not panic. -/
def gt : MathInt → MathInt → Result Bool
  | some a, some b => .ok (b < a)
  | none, none => .ok false
  | _, _ => .error (.panic .nilPointer)

/-- `a.LT(b)`. -/
def lt (a b : MathInt) : Result Bool := gt b a

/-- The range of `math.Int`: at most `MaxBitLen` bits, and a sign. -/
def Fits (i : Int) : Prop := i.natAbs < 2 ^ 256

instance (i : Int) : Decidable (Fits i) := by
  unfold Fits
  infer_instance

/-- The overflow check behind the arithmetic of `math.Int`. -/
def checked (i : Int) : Result Int := do
  Result.require (Fits i) (.panic .intOverflow)
  return i

/-- `a.Mul(b)`. -/
def mul (a b : MathInt) : Result Int := do
  let x ← deref a
  let y ← deref b
  checked (x * y)

/-- `a.Sub(b)`. -/
def sub (a b : MathInt) : Result Int := do
  let x ← deref a
  let y ← deref b
  checked (x - y)

/-- `math.MinInt(a, b)`. -/
def minInt (a b : MathInt) : Result Int := do
  let x ← deref a
  let y ← deref b
  return min x y

@[simp] theorem deref_eq_ok {a : MathInt} {i : Int} : deref a = .ok i ↔ a = some i :=
  Result.ofOption_eq_ok

@[simp] theorem checked_eq_ok {i j : Int} : checked i = .ok j ↔ Fits i ∧ i = j := by
  simp only [checked, Result.bind_eq_ok, Result.require_eq_ok, Result.pure_eq_ok, exists_const]

section Panics

variable {a b : MathInt} {f : Failure}

/-- A nil pointer panics. -/
theorem deref_error (h : deref a = .error f) : f.IsPanic := by
  obtain ⟨-, rfl⟩ := Result.ofOption_eq_error.mp h
  exact ⟨_, rfl⟩

/-- An overflow panics. -/
theorem checked_error {i : Int} (h : checked i = .error f) : f.IsPanic := by
  simp only [checked, Result.bind_eq_error, Result.require_eq_error, Result.pure_ne_error,
    and_false, exists_false, or_false] at h
  exact ⟨_, h.2.symm⟩

theorem mul_error (h : mul a b = .error f) : f.IsPanic := by
  simp only [mul, Result.bind_eq_error] at h
  rcases h with h | ⟨_, _, h | ⟨_, _, h⟩⟩
  · exact deref_error h
  · exact deref_error h
  · exact checked_error h

theorem sub_error (h : sub a b = .error f) : f.IsPanic := by
  simp only [sub, Result.bind_eq_error] at h
  rcases h with h | ⟨_, _, h | ⟨_, _, h⟩⟩
  · exact deref_error h
  · exact deref_error h
  · exact checked_error h

theorem minInt_error (h : minInt a b = .error f) : f.IsPanic := by
  simp only [minInt, Result.bind_eq_error, Result.pure_ne_error, and_false, exists_false,
    or_false] at h
  rcases h with h | ⟨_, _, h⟩
  · exact deref_error h
  · exact deref_error h

theorem gt_error (h : gt a b = .error f) : f.IsPanic := by
  unfold gt at h
  split at h <;> cases h
  exact ⟨_, rfl⟩

end Panics

/-- Whatever lies between zero and a number in range is in range. -/
theorem Fits.of_le {i j : Int} (h : Fits i) (h0 : 0 ≤ j) (hle : j ≤ i) : Fits j := by
  unfold Fits at *
  omega

end MathInt

-- ---------------------------------------------------------------------------
-- Coins
-- ---------------------------------------------------------------------------

/-- `sdk.Coin`, valid by construction: its amount is not negative. -/
structure Coin where
  denom : String
  amount : Nat
deriving DecidableEq, Repr

/-- `sdk.Coins`, a set of coins without zero amounts. -/
abbrev Coins := List Coin

/-- `sdk.NewCoins(coin)`: zero coins are dropped. -/
def newCoins (c : Coin) : Coins :=
  if c.amount = 0 then [] else [c]

/-- The SDK functions the handlers call, as parameters. -/
structure Sdk where
  /-- `math.NewIntFromString`; `none` is its `ok = false`, which comes with
  the nil `Int`. -/
  newIntFromString : String → MathInt
  /-- `sdk.ValidateDenom(denom) == nil`. -/
  validateDenom : String → Bool
  /-- `sdk.AccAddressFromBech32`. -/
  accAddressFromBech32 : String → Option AccAddress
  /-- `StringToBytes` of the keepers' address codec, with the error text. -/
  stringToBytes : String → Except String AccAddress
  /-- `BytesToString` of the keepers' address codec, its error dropped. -/
  bytesToString : AccAddress → String
  /-- `sdk.ParseCoinNormalized`, with the error text. -/
  parseCoinNormalized : String → Except String Coin

/-- A call of the address codec, with the codec's own error. -/
def Sdk.codecBytes (sdk : Sdk) (t : String) : Result AccAddress :=
  match sdk.stringToBytes t with
  | .ok addr => .ok addr
  | .error err => .error (.error (.external err) [])

/-- `sdk.NewCoin`. -/
def Sdk.newCoin (sdk : Sdk) (denom : String) (amount : MathInt) : Result Coin := do
  Result.require (sdk.validateDenom denom) (.panic .invalidCoin)
  let n ← Result.ofOption (.panic .invalidCoin) amount
  Result.require (0 ≤ n) (.panic .invalidCoin)
  return ⟨denom, n.toNat⟩

/-- A coin is made of a valid denomination and an amount that is neither nil nor negative. -/
theorem Sdk.newCoin_eq_ok {sdk : Sdk} {denom : String} {amount : MathInt} {c : Coin} :
    sdk.newCoin denom amount = .ok c ↔
      sdk.validateDenom denom ∧ ∃ n : Nat, amount = some (n : Int) ∧ c = ⟨denom, n⟩ := by
  simp only [newCoin, Result.bind_eq_ok, Result.require_eq_ok, Result.ofOption_eq_ok,
    Result.pure_eq_ok, exists_const]
  constructor
  · rintro ⟨hDenom, n, rfl, hn, rfl⟩
    exact ⟨hDenom, n.toNat, by rw [Int.toNat_of_nonneg hn], rfl⟩
  · rintro ⟨hDenom, n, rfl, rfl⟩
    exact ⟨hDenom, n, rfl, by omega, rfl⟩

/-- Otherwise `NewCoin` panics. -/
theorem Sdk.newCoin_error {sdk : Sdk} {denom : String} {amount : MathInt} {f : Failure}
    (h : sdk.newCoin denom amount = .error f) : f.IsPanic := by
  simp only [newCoin, Result.bind_eq_error, Result.require_eq_error, Result.ofOption_eq_error,
    Result.pure_ne_error, and_false, exists_false, or_false] at h
  rcases h with ⟨-, rfl⟩ | ⟨_, _, ⟨-, rfl⟩ | ⟨_, _, -, rfl⟩⟩ <;> exact ⟨_, rfl⟩

/-- The characters of an integer literal: a sign, a base prefix, digits of
that base and underscores between them. -/
def literalChars : List Char := "+-_0123456789abcdefABCDEFxXoO".toList

/-- What the documentation of the SDK functions promises and the proofs use. -/
structure Sdk.Lawful (sdk : Sdk) : Prop where
  /-- A parsed `math.Int` has at most 256 bits. -/
  newInt_fits : ∀ {t i}, sdk.newIntFromString t = some i → MathInt.Fits i
  /-- `NewIntFromString` reads back what `String` prints. -/
  newInt_toString : ∀ {i : Int}, MathInt.Fits i →
    sdk.newIntFromString (toString i) = some i
  newInt_literal : ∀ {t i}, sdk.newIntFromString t = some i →
    t.toList ≠ [] ∧ ∀ c ∈ t.toList, c ∈ literalChars
  /-- A denom is made of letters, digits and `/`, `:`, `.`, `_`, `-`. -/
  denom_charset : ∀ {d}, sdk.validateDenom d → '|' ∉ d.toList
  /-- An address has the Bech32 prefix of the application, `cosmos`, in lower or in upper
  case, a separator and a checksum. -/
  bech32_length : ∀ {t a}, sdk.accAddressFromBech32 t = some a → 6 ≤ t.toList.length

namespace Sdk.Lawful

variable {sdk : Sdk}

/-- The empty string is no number. -/
theorem newInt_empty (h : sdk.Lawful) : sdk.newIntFromString "" = none := by
  cases hParse : sdk.newIntFromString "" with
  | none => rfl
  | some i => exact absurd rfl (h.newInt_literal hParse).1

/-- A string with a character no literal has does not parse. -/
theorem notMem_of_newInt (h : sdk.Lawful) {t : String} {i : Int}
    (hParse : sdk.newIntFromString t = some i) {c : Char} (hc : c ∉ literalChars) :
    c ∉ t.toList :=
  fun hMem => hc ((h.newInt_literal hParse).2 c hMem)

/-- The string that `LIMIT` orders are tested against is zero. -/
theorem newInt_zero (h : sdk.Lawful) : sdk.newIntFromString "0" = some 0 :=
  h.newInt_toString (i := 0) (by decide)

end Sdk.Lawful

end Ganc
