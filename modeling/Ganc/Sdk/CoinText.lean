import Ganc.Lib.Delimited
import Ganc.Sdk.Sample

/-!
# Coin expressions

The text `sdk.ParseCoinNormalized` reads: a decimal number, a gap, and a denom,
with spaces around it. `CoinText` is such an expression taken apart, and
`Sdk.ReadsCoins` says that whatever the parser accepts is one, and that it
answers with the digits before the fraction and with the denom.

The keepers write the expression themselves, an amount followed by a denom, and
keep the two strings. `CoinText.named_iff` says for which pairs of strings the
parsed coin is the one they name.
-/

namespace Ganc

/-- `unicode.IsSpace`. -/
def isSpace (c : Char) : Bool :=
  c.toNat ∈ [0x09, 0x0A, 0x0B, 0x0C, 0x0D, 0x20, 0x85, 0xA0, 0x1680, 0x2028, 0x2029, 0x202F,
    0x205F, 0x3000] || decide (0x2000 ≤ c.toNat ∧ c.toNat ≤ 0x200A)

def IsDigits (cs : List Char) : Prop := cs ≠ [] ∧ ∀ c ∈ cs, c.isDigit

instance (cs : List Char) : Decidable (IsDigits cs) :=
  haveI : Decidable (∀ c ∈ cs, c.isDigit) := List.decidableBAll _ cs
  inferInstanceAs (Decidable (cs ≠ [] ∧ ∀ c ∈ cs, c.isDigit))

/-- A coin expression. -/
structure CoinText where
  lead : List Char
  digits : List Char
  fraction : List Char
  gap : List Char
  denom : List Char
  trail : List Char
  lead_space : ∀ c ∈ lead, isSpace c
  digits_digit : IsDigits digits
  fraction_dot : fraction = [] ∨ ∃ ds, IsDigits ds ∧ fraction = '.' :: ds
  gap_space : ∀ c ∈ gap, isSpace c
  denom_letter : ∃ c ∈ denom.head?, c.isAlpha
  denom_solid : ∀ c ∈ denom, isSpace c = false
  trail_space : ∀ c ∈ trail, isSpace c

/-- The value of a string of digits. -/
def digitsValue (cs : List Char) : Nat := Nat.ofDigitChars 10 cs 0

/-- The amount and the denom are the digits and the denom of the coin. -/
structure Coin.NamedBy (coin : Coin) (amount denom : String) : Prop where
  denom : coin.denom = denom
  digits : IsDigits amount.toList
  amount : digitsValue amount.toList = coin.amount

/-- Nothing but digits, and a denom that starts with a letter and has no spaces. -/
structure PlainPair (amount denom : String) : Prop where
  digits : IsDigits amount.toList
  letter : ∃ c ∈ denom.toList.head?, c.isAlpha
  solid : ∀ c ∈ denom.toList, isSpace c = false

theorem isDigit_of_isSpace {c : Char} (h : isSpace c) : c.isDigit = false := by
  rw [Bool.eq_false_iff]
  intro hDigit
  rw [Char.isDigit_iff_toNat] at hDigit
  simp [isSpace] at h hDigit
  omega

/-- The code points of the ASCII letters. -/
theorem toNat_of_isAlpha {c : Char} (h : c.isAlpha) :
    65 ≤ c.toNat ∧ c.toNat ≤ 90 ∨ 97 ≤ c.toNat ∧ c.toNat ≤ 122 := by
  rcases (Bool.or_eq_true ..).mp (show (c.isUpper || c.isLower) = true from h) with
    hUpper | hLower
  · have hRange : 'A'.val ≤ c.val ∧ c.val ≤ 'Z'.val := of_decide_eq_true hUpper
    exact .inl ⟨UInt32.le_iff_toNat_le.mp hRange.1, UInt32.le_iff_toNat_le.mp hRange.2⟩
  · have hRange : decide ('a'.val ≤ c.val) = true ∧ decide (c.val ≤ 'z'.val) = true :=
      (Bool.and_eq_true ..).mp hLower
    exact .inr ⟨UInt32.le_iff_toNat_le.mp (of_decide_eq_true hRange.1),
      UInt32.le_iff_toNat_le.mp (of_decide_eq_true hRange.2)⟩

theorem isAlpha_of_isSpace {c : Char} (h : isSpace c) : c.isAlpha = false := by
  rw [Bool.eq_false_iff]
  intro hAlpha
  have hRange := toNat_of_isAlpha hAlpha
  simp [isSpace] at h
  omega

theorem isDigit_of_isAlpha {c : Char} (h : c.isAlpha) : c.isDigit = false := by
  rw [Bool.eq_false_iff]
  intro hDigit
  have hRange := toNat_of_isAlpha h
  rw [Char.isDigit_iff_toNat] at hDigit
  simp at hDigit
  omega

namespace CoinText

variable (e : CoinText)

/-- The text of the expression. -/
def chars : List Char := e.lead ++ (e.digits ++ (e.fraction ++ (e.gap ++ (e.denom ++ e.trail))))

/-- The coin it stands for: the fraction is dropped. -/
def coin : Coin := ⟨String.ofList e.denom, digitsValue e.digits⟩

/-- The digits of the whole part end where it ends. -/
theorem head?_rest : ∀ c ∈ (e.fraction ++ (e.gap ++ (e.denom ++ e.trail))).head?,
    c.isDigit = false := by
  intro c hc
  rcases e.fraction_dot with hNone | ⟨ds, -, hDot⟩
  · rw [hNone, List.nil_append] at hc
    cases hGap : e.gap with
    | cons g gap =>
      rw [hGap] at hc
      obtain rfl := Option.some.inj hc
      exact isDigit_of_isSpace (e.gap_space g (hGap ▸ List.mem_cons_self ..))
    | nil =>
      obtain ⟨l, hLetter, hAlpha⟩ := e.denom_letter
      rw [hGap, List.nil_append, List.head?_append, hLetter] at hc
      obtain rfl := Option.some.inj hc
      exact isDigit_of_isAlpha hAlpha
  · rw [hDot] at hc
    obtain rfl := Option.some.inj hc
    rfl

variable {e} {amount denom : String}

/-- An expression that starts with digits and goes on with a letter is these
digits and the denom, and nothing else but trailing spaces. -/
theorem digits_of_plain (hChars : e.chars = (amount ++ denom).toList)
    (hDigits : IsDigits amount.toList) (hLetter : ∃ c ∈ denom.toList.head?, c.isAlpha) :
    e.digits = amount.toList ∧ e.denom ++ e.trail = denom.toList := by
  obtain ⟨l, hHead, hAlpha⟩ := hLetter
  rw [String.toList_append, chars] at hChars
  have hLead : e.lead = [] := by
    cases hLead : e.lead with
    | nil => rfl
    | cons c lead =>
      obtain ⟨a, as, hAmount⟩ := List.exists_cons_of_ne_nil hDigits.1
      rw [hLead, hAmount] at hChars
      obtain ⟨rfl, -⟩ := List.cons.inj hChars
      have hSpace := isDigit_of_isSpace (e.lead_space c (hLead ▸ List.mem_cons_self ..))
      have hDigit := hDigits.2 c (hAmount ▸ List.mem_cons_self ..)
      rw [hSpace] at hDigit
      cases hDigit
  rw [hLead, List.nil_append] at hChars
  obtain ⟨hAmount, hRest⟩ := Delimited.class_inj_left e.digits_digit.2 hDigits.2 e.head?_rest
    (by
      intro c hc
      obtain rfl := Option.some.inj (hHead.symm.trans hc)
      exact isDigit_of_isAlpha hAlpha) hChars
  refine ⟨hAmount, ?_⟩
  -- the letter is neither a dot nor a space
  rcases e.fraction_dot with hNone | ⟨ds, -, hDot⟩
  · cases hGap : e.gap with
    | nil => rwa [hNone, hGap] at hRest
    | cons g gap =>
      rw [← hRest, hNone, hGap] at hHead
      obtain rfl := Option.some.inj hHead
      rw [isAlpha_of_isSpace (e.gap_space g (hGap ▸ List.mem_cons_self ..))] at hAlpha
      cases hAlpha
  · rw [← hRest, hDot] at hHead
    obtain rfl := Option.some.inj hHead
    cases hAlpha

/-- The coin of an amount written before a denom is the one the two strings name
exactly when they are plain. -/
theorem named_iff (hChars : e.chars = (amount ++ denom).toList) :
    e.coin.NamedBy amount denom ↔ PlainPair amount denom := by
  constructor
  · intro h
    have hDenom : denom.toList = e.denom := by
      rw [← h.denom]
      exact String.toList_ofList
    exact ⟨h.digits, hDenom ▸ e.denom_letter, hDenom ▸ e.denom_solid⟩
  · intro h
    obtain ⟨hDigits, hDenom⟩ := digits_of_plain hChars h.digits h.letter
    have hTrail : e.trail = [] := by
      refine List.eq_nil_iff_forall_not_mem.mpr ?_
      intro c hc
      have hSolid := h.solid c (hDenom ▸ List.mem_append_right _ hc)
      rw [e.trail_space c hc] at hSolid
      cases hSolid
    rw [hTrail, List.append_nil] at hDenom
    refine ⟨?_, h.digits, ?_⟩
    · show String.ofList e.denom = denom
      rw [hDenom, String.ofList_toList]
    · show digitsValue _ = digitsValue e.digits
      rw [hDigits]

end CoinText

/-- `sdk.ParseCoinNormalized` accepts coin expressions only, and answers with
the coin. -/
def Sdk.ReadsCoins (sdk : Sdk) : Prop :=
  ∀ {t : String} {coin : Coin}, sdk.parseCoinNormalized t = .ok coin →
    ∃ e : CoinText, e.chars = t.toList ∧ e.coin = coin

/-- A parsed coin is the one that the two strings name exactly if both are plain. -/
theorem Sdk.ReadsCoins.named_iff {sdk : Sdk} (h : sdk.ReadsCoins) {amount denom : String}
    {coin : Coin} (hParsed : sdk.parseCoinNormalized (amount ++ denom) = .ok coin) :
    coin.NamedBy amount denom ↔ PlainPair amount denom := by
  obtain ⟨e, hChars, rfl⟩ := h hParsed
  exact CoinText.named_iff hChars

namespace Sample

/-- No character of a denomination is a space. -/
theorem isSpace_of_denomChar {c : Char} (h : isDenomChar c) : isSpace c = false := by
  rw [Bool.eq_false_iff]
  intro hSpace
  have hDigit := isDigit_of_isSpace hSpace
  have hAlpha := isAlpha_of_isSpace hSpace
  simp only [isDenomChar, Char.isAlphanum, hDigit, hAlpha, Bool.or_self, Bool.false_or,
    decide_eq_true_eq] at h
  have hNone : ['/', ':', '.', '_', '-'].all (fun c => !isSpace c) := by decide
  have hc := List.all_eq_true.mp hNone c h
  rw [hSpace] at hc
  cases hc

/-- A valid denomination starts with a letter and holds no space. -/
theorem solid_of_validDenom {d : String} (h : validDenom d) :
    (∃ c ∈ d.toList.head?, c.isAlpha) ∧ ∀ c ∈ d.toList, isSpace c = false := by
  unfold validDenom at h
  revert h
  cases d.toList with
  | nil => simp
  | cons a cs =>
    intro h
    simp only [Bool.and_eq_true, List.all_eq_true] at h
    refine ⟨⟨a, rfl, h.1.1⟩, ?_⟩
    intro c hc
    rcases List.mem_cons.mp hc with rfl | hIn
    · exact isSpace_of_denomChar (by simp [isDenomChar, Char.isAlphanum, h.1.1])
    · exact isSpace_of_denomChar (h.1.2 c hIn)

/-- What is parsed is a list of digits, with its decimal value. -/
theorem parseDigits_eq_some {ds : List Char} {n : Nat} (h : parseDigits ds = some n) :
    IsDigits ds ∧ digitsValue ds = n := by
  unfold parseDigits at h
  split at h
  next hDigits => exact ⟨⟨hDigits.1, List.all_eq_true.mp hDigits.2⟩, Option.some.inj h⟩
  next => cases h

end Sample

/-- The sample SDK reads coins as the real one does. -/
theorem Sdk.sample_readsCoins : Sdk.sample.ReadsCoins := by
  intro t coin hParsed
  change Sample.parseCoin t = .ok coin at hParsed
  unfold Sample.parseCoin at hParsed
  dsimp only at hParsed
  split at hParsed
  next n hParse =>
    split at hParsed
    next hValid =>
      obtain ⟨hDigits, hValue⟩ := Sample.parseDigits_eq_some hParse
      obtain ⟨hLetter, hSolid⟩ := Sample.solid_of_validDenom hValid
      rw [String.toList_ofList] at hLetter hSolid
      refine ⟨{
        lead := []
        digits := t.toList.takeWhile Char.isDigit
        fraction := []
        gap := []
        denom := t.toList.dropWhile Char.isDigit
        trail := []
        lead_space := by simp
        digits_digit := hDigits
        fraction_dot := .inl rfl
        gap_space := by simp
        denom_letter := hLetter
        denom_solid := hSolid
        trail_space := by simp }, ?_, ?_⟩
      · simp [CoinText.chars]
      · rw [← Except.ok.inj hParsed, ← hValue]
        rfl
    next => cases hParsed
  next => cases hParsed

end Ganc
