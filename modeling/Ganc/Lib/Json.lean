import Ganc.Lib.Delimited

/-!
# JSON texts end by themselves

The JSON texts made of strings, arrays and objects, as lists of characters and
without white space. No such text begins another one (`Value.split`), whatever
it is followed by, and so

* `array_inj` — an array is made of one list of elements;
* `object_inj` — an object is made of one list of names and values.

How the characters of a string are escaped does not matter, as long as no quote
inside is left unescaped (`Literal`).
-/

namespace JsonText

-- ---------------------------------------------------------------------------
-- Strings
-- ---------------------------------------------------------------------------

/-- The inside of a string: no quote but after a backslash, and no backslash at
the end but after another one. -/
inductive Escaped : List Char → Prop
  | nil : Escaped []
  | char {c : Char} {cs : List Char} (hQuote : c ≠ '\"') (hBackslash : c ≠ '\\')
      (hRest : Escaped cs) : Escaped (c :: cs)
  | escape {c : Char} {cs : List Char} (hRest : Escaped cs) : Escaped ('\\' :: c :: cs)

/-- A string with its quotes. -/
def Literal (t : List Char) : Prop := ∃ body, Escaped body ∧ t = '\"' :: (body ++ ['\"'])

/-- Nothing in the text needs to be escaped. -/
def Plain (cs : List Char) : Prop := ∀ c ∈ cs, c ≠ '\"' ∧ c ≠ '\\'

instance (cs : List Char) : Decidable (Plain cs) := List.decidableBAll _ cs

/-- Text without quotes and backslashes is its own escaped form. -/
theorem Plain.escaped {cs : List Char} (h : Plain cs) : Escaped cs := by
  induction cs with
  | nil => exact .nil
  | cons c cs ih =>
    obtain ⟨hQuote, hBackslash⟩ := h c (List.mem_cons_self ..)
    exact .char hQuote hBackslash (ih fun c' hc => h c' (List.mem_cons_of_mem _ hc))

/-- The first quote that is not escaped ends the string. -/
theorem Escaped.split {b b' r r' : List Char} (hb : Escaped b) (hb' : Escaped b')
    (h : b ++ '\"' :: r = b' ++ '\"' :: r') : b = b' ∧ r = r' := by
  induction hb generalizing b' with
  | nil =>
    cases hb' with
    | nil => exact ⟨rfl, (List.cons.inj h).2⟩
    | char hQuote _ _ => exact absurd (List.cons.inj h).1.symm hQuote
    | escape _ => exact absurd (List.cons.inj h).1 (by decide)
  | char hQuote hBackslash _ ih =>
    cases hb' with
    | nil => exact absurd (List.cons.inj h).1 hQuote
    | char _ _ hRest =>
      obtain ⟨rfl, hTail⟩ := List.cons.inj h
      obtain ⟨rfl, hEnd⟩ := ih hRest hTail
      exact ⟨rfl, hEnd⟩
    | escape _ => exact absurd (List.cons.inj h).1 hBackslash
  | escape _ ih =>
    cases hb' with
    | nil => exact absurd (List.cons.inj h).1 (by decide)
    | char _ hBackslash _ => exact absurd (List.cons.inj h).1.symm hBackslash
    | escape hRest =>
      obtain ⟨rfl, hTail⟩ := List.cons.inj (List.cons.inj h).2
      obtain ⟨rfl, hEnd⟩ := ih hRest hTail
      exact ⟨rfl, hEnd⟩

/-- A string literal ends where it ends, whatever follows. -/
theorem Literal.split {t t' r r' : List Char} (ht : Literal t) (ht' : Literal t')
    (h : t ++ r = t' ++ r') : t = t' ∧ r = r' := by
  obtain ⟨b, hb, rfl⟩ := ht
  obtain ⟨b', hb', rfl⟩ := ht'
  simp only [List.cons_append, List.append_assoc, List.nil_append, List.cons.injEq,
    true_and] at h
  obtain ⟨rfl, hEnd⟩ := hb.split hb' h
  exact ⟨rfl, hEnd⟩

-- ---------------------------------------------------------------------------
-- Lists between brackets
-- ---------------------------------------------------------------------------

section Bracketed

variable {β : Type*} {f : β → List Char} {o c : Char} {xs ys : List β} {r r' : List Char}

/-- The texts of a list with commas between them, from `o` to `c`. -/
def bracketed (o c : Char) (f : β → List Char) (xs : List β) : List Char :=
  o :: ([','].intercalate (xs.map f) ++ [c])

/-- What follows the first text. -/
def following (c : Char) (f : β → List Char) : List β → List Char
  | [] => [c]
  | x :: xs => ',' :: (f x ++ following c f xs)

theorem bracketed_cons (x : β) (xs : List β) :
    bracketed o c f (x :: xs) = o :: (f x ++ following c f xs) := by
  unfold bracketed
  congr 1
  induction xs generalizing x with
  | nil => rw [List.map_singleton, List.intercalate_singleton, following]
  | cons y xs ih =>
    rw [List.map_cons, List.map_cons, List.intercalate_cons_cons, List.append_assoc,
      List.append_assoc, ← List.map_cons, ih]
    rfl

/-- The text does not look like the end of a list closed by `c`. -/
def Opens (c : Char) (t : List Char) : Prop := ∃ a as, t = a :: as ∧ a ≠ c

/-- Of a list of elements with a separator before each, each is read back. -/
theorem following_split (hc : c ≠ ',') (hSplit : ∀ x ∈ xs, ∀ y ∈ ys, ∀ r r' : List Char,
      f x ++ r = f y ++ r' → x = y ∧ r = r')
    (h : following c f xs ++ r = following c f ys ++ r') : xs = ys ∧ r = r' := by
  induction xs generalizing ys with
  | nil =>
    cases ys with
    | nil => exact ⟨rfl, (List.cons.inj h).2⟩
    | cons y ys => exact absurd (List.cons.inj h).1 hc
  | cons x xs ih =>
    cases ys with
    | nil => exact absurd (List.cons.inj h).1.symm hc
    | cons y ys =>
      simp only [following, List.cons_append, List.append_assoc, List.cons.injEq,
        true_and] at h
      obtain ⟨rfl, hRest⟩ := hSplit x (List.mem_cons_self ..) y (List.mem_cons_self ..) _ _ h
      obtain ⟨rfl, hEnd⟩ := ih (fun x' hx y' hy =>
        hSplit x' (List.mem_cons_of_mem _ hx) y' (List.mem_cons_of_mem _ hy)) hRest
      exact ⟨rfl, hEnd⟩

/-- A list is split from what follows it when its elements are. -/
theorem bracketed_split (hc : c ≠ ',') (hxs : ∀ x ∈ xs, Opens c (f x))
    (hys : ∀ y ∈ ys, Opens c (f y)) (hSplit : ∀ x ∈ xs, ∀ y ∈ ys, ∀ r r' : List Char,
      f x ++ r = f y ++ r' → x = y ∧ r = r')
    (h : bracketed o c f xs ++ r = bracketed o c f ys ++ r') : xs = ys ∧ r = r' := by
  cases xs with
  | nil =>
    cases ys with
    | nil => exact ⟨rfl, List.append_cancel_left h⟩
    | cons y ys =>
      obtain ⟨a, as, hStart, ha⟩ := hys y (List.mem_cons_self ..)
      rw [bracketed_cons, hStart] at h
      exact absurd (List.cons.inj (List.cons.inj h).2).1.symm ha
  | cons x xs =>
    cases ys with
    | nil =>
      obtain ⟨a, as, hStart, ha⟩ := hxs x (List.mem_cons_self ..)
      rw [bracketed_cons, hStart] at h
      exact absurd (List.cons.inj (List.cons.inj h).2).1 ha
    | cons y ys =>
      simp only [bracketed_cons, List.cons_append, List.append_assoc, List.cons.injEq,
        true_and] at h
      obtain ⟨rfl, hRest⟩ := hSplit x (List.mem_cons_self ..) y (List.mem_cons_self ..) _ _ h
      obtain ⟨rfl, hEnd⟩ := following_split hc (fun x' hx y' hy =>
        hSplit x' (List.mem_cons_of_mem _ hx) y' (List.mem_cons_of_mem _ hy)) hRest
      exact ⟨rfl, hEnd⟩

end Bracketed

-- ---------------------------------------------------------------------------
-- Values
-- ---------------------------------------------------------------------------

def array (ts : List (List Char)) : List Char := bracketed '[' ']' id ts

/-- A name and its value. -/
def member (m : List Char × List Char) : List Char := m.1 ++ ':' :: m.2

def object (ms : List (List Char × List Char)) : List Char :=
  bracketed '\x7b' '\x7d' member ms

inductive Value : List Char → Prop
  | string {t : List Char} (hLiteral : Literal t) : Value t
  | array {ts : List (List Char)} (hAll : ∀ t ∈ ts, Value t) : Value (array ts)
  | object {ms : List (List Char × List Char)} (hNames : ∀ m ∈ ms, Literal m.1)
      (hAll : ∀ m ∈ ms, Value m.2) : Value (object ms)

/-- A literal starts with a quote. -/
theorem Literal.opens {t : List Char} (h : Literal t) (r : List Char) {c : Char}
    (hc : '\"' ≠ c) : Opens c (t ++ r) := by
  obtain ⟨b, -, rfl⟩ := h
  exact ⟨_, _, rfl, hc⟩

/-- No value starts with a closing bracket. -/
theorem Value.opens {t : List Char} (h : Value t) : Opens ']' t := by
  cases h with
  | string hLiteral => exact List.append_nil t ▸ hLiteral.opens [] (by decide)
  | array _ => exact ⟨_, _, rfl, by decide⟩
  | object _ _ => exact ⟨_, _, rfl, by decide⟩

section Split

variable {r r' : List Char}

/-- The elements of an array are read back, whatever follows the array. -/
theorem array_split {ts us : List (List Char)} (hts : ∀ t ∈ ts, Value t) (hus : ∀ u ∈ us, Value u)
    (hSplit : ∀ t ∈ ts, ∀ u ∈ us, ∀ r r' : List Char, t ++ r = u ++ r' → t = u ∧ r = r')
    (h : array ts ++ r = array us ++ r') : ts = us ∧ r = r' :=
  bracketed_split (by decide) (fun t ht => (hts t ht).opens) (fun u hu => (hus u hu).opens) hSplit h

/-- The members of an object are read back, whatever follows the object. -/
theorem object_split {ms ns : List (List Char × List Char)} (hms : ∀ m ∈ ms, Literal m.1)
    (hns : ∀ n ∈ ns, Literal n.1)
    (hSplit : ∀ m ∈ ms, ∀ n ∈ ns, ∀ r r' : List Char,
      m.2 ++ r = n.2 ++ r' → m.2 = n.2 ∧ r = r')
    (h : object ms ++ r = object ns ++ r') : ms = ns ∧ r = r' := by
  refine bracketed_split (by decide) (fun m hm => (hms m hm).opens _ (by decide))
    (fun n hn => (hns n hn).opens _ (by decide)) ?_ h
  intro m hm n hn r r' hMember
  simp only [List.append_assoc, List.cons_append] at hMember
  obtain ⟨hName, hRest⟩ := (hms m hm).split (hns n hn) hMember
  obtain ⟨hValue, hEnd⟩ := hSplit m hm n hn _ _ (List.cons.inj hRest).2
  exact ⟨Prod.ext hName hValue, hEnd⟩

/-- **No JSON text begins another.** -/
theorem Value.split {t u : List Char} (ht : Value t) (hu : Value u) (h : t ++ r = u ++ r') :
    t = u ∧ r = r' := by
  induction ht generalizing u r r' with
  | string hLiteral =>
    cases hu with
    | string hLiteral' => exact hLiteral.split hLiteral' h
    | array _ =>
      obtain ⟨b, -, rfl⟩ := hLiteral
      exact absurd (List.cons.inj h).1 (by decide)
    | object _ _ =>
      obtain ⟨b, -, rfl⟩ := hLiteral
      exact absurd (List.cons.inj h).1 (by decide)
  | array hAll ih =>
    cases hu with
    | string hLiteral =>
      obtain ⟨b, -, rfl⟩ := hLiteral
      exact absurd (List.cons.inj h).1 (by decide)
    | array hAll' =>
      obtain ⟨rfl, hEnd⟩ := array_split hAll hAll' (fun t ht u hu _ _ => ih t ht (hAll' u hu)) h
      exact ⟨rfl, hEnd⟩
    | object _ _ => exact absurd (List.cons.inj h).1 (by decide)
  | object hNames hAll ih =>
    cases hu with
    | string hLiteral =>
      obtain ⟨b, -, rfl⟩ := hLiteral
      exact absurd (List.cons.inj h).1 (by decide)
    | array _ => exact absurd (List.cons.inj h).1 (by decide)
    | object hNames' hAll' =>
      obtain ⟨rfl, hEnd⟩ := object_split hNames hNames'
        (fun m hm n hn _ _ => ih m hm (hAll' n hn)) h
      exact ⟨rfl, hEnd⟩

end Split

/-- An array determines its elements. -/
theorem array_inj {ts us : List (List Char)} (hts : ∀ t ∈ ts, Value t) (hus : ∀ u ∈ us, Value u)
    (h : array ts = array us) : ts = us :=
  (array_split hts hus (fun t ht u hu _ _ => (hts t ht).split (hus u hu))
    (congrArg (· ++ []) h)).1

/-- An object determines its members. -/
theorem object_inj {ms ns : List (List Char × List Char)} (hms : ∀ m ∈ ms, Literal m.1)
    (hms' : ∀ m ∈ ms, Value m.2) (hns : ∀ n ∈ ns, Literal n.1) (hns' : ∀ n ∈ ns, Value n.2)
    (h : object ms = object ns) : ms = ns :=
  (object_split hms hns (fun m hm n hn _ _ => (hms' m hm).split (hns' n hn))
    (congrArg (· ++ []) h)).1

end JsonText
