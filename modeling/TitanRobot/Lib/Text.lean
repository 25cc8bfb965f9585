import Mathlib
import TitanRobot.Lib.Binary64

/-!
# Python text primitives

White space, decimal digits, `str.strip` and the decimal numerals that `float` reads, over
lists of characters. White space and digits are those of Unicode 13: `digitZeros` lists
the digit zero of every script, each followed by its other nine digits. A `Numeral`
carries the proof that it is one, and `parseNumeral` recognises exactly the texts of
numerals.
-/
namespace TitanRobot.Text

def spaces : List ℕ :=
  [0x9, 0xA, 0xB, 0xC, 0xD, 0x1C, 0x1D, 0x1E, 0x1F, 0x20, 0x85, 0xA0, 0x1680, 0x2000, 0x2001,
   0x2002, 0x2003, 0x2004, 0x2005, 0x2006, 0x2007, 0x2008, 0x2009, 0x200A, 0x2028, 0x2029,
   0x202F, 0x205F, 0x3000]

def isSpace (c : Char) : Bool := spaces.contains c.toNat

def digitZeros : List ℕ :=
  [0x30, 0x660, 0x6F0, 0x7C0, 0x966, 0x9E6, 0xA66, 0xAE6, 0xB66, 0xBE6, 0xC66, 0xCE6, 0xD66,
   0xDE6, 0xE50, 0xED0, 0xF20, 0x1040, 0x1090, 0x17E0, 0x1810, 0x1946, 0x19D0, 0x1A80, 0x1A90,
   0x1B50, 0x1BB0, 0x1C40, 0x1C50, 0xA620, 0xA8D0, 0xA900, 0xA9D0, 0xA9F0, 0xAA50, 0xABF0,
   0xFF10, 0x104A0, 0x10D30, 0x11066, 0x110F0, 0x11136, 0x111D0, 0x112F0, 0x11450, 0x114D0,
   0x11650, 0x116C0, 0x11730, 0x118E0, 0x11950, 0x11C50, 0x11D50, 0x11DA0, 0x16A60, 0x16B50,
   0x1D7CE, 0x1D7D8, 0x1D7E2, 0x1D7EC, 0x1D7F6, 0x1E140, 0x1E2F0, 0x1E950, 0x1FBF0]

/-- The decimal value of a code point, if it is a digit. -/
def digitValue (n : ℕ) : Option ℕ :=
  digitZeros.findSome? fun z => if z ≤ n ∧ n < z + 10 then some (n - z) else none

def isDigit (c : Char) : Bool := (digitValue c.toNat).isSome

def strip (s : List Char) : List Char := (s.dropWhile isSpace).rdropWhile isSpace

theorem isDigit_of_isSpace {c : Char} (h : isSpace c) : isDigit c = false := by
  have hall : ∀ n ∈ spaces, (digitValue n).isSome = false := by decide
  exact hall c.toNat (by simpa [isSpace] using h)

theorem not_isDigit_minus : isDigit '-' = false := by decide

theorem not_isDigit_point : isDigit '.' = false := by decide

/-! ## Decimal numerals -/

/-- An optional minus, digits, and optionally a point followed by digits. -/
structure Numeral where
  neg : Bool
  int : List Char
  frac : Option (List Char)
  int_digits : ∀ c ∈ int, isDigit c
  frac_digits : ∀ f ∈ frac, ∀ c ∈ f, isDigit c
  nonempty : int ≠ [] ∨ ∃ f ∈ frac, f ≠ []

def Numeral.text (n : Numeral) : List Char :=
  (if n.neg then ['-'] else []) ++ n.int ++
    (match n.frac with
     | none => []
     | some f => '.' :: f)

def natOfDigits (ds : List Char) : ℕ :=
  ds.foldl (fun n c => 10 * n + (digitValue c.toNat).getD 0) 0

def Numeral.value (n : Numeral) : ℚ :=
  (if n.neg then -1 else 1) * natOfDigits (n.int ++ n.frac.getD []) /
    10 ^ (n.frac.getD []).length

def parseUnsigned (neg : Bool) (s : List Char) : Option Numeral :=
  match s.dropWhile isDigit with
  | [] =>
    if h : s.takeWhile isDigit ≠ [] then
      some ⟨neg, s.takeWhile isDigit, none, fun _ => List.mem_takeWhile_imp, by simp, .inl h⟩
    else none
  | c :: f =>
    if h : c = '.' ∧ f.all isDigit ∧ (s.takeWhile isDigit ≠ [] ∨ f ≠ []) then
      some ⟨neg, s.takeWhile isDigit, some f, fun _ => List.mem_takeWhile_imp,
        by simpa using h.2.1, by simpa using h.2.2⟩
    else none

def parseNumeral : List Char → Option Numeral
  | '-' :: s => parseUnsigned true s
  | s => parseUnsigned false s

/-- `float` on a text of digits, minus signs and points; a rejected text raises ValueError. -/
def float (s : List Char) : Option Double := (parseNumeral s).map fun n => .ofRat n.value

theorem parseUnsigned_text {neg : Bool} {s : List Char} {n : Numeral}
    (h : parseUnsigned neg s = some n) :
    n.neg = neg ∧ n.text = (if neg then ['-'] else []) ++ s := by
  have hs : s.takeWhile isDigit ++ s.dropWhile isDigit = s := List.takeWhile_append_dropWhile
  unfold parseUnsigned at h
  split at h
  · rename_i hd
    split at h
    · obtain rfl := Option.some.inj h
      rw [hd] at hs
      simpa [Numeral.text] using hs
    · simp at h
  · rename_i c f hd
    split at h
    · rename_i hc
      obtain rfl := Option.some.inj h
      rw [hd, hc.1] at hs
      simpa [Numeral.text] using hs
    · simp at h

theorem parseUnsigned_numeral (n : Numeral) :
    parseUnsigned n.neg (n.int ++ (match n.frac with | none => [] | some f => '.' :: f)) =
      some n := by
  obtain ⟨neg, int, frac, hint, hfrac, hne⟩ := n
  unfold parseUnsigned
  cases frac with
  | none =>
    simp only [List.append_nil]
    have hd : int.dropWhile isDigit = [] := List.dropWhile_eq_nil_iff.mpr hint
    have ht : int.takeWhile isDigit = int := List.takeWhile_eq_self_iff.mpr hint
    have hne' : int ≠ [] := by simpa using hne
    simp [hd, ht, hne']
  | some f =>
    have hf : ∀ c ∈ f, isDigit c := hfrac f rfl
    have hne' : int ≠ [] ∨ f ≠ [] := by simpa using hne
    have hd : (int ++ '.' :: f).dropWhile isDigit = '.' :: f := by
      rw [List.dropWhile_append_of_pos hint]
      simp [not_isDigit_point]
    have ht : (int ++ '.' :: f).takeWhile isDigit = int := by
      rw [List.takeWhile_append_of_pos hint]
      simp [not_isDigit_point]
    simp only [hd, ht, true_and]
    rw [dif_pos ⟨List.all_eq_true.mpr hf, hne'⟩]

theorem parseNumeral_of_not_minus {s : List Char} (h : s.head? ≠ some '-') :
    parseNumeral s = parseUnsigned false s := by
  unfold parseNumeral
  split
  · simp at h
  · rfl

theorem Numeral.head_unsigned (n : Numeral) :
    (n.int ++ (match n.frac with | none => [] | some f => '.' :: f)).head? ≠ some '-' := by
  obtain ⟨neg, int, frac, hint, hfrac, hne⟩ := n
  cases int with
  | nil =>
    cases frac with
    | none => simp at hne
    | some f => simp
  | cons c int =>
    intro h
    obtain rfl : c = '-' := by simpa using h
    exact absurd (hint '-' (by simp)) (by simp [not_isDigit_minus])

/-- `parseNumeral` accepts exactly the texts of numerals. -/
theorem parseNumeral_eq_some_iff {s : List Char} {n : Numeral} :
    parseNumeral s = some n ↔ n.text = s := by
  constructor
  · intro h
    unfold parseNumeral at h
    split at h
    · simpa using (parseUnsigned_text h).2
    · simpa using (parseUnsigned_text h).2
  · rintro rfl
    have hparse := parseUnsigned_numeral n
    cases hneg : n.neg with
    | true => simpa [Numeral.text, hneg, parseNumeral] using hneg ▸ hparse
    | false =>
      have hhead := parseNumeral_of_not_minus n.head_unsigned
      simpa [Numeral.text, hneg] using hhead.trans (hneg ▸ hparse)

theorem Numeral.text_injective {m n : Numeral} (h : m.text = n.text) : m = n :=
  Option.some.inj ((parseNumeral_eq_some_iff.mpr h).symm.trans (parseNumeral_eq_some_iff.mpr rfl))

theorem float_eq_some_iff {s : List Char} {d : Double} :
    float s = some d ↔ ∃ n : Numeral, n.text = s ∧ d = .ofRat n.value := by
  simp only [float, Option.map_eq_some_iff, parseNumeral_eq_some_iff, @eq_comm _ d]

/-! ## Fixed-point formatting -/

/-- `n` hundredths with two decimals. -/
def hundredths (n : ℕ) : List Char :=
  Nat.toDigits 10 (n / 100) ++ '.' :: Nat.toDigits 10 (n / 10 % 10) ++ Nat.toDigits 10 (n % 10)

/-- `format(d, '.2f')`. -/
def format2f : Double → List Char
  | .finite q =>
    (if q < 0 then ['-'] else []) ++ hundredths (roundHalfEven (100 * |q|)).toNat
  | .infinite neg => (if neg then ['-'] else []) ++ ['i', 'n', 'f']
  | .nan => ['n', 'a', 'n']

/-- The characters that `format(d, '.2f')` can write. -/
def isFormatChar (c : Char) : Bool := c.isDigit || ['-', '.', 'i', 'n', 'f', 'a'].contains c

theorem isFormatChar_toDigits {n : ℕ} {c : Char} (h : c ∈ Nat.toDigits 10 n) :
    isFormatChar c := by
  simp [isFormatChar, Nat.isDigit_of_mem_toDigits (by decide) (by decide) h]

theorem isFormatChar_format2f (d : Double) : ∀ c ∈ format2f d, isFormatChar c := by
  cases d with
  | finite q =>
    intro c hc
    simp only [format2f, hundredths, List.mem_append, List.mem_cons] at hc
    rcases hc with hc | (hc | rfl | hc) | hc
    · split_ifs at hc <;> simp_all [isFormatChar]
    · exact isFormatChar_toDigits hc
    · decide
    · exact isFormatChar_toDigits hc
    · exact isFormatChar_toDigits hc
  | infinite neg => cases neg <;> simp [format2f, isFormatChar]
  | nan => simp [format2f, isFormatChar]

/-! ## Reading what was formatted -/

theorem digitValue_of_isDigit {c : Char} (h : c.isDigit) :
    digitValue c.toNat = some (c.toNat - 48) := by
  simp only [Char.isDigit, Bool.and_eq_true, decide_eq_true_eq] at h
  have hlo : 48 ≤ c.toNat := UInt32.le_iff_toNat_le.mp h.1
  have hhi : c.toNat ≤ 57 := UInt32.le_iff_toNat_le.mp h.2
  have hzero : 48 ≤ c.toNat ∧ c.toNat < 48 + 10 := by omega
  simp only [digitValue, digitZeros, List.findSome?_cons, if_pos hzero]

theorem isDigit_of_mem_toDigits {n : ℕ} {c : Char} (h : c ∈ Nat.toDigits 10 n) : isDigit c := by
  have hdigit := Nat.isDigit_of_mem_toDigits (by decide) (by decide) h
  simp [isDigit, digitValue_of_isDigit hdigit]

/-- On ASCII digits the value is the usual one. -/
theorem natOfDigits_eq {ds : List Char} (h : ∀ c ∈ ds, c.isDigit) :
    natOfDigits ds = Nat.ofDigitChars 10 ds 0 := by
  have hfold : ∀ m, ds.foldl (fun n c => 10 * n + (digitValue c.toNat).getD 0) m =
      Nat.ofDigitChars 10 ds m := by
    induction ds with
    | nil => simp
    | cons c ds ih =>
      intro m
      have hc := digitValue_of_isDigit (h c List.mem_cons_self)
      rw [List.foldl_cons, ih (fun d hd => h d (List.mem_cons_of_mem c hd)), Nat.ofDigitChars_cons,
        hc]
      rfl
  exact hfold 0

theorem ofDigitChars_digit {m : ℕ} (h : m < 10) (init : ℕ) :
    Nat.ofDigitChars 10 (Nat.toDigits 10 m) init = 10 * init + m := by
  rw [Nat.toDigits_of_lt_base h, Nat.ofDigitChars_cons_digitChar_of_lt_ten h, Nat.ofDigitChars_nil]

/-- The numeral that is `n` hundredths with two decimals. -/
def Numeral.hundredths (neg : Bool) (n : ℕ) : Numeral where
  neg := neg
  int := Nat.toDigits 10 (n / 100)
  frac := some (Nat.toDigits 10 (n / 10 % 10) ++ Nat.toDigits 10 (n % 10))
  int_digits _ hc := isDigit_of_mem_toDigits hc
  frac_digits := by
    rintro f ⟨rfl⟩ c hc
    rcases List.mem_append.mp hc with hc | hc <;> exact isDigit_of_mem_toDigits hc
  nonempty := .inl Nat.toDigits_ne_nil

theorem Numeral.hundredths_value (neg : Bool) (n : ℕ) :
    (Numeral.hundredths neg n).value = (if neg then -1 else 1) * n / 100 := by
  have hdigits : natOfDigits (Nat.toDigits 10 (n / 100) ++
      (Nat.toDigits 10 (n / 10 % 10) ++ Nat.toDigits 10 (n % 10))) = n := by
    rw [natOfDigits_eq]
    · rw [Nat.ofDigitChars_append, Nat.ofDigitChars_append, Nat.ofDigitChars_ten_toDigits,
        ofDigitChars_digit (Nat.mod_lt _ (by decide)), ofDigitChars_digit (Nat.mod_lt _ (by decide))]
      omega
    · intro c hc
      simp only [List.mem_append] at hc
      rcases hc with hc | hc | hc <;> exact Nat.isDigit_of_mem_toDigits (by decide) (by decide) hc
  have hlength : (Nat.toDigits 10 (n / 10 % 10) ++ Nat.toDigits 10 (n % 10)).length = 2 := by
    rw [Nat.toDigits_of_lt_base (Nat.mod_lt _ (by decide)),
      Nat.toDigits_of_lt_base (Nat.mod_lt _ (by decide))]
    rfl
  simp only [Numeral.value, Numeral.hundredths, Option.getD_some, hdigits, hlength]
  cases neg <;> norm_num

/-- A finite double is formatted as its nearest hundredth. -/
theorem format2f_finite (q : ℚ) :
    format2f (.finite q) =
      (Numeral.hundredths (decide (q < 0)) (roundHalfEven (100 * |q|)).toNat).text := by
  simp [format2f, Text.hundredths, Numeral.hundredths, Numeral.text]

end TitanRobot.Text
