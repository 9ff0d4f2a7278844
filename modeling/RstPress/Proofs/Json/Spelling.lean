import RstPress.Json.Token
import RstPress.Json.Write
import RstPress.Proofs.Text

/-!
How strings, numbers and words are read back from their spelling, whatever text follows them. A string
tells itself where it ends; a number or a word ends where no further character of its kind stands.
-/

namespace RstPress.Json
open Text

theorem hexValue?_digitChar {value : Nat} (small : value < 16) :
    hexValue? (Nat.digitChar value) = some value := by
  revert value
  decide

theorem hexPoint?_hexEscape {point : Nat} (small : point < 0x10000) :
    hexPoint? (hexDigit (point / 0x1000)) (hexDigit (point / 0x100)) (hexDigit (point / 0x10))
      (hexDigit point) = some point := by
  have digit (value : Nat) : hexValue? (hexDigit value) = some (value % 16) :=
    hexValue?_digitChar (Nat.mod_lt value (by decide))
  simp only [hexPoint?, digit, Option.bind_eq_bind, Option.bind_some, Option.pure_def,
    Option.some.injEq]
  omega

theorem unescapeLetter?_of_escapeLetter? {point : Nat} {letter : Char}
    (short : escapeLetter? point = some letter) :
    unescapeLetter? letter = some point ∧ letter ≠ 'u' := by
  unfold escapeLetter? at short
  repeat' split at short
  all_goals cases short <;> subst_vars <;> decide

theorem toNat_ofNat {point : Nat} (valid : point.isValidChar) : (Char.ofNat point).toNat = point := by
  rw [Char.ofNat, dif_pos valid]
  rfl

/-- A code point is read back from the way it is written, whatever follows. -/
theorem readString_writePoint {point : Nat} (bounded : point < 0x110000) (rest : List Char) :
    readString (writePoint point ++ rest) =
      (readString rest).map fun found => (point :: found.1, found.2) := by
  unfold writePoint
  cases short : escapeLetter? point with
  | some letter =>
    obtain ⟨same, other⟩ := unescapeLetter?_of_escapeLetter? short
    rw [readString.eq_def]
    simp [same, other]
  | none =>
    by_cases escaped : point < 0x20 || isLeading point || isTrailing point
    · have small : point < 0x10000 := by
        simp only [isLeading, isTrailing, Bool.or_eq_true, Bool.and_eq_true, decide_eq_true_eq]
          at escaped
        omega
      rw [readString.eq_def]
      simp only [escaped, if_true, hexEscape, List.cons_append, List.nil_append,
        hexPoint?_hexEscape small, Option.bind_some]
      simp
    · -- A surrogate is escaped, so a point that stands for itself is the code of a character.
      have itself : (Char.ofNat point).toNat = point := by
        simp only [isLeading, isTrailing, Bool.or_eq_true, Bool.and_eq_true, decide_eq_true_eq]
          at escaped
        exact toNat_ofNat (by unfold Nat.isValidChar; omega)
      have visible : ¬point < 0x20 := by
        simp only [Bool.or_eq_true, decide_eq_true_eq] at escaped
        exact fun less => escaped (.inl (.inl less))
      have plain (c : Char) (letter : escapeLetter? c.toNat ≠ none) : Char.ofNat point ≠ c := by
        intro same
        rw [← same, itself] at letter
        exact letter short
      rw [if_neg escaped, List.singleton_append, readString.eq_def]
      simp [plain '"' (by decide), plain '\\' (by decide), itself, visible]

theorem readString_writeString {points : List Nat} (bounded : ∀ point ∈ points, point < 0x110000)
    (rest : List Char) :
    readString (points.flatMap writePoint ++ '"' :: rest) = some (points, rest) := by
  induction points with
  | nil =>
    rw [List.flatMap_nil, List.nil_append, readString.eq_def]
    rfl
  | cons point points ih =>
    rw [List.flatMap_cons, List.append_assoc,
      readString_writePoint (bounded point List.mem_cons_self),
      ih fun other member => bounded other (List.mem_cons_of_mem point member)]
    rfl

theorem tokens_of_isSpace {c : Char} (space : isSpace c) (rest : List Char) :
    tokens (c :: rest) = tokens rest := by
  rw [tokens, if_pos space]

theorem tokens_of_spaces {spaces : List Char} (blank : ∀ c ∈ spaces, isSpace c) (rest : List Char) :
    tokens (spaces ++ rest) = tokens rest := by
  induction spaces with
  | nil => rfl
  | cons c spaces ih =>
    rw [List.cons_append, tokens_of_isSpace (blank c List.mem_cons_self),
      ih fun other member => blank other (List.mem_cons_of_mem c member)]

theorem tokens_quote {text rest : List Char} {points : List Nat}
    (found : readString text = some (points, rest)) :
    tokens ('"' :: text) = (tokens rest).map (.string points :: ·) := by
  rw [tokens, if_neg (by decide), if_pos rfl]
  split
  · rename_i none
    simp [found] at none
  · rename_i other others same
    rw [found] at same
    cases same
    rfl

theorem tokens_writeString {points : List Nat} (bounded : ∀ point ∈ points, point < 0x110000)
    (rest : List Char) :
    tokens (writeString points ++ rest) = (tokens rest).map (.string points :: ·) := by
  have whole : writeString points ++ rest = '"' :: (points.flatMap writePoint ++ '"' :: rest) := by
    simp [writeString]
  rw [whole, tokens_quote (readString_writeString bounded rest)]

theorem tokens_punctuation (c : Char) (mark : Token) (found : punctuation? c = some mark)
    (rest : List Char) : tokens (c :: rest) = (tokens rest).map (mark :: ·) := by
  have plain : isSpace c = false ∧ c ≠ '"' ∧ (c.isDigit || c = '-') = false ∧
      c.isAlpha = false := by
    unfold punctuation? at found
    repeat' split at found
    all_goals cases found <;> subst_vars <;> decide
  obtain ⟨noSpace, noQuote, noNumber, noWord⟩ := plain
  rw [tokens, if_neg (by simp [noSpace]), if_neg noQuote, if_neg (by simp [noNumber]),
    if_neg (by simp [noWord])]
  split
  · rename_i none
    simp [found] at none
  · rename_i other same
    rw [found] at same
    cases same
    rfl

theorem isNumberChar_of_isDigit {c : Char} (digit : c.isDigit) : isNumberChar c := by
  simp [isNumberChar, digit]

theorem isNumberChar_of_isDigits {text : List Char} (digits : isDigits text) :
    ∀ c ∈ text, isNumberChar c := by
  simp only [isDigits, Bool.and_eq_true, List.all_eq_true] at digits
  exact fun c member => isNumberChar_of_isDigit (digits.2 c member)

theorem isNumberChar_of_isExponent {text : List Char} (exponent : isExponent text) :
    ∀ c ∈ text, isNumberChar c := by
  cases text with
  | nil => exact List.forall_mem_nil _
  | cons c text =>
    simp only [isExponent, Bool.and_eq_true, Bool.or_eq_true, decide_eq_true_eq] at exponent
    obtain ⟨mark, digits⟩ := exponent
    have first : isNumberChar c := by rcases mark with rfl | rfl <;> rfl
    refine List.forall_mem_cons.mpr ⟨first, ?_⟩
    cases text with
    | nil => exact List.forall_mem_nil _
    | cons sign text =>
      by_cases signed : sign = '+' ∨ sign = '-'
      · simp only [signed, if_true] at digits
        refine List.forall_mem_cons.mpr ⟨?_, isNumberChar_of_isDigits digits⟩
        rcases signed with rfl | rfl <;> rfl
      · simp only [signed, if_false] at digits
        exact isNumberChar_of_isDigits digits

theorem isNumberChar_of_mem_takeWhile {text : List Char} {c : Char}
    (member : c ∈ text.takeWhile Char.isDigit) : isNumberChar c :=
  isNumberChar_of_isDigit (List.mem_takeWhile_imp member)

theorem isNumberChar_of_isFraction {text : List Char} (fraction : isFraction text) :
    ∀ c ∈ text, isNumberChar c := by
  cases text with
  | nil => exact List.forall_mem_nil _
  | cons c text =>
    by_cases point : c = '.'
    · simp only [isFraction, point, if_true, Bool.and_eq_true] at fraction
      refine List.forall_mem_cons.mpr ⟨by rw [point]; rfl, fun d member => ?_⟩
      rw [← List.takeWhile_append_dropWhile (p := Char.isDigit) (l := text)] at member
      rcases List.mem_append.mp member with digit | later
      · exact isNumberChar_of_mem_takeWhile digit
      · exact isNumberChar_of_isExponent fraction.2 d later
    · simp only [isFraction, point, if_false] at fraction
      exact isNumberChar_of_isExponent fraction

theorem isNumberChar_of_isUnsigned {text : List Char} (number : isUnsigned text) :
    ∀ c ∈ text, isNumberChar c := by
  simp only [isUnsigned, Bool.and_eq_true] at number
  intro c member
  rw [← List.takeWhile_append_dropWhile (p := Char.isDigit) (l := text)] at member
  rcases List.mem_append.mp member with digit | later
  · exact isNumberChar_of_mem_takeWhile digit
  · exact isNumberChar_of_isFraction number.2 c later

theorem isDigit_of_isUnsigned {c : Char} {text : List Char} (number : isUnsigned (c :: text)) :
    c.isDigit := by
  by_contra other
  simp [isUnsigned, isDigits, other] at number

/-- A number begins with a digit or a minus sign, and all of its characters are those of numbers. -/
theorem exists_of_isNumber {spelling : List Char} (number : isNumber spelling) :
    ∃ c text, spelling = c :: text ∧ (c.isDigit || c = '-') ∧ ∀ d ∈ text, isNumberChar d := by
  match spelling with
  | c :: text =>
    refine ⟨c, text, rfl, ?_⟩
    by_cases minus : c = '-'
    · simp only [isNumber, minus, if_true] at number
      exact ⟨by simp [minus], isNumberChar_of_isUnsigned number⟩
    · simp only [isNumber, minus, if_false] at number
      refine ⟨by simp [isDigit_of_isUnsigned number], fun d member => ?_⟩
      exact isNumberChar_of_isUnsigned number d (List.mem_cons_of_mem c member)

/-- Nothing that could belong to a number or a word stands in front of the text. -/
def Ended (text : List Char) : Prop := text.head?.all fun c => !isNumberChar c && !c.isAlpha

theorem isSpace_of_not_isBlank {c : Char} (visible : isBlank c = false) : isSpace c = false := by
  have other (space : Char) (hidden : isBlank space) : c ≠ space := ne_of_isBlank visible hidden
  simp [isSpace, other ' ' (by decide), other '\t' (by decide), other '\r' (by decide),
    other '\n' (by decide)]

theorem tokens_number {spelling rest : List Char} (number : isNumber spelling) (ended : Ended rest) :
    tokens (spelling ++ rest) = (tokens rest).map (.number spelling :: ·) := by
  obtain ⟨c, text, rfl, begins, chars⟩ := exists_of_isNumber number
  have stops : rest.head?.all fun d => !isNumberChar d := by
    cases rest with
    | nil => rfl
    | cons d rest => simp_all [Ended]
  have first : isBlank c = false ∧ c ≠ '"' := by
    simp only [Bool.or_eq_true, decide_eq_true_eq] at begins
    rcases begins with digit | rfl
    · refine ⟨isBlank_of_isAlphanum c (by simp [Char.isAlphanum, digit]), ?_⟩
      rintro rfl
      cases digit
    · decide
  rw [List.cons_append, tokens, if_neg (by simp [isSpace_of_not_isBlank first.1]), if_neg first.2,
    if_pos begins]
  simp only [takeWhile_append_of_head stops, dropWhile_append_of_head stops,
    List.takeWhile_eq_self_iff.mpr chars, List.dropWhile_eq_nil_iff.mpr chars, number, if_true,
    List.nil_append]

theorem tokens_word {word rest : List Char} {token : Token} (found : keyword? word = some token)
    (ended : Ended rest) : tokens (word ++ rest) = (tokens rest).map (token :: ·) := by
  have stops : rest.head?.all fun d => !d.isAlpha := by
    cases rest with
    | nil => rfl
    | cons d rest => simp_all [Ended]
  have shape : ∃ c text, word = c :: text ∧ (isSpace c = false ∧ c ≠ '"' ∧
      (c.isDigit || c = '-') = false ∧ c.isAlpha) ∧ ∀ d ∈ text, d.isAlpha := by
    unfold keyword? at found
    repeat' split at found
    all_goals cases found <;> subst_vars <;>
      exact ⟨_, _, rfl, by decide, List.all_eq_true.mp (by decide)⟩
  obtain ⟨c, text, rfl, ⟨noSpace, noQuote, noNumber, begins⟩, chars⟩ := shape
  rw [List.cons_append, tokens, if_neg (by simp [noSpace]), if_neg noQuote,
    if_neg (by simp [noNumber]), if_pos begins]
  simp only [takeWhile_append_of_head stops, dropWhile_append_of_head stops,
    List.takeWhile_eq_self_iff.mpr chars, List.dropWhile_eq_nil_iff.mpr chars, found,
    List.nil_append]

theorem code_of_char (c : Char) : c.toNat < 0xD800 ∨ 0xDFFF < c.toNat ∧ c.toNat < 0x110000 := c.valid

theorem chars?_points (chars : List Char) : chars? (chars.map Char.toNat) = some chars := by
  induction chars with
  | nil => rfl
  | cons c chars ih =>
    have code := code_of_char c
    have noLeading : isLeading c.toNat = false := by simp [isLeading]; omega
    have noTrailing : isTrailing c.toNat = false := by simp [isTrailing]; omega
    rw [List.map_cons, chars?.eq_def]
    simp [noLeading, noTrailing, ih, Char.ofNat_toNat]

/-- A text is read back from its code points. -/
@[simp] theorem text?_points (text : String) : text? (points text) = some text := by
  rw [text?, points, chars?_points, Option.map_some, String.ofList_toList]

theorem lt_of_mem_points {text : String} : ∀ point ∈ points text, point < 0x110000 := by
  intro point member
  obtain ⟨c, _, rfl⟩ := List.mem_map.mp member
  have code := code_of_char c
  omega

theorem isDigit_of_mem_toDigits {value : Nat} {c : Char} (member : c ∈ Nat.toDigits 10 value) :
    c.isDigit :=
  Nat.isDigit_of_mem_toDigits (by decide) (by decide) member

@[simp] theorem natural?_toDigits (value : Nat) : natural? (Nat.toDigits 10 value) = some value := by
  have digits : (Nat.toDigits 10 value).all Char.isDigit :=
    List.all_eq_true.mpr fun _ member => isDigit_of_mem_toDigits member
  have filled : (Nat.toDigits 10 value).isEmpty = false := by simp [Nat.toDigits_ne_nil]
  have whole := Nat.ofDigitChars_ten_toDigits (n := value)
  rw [Nat.ofDigitChars_eq_foldl] at whole
  simp only [natural?, digits, filled]
  simpa [Nat.mul_comm] using whole

/-- Only zero begins with a zero. -/
theorem head?_toDigits_ne (value : Nat) (positive : 0 < value) :
    (Nat.toDigits 10 value).head? ≠ some '0' := by
  induction value using Nat.strong_induction_on with
  | _ value ih =>
    by_cases small : value < 10
    · have digit : ∀ d < 10, 0 < d → Nat.digitChar d ≠ '0' := by decide
      rw [Nat.toDigits_of_lt_base small]
      simpa using digit value small positive
    · have front := ih (value / 10) (by omega) (by omega)
      obtain ⟨c, text, same⟩ :=
        List.exists_cons_of_ne_nil (Nat.toDigits_ne_nil (b := 10) (n := value / 10))
      rw [same] at front
      rw [Nat.toDigits_of_base_le (by decide) (by omega), same]
      exact front

theorem isNumber_toDigits (value : Nat) : isNumber (Nat.toDigits 10 value) := by
  have digits : ∀ c ∈ Nat.toDigits 10 value, c.isDigit := fun _ member => isDigit_of_mem_toDigits member
  have begins : (Nat.toDigits 10 value).head? ≠ some '0' ∨ (Nat.toDigits 10 value).length = 1 := by
    rcases Nat.eq_zero_or_pos value with rfl | positive
    · exact .inr rfl
    · exact .inl (head?_toDigits_ne value positive)
  cases same : Nat.toDigits 10 value with
  | nil => exact absurd same Nat.toDigits_ne_nil
  | cons c text =>
    rw [same] at digits begins
    have digit := digits c List.mem_cons_self
    have unsigned : c ≠ '-' := by
      rintro rfl
      cases digit
    have all : isDigits (c :: text) := by simpa [isDigits] using digits
    simp only [isNumber, unsigned, if_false, isUnsigned, List.takeWhile_eq_self_iff.mpr digits,
      List.dropWhile_eq_nil_iff.mpr digits, all, isFraction, Bool.true_and, Bool.and_true,
      Bool.or_eq_true, decide_eq_true_eq, begins]

end RstPress.Json
