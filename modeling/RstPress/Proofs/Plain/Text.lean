import RstPress.Layout.Piece
import RstPress.Proofs.Phrases.Escaped
import RstPress.Proofs.Text

/-!
Text whose punctuation is escaped. Nothing that reads lines or inline markup takes it for anything
but text, and reading it takes the backslashes off again.
-/

namespace RstPress.Text

/-- The text with a backslash in front of each punctuation character. -/
def escape : List Char → List Char
  | [] => []
  | c :: text => if isPunctuation c then '\\' :: c :: escape text else c :: escape text

theorem escape_append (front back : List Char) :
    escape (front ++ back) = escape front ++ escape back := by
  induction front with
  | nil => rfl
  | cons c front ih =>
    rw [List.cons_append, escape, escape, ih]
    split <;> rfl

theorem escape_append_feed (text : List Char) : escape (text ++ ['\n']) = escape text ++ ['\n'] :=
  escape_append text ['\n']

theorem mem_of_mem_escape {text : List Char} {c : Char} (member : c ∈ escape text) :
    c ∈ text ∨ c = '\\' := by
  induction text with
  | nil => cases member
  | cons d text ih =>
    rw [escape] at member
    split at member
    · rcases List.mem_cons.mp member with rfl | later
      · exact .inr rfl
      · rcases List.mem_cons.mp later with rfl | rest
        · exact .inl List.mem_cons_self
        · exact (ih rest).imp_left (List.mem_cons_of_mem d)
    · rcases List.mem_cons.mp member with rfl | later
      · exact .inl List.mem_cons_self
      · exact (ih later).imp_left (List.mem_cons_of_mem d)

/-- Escaped text begins with a backslash or with a character that is no punctuation. -/
theorem exists_escape_cons (c : Char) (text : List Char) :
    (isPunctuation c ∧ escape (c :: text) = '\\' :: c :: escape text) ∨
      (isPunctuation c = false ∧ escape (c :: text) = c :: escape text) := by
  cases punctuation : isPunctuation c with
  | true => exact .inl ⟨rfl, by rw [escape, if_pos punctuation]⟩
  | false => exact .inr ⟨rfl, by rw [escape, if_neg (by simp [punctuation])]⟩

theorem exists_escape_concat (front : List Char) (last : Char) :
    ∃ before, escape (front ++ [last]) = before ++ [last] ∧
      (isPunctuation last → ∃ others, before = others ++ ['\\']) := by
  rw [escape_append]
  rcases exists_escape_cons last [] with ⟨punctuation, same⟩ | ⟨plain, same⟩
  · refine ⟨escape front ++ ['\\'], ?_, fun _ => ⟨escape front, rfl⟩⟩
    rw [same, List.append_assoc]
    rfl
  · refine ⟨escape front, ?_, fun punctuation => ?_⟩
    · rw [same]
      rfl
    · rw [plain] at punctuation
      cases punctuation

end RstPress.Text

namespace RstPress.Layout
open Text

theorem adornment?_escape {text : List Char} (plain : '\\' ∉ text) :
    adornment? (escape text) = none := by
  cases text with
  | nil => rfl
  | cons c text =>
    have other : c ≠ '\\' := fun same => plain (by rw [same]; exact List.mem_cons_self)
    rcases exists_escape_cons c text with ⟨_, same⟩ | ⟨letter, same⟩
    · simp [same, adornment?, other]
    · simp [same, adornment?, letter]

theorem width?_bullet_escape (mark : Char) (text : List Char) :
    (Marker.bullet mark).width? (escape text) = none := by
  cases text with
  | nil => rfl
  | cons c text =>
    rcases exists_escape_cons c text with ⟨_, same⟩ | ⟨plain, same⟩
    · have noBullet : isBullet '\\' = false := by decide
      simp [same, Marker.width?, noBullet]
    · simp [same, Marker.width?, isBullet_of_not_isPunctuation plain]

/-- Directly after the letters and digits at its beginning, escaped text has no mark of an
enumerator. -/
theorem dropWhile_escape (text : List Char) :
    (escape text).dropWhile isEnumeratorChar = [] ∨
      ∃ close after, (escape text).dropWhile isEnumeratorChar = close :: after ∧ close ≠ ')' ∧
        close ≠ '.' := by
  induction text with
  | nil => exact .inl rfl
  | cons c text ih =>
    rcases exists_escape_cons c text with ⟨_, same⟩ | ⟨plain, same⟩
    · refine .inr ⟨'\\', c :: escape text, ?_, by decide, by decide⟩
      rw [same, List.dropWhile_cons_of_neg (by decide)]
    · by_cases letter : isEnumeratorChar c
      · rw [same, List.dropWhile_cons_of_pos letter]
        exact ih
      · refine .inr ⟨c, escape text, ?_, ?_, ?_⟩
        · rw [same, List.dropWhile_cons_of_neg letter]
        · exact ne_of_isPunctuation plain (by decide)
        · exact ne_of_isPunctuation plain (by decide)

theorem enumeratorWidth?_escape (text : List Char) : enumeratorWidth? (escape text) = none := by
  have ended := dropWhile_escape text
  cases shown : escape text with
  | nil => rfl
  | cons c others =>
    have notOpened : c ≠ '(' := by
      rintro rfl
      cases text with
      | nil => cases shown
      | cons d text =>
        rcases exists_escape_cons d text with ⟨_, same⟩ | ⟨plain, same⟩
        · rw [same] at shown
          exact absurd (List.cons.inj shown).1 (by decide)
        · rw [same] at shown
          exact ne_of_isPunctuation plain (by decide) (List.cons.inj shown).1
    rw [shown] at ended
    simp only [enumeratorWidth?, notOpened, decide_false, Bool.false_eq_true, if_false]
    rcases ended with none | ⟨close, after, same, noParenthesis, noPeriod⟩
    · simp only [none]
    · simp only [same, noParenthesis, noPeriod, decide_false, Bool.false_and, Bool.or_false,
        Bool.and_false, Bool.false_eq_true, if_false]

theorem barContent?_escape (text : List Char) : barContent? (escape text) = none := by
  cases text with
  | nil => rfl
  | cons c text =>
    rcases exists_escape_cons c text with ⟨_, same⟩ | ⟨plain, same⟩
    · simp [same, barContent?]
    · have other : c ≠ '|' := ne_of_isPunctuation plain (by decide)
      simp [same, barContent?, other]

theorem unannounced?_escape {text : List Char} : unannounced? (escape text) = none := by
  rcases List.eq_nil_or_concat text with rfl | ⟨front, last, rfl⟩
  · rfl
  · rw [List.concat_eq_append]
    obtain ⟨before, same, escaped⟩ := exists_escape_concat front last
    rw [same, unannounced?, List.reverse_append, List.reverse_singleton, List.singleton_append]
    cases reversed : before.reverse with
    | nil => rfl
    | cons previous others =>
      have noColons : ¬(last = ':' ∧ previous = ':') := by
        rintro ⟨rfl, rfl⟩
        obtain ⟨more, ends⟩ := escaped (by decide)
        rw [ends, List.reverse_append] at reversed
        exact absurd (List.cons.inj reversed).1 (by decide)
      simp [noColons]

end RstPress.Layout

namespace RstPress.Inline
open Text RstPress.Tree

/-- All punctuation is escaped, and the marks are punctuation. -/
theorem escapes_escape (text : List Char) : Escapes text (escape text) := by
  induction text with
  | nil => exact .nil
  | cons c text ih =>
    rcases exists_escape_cons c text with ⟨punctuation, same⟩ | ⟨letter, same⟩
    · rw [same]
      refine .marked ?_ ?_ ih
      · rintro rfl
        exact absurd punctuation (by decide)
      · rintro rfl
        exact absurd punctuation (by decide)
    · rw [same]
      have noBackslash : c ≠ '\\' := ne_of_isPunctuation letter (by decide)
      have noStar : c ≠ '*' := ne_of_isPunctuation letter (by decide)
      have noQuote : c ≠ '\x60' := ne_of_isPunctuation letter (by decide)
      exact .plain (by simp [isMark, noBackslash, noStar, noQuote]) ih

theorem cutAfterLineFeeds_line {line : List Char} (oneLine : '\n' ∉ line) (rest : List Char) :
    cutAfterLineFeeds (line ++ '\n' :: rest) = (line ++ ['\n']) :: cutAfterLineFeeds rest := by
  induction line with
  | nil => rw [List.nil_append, cutAfterLineFeeds, if_pos rfl, List.nil_append]
  | cons c line ih =>
    have other : c ≠ '\n' := fun same => oneLine (by rw [same]; exact List.mem_cons_self)
    rw [List.cons_append, cutAfterLineFeeds, if_neg other,
      ih fun member => oneLine (List.mem_cons_of_mem c member)]
    rfl

/-- Lines of text are cut apart again. -/
theorem cutAfterLineFeeds_lines {lines : List (List Char)} (oneLine : ∀ line ∈ lines, '\n' ∉ line) :
    cutAfterLineFeeds (lines.flatMap (· ++ ['\n'])) = lines.map (· ++ ['\n']) := by
  induction lines with
  | nil => rfl
  | cons line lines ih =>
    rw [List.flatMap_cons, List.append_assoc, List.singleton_append,
      cutAfterLineFeeds_line (oneLine line List.mem_cons_self), List.map_cons,
      ih fun other member => oneLine other (List.mem_cons_of_mem line member)]

end RstPress.Inline
