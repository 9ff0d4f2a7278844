import Mathlib.Data.List.DropRight
import Mathlib.Data.List.TakeWhile
import RstPress.Text.Blank
import RstPress.Text.Punctuation

/-!
Kinds of characters that exclude each other, and what becomes of the beginnings and endings of a
text when more text follows.
-/

namespace RstPress.Text
variable {α : Type}

theorem code_of_isAlphanum {c : Char} (letter : c.isAlphanum) : 48 ≤ c.toNat ∧ c.toNat ≤ 122 := by
  delta Char.isAlphanum Char.isAlpha Char.isUpper Char.isLower Char.isDigit at letter
  simp only [Bool.or_eq_true, Bool.and_eq_true, decide_eq_true_eq, ge_iff_le,
    UInt32.le_iff_toNat_le] at letter
  simp at letter
  omega

theorem isBlank_of_isAlphanum (c : Char) (letter : c.isAlphanum) : isBlank c = false := by
  have code := code_of_isAlphanum letter
  simp [isBlank, blankRanges]
  omega

theorem code_of_isPunctuation {c : Char} (punctuation : isPunctuation c) :
    33 ≤ c.toNat ∧ c.toNat ≤ 126 ∧ ¬c.isAlphanum := by
  simp only [isPunctuation, Bool.or_eq_true, Bool.and_eq_true, decide_eq_true_eq, Char.le_def,
    UInt32.le_iff_toNat_le] at punctuation
  delta Char.isAlphanum Char.isAlpha Char.isUpper Char.isLower Char.isDigit
  simp only [Bool.or_eq_true, Bool.and_eq_true, decide_eq_true_eq, ge_iff_le,
    UInt32.le_iff_toNat_le]
  simp at punctuation ⊢
  omega

theorem isPunctuation_of_isAlpha {c : Char} (letter : c.isAlpha) : isPunctuation c = false := by
  rw [Bool.eq_false_iff]
  intro punctuation
  exact (code_of_isPunctuation punctuation).2.2 (by simp [Char.isAlphanum, letter])

theorem isBlank_of_isPunctuation {c : Char} (punctuation : isPunctuation c) :
    isBlank c = false := by
  have bounds := code_of_isPunctuation punctuation
  simp [isBlank, blankRanges]
  omega

theorem ne_of_isBlank {c blank : Char} (visible : isBlank c = false) (hidden : isBlank blank) :
    c ≠ blank := by
  rintro rfl
  rw [visible] at hidden
  cases hidden

theorem ne_of_isPunctuation {c mark : Char} (plain : isPunctuation c = false)
    (punctuation : isPunctuation mark) : c ≠ mark := by
  rintro rfl
  rw [plain] at punctuation
  cases punctuation

theorem dropEndWhile_append_ending (p : α → Bool) (items : List α) :
    dropEndWhile p items ++ (items.reverse.takeWhile p).reverse = items := by
  rw [dropEndWhile, ← List.reverse_append, List.takeWhile_append_dropWhile, List.reverse_reverse]

theorem dropEndWhile_append_of_eq_nil {p : α → Bool} {more : List α}
    (gone : dropEndWhile p more = []) (items : List α) :
    dropEndWhile p (items ++ more) = dropEndWhile p items := by
  simp only [dropEndWhile, List.reverse_eq_nil_iff] at gone
  simp only [dropEndWhile, List.reverse_append, List.dropWhile_append, gone, List.isEmpty_nil,
    ↓reduceIte]

theorem takeWhile_eq_replicate [DecidableEq α] (item : α) (items : List α) :
    items.takeWhile (· = item) = List.replicate (items.takeWhile (· = item)).length item :=
  List.eq_replicate_of_mem fun _ member => by simpa using List.mem_takeWhile_imp member

theorem takeWhile_append_of_head {p : α → Bool} {more : List α}
    (stops : more.head?.all fun a => !p a) (items : List α) :
    (items ++ more).takeWhile p = items.takeWhile p := by
  have none : more.takeWhile p = [] := by
    cases more with
    | nil => rfl
    | cons first more => simpa [List.takeWhile_cons] using stops
  rw [List.takeWhile_append, none, List.append_nil]
  split
  · rename_i same
    exact ((List.takeWhile_prefix p).eq_of_length same).symm
  · rfl

theorem dropWhile_append_of_head {p : α → Bool} {more : List α}
    (stops : more.head?.all fun a => !p a) (items : List α) :
    (items ++ more).dropWhile p = items.dropWhile p ++ more := by
  have whole : more.dropWhile p = more := by
    cases more with
    | nil => rfl
    | cons first more => simp_all
  rw [List.dropWhile_append, whole]
  split
  · rename_i empty
    rw [List.isEmpty_iff.mp empty, List.nil_append]
  · rfl

theorem dropEndWhile_eq_nil_iff {p : α → Bool} {items : List α} :
    dropEndWhile p items = [] ↔ ∀ item ∈ items, p item := by
  rw [dropEndWhile, List.reverse_eq_nil_iff, List.dropWhile_eq_nil_iff]
  simp only [List.mem_reverse]

theorem dropEndWhile_append_singleton {p : α → Bool} {last : α} (kept : p last = false)
    (front : List α) : dropEndWhile p (front ++ [last]) = front ++ [last] := by
  rw [dropEndWhile, List.reverse_append, List.reverse_singleton, List.singleton_append,
    List.dropWhile_cons_of_neg (by simp [kept]), List.reverse_cons, List.reverse_reverse]

theorem dropEndWhile_append_of_ne_nil {p : α → Bool} {back : List α}
    (kept : dropEndWhile p back ≠ []) (front : List α) :
    dropEndWhile p (front ++ back) = front ++ dropEndWhile p back := by
  simp only [dropEndWhile, ne_eq, List.reverse_eq_nil_iff] at kept
  rw [dropEndWhile, List.reverse_append, List.dropWhile_append, if_neg (mt List.isEmpty_iff.mp kept),
    List.reverse_append, List.reverse_reverse, dropEndWhile]

theorem of_getLast?_dropEndWhile {p : α → Bool} {items : List α} {last : α}
    (ends : (dropEndWhile p items).getLast? = some last) : p last = false := by
  have stops := List.head?_dropWhile_not p items.reverse
  rw [dropEndWhile, List.getLast?_reverse] at ends
  rw [ends] at stops
  exact stops

theorem dropEndWhile_idem (p : α → Bool) (items : List α) :
    dropEndWhile p (dropEndWhile p items) = dropEndWhile p items :=
  List.rdropWhile_idempotent p items

theorem notMem_of_mem_splitOn [BEq α] [LawfulBEq α] {separator : α} {items piece : List α}
    (member : piece ∈ items.splitOn separator) : separator ∉ piece := by
  induction items generalizing piece with
  | nil =>
    rw [List.splitOn_nil, List.mem_singleton] at member
    simp [member]
  | cons item items ih =>
    obtain ⟨first, others, pieces⟩ := List.exists_cons_of_ne_nil (List.splitOn_ne_nil separator items)
    rw [List.splitOn_cons_eq_if_modifyHead, pieces] at member
    by_cases here : item = separator
    · simp only [here, beq_self_eq_true, if_true, ← pieces] at member
      rcases List.mem_cons.mp member with rfl | later
      · exact List.not_mem_nil
      · exact ih later
    · simp only [beq_iff_eq, here, if_false, List.modifyHead_cons] at member
      rcases List.mem_cons.mp member with rfl | later
      · have inside := ih (pieces ▸ List.mem_cons_self)
        simp [Ne.symm here, inside]
      · exact ih (pieces ▸ List.mem_cons_of_mem first later)

theorem trimEnd_ends (text : List Char) :
    trimEnd text = [] ∨ ∃ front last, trimEnd text = front ++ [last] ∧ isBlank last = false := by
  rcases List.eq_nil_or_concat (trimEnd text) with none | ⟨front, last, concat⟩
  · exact .inl none
  · rw [List.concat_eq_append] at concat
    have ends : (dropEndWhile isBlank text).getLast? = some last := by
      rw [← trimEnd, concat, List.getLast?_concat]
    exact .inr ⟨front, last, concat, of_getLast?_dropEndWhile ends⟩

end RstPress.Text
