import Mathlib.Algebra.GroupWithZero.Nat
import RstPress.Proofs.Text

/-!
Words of texts that are put together. Two texts make one word less than they have apart if the first
ends visibly and the second begins visibly: there the last word of the one and the first word of the
other become one.
-/

namespace RstPress.Text

def isVisible (c : Char) : Bool := !isBlank c

/-- One if a text behind the given character goes on with its last word. -/
def joint (last : Option Char) (text : List Char) : Nat :=
  if last.any isVisible && text.head?.any isVisible then 1 else 0

/-- How often a word goes on from one text to the next; empty texts are passed over. -/
def joints (last : Option Char) : List (List Char) → Nat
  | [] => 0
  | text :: texts => joint last text + joints (text.getLast?.or last) texts

@[simp] theorem words_nil : words [] = [] := by rw [words]

theorem words_cons_of_isBlank {c : Char} (blank : isBlank c) (text : List Char) :
    words (c :: text) = words text := by rw [words, if_pos blank]

theorem words_cons_of_isVisible {c : Char} (visible : isVisible c) (text : List Char) :
    words (c :: text) = (c :: text.takeWhile isVisible) :: words (text.dropWhile isVisible) := by
  rw [words, if_neg (by simpa [isVisible] using visible)]
  rfl

/-- A text has as many words as its rest behind a first word, and one more if it begins with one. -/
theorem length_words_dropWhile (text : List Char) :
    (words (text.dropWhile isVisible)).length + (if text.head?.any isVisible then 1 else 0) =
      (words text).length := by
  cases text with
  | nil => rfl
  | cons c text =>
    by_cases visible : isVisible c
    · rw [words_cons_of_isVisible visible, List.dropWhile_cons_of_pos visible, List.length_cons,
        List.head?_cons, Option.any_some, if_pos visible]
    · rw [List.dropWhile_cons_of_neg visible, List.head?_cons, Option.any_some, if_neg visible,
        Nat.add_zero]

theorem length_words_append (front back : List Char) :
    (words (front ++ back)).length + joint front.getLast? back =
      (words front).length + (words back).length := by
  fun_induction words front with
  | case1 => simp [joint]
  | case2 c text blank ih =>
    have same : joint (c :: text).getLast? back = joint text.getLast? back := by
      cases text with
      | nil => simp [joint, isVisible, blank]
      | cons d text => rw [List.getLast?_cons_cons]
    rw [List.cons_append, words_cons_of_isBlank blank, same, ih]
  | case3 c text plain ih =>
    have visible : isVisible c := by simpa [isVisible] using plain
    change (words (text.dropWhile isVisible ++ back)).length +
        joint (text.dropWhile isVisible).getLast? back =
      (words (text.dropWhile isVisible)).length + (words back).length at ih
    rw [List.cons_append, words_cons_of_isVisible visible, List.length_cons, List.length_cons,
      List.dropWhile_append]
    change _ = (words (text.dropWhile isVisible)).length + 1 + _
    cases rest : text.dropWhile isVisible with
    | nil =>
      -- The first word goes on to the end of the text, and perhaps behind it.
      have all : ∀ d ∈ c :: text, isVisible d :=
        List.forall_mem_cons.mpr ⟨visible, List.dropWhile_eq_nil_iff.mp rest⟩
      obtain ⟨d, found⟩ : ∃ d, (c :: text).getLast? = some d := ⟨_, List.getLast?_cons⟩
      have last : (c :: text).getLast?.any isVisible := by
        rw [found]
        exact all d (List.mem_of_getLast? found)
      have joined : joint (c :: text).getLast? back = if back.head?.any isVisible then 1 else 0 := by
        rw [joint, last, Bool.true_and]
      have behind := length_words_dropWhile back
      rw [List.isEmpty_nil, if_pos rfl, joined, words_nil, List.length_nil]
      omega
    | cons d others =>
      have same : (c :: text).getLast? = (d :: others).getLast? := by
        obtain ⟨front, whole⟩ := List.dropWhile_suffix isVisible (l := text)
        rw [← whole, rest, ← List.cons_append,
          List.getLast?_append_of_ne_nil _ (List.cons_ne_nil d others)]
      rw [rest] at ih
      rw [List.isEmpty_cons, if_neg Bool.false_ne_true, same]
      omega

/-- The words of texts that follow a given one. -/
theorem length_words_append_flatten (front : List Char) (texts : List (List Char)) :
    (words (front ++ texts.flatten)).length + joints front.getLast? texts =
      (words front).length + (texts.map fun text => (words text).length).sum := by
  induction texts generalizing front with
  | nil => simp [joints]
  | cons text texts ih =>
    have here := length_words_append front text
    have later := ih (front ++ text)
    rw [List.append_assoc, ← List.flatten_cons, List.getLast?_append] at later
    rw [joints, List.map_cons, List.sum_cons]
    omega

/-- Words that go on from one text to the next are what the texts have less together than apart. -/
theorem length_words_flatten (texts : List (List Char)) :
    (words texts.flatten).length + joints none texts =
      (texts.map fun text => (words text).length).sum := by
  have whole := length_words_append_flatten [] texts
  rwa [List.nil_append, words_nil, List.length_nil, Nat.zero_add] at whole

end RstPress.Text
