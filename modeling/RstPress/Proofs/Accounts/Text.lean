import RstPress.Proofs.Text

/-!
What it means that a text accounts for its source. Blank characters may come and go. Of the others
none is invented, doubled or moved; only ASCII characters are left out, and letters and digits among
them only as parts of a label, which is known by the period, parenthesis or backquote in it.
-/

namespace RstPress.Text

def ink (text : List Char) : List Char := text.filter fun c => !isBlank c

/-- Characters beyond ASCII that show. -/
def isForeign (c : Char) : Bool := !isBlank c && decide (128 ≤ c.toNat)

def isLabelMark (c : Char) : Bool := c = '.' || c = ')' || c = '\x60'

structure Accounts (shown source : List Char) : Prop where
  ordered : (ink shown).Sublist (ink source)
  foreign : shown.filter isForeign = source.filter isForeign
  letters : (∀ c ∈ source, isLabelMark c = false) →
    shown.filter Char.isAlphanum = source.filter Char.isAlphanum

theorem mem_ink_iff {c : Char} {text : List Char} :
    c ∈ ink text ↔ c ∈ text ∧ isBlank c = false := by
  simp [ink]

theorem ink_append (front back : List Char) : ink (front ++ back) = ink front ++ ink back :=
  List.filter_append front back

theorem ink_cons (c : Char) (text : List Char) : ink (c :: text) = ink [c] ++ ink text :=
  ink_append [c] text

theorem ink_of_isBlank {text : List Char} (blank : ∀ c ∈ text, isBlank c) : ink text = [] := by
  rw [ink, List.filter_eq_nil_iff]
  intro c member
  simp [blank c member]

/-- A filter that no blank character passes sees the ink alone. -/
theorem filter_ink {p : Char → Bool} (visible : ∀ c, p c → isBlank c = false) (text : List Char) :
    (ink text).filter p = text.filter p := by
  rw [ink, List.filter_filter]
  apply List.filter_congr
  intro c _
  cases passes : p c with
  | false => rfl
  | true => simp [visible c passes]

theorem isBlank_of_isForeign (c : Char) (foreign : isForeign c) : isBlank c = false := by
  simp only [isForeign, Bool.and_eq_true, Bool.not_eq_true'] at foreign
  exact foreign.1

theorem isForeign_of_isAlphanum {c : Char} (letter : c.isAlphanum) : isForeign c = false := by
  have code := code_of_isAlphanum letter
  simp only [isForeign, Bool.and_eq_false_iff, decide_eq_false_iff_not]
  omega

theorem isBlank_of_isLabelMark {c : Char} (mark : isLabelMark c) : isBlank c = false := by
  simp only [isLabelMark, Bool.or_eq_true, decide_eq_true_eq] at mark
  rcases mark with (rfl | rfl) | rfl <;> decide

namespace Accounts
variable {shown shown' middle source source' : List Char}

theorem refl (text : List Char) : Accounts text text := ⟨List.Sublist.refl _, rfl, fun _ => rfl⟩

theorem trans (first : Accounts shown middle) (second : Accounts middle source) :
    Accounts shown source := by
  refine ⟨first.ordered.trans second.ordered, first.foreign.trans second.foreign, fun free => ?_⟩
  have kept : ∀ c ∈ middle, isLabelMark c = false := by
    intro c member
    cases mark : isLabelMark c with
    | false => rfl
    | true =>
      have present := second.ordered.subset (mem_ink_iff.mpr ⟨member, isBlank_of_isLabelMark mark⟩)
      rw [free c (mem_ink_iff.mp present).1] at mark
      exact mark.symm
  exact (first.letters kept).trans (second.letters free)

theorem append (first : Accounts shown source) (second : Accounts shown' source') :
    Accounts (shown ++ shown') (source ++ source') := by
  constructor
  · rw [ink_append, ink_append]
    exact first.ordered.append second.ordered
  · rw [List.filter_append, List.filter_append, first.foreign, second.foreign]
  · intro free
    rw [List.filter_append, List.filter_append,
      first.letters fun c member => free c (by simp [member]),
      second.letters fun c member => free c (by simp [member])]

/-- Texts that differ in blank characters only account for each other. -/
theorem of_ink_eq (same : ink shown = ink source) : Accounts shown source := by
  refine ⟨same ▸ List.Sublist.refl _, ?_, fun _ => ?_⟩
  · rw [← filter_ink isBlank_of_isForeign, same, filter_ink isBlank_of_isForeign]
  · rw [← filter_ink isBlank_of_isAlphanum, same, filter_ink isBlank_of_isAlphanum]

/-- ASCII text may be left out if there is no letter or digit in it, or if it has the mark of a
label. -/
theorem of_left_out {label : List Char} (ascii : ∀ c ∈ label, isForeign c = false)
    (plain : (∃ c ∈ label, isLabelMark c) ∨ ∀ c ∈ label, ¬c.isAlphanum) : Accounts [] label := by
  refine ⟨List.nil_sublist _, ?_, fun free => ?_⟩
  · rw [List.filter_nil, eq_comm, List.filter_eq_nil_iff]
    intro c member
    simp [ascii c member]
  · rw [List.filter_nil, eq_comm, List.filter_eq_nil_iff]
    rcases plain with ⟨c, member, mark⟩ | plain
    · simp [free c member] at mark
    · exact plain

theorem of_blank {blanks : List Char} (blank : ∀ c ∈ blanks, isBlank c) : Accounts [] blanks :=
  of_ink_eq (by rw [ink_of_isBlank blank]; rfl)

theorem of_punctuation {marks : List Char} (punctuation : ∀ c ∈ marks, isPunctuation c) :
    Accounts [] marks := by
  apply of_left_out
  · intro c member
    have code := code_of_isPunctuation (punctuation c member)
    simp only [isForeign, Bool.and_eq_false_iff, decide_eq_false_iff_not]
    omega
  · exact .inr fun c member => (code_of_isPunctuation (punctuation c member)).2.2

theorem left_out_append {label : List Char} (gone : Accounts [] label)
    (kept : Accounts shown source) : Accounts shown (label ++ source) :=
  gone.append kept

theorem append_left_out {label : List Char} (kept : Accounts shown source)
    (gone : Accounts [] label) : Accounts shown (source ++ label) := by
  have whole := kept.append gone
  rwa [List.append_nil] at whole

theorem cons (c : Char) (kept : Accounts shown source) : Accounts (c :: shown) (c :: source) :=
  (refl [c]).append kept

theorem punctuation_cons {c : Char} (punctuation : isPunctuation c) (kept : Accounts shown source) :
    Accounts shown (c :: source) :=
  left_out_append (of_punctuation fun _ member => List.mem_singleton.mp member ▸ punctuation) kept

theorem blank_cons {c : Char} (blank : isBlank c) (kept : Accounts shown source) :
    Accounts shown (c :: source) :=
  left_out_append (of_blank fun _ member => List.mem_singleton.mp member ▸ blank) kept

end Accounts

end RstPress.Text
