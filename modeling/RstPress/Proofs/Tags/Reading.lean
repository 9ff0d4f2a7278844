import RstPress.Html.Render
import RstPress.Proofs.Text

/-!
Markup read back as a stream of tags and characters, and the elements nested as their tags tell. The
reader knows nothing of the writer: it takes a class attribute with every opening tag and nothing else,
and a closing tag only for the element that was opened last.
-/

namespace RstPress.Html
open Text

/-- What markup consists of. -/
inductive Mark where
  | opening (tag className : List Char)
  | closing (tag : List Char)
  | char (c : Char)

def classPrefix : List Char := [' ', 'c', 'l', 'a', 's', 's', '=', '"']

/-- A tag name and a class in quotation marks. -/
def opening? (inner : List Char) : Option Mark :=
  match classPrefix.isPrefixOf? (inner.dropWhile (· ≠ ' ')) with
  | some quoted =>
    if quoted.dropWhile (· ≠ '"') = ['"'] then
      some (.opening (inner.takeWhile (· ≠ ' ')) (quoted.takeWhile (· ≠ '"')))
    else none
  | none => none

/-- The tag with the given characters between its brackets. -/
def tag? (inner : List Char) : Option Mark :=
  if '<' ∈ inner then none
  else if inner.head? = some '/' then some (.closing inner.tail)
  else opening? inner

/-- Reads markup; an angle bracket must begin a tag. -/
def marks? : List Char → Option (List Mark)
  | [] => some []
  | c :: text =>
    if c = '<' then
      match _found : text.dropWhile (· ≠ '>') with
      | [] => none
      | _ :: after => (tag? (text.takeWhile (· ≠ '>'))).bind fun mark => (marks? after).map (mark :: ·)
    else (marks? text).map (.char c :: ·)
termination_by text => text.length
decreasing_by
  · have shorter := (List.dropWhile_sublist (· ≠ '>') (l := text)).length_le
    rw [_found, List.length_cons] at shorter
    rw [List.length_cons]
    omega
  · exact Nat.lt_succ_self _

/-- An element, without its text. -/
inductive Shape where
  | element (tag className : List Char) (inner : List Shape)

/-- An element that is still open, and the elements in front of it. -/
structure Frame where
  tag : List Char
  className : List Char
  before : List Shape

/-- Nests the elements of a stream, given those that are still open and those that the last of them
holds so far. -/
def nest? : List Frame → List Shape → List Mark → Option (List Shape)
  | [], inner, [] => some inner
  | _ :: _, _, [] => none
  | frames, inner, .char _ :: marks => nest? frames inner marks
  | frames, inner, .opening tag className :: marks => nest? (⟨tag, className, inner⟩ :: frames) [] marks
  | [], _, .closing _ :: _ => none
  | frame :: frames, inner, .closing tag :: marks =>
    if tag = frame.tag then nest? frames (frame.before ++ [.element tag frame.className inner]) marks
    else none

/-- The characters outside of tags. -/
def textOf : List Mark → List Char
  | [] => []
  | .char c :: marks => c :: textOf marks
  | .opening .. :: marks | .closing _ :: marks => textOf marks

/-- A text without its spaces and line feeds. -/
def squeeze (text : List Char) : List Char := text.filter fun c => c ≠ ' ' && c ≠ '\n'

/-- Characters that may stand in a class name. -/
def isClassChar (c : Char) : Bool := c ≠ '<' && c ≠ '>' && c ≠ '"'

/-- A tag and a class that can be read back. -/
structure Fits (tag className : String) : Prop where
  tag : tag.toList.all Char.isAlphanum
  className : className.toList.all isClassChar

theorem marks?_cons_of_ne {c : Char} (plain : c ≠ '<') (text : List Char) :
    marks? (c :: text) = (marks? text).map (.char c :: ·) := by
  rw [marks?, if_neg plain]

/-- A tag is read up to its closing bracket. -/
theorem marks?_tag {inner : List Char} (bounded : '>' ∉ inner) {mark : Mark}
    (tag : tag? inner = some mark) (rest : List Char) :
    marks? ('<' :: (inner ++ '>' :: rest)) = (marks? rest).map (mark :: ·) := by
  have ends : ('>' :: rest).head?.all fun c => !decide (c ≠ '>') := rfl
  have kept : ∀ c ∈ inner, decide (c ≠ '>') := fun c member => by
    rw [decide_eq_true_eq]
    rintro rfl
    exact bounded member
  have behind : (inner ++ '>' :: rest).dropWhile (· ≠ '>') = '>' :: rest := by
    rw [dropWhile_append_of_head ends, List.dropWhile_eq_nil_iff.mpr kept, List.nil_append]
  have inside : (inner ++ '>' :: rest).takeWhile (· ≠ '>') = inner := by
    rw [takeWhile_append_of_head ends, List.takeWhile_eq_self_iff.mpr kept]
  rw [marks?, if_pos rfl]
  split
  · rename_i none
    rw [behind] at none
    cases none
  · rename_i other after found
    rw [behind] at found
    cases found
    rw [inside, tag, Option.bind_some]

section fits
variable {tag className : String} (fits : Fits tag className)
include fits

theorem Fits.ne_of_mem_tag {c : Char} (member : c ∈ tag.toList) {other : Char}
    (foreign : other.isAlphanum = false) : c ≠ other := by
  rintro rfl
  rw [List.all_eq_true.mp fits.tag c member] at foreign
  cases foreign

theorem Fits.ne_of_mem_className {c : Char} (member : c ∈ className.toList) {other : Char}
    (foreign : isClassChar other = false) : c ≠ other := by
  rintro rfl
  rw [List.all_eq_true.mp fits.className c member] at foreign
  cases foreign

/-- No bracket stands in a closing tag. -/
theorem Fits.notMem_closing {c : Char} (bracket : c = '<' ∨ c = '>') : c ∉ '/' :: tag.toList := by
  intro member
  rcases List.mem_cons.mp member with slash | inside
  · rcases bracket with rfl | rfl <;> cases slash
  · exact fits.ne_of_mem_tag inside (by rcases bracket with rfl | rfl <;> decide) rfl

/-- No bracket stands in an opening tag. -/
theorem Fits.notMem_opening {c : Char} (bracket : c = '<' ∨ c = '>') :
    c ∉ tag.toList ++ (classPrefix ++ (className.toList ++ ['"'])) := by
  simp only [List.mem_append, not_or]
  refine ⟨fun member => fits.ne_of_mem_tag member ?_ rfl, ?_,
    fun member => fits.ne_of_mem_className member ?_ rfl, ?_⟩
  all_goals rcases bracket with rfl | rfl <;> decide

theorem tag?_closing : tag? ('/' :: tag.toList) = some (.closing tag.toList) := by
  have plain := fits.notMem_closing (.inl rfl)
  rw [tag?, if_neg plain, List.head?_cons, if_pos rfl, List.tail_cons]

theorem tag?_opening : tag? (tag.toList ++ (classPrefix ++ (className.toList ++ ['"']))) =
    some (.opening tag.toList className.toList) := by
  have plain := fits.notMem_opening (.inl rfl)
  have noSlash : (tag.toList ++ (classPrefix ++ (className.toList ++ ['"']))).head? ≠ some '/' := by
    cases same : tag.toList with
    | nil => exact fun slash => absurd (Option.some.inj slash) (by decide)
    | cons c others =>
      have plain : c ≠ '/' := fits.ne_of_mem_tag (same ▸ List.mem_cons_self) (by decide)
      exact fun slash => plain (Option.some.inj slash)
  have name : ∀ c ∈ tag.toList, decide (c ≠ ' ') := fun c member =>
    decide_eq_true (fits.ne_of_mem_tag member (by decide))
  have value : ∀ c ∈ className.toList, decide (c ≠ '"') := fun c member =>
    decide_eq_true (fits.ne_of_mem_className member (by decide))
  have space : (classPrefix ++ (className.toList ++ ['"'])).head?.all fun c => !decide (c ≠ ' ') := rfl
  have quote : ['"'].head?.all fun c => !decide (c ≠ '"') := rfl
  rw [tag?, if_neg plain, if_neg noSlash, opening?, dropWhile_append_of_head space,
    takeWhile_append_of_head space, List.dropWhile_eq_nil_iff.mpr name,
    List.takeWhile_eq_self_iff.mpr name, List.nil_append,
    List.isPrefixOf?_eq_some_iff_append_eq.mpr rfl]
  dsimp only
  rw [dropWhile_append_of_head quote, takeWhile_append_of_head quote,
    List.dropWhile_eq_nil_iff.mpr value, List.takeWhile_eq_self_iff.mpr value, List.nil_append,
    if_pos rfl]

end fits

/-- The text is read as these marks, whatever follows it. -/
def Reads (text : List Char) (marks : List Mark) : Prop :=
  ∀ rest, marks? (text ++ rest) = (marks? rest).map (marks ++ ·)

theorem Reads.append {front back : List Char} {first second : List Mark} (here : Reads front first)
    (later : Reads back second) : Reads (front ++ back) (first ++ second) := by
  intro rest
  rw [List.append_assoc, here, later, Option.map_map]
  simp only [Function.comp_def, List.append_assoc]

theorem reads_plain {text : List Char} (plain : '<' ∉ text) : Reads text (text.map .char) := by
  intro rest
  induction text with
  | nil => simp
  | cons c text ih =>
    rw [List.mem_cons, not_or] at plain
    rw [List.cons_append, marks?_cons_of_ne (Ne.symm plain.1), ih plain.2, Option.map_map]
    rfl

theorem reads_openTag {tag className : String} (fits : Fits tag className) :
    Reads (openTag tag className).toList [.opening tag.toList className.toList] := by
  intro rest
  have whole : (openTag tag className).toList ++ rest =
      '<' :: ((tag.toList ++ (classPrefix ++ (className.toList ++ ['"']))) ++ '>' :: rest) := by
    simp [openTag, classPrefix]
  rw [whole, marks?_tag (fits.notMem_opening (.inr rfl)) (tag?_opening fits)]
  rfl

theorem reads_closeTag {tag className : String} (fits : Fits tag className) :
    Reads (closeTag tag).toList [.closing tag.toList] := by
  intro rest
  have whole : (closeTag tag).toList ++ rest = '<' :: (('/' :: tag.toList) ++ '>' :: rest) := by
    simp [closeTag]
  rw [whole, marks?_tag (fits.notMem_closing (.inr rfl)) (tag?_closing fits)]
  rfl

/-- The marks are nested as these elements, wherever they stand. -/
def Nests (marks : List Mark) (shapes : List Shape) : Prop :=
  ∀ frames before rest, nest? frames before (marks ++ rest) = nest? frames (before ++ shapes) rest

theorem Nests.append {front back : List Mark} {first second : List Shape} (here : Nests front first)
    (later : Nests back second) : Nests (front ++ back) (first ++ second) := by
  intro frames before rest
  rw [List.append_assoc, here, later, List.append_assoc]

theorem nests_chars (text : List Char) : Nests (text.map .char) [] := by
  intro frames before rest
  induction text with
  | nil => rw [List.map_nil, List.nil_append, List.append_nil]
  | cons c text ih => rw [List.map_cons, List.cons_append, nest?, ih]

/-- A tag, a well nested content, and the closing tag. -/
theorem Nests.element {marks : List Mark} {shapes : List Shape} (inner : Nests marks shapes)
    (tag className : List Char) :
    Nests (.opening tag className :: (marks ++ [.closing tag])) [.element tag className shapes] := by
  intro frames before rest
  rw [List.cons_append, nest?, List.append_assoc, inner, List.singleton_append, nest?, if_pos rfl,
    List.nil_append]

theorem textOf_append (front back : List Mark) :
    textOf (front ++ back) = textOf front ++ textOf back := by
  induction front with
  | nil => rfl
  | cons mark front ih =>
    cases mark with
    | char c => exact congrArg (c :: ·) ih
    | opening | closing => exact ih

theorem textOf_map_char (text : List Char) : textOf (text.map .char) = text := by
  induction text with
  | nil => rfl
  | cons c text ih => rw [List.map_cons, textOf, ih]

theorem squeeze_append (front back : List Char) :
    squeeze (front ++ back) = squeeze front ++ squeeze back :=
  List.filter_append _ _

/-- Markup of the given elements that shows the given text. -/
def Shows (markup : String) (shapes : List Shape) (text : String) : Prop :=
  ∃ marks, Reads markup.toList marks ∧ Nests marks shapes ∧ squeeze (textOf marks) = squeeze text.toList

theorem Shows.append {front back first second : String} {left right : List Shape}
    (here : Shows front left first) (later : Shows back right second) :
    Shows (front ++ back) (left ++ right) (first ++ second) := by
  obtain ⟨marks, reads, nests, text⟩ := here
  obtain ⟨others, readsLater, nestsLater, textLater⟩ := later
  refine ⟨marks ++ others, ?_, nests.append nestsLater, ?_⟩
  · rw [String.toList_append]
    exact reads.append readsLater
  · rw [textOf_append, squeeze_append, text, textLater, String.toList_append, squeeze_append]

/-- Text without tags shows what it is but for spaces and line feeds. -/
theorem shows_of_squeeze {markup text : String} (plain : '<' ∉ markup.toList)
    (same : squeeze markup.toList = squeeze text.toList) : Shows markup [] text :=
  ⟨_, reads_plain plain, nests_chars _, by rw [textOf_map_char, same]⟩

theorem Shows.element {content text : String} {shapes : List Shape} (inner : Shows content shapes text)
    {tag className : String} (fits : Fits tag className) :
    Shows (openTag tag className ++ content ++ closeTag tag)
      [.element tag.toList className.toList shapes] text := by
  obtain ⟨marks, reads, nests, shown⟩ := inner
  refine ⟨_, ?_, nests.element tag.toList className.toList, ?_⟩
  · rw [String.toList_append, String.toList_append, List.append_assoc]
    exact (reads_openTag fits).append (reads.append (reads_closeTag fits))
  · rw [textOf, textOf_append, textOf, textOf, List.append_nil, shown]

/-- Spaces and line feeds around markup do not show. -/
theorem Shows.pad {content text : String} {shapes : List Shape} (inner : Shows content shapes text)
    (front back : String) (above : ∀ c ∈ front.toList, c = ' ' ∨ c = '\n')
    (below : ∀ c ∈ back.toList, c = ' ' ∨ c = '\n') : Shows (front ++ content ++ back) shapes text := by
  have blank {markup : String} (spaces : ∀ c ∈ markup.toList, c = ' ' ∨ c = '\n') :
      Shows markup [] "" := by
    apply shows_of_squeeze
    · intro member
      rcases spaces _ member with same | same <;> cases same
    · apply List.filter_eq_nil_iff.mpr
      intro c member
      rcases spaces c member with rfl | rfl <;> decide
  have whole := ((blank above).append inner).append (blank below)
  rwa [List.nil_append, List.append_nil, String.empty_append, String.append_empty] at whole

theorem blank_indentation (width level : Nat) :
    ∀ c ∈ (indentation width level).toList, c = ' ' ∨ c = '\n' := by
  intro c member
  rw [indentation, String.toList_ofList] at member
  exact .inl (List.mem_replicate.mp member).2

theorem Shows.wrapBlock {content text : String} {shapes : List Shape}
    (inner : Shows content shapes text) {tag className : String} (fits : Fits tag className)
    (width level : Nat) :
    Shows (wrapBlock width level tag className content)
      [.element tag.toList className.toList shapes] text := by
  have feed : ∀ c ∈ "\n".toList, c = ' ' ∨ c = '\n' := by simp
  have margin := blank_indentation width level
  have below : ∀ c ∈ ("\n" ++ indentation width level).toList, c = ' ' ∨ c = '\n' := by
    rw [String.toList_append]
    exact List.forall_mem_append.mpr ⟨feed, margin⟩
  have whole := ((inner.pad _ _ feed below).element fits).pad _ _ margin feed
  simpa only [Html.wrapBlock, String.append_assoc] using whole

theorem Shows.wrap {content text : String} {shapes : List Shape} (inner : Shows content shapes text)
    {element : Element} (fits : Fits element.tag element.className) (width level : Nat) :
    Shows (element.wrap width level content)
      [.element element.tag.toList element.className.toList shapes] text := by
  unfold Element.wrap
  split
  · exact inner.wrapBlock fits width level
  · exact inner.element fits

end RstPress.Html
