import RstPress.Press
import RstPress.Proofs.Characters.Document
import RstPress.Proofs.Exchange
import RstPress.Proofs.Tags.Mirror

/-!
Of which characters the output is made. HTML has the characters of the tree as they are, with tags and
white space around them. JSON has no control characters but line feeds, whatever the tree holds, since
it escapes all others.
-/

namespace RstPress.Html
open RstPress.Tree

theorem isUsual_of_isDigit {c : Char} (digit : c.isDigit) : isUsual c := by
  simp only [Char.isDigit, Bool.and_eq_true, decide_eq_true_eq, ge_iff_le] at digit
  simp only [isUsual, Char.le_def, Bool.or_eq_true, Bool.and_eq_true, decide_eq_true_eq]
  refine .inr ⟨UInt32.le_trans (by decide) digit.1, UInt32.le_trans digit.2 (by decide)⟩

/-- All characters of some markup are of one kind. -/
def Writes (p : Char → Prop) (markup : String) : Prop := ∀ c ∈ markup.toList, p c

theorem Writes.append {p : Char → Prop} {front back : String} (first : Writes p front)
    (second : Writes p back) : Writes p (front ++ back) := by
  rw [Writes, String.toList_append]
  exact List.forall_mem_append.mpr ⟨first, second⟩

section characters
variable {p : Char → Prop}

theorem writes_empty : Writes p "" := List.forall_mem_nil p

theorem writes_dropLineFeed {value : String} (own : Writes p value) : Writes p (dropLineFeed value) := by
  rcases dropLineFeed_cases value with same | ends
  · rw [same]
    exact own
  · exact fun c member => own c (by rw [ends]; exact List.mem_append_left _ member)

variable (usual : ∀ c, isUsual c → p c)
include usual

theorem writes_usual {markup : String} (names : markup.toList.all isUsual) : Writes p markup :=
  Inline.forall_of_usual usual names

theorem writes_indentation (width level : Nat) : Writes p (indentation width level) := by
  intro c member
  rw [indentation, String.toList_ofList] at member
  exact usual c (by rw [(List.mem_replicate.mp member).2]; decide)

theorem writes_openTag {tag className : String} (named : Writes p tag) (styled : Writes p className) :
    Writes p (openTag tag className) :=
  ((((writes_usual usual (by decide)).append named).append (writes_usual usual (by decide))).append
    styled).append (writes_usual usual (by decide))

theorem writes_closeTag {tag : String} (named : Writes p tag) : Writes p (closeTag tag) :=
  ((writes_usual usual (by decide)).append named).append (writes_usual usual (by decide))

theorem writes_wrapInline {tag className content : String} (named : Writes p tag)
    (styled : Writes p className) (inner : Writes p content) :
    Writes p (wrapInline tag className content) :=
  ((writes_openTag usual named styled).append inner).append (writes_closeTag usual named)

theorem writes_wrapBlock {width level : Nat} {tag className content : String} (named : Writes p tag)
    (styled : Writes p className) (inner : Writes p content) :
    Writes p (wrapBlock width level tag className content) := by
  have feed : Writes p "\n" := writes_usual usual (by decide)
  have space := writes_indentation usual width level
  exact ((((((space.append (writes_openTag usual named styled)).append feed).append inner).append
    feed).append space).append (writes_closeTag usual named)).append feed

theorem writes_wrap {element : Element} (named : Writes p element.tag)
    (styled : Writes p element.className) {width level : Nat} {content : String}
    (inner : Writes p content) : Writes p (element.wrap width level content) := by
  unfold Element.wrap
  split
  · exact writes_wrapBlock usual named styled inner
  · exact writes_wrapInline usual named styled inner

theorem writes_leaf {tag className value : String} (named : Writes p tag) (styled : Writes p className)
    (own : Writes p value) : Writes p (leaf tag className value) :=
  writes_wrapInline usual named styled (writes_dropLineFeed own)

theorem writes_fallbackClass {name : String} (named : Writes p name) : Writes p (fallbackClass name) :=
  (writes_usual usual (by decide)).append named

theorem writes_elementOf (kind : Kind) :
    Writes p (elementOf kind).tag ∧ Writes p (elementOf kind).className := by
  cases kind <;> exact ⟨writes_usual usual (by decide), writes_usual usual (by decide)⟩

theorem writes_titleElement (depth : UInt32) :
    Writes p (titleElement depth).tag ∧ Writes p (titleElement depth).className := by
  have digits : Writes p depth.toNat.repr := by
    intro c member
    rw [Nat.toList_repr] at member
    exact usual c (isUsual_of_isDigit (Json.isDigit_of_mem_toDigits member))
  exact ⟨(writes_usual usual (by decide)).append digits, (writes_usual usual (by decide)).append digits⟩

theorem writes_interpretedClass {role : Option String} (named : ∀ name ∈ role, Writes p name) :
    Writes p (interpretedClass role) := by
  cases role with
  | none => exact writes_usual usual (by decide)
  | some name => exact (writes_usual usual (by decide)).append (named name rfl)

end characters

mutual

/-- The markup of a tree has no characters but those of the tree and the usual ones. -/
theorem writes_render {p : Char → Prop} (usual : ∀ c, isUsual c → p c) (width level : Nat) :
    (node : Node) → node.MadeOf p → Writes p (render width level node)
  | .text value, made => by
    cases made with
    | text own => exact writes_leaf usual (writes_usual usual (by decide)) (writes_usual usual (by decide)) own
  | .transition, _ =>
    writes_leaf usual (writes_usual usual (by decide))
      (writes_fallbackClass usual (writes_usual usual (by decide))) writes_empty
  | .titled depth title body, made => by
    cases made with
    | titled above below =>
      obtain ⟨named, styled⟩ := writes_titleElement usual depth
      have feed : Writes p "\n" := writes_usual usual (by decide)
      have tag : Writes p "div" := writes_usual usual (by decide)
      have className : Writes p "rst-section" := writes_usual usual (by decide)
      have space := writes_indentation usual width level
      have heading : Writes p ((titleElement depth).wrap width (level + 1)
          (renderAll width (level + 2) title)) :=
        writes_wrap usual named styled (writes_renderAll usual width (level + 2) title above)
      have inner := writes_renderSeparated usual width (level + 1) body below
      exact ((((((space.append (writes_openTag usual tag className)).append feed).append heading).append
        inner).append space).append (writes_closeTag usual tag)).append feed
  | .interpreted role children, made => by
    cases made with
    | interpreted named inner =>
      exact writes_wrapInline usual (writes_usual usual (by decide))
        (writes_interpretedClass usual named) (writes_renderAll usual width (level + 1) children inner)
  | .composite kind children, made => by
    cases made with
    | composite inner =>
      obtain ⟨named, styled⟩ := writes_elementOf usual kind
      exact writes_wrap usual named styled (writes_renderAll usual width (level + 1) children inner)
  | .unknown kind children, made => by
    cases made with
    | unknown named inner =>
      have tag : Writes p "div" := writes_usual usual (by decide)
      have content := writes_renderAll usual width (level + 1) children inner
      exact writes_wrapBlock usual tag (writes_fallbackClass usual named) content
  | .unknownLeaf kind value, made => by
    cases made with
    | unknownLeaf named own =>
      exact writes_leaf usual (writes_usual usual (by decide)) (writes_fallbackClass usual named) own

theorem writes_renderAll {p : Char → Prop} (usual : ∀ c, isUsual c → p c) (width level : Nat) :
    (nodes : List Node) → (∀ node ∈ nodes, node.MadeOf p) → Writes p (renderAll width level nodes)
  | [], _ => writes_empty
  | node :: nodes, made => by
    obtain ⟨here, later⟩ := List.forall_mem_cons.mp made
    exact (writes_render usual width level node here).append
      (writes_renderAll usual width level nodes later)

theorem writes_renderSeparated {p : Char → Prop} (usual : ∀ c, isUsual c → p c) (width level : Nat) :
    (nodes : List Node) → (∀ node ∈ nodes, node.MadeOf p) → Writes p (renderSeparated width level nodes)
  | [], _ => writes_empty
  | node :: nodes, made => by
    obtain ⟨here, later⟩ := List.forall_mem_cons.mp made
    have between : Writes p (if nodes.isEmpty then "" else "\n") := by
      split
      · exact writes_empty
      · exact writes_usual usual (by decide)
    exact ((writes_render usual width level node here).append between).append
      (writes_renderSeparated usual width level nodes later)

end

end RstPress.Html

namespace RstPress.Json

/-- A line feed, or no control character of ASCII. -/
def isPrinted (c : Char) : Bool := c = '\n' || 0x20 ≤ c.toNat

theorem isPrinted_hexDigit (value : Nat) : isPrinted (hexDigit value) := by
  have digits : ∀ digit < 16, isPrinted (Nat.digitChar digit) := by decide
  exact digits _ (Nat.mod_lt value (by decide))

/-- Control characters are escaped, and no escape has any. -/
theorem isPrinted_writePoint {point : Nat} (bounded : point < 0x110000) :
    ∀ c ∈ writePoint point, isPrinted c := by
  unfold writePoint
  cases short : escapeLetter? point with
  | some letter =>
    have visible : isPrinted letter := by
      unfold escapeLetter? at short
      repeat' split at short
      all_goals cases short <;> decide
    exact List.forall_mem_cons.mpr ⟨by decide, List.forall_mem_singleton.mpr visible⟩
  | none =>
    by_cases escaped : point < 0x20 || isLeading point || isTrailing point
    · rw [if_pos escaped]
      have sign : isPrinted '\\' ∧ isPrinted 'u' := by decide
      simp only [hexEscape, List.forall_mem_cons, isPrinted_hexDigit, sign, true_and]
      exact List.forall_mem_nil _
    · rw [if_neg escaped]
      simp only [isLeading, isTrailing, Bool.or_eq_true, Bool.and_eq_true, decide_eq_true_eq] at escaped
      have itself : (Char.ofNat point).toNat = point :=
        toNat_ofNat (by unfold Nat.isValidChar; omega)
      refine List.forall_mem_singleton.mpr ?_
      simp only [isPrinted, itself, Bool.or_eq_true, decide_eq_true_eq]
      omega

theorem isPrinted_writeString {points : List Nat} (bounded : ∀ point ∈ points, point < 0x110000) :
    ∀ c ∈ writeString points, isPrinted c := by
  have quote : isPrinted '"' := by decide
  refine List.forall_mem_cons.mpr ⟨quote, List.forall_mem_append.mpr
    ⟨?_, List.forall_mem_singleton.mpr quote⟩⟩
  exact List.forall_mem_flatMap.mpr fun point member => isPrinted_writePoint (bounded point member)

theorem isPrinted_newline (style : Style) (level : Nat) : ∀ c ∈ style.newline level, isPrinted c := by
  cases style with
  | compact => exact List.forall_mem_nil _
  | pretty =>
    refine List.forall_mem_cons.mpr ⟨by decide, fun c member => ?_⟩
    rw [(List.mem_replicate.mp member).2]
    decide

theorem isPrinted_colon (style : Style) : ∀ c ∈ style.colon, isPrinted c := by
  cases style <;> exact List.all_eq_true.mp (by decide)

theorem isPrinted_of_isNumberChar {c : Char} (mark : isNumberChar c) : isPrinted c := by
  simp only [isNumberChar, Bool.or_eq_true, decide_eq_true_eq] at mark
  rcases mark with ((((digit | rfl) | rfl) | rfl) | rfl) | rfl
  · have code : 48 ≤ c.toNat := by
      simp only [Char.isDigit, Bool.and_eq_true, decide_eq_true_eq, ge_iff_le,
        UInt32.le_iff_toNat_le] at digit
      exact digit.1
    simp only [isPrinted, Bool.or_eq_true, decide_eq_true_eq]
    omega
  all_goals decide

theorem isPrinted_number {spelling : List Char} (number : isNumber spelling) :
    ∀ c ∈ spelling, isPrinted c := by
  obtain ⟨first, text, rfl, begins, rest⟩ := exists_of_isNumber number
  refine List.forall_mem_cons.mpr ⟨isPrinted_of_isNumberChar ?_, fun c member =>
    isPrinted_of_isNumberChar (rest c member)⟩
  simp only [Bool.or_eq_true, decide_eq_true_eq] at begins
  rcases begins with digit | rfl
  · exact isNumberChar_of_isDigit digit
  · decide

mutual

/-- A written value shows no control character but line feeds. -/
theorem isPrinted_write (style : Style) (level : Nat) :
    (json : Json) → json.Sound → ∀ c ∈ write style level json, isPrinted c
  | .null, _ | .bool true, _ | .bool false, _ | .array [], _ | .object [], _ => by
    rw [write]
    exact List.all_eq_true.mp (by decide)
  | .number _, sound => isPrinted_number sound
  | .string _, sound => isPrinted_writeString sound
  | .array (item :: items), sound => by
    have closing : ∀ c ∈ [']'], isPrinted c := List.forall_mem_singleton.mpr (by decide)
    simp only [write, List.forall_mem_cons, List.forall_mem_append]
    exact ⟨by decide, ⟨⟨⟨isPrinted_newline style _, isPrinted_write style _ item sound.1⟩,
      isPrinted_writeItems style _ items sound.2⟩, isPrinted_newline style level⟩,
      List.forall_mem_cons.mp closing⟩
  | .object ((key, value) :: fields), sound => by
    have closing : ∀ c ∈ ['\x7d'], isPrinted c := List.forall_mem_singleton.mpr (by decide)
    simp only [write, List.forall_mem_cons, List.forall_mem_append]
    exact ⟨by decide, ⟨⟨⟨⟨⟨isPrinted_newline style _, isPrinted_writeString sound.1⟩,
      isPrinted_colon style⟩, isPrinted_write style _ value sound.2.1⟩,
      isPrinted_writeFields style _ fields sound.2.2⟩, isPrinted_newline style level⟩,
      List.forall_mem_cons.mp closing⟩

theorem isPrinted_writeItems (style : Style) (level : Nat) :
    (items : List Json) → SoundItems items → ∀ c ∈ writeItems style level items, isPrinted c
  | [], _ => List.forall_mem_nil _
  | item :: items, sound => by
    simp only [writeItems, List.forall_mem_cons, List.forall_mem_append]
    exact ⟨by decide, ⟨isPrinted_newline style level, isPrinted_write style level item sound.1⟩,
      isPrinted_writeItems style level items sound.2⟩

theorem isPrinted_writeFields (style : Style) (level : Nat) :
    (fields : List (List Nat × Json)) → SoundFields fields →
      ∀ c ∈ writeFields style level fields, isPrinted c
  | [], _ => List.forall_mem_nil _
  | (key, value) :: fields, sound => by
    simp only [writeFields, List.forall_mem_cons, List.forall_mem_append]
    exact ⟨by decide, ⟨⟨⟨isPrinted_newline style level, isPrinted_writeString sound.1⟩,
      isPrinted_colon style⟩, isPrinted_write style level value sound.2.1⟩,
      isPrinted_writeFields style level fields sound.2.2⟩

end

end RstPress.Json

namespace RstPress
open Document Layout Source RstPress.Tree

/-- The HTML of a source, read in spite of all problems, has the characters of the source and the usual
ones, whatever these have in common. -/
theorem writes_renderSource {p : Char → Prop} (usual : ∀ c, isUsual c → p c) {options : ReadOptions}
    (lenient : options.strict = false) (rendering : RenderOptions) {source : String}
    (all : ∀ c ∈ source.toList, p c) :
    ∃ tree, parse options source = .ok tree ∧ Html.Writes p (renderTree rendering tree) :=
  ⟨_, parse_of_lenient options lenient source,
    Html.writes_render usual _ _ _ (madeOf_document usual options.tabWidth all)⟩

/-- The JSON text of a tree shows no control character but line feeds, whatever the tree holds. -/
theorem isPrinted_treeText (style : Json.Style) (tree : Node) :
    ∀ c ∈ (treeText style tree).toList, Json.isPrinted c := by
  rw [treeText, Wire.print, Json.print, String.toList_ofList]
  exact Json.isPrinted_write style 0 _ (Wire.sound_toJson _)

end RstPress
