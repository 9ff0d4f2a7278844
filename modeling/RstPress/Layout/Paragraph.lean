import RstPress.Source.Inset

/-!
A paragraph runs to the next blank or indented line. If it ends in two colons, it announces a literal
block: the inset block that follows, kept as it is.
-/

namespace RstPress.Layout
open Text Source

/-- What came of the literal block that a paragraph announces. -/
inductive Announced where
  | nothing
  | block (text : List Char)
  | missing (line : Nat)
deriving DecidableEq, Repr

/-- The lines of a paragraph, each ended by a line feed. There are none if it only announced a literal
block. `interrupted` is the line whose indentation ends the paragraph. -/
structure Paragraph where
  line : Nat
  text : List Char
  interrupted : Option Nat
  literal : Announced
deriving DecidableEq, Repr

/-- Takes the announcement off the last line of a paragraph: a line of two colons goes, two colons
after a space go with the blanks in front of them, and of two others one stays. -/
def unannounced? (text : List Char) : Option (List (List Char)) :=
  match text.reverse with
  | last :: previous :: front =>
    if last = ':' && previous = ':' then
      match front with
      | [] => some []
      | c :: front => some [if c = ' ' then trimEnd front.reverse else (previous :: c :: front).reverse]
    else none
  | _ => none

/-- The texts of a paragraph without the announcement, and whether there was one. -/
def paragraphTexts : List (List Char) → List (List Char) × Bool
  | [] => ([], false)
  | [last] =>
    match unannounced? last with
    | some texts => (texts, true)
    | none => ([last], false)
  | text :: others => (text :: (paragraphTexts others).1, (paragraphTexts others).2)

theorem paragraphTexts_of_unannounced {texts : List (List Char)} (none : ∀ text ∈ texts, unannounced? text = none) :
    paragraphTexts texts = (texts, false) := by
  fun_induction paragraphTexts texts with
  | case1 => rfl
  | case2 last found announced =>
    rw [none last List.mem_cons_self] at announced
    cases announced
  | case3 last kept => rfl
  | case4 text others more ih =>
    rw [ih fun other member => none other (List.mem_cons_of_mem text member)]

def continuesParagraph (line : Line) : Bool := !line.isBlank && line.indent = 0

/-- The literal block in front of the lines, blank lines skipped, and what follows it. `previous` is
the number of the line before, for want of a next one. -/
def announced (previous : Nat) (lines : List Line) : Announced × List Line :=
  match skipBlank lines with
  | [] => (.missing previous, lines)
  | next :: rest =>
    if 0 < next.indent then
      (.block ((dedentBlock (insetBlock (next :: rest))).flatMap Line.written), afterInset (next :: rest))
    else (.missing next.number, lines)

/-- The line whose indentation ends a paragraph, if its lines are directly followed by such a line. -/
def interruption? : List Line → Option Nat
  | [] => none
  | next :: _ => if next.isBlank then none else some next.number

/-- The paragraph of these lines, given what follows them. -/
def paragraphOf (line : Line) (others after : List Line) : Paragraph × List Line :=
  let lines := line :: others
  let texts := paragraphTexts (lines.map Line.text)
  let previous := (lines.map Line.number).getLastD line.number
  let found := if texts.2 then announced previous after else (.nothing, after)
  (⟨line.number, texts.1.flatMap (· ++ ['\n']), interruption? after, found.1⟩, found.2)

/-- Reads a paragraph that begins with the given line. -/
def paragraph (line : Line) (rest : List Line) : Paragraph × List Line :=
  paragraphOf line (rest.takeWhile continuesParagraph) (rest.dropWhile continuesParagraph)

theorem announced_suffix (previous : Nat) (lines : List Line) : (announced previous lines).2 <:+ lines := by
  unfold announced
  split
  · exact List.suffix_refl _
  · rename_i next rest found
    split
    · refine (List.drop_suffix _ _).trans ?_
      rw [← found]
      exact List.dropWhile_suffix _
    · exact List.suffix_refl _

theorem paragraph_suffix (line : Line) (rest : List Line) : (paragraph line rest).2 <:+ rest := by
  have after := List.dropWhile_suffix continuesParagraph (l := rest)
  simp only [paragraph, paragraphOf]
  split
  · exact (announced_suffix _ _).trans after
  · exact after

end RstPress.Layout
