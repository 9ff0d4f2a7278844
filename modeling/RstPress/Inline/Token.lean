import RstPress.Inline.Span

/-!
A text is read from left to right into tokens: spans, single characters, and notes of delimiters that
are never closed. Runs of characters between spans make the text nodes.
-/

namespace RstPress.Inline
open RstPress.Tree

inductive Token where
  | char (c : Char)
  | node (node : Node)
  | unclosed (markup : Markup)

/-- The tokens of a text. A backslash makes the character after it an ordinary one and is dropped, a
space after it is dropped as well; at the end of the text or of its last line it stands for itself. -/
def tokens (before : Option Char) : List Char → List Token
  | [] => []
  | c :: text =>
    if c = '\\' then
      match text with
      | [] => [.char c]
      | d :: text =>
        if d = ' ' then tokens (some d) text
        else if d = '\n' && text.isEmpty then [.char c, .char d]
        else .char d :: tokens (some d) text
    else
      match _found : trySpan before (c :: text) with
      | .nothing => .char c :: tokens (some c) text
      | .unclosed markup => .unclosed markup :: .char c :: tokens (some c) text
      | .span node last rest => .node node :: tokens (some last) rest
termination_by text => text.length
decreasing_by
  · simp only [List.length_cons]; omega
  · simp only [List.length_cons]; omega
  · simp only [List.length_cons]; omega
  · simp only [List.length_cons]; omega
  · exact length_trySpan_lt _found

/-- The text node of a run of characters, given in reverse; an empty run makes none. -/
def runNode (run : List Char) : List Node :=
  if run.isEmpty then [] else [textNode run.reverse]

/-- The nodes of the tokens, after a run of characters given in reverse. -/
def gather (run : List Char) : List Token → List Node
  | [] => runNode run
  | .char c :: tokens => gather (c :: run) tokens
  | .unclosed _ :: tokens => gather run tokens
  | .node node :: tokens => runNode run ++ node :: gather [] tokens

def unclosed (tokens : List Token) : List Markup :=
  tokens.filterMap fun
    | .unclosed markup => some markup
    | .char _ | .node _ => none

/-- The nodes of a text. -/
def nodes (text : List Char) : List Node := gather [] (tokens none text)

/-- The pieces of a text, each ending with a line feed except perhaps the last. -/
def cutAfterLineFeeds : List Char → List (List Char)
  | [] => []
  | c :: text =>
    if c = '\n' then [c] :: cutAfterLineFeeds text
    else match cutAfterLineFeeds text with
      | [] => [[c]]
      | first :: others => (c :: first) :: others

/-- Cuts the text nodes of a list after each line feed, so that there is one for each source line. -/
def cutTexts (nodes : List Node) : List Node :=
  nodes.flatMap fun node =>
    match node with
    | .text value => (cutAfterLineFeeds value.toList).map textNode
    | other => [other]

end RstPress.Inline
