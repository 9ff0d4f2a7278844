import RstPress.Inline.Markup

/-!
What can be wrong with a text. Every problem has an obvious reading, so a text can be read in spite of
them; each names the source line at which it shows.
-/

namespace RstPress.Document
open Inline

inductive Cause where
  | shortOverline
  | shortUnderline
  | skippedLevel
  | strayTitle
  | unexpectedIndentation
  | missingLiteral
  | unclosed (markup : Markup)
deriving DecidableEq, Repr

def Cause.message : Cause → String
  | shortOverline => "Title overline too short"
  | shortUnderline => "Title underline too short"
  | skippedLevel => "Title level inconsistent"
  | strayTitle => "Unexpected section title"
  | unexpectedIndentation => "Unexpected indentation"
  | missingLiteral => "Literal block expected; none found"
  | unclosed markup =>
    "Inline markup start-string \x60" ++ String.ofList markup.delimiter ++ "\x60 without end-string"

structure Problem where
  line : Nat
  cause : Cause
deriving DecidableEq, Repr

/-- The line and the cause, as one text. -/
def Problem.summary (problem : Problem) : String :=
  "line " ++ problem.line.repr ++ ": " ++ problem.cause.message

end RstPress.Document
