/-!
The ASCII characters that are neither blank, letter, digit nor control character. They adorn titles,
stand between parts of a document and guard the borders of inline markup.
-/

namespace RstPress.Text

def isPunctuation (c : Char) : Bool :=
  ('!' ≤ c && c ≤ '/') || (':' ≤ c && c ≤ '@') || ('[' ≤ c && c ≤ '\x60') || ('\x7b' ≤ c && c ≤ '~')

example : ((List.range 128).filter fun n => isPunctuation (Char.ofNat n)).length = 32 := by
  decide +kernel

end RstPress.Text
