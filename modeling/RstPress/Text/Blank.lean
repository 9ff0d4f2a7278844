/-!
Blank characters are those with the Unicode property `White_Space`. Trimming and the splitting of a
text into words are defined by them alone.
-/

namespace RstPress.Text

/-- The first and last code point of each run of characters with the property `White_Space`. -/
def blankRanges : List (Nat × Nat) :=
  [(0x09, 0x0D), (0x20, 0x20), (0x85, 0x85), (0xA0, 0xA0), (0x1680, 0x1680), (0x2000, 0x200A),
    (0x2028, 0x2029), (0x202F, 0x202F), (0x205F, 0x205F), (0x3000, 0x3000)]

def isBlank (c : Char) : Bool :=
  blankRanges.any fun (first, last) => first ≤ c.toNat && c.toNat ≤ last

example : (blankRanges.map fun (first, last) => last + 1 - first).sum = 25 := by decide

/-- Drops the longest ending whose members all satisfy `p`. -/
def dropEndWhile {α : Type} (p : α → Bool) (items : List α) : List α :=
  (items.reverse.dropWhile p).reverse

theorem dropEndWhile_isPrefix {α : Type} (p : α → Bool) (items : List α) :
    dropEndWhile p items <+: items := by
  have ending := List.dropWhile_suffix p (l := items.reverse)
  simpa [dropEndWhile] using List.reverse_prefix.mpr ending

theorem dropEndWhile_cons {α : Type} {p : α → Bool} {first : α} (kept : p first = false)
    (items : List α) : dropEndWhile p (first :: items) = first :: dropEndWhile p items := by
  simp only [dropEndWhile, List.reverse_cons, List.dropWhile_append]
  split
  · rename_i empty
    simp [List.isEmpty_iff.mp empty, kept]
  · simp

def trimStart (text : List Char) : List Char := text.dropWhile isBlank

def trimEnd (text : List Char) : List Char := dropEndWhile isBlank text

/-- The maximal runs of characters that are not blank, in order. -/
def words : List Char → List (List Char)
  | [] => []
  | c :: text =>
    if isBlank c then words text
    else (c :: text.takeWhile fun d => !isBlank d) :: words (text.dropWhile fun d => !isBlank d)
termination_by text => text.length
decreasing_by
  · simp
  · have shorter := (List.dropWhile_sublist (fun d => !isBlank d) (l := text)).length_le
    simp only [List.length_cons]
    omega

end RstPress.Text
