import RstPress.Embed
import RstPress.Proofs.Characters.Written

/-!
The interface of C strings. A C string cannot hold a NUL, and no step from a source to its HTML or its
JSON text makes one, so no output of a C string is lost. A file can hold NULs, and then its HTML does:
the error names the first of them by its place among the bytes.
-/

namespace RstPress.Embed
open RstPress.Tree Document

/-- The bytes of a text. -/
def bytesOf (text : String) : List UInt8 := text.toUTF8.data.toList

theorem bytesOf_eq (text : String) : bytesOf text = text.toList.flatMap String.utf8EncodeChar := by
  rw [bytesOf, String.toUTF8, ← String.utf8Encode_toList, List.utf8Encode, List.toList_data_toByteArray]

/-- Only the NUL character has a NUL byte in its encoding. -/
theorem zero_mem_utf8EncodeChar_iff {c : Char} : (0 : UInt8) ∈ String.utf8EncodeChar c ↔ c = '\x00' := by
  constructor
  · intro zero
    have code : c.val.toNat < 0x110000 := by
      rcases c.valid with low | ⟨_, high⟩
      · exact Nat.lt_trans low (by decide)
      · exact high
    have small {value : Nat} (same : (0 : UInt8) = UInt8.ofNat value) : value % 256 = 0 := by
      simpa using (congrArg UInt8.toNat same).symm
    have point : c.val.toNat = 0 := by
      unfold String.utf8EncodeChar at zero
      dsimp only at zero
      simp only [apply_ite ((0 : UInt8) ∈ ·), List.mem_cons, List.not_mem_nil, or_false] at zero
      split at zero
      · have remainder := small zero
        omega
      · split at zero
        · rcases zero with same | same <;> have remainder := small same <;> omega
        · split at zero
          · rcases zero with same | same | same <;> have remainder := small same <;> omega
          · rcases zero with same | same | same | same <;> have remainder := small same <;> omega
    exact Char.toNat_inj.mp point
  · rintro rfl
    decide

theorem zero_mem_bytesOf_iff (text : String) : 0 ∈ bytesOf text ↔ '\x00' ∈ text.toList := by
  simp only [bytesOf_eq, List.mem_flatMap, zero_mem_utf8EncodeChar_iff, exists_eq_right]

theorem length_takeWhile_eq_idxOf {text : List Char} (nul : '\x00' ∈ text) :
    ((text.takeWhile (· ≠ '\x00')).flatMap String.utf8EncodeChar).length =
      (text.flatMap String.utf8EncodeChar).idxOf 0 := by
  induction text with
  | nil => cases nul
  | cons c text ih =>
    by_cases here : c = '\x00'
    · subst here
      rfl
    · have visible : (0 : UInt8) ∉ String.utf8EncodeChar c := mt zero_mem_utf8EncodeChar_iff.mp here
      have later := (List.mem_cons.mp nul).resolve_left (Ne.symm here)
      rw [List.takeWhile_cons_of_pos (by simpa using here), List.flatMap_cons, List.length_append,
        ih later, List.flatMap_cons, List.idxOf_append_of_notMem visible]

/-- The position of a NUL is that of the first NUL byte. -/
theorem nulPosition?_eq (text : String) :
    nulPosition? text = if 0 ∈ bytesOf text then some ((bytesOf text).idxOf 0) else none := by
  by_cases nul : '\x00' ∈ text.toList
  · have size : (String.ofList (text.toList.takeWhile (· ≠ '\x00'))).utf8ByteSize =
        (bytesOf text).idxOf 0 := by
      rw [bytesOf_eq, ← length_takeWhile_eq_idxOf nul]
      simp [String.utf8ByteSize, List.utf8Encode]
    rw [nulPosition?, if_pos (List.contains_iff_mem.mpr nul), size,
      if_pos ((zero_mem_bytesOf_iff text).mpr nul)]
  · rw [nulPosition?, if_neg (mt List.contains_iff_mem.mp nul),
      if_neg (mt (zero_mem_bytesOf_iff text).mp nul)]

theorem bytesOf_of_fromUTF8? {bytes : ByteArray} {text : String}
    (valid : String.fromUTF8? bytes = some text) : bytesOf text = bytes.data.toList := by
  unfold String.fromUTF8? at valid
  split at valid
  · cases valid
    rfl
  · cases valid

/-- A C string has no NUL characters. -/
theorem nul_notMem_of_valid {bytes : ByteArray} {text : String}
    (valid : String.fromUTF8? (beforeNul bytes) = some text) : '\x00' ∉ text.toList := by
  rw [← zero_mem_bytesOf_iff, bytesOf_of_fromUTF8? valid, beforeNul]
  intro zero
  have other := List.mem_takeWhile_imp (List.mem_toArray.mp (Array.mem_toList_iff.mp zero))
  simp at other

/-- A text without NULs is handed over as it is. -/
theorem ofText_of_nul_notMem {text : String} (clean : '\x00' ∉ text.toList) :
    Answer.ofText text = ⟨true, some text, none⟩ := by
  rw [Answer.ofText, nulPosition?, if_neg (mt List.contains_iff_mem.mp clean)]

theorem failure_of_nul_notMem {message : String} (clean : '\x00' ∉ message.toList) :
    Answer.failure message = ⟨false, none, some message⟩ := by
  rw [Answer.failure, nulPosition?, if_neg (mt List.contains_iff_mem.mp clean)]
  rfl

/-- An answer holds data if it is a success and an error text if it is not, and never both. -/
def Answer.IsExclusive (answer : Answer) : Prop :=
  answer.data.isSome = answer.success ∧ answer.errorText.isSome = !answer.success

theorem isExclusive_failure (message : String) : (Answer.failure message).IsExclusive := ⟨rfl, rfl⟩

theorem isExclusive_ofResult (result : Except Error String) : (Answer.ofResult result).IsExclusive := by
  cases result with
  | error error => exact isExclusive_failure error.message
  | ok text =>
    rw [Answer.ofResult, Answer.ofText]
    split
    · exact ⟨rfl, rfl⟩
    · exact isExclusive_failure _

theorem isExclusive_answering (argument : Except String String)
    (result : String → Except Error String) : (answering argument result).IsExclusive := by
  cases argument with
  | error message => exact isExclusive_failure message
  | ok text => exact isExclusive_ofResult (result text)

/-- NUL is none of the characters that output is made of besides those of the source. -/
theorem ne_nul_of_isUsual (c : Char) (usual : isUsual c) : c ≠ '\x00' := by
  rintro rfl
  revert usual
  decide

/-- No NUL comes into the HTML of a source without NULs. -/
theorem nul_notMem_html {source : String} (clean : '\x00' ∉ source.toList) (rendering : RenderOptions) :
    ∃ tree, parse {} source = .ok tree ∧ '\x00' ∉ (renderTree rendering tree).toList := by
  have each : ∀ c ∈ source.toList, c ≠ '\x00' := fun c member same => clean (same ▸ member)
  have lenient : ({} : ReadOptions).strict = false := rfl
  obtain ⟨tree, read, markup⟩ := writes_renderSource ne_nul_of_isUsual lenient rendering each
  exact ⟨tree, read, fun nul => markup _ nul rfl⟩

/-- No NUL comes into the JSON text of any tree. -/
theorem nul_notMem_treeText (style : Json.Style) (tree : Node) : '\x00' ∉ (treeText style tree).toList := by
  intro nul
  have printed := isPrinted_treeText style tree _ nul
  revert printed
  decide

theorem nul_notMem_append {front back : String} (first : '\x00' ∉ front.toList)
    (second : '\x00' ∉ back.toList) : '\x00' ∉ (front ++ back).toList := by
  rw [String.toList_append, List.mem_append, not_or]
  exact ⟨first, second⟩

theorem nul_notMem_repr (number : Nat) : '\x00' ∉ number.repr.toList := by
  rw [Nat.toList_repr]
  intro nul
  have digit := Json.isDigit_of_mem_toDigits nul
  revert digit
  decide

theorem nul_notMem_position (position : Nat) :
    '\x00' ∉ ("Output contains a NUL byte at position " ++ position.repr).toList :=
  nul_notMem_append (by decide) (nul_notMem_repr position)

/-- A text is handed over, or its first NUL byte is named. -/
theorem ofText_eq (text : String) :
    Answer.ofText text =
      if 0 ∈ bytesOf text then
        ⟨false, none, some ("Output contains a NUL byte at position " ++ ((bytesOf text).idxOf 0).repr)⟩
      else ⟨true, some text, none⟩ := by
  rw [Answer.ofText, nulPosition?_eq]
  by_cases nul : 0 ∈ bytesOf text
  · rw [if_pos nul, if_pos nul]
    exact failure_of_nul_notMem (nul_notMem_position _)
  · rw [if_neg nul, if_neg nul]

theorem argument_of_valid {name : String} {bytes : ByteArray} {text : String}
    (valid : String.fromUTF8? (beforeNul bytes) = some text) :
    argument name (some bytes) = .ok text := by
  simp only [argument, valid]

theorem parseFile_of_readable (options : ReadOptions) {file : ByteArray} {source : String}
    (readable : String.fromUTF8? file = some source) :
    parseFile options (some file) = parse options source := by
  simp only [parseFile, fileText, readable]
  rfl

theorem parseToJson_of_valid {bytes : ByteArray} {text : String}
    (valid : String.fromUTF8? (beforeNul bytes) = some text) (style : Json.Style) (strict : Bool) :
    ((parseToJson (some bytes) style strict).success ↔ ∃ tree, parse { strict } text = .ok tree) ∧
      ∀ tree, parse { strict } text = .ok tree →
        parseToJson (some bytes) style strict = ⟨true, some (treeText style tree), none⟩ := by
  rw [parseToJson, argument_of_valid valid, answering]
  cases parsed : parse { strict } text with
  | error error => exact ⟨⟨nofun, nofun⟩, nofun⟩
  | ok tree =>
    have handed := ofText_of_nul_notMem (nul_notMem_treeText style tree)
    refine ⟨⟨fun _ => ⟨tree, rfl⟩, fun _ => congrArg Answer.success handed⟩, fun other same => ?_⟩
    cases same
    exact handed

/-- What is read from a C string is always handed over: as HTML in spite of all problems, and as JSON
text if it is read at all. What is read from a file is handed over as HTML unless this has a NUL, whose
place among the bytes is told instead. Whatever is called, with whatever it is called, the answer
is either data or an error text. -/
theorem answers_are_exact {bytes path file : ByteArray} {text name source : String}
    (valid : String.fromUTF8? (beforeNul bytes) = some text)
    (named : String.fromUTF8? (beforeNul path) = some name) {content : String → Option ByteArray}
    (leads : content name = some file) (readable : String.fromUTF8? file = some source) :
    (∃ tree, parse {} text = .ok tree ∧
      ∀ indent, render (some bytes) indent = ⟨true, some (renderTree { indent } tree), none⟩) ∧
    (∀ style strict,
      ((parseToJson (some bytes) style strict).success ↔ ∃ tree, parse { strict } text = .ok tree) ∧
      ∀ tree, parse { strict } text = .ok tree →
        parseToJson (some bytes) style strict = ⟨true, some (treeText style tree), none⟩) ∧
    (∃ tree, parse {} source = .ok tree ∧
      ∀ indent, renderFile (some path) content indent =
        if 0 ∈ bytesOf (renderTree { indent } tree) then
          ⟨false, none, some ("Output contains a NUL byte at position " ++
            ((bytesOf (renderTree { indent } tree)).idxOf 0).repr)⟩
        else ⟨true, some (renderTree { indent } tree), none⟩) ∧
    ∀ (libraries : Libraries) (argument : Option ByteArray) (found : String → Option ByteArray)
      (indent : Nat) (style : Json.Style) (strict : Bool),
      (render argument indent).IsExclusive ∧ (renderJsonTree libraries argument indent).IsExclusive ∧
        (parseToJson argument style strict).IsExclusive ∧
        (renderFile argument found indent).IsExclusive := by
  refine ⟨?_, parseToJson_of_valid valid, ?_, fun libraries argument found indent style strict => ?_⟩
  · obtain ⟨tree, read, _⟩ := nul_notMem_html (nul_notMem_of_valid valid) {}
    refine ⟨tree, read, fun indent => ?_⟩
    obtain ⟨other, again, clean⟩ := nul_notMem_html (nul_notMem_of_valid valid) { indent }
    cases read.symm.trans again
    rw [render, argument_of_valid valid, answering, renderSource, read]
    exact ofText_of_nul_notMem clean
  · have lenient : ({} : ReadOptions).strict = false := rfl
    refine ⟨_, parse_of_lenient {} lenient source, fun indent => ?_⟩
    rw [renderFile, argument_of_valid named, answering, leads, parseFile_of_readable {} readable,
      parse_of_lenient {} lenient source]
    exact ofText_eq _
  · exact ⟨isExclusive_answering _ _, isExclusive_answering _ _, isExclusive_answering _ _,
      isExclusive_answering _ _⟩

/-- A file with a NUL, called by a path that a NUL ends. -/
theorem answers_are_exact_nul_file :
    String.fromUTF8? (beforeNul ⟨#[42, 104, 105, 42]⟩) = some "*hi*" ∧
    String.fromUTF8? (beforeNul ⟨#[102, 0, 103]⟩) = some "f" ∧
    String.fromUTF8? ⟨#[97, 0, 98]⟩ = some "a\x00b" ∧
    ∃ tree, parse {} "a\x00b" = .ok tree ∧
      ∀ indent, renderFile (some ⟨#[102, 0, 103]⟩) (fun _ => some ⟨#[97, 0, 98]⟩) indent =
        if 0 ∈ bytesOf (renderTree { indent } tree) then
          ⟨false, none, some ("Output contains a NUL byte at position " ++
            ((bytesOf (renderTree { indent } tree)).idxOf 0).repr)⟩
        else ⟨true, some (renderTree { indent } tree), none⟩ := by
  have valid : String.fromUTF8? (beforeNul ⟨#[42, 104, 105, 42]⟩) = some "*hi*" := by decide +kernel
  have named : String.fromUTF8? (beforeNul ⟨#[102, 0, 103]⟩) = some "f" := by decide +kernel
  have readable : String.fromUTF8? ⟨#[97, 0, 98]⟩ = some "a\x00b" := by decide +kernel
  exact ⟨valid, named, readable, (answers_are_exact valid named rfl readable).2.2.1⟩

example : (renderFile (some ⟨#[102]⟩) (fun _ => some ⟨#[97, 0, 98]⟩) 0).errorText =
    some "Output contains a NUL byte at position 77" := by decide +kernel

end RstPress.Embed
