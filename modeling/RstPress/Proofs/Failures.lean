import RstPress.Proofs.Embedding

/-!
Calls of the interface of C strings that fail with an error. The error text is the message of the error,
which is never empty. But a message can name the type of a node from a JSON tree, and there the type
can have a NUL: such a message does not fit into a C string and is lost.
-/

namespace RstPress.Wire

/-- The type that a violation is about, if it is told. -/
def Violation.kind? : Violation → Option String
  | noValue | noDepth | noTitle => none
  | noChildren kind | noContent kind | builtin kind => some kind

end RstPress.Wire

namespace RstPress.Embed
open RstPress.Tree Document

/-- A rendered file, given what comes of reading it: its text, or any file error. -/
def renderFetched (fetch : String → Except FileError String) (path : Option ByteArray) (indent : Nat) : Answer :=
  answering (argument "path" path) fun name =>
    ((fetch name).mapError .file).bind (renderSource {} { indent })

theorem renderFile_eq (path : Option ByteArray) (content : String → Option ByteArray) (indent : Nat) :
    renderFile path content indent = renderFetched (fun name => fileText (content name)) path indent := by
  cases named : argument "path" path with
  | error message => simp only [renderFile, renderFetched, named]; rfl
  | ok name =>
    simp only [renderFile, renderFetched, named, answering, parseFile]
    cases (fileText (content name)) <;> rfl

/-- A call, with all that it is given besides its first argument. -/
inductive Call where
  | render (indent : Nat)
  | renderJsonTree (indent : Nat)
  | renderFile (fetch : String → Except FileError String) (indent : Nat)
  | parseToJson (style : Json.Style) (strict : Bool)

namespace Call

def answer (libraries : Libraries) (argument : Option ByteArray) : Call → Answer
  | render indent => Embed.render argument indent
  | renderJsonTree indent => Embed.renderJsonTree libraries argument indent
  | renderFile fetch indent => renderFetched fetch argument indent
  | parseToJson style strict => Embed.parseToJson argument style strict

/-- What the library makes of the text of the first argument. -/
def result (libraries : Libraries) (text : String) : Call → Except Error String
  | render indent => renderSource {} { indent } text
  | renderJsonTree indent => (parseTree libraries text).map (renderTree { indent })
  | renderFile fetch indent => ((fetch text).mapError .file).bind (renderSource {} { indent })
  | parseToJson style strict => (parse { strict } text).map (treeText style)

end Call

variable {libraries : Libraries}

theorem answering_of_valid {name : String} {bytes : ByteArray} {text : String}
    (valid : String.fromUTF8? (beforeNul bytes) = some text) (result : String → Except Error String) :
    answering (argument name (some bytes)) result = .ofResult (result text) := by
  rw [argument_of_valid valid, answering]

/-- A call hands over what the library makes of the text. -/
theorem answer_of_valid {bytes : ByteArray} {text : String}
    (valid : String.fromUTF8? (beforeNul bytes) = some text) (call : Call) :
    call.answer libraries (some bytes) = .ofResult (call.result libraries text) := by
  cases call with
  | render | renderJsonTree | renderFile | parseToJson => exact answering_of_valid valid _

/-- Whatever the wording of a message is, it is told or lost as a whole. -/
theorem failure_eq (message : String) :
    Answer.failure message =
      ⟨false, none, some (if '\x00' ∈ message.toList then "" else message)⟩ := by
  by_cases nul : '\x00' ∈ message.toList
  · rw [Answer.failure, nulPosition?, if_pos (List.contains_iff_mem.mpr nul), if_pos nul]
    rfl
  · rw [failure_of_nul_notMem nul, if_neg nul]

theorem eq_error_of_map {α β : Type} {made : Except Error α} {next : α → β} {error : Error}
    (failed : made.map next = .error error) : made = .error error := by
  cases made with
  | ok a => cases failed
  | error reason =>
    cases failed
    rfl

theorem exists_of_mapError {α ε : Type} {made : Except ε α} {wrap : ε → Error} {error : Error}
    (failed : made.mapError wrap = .error error) : ∃ reason, error = wrap reason := by
  cases made with
  | ok a => cases failed
  | error reason =>
    cases failed
    exact ⟨reason, rfl⟩

theorem error_of_parseTree {text : String} {error : Error}
    (failed : parseTree libraries text = .error error) :
    error = .json (libraries.jsonReason text) ∨ ∃ violation, error = .tree violation := by
  unfold parseTree at failed
  split at failed
  · cases failed
    exact .inl rfl
  · exact .inr (exists_of_mapError failed)

/-- What is wrong with a tree is told by this library alone. -/
theorem parseTree_of_violation {text : String} {violation : Wire.Violation}
    (failed : parseTree libraries text = .error (.tree violation)) (others : Libraries) :
    parseTree others text = .error (.tree violation) := by
  unfold parseTree at failed ⊢
  split at failed
  · cases failed
  · exact failed

theorem error_of_parse {options : ReadOptions} {source : String} {error : Error}
    (failed : parse options source = .error error) : ∃ problem, error = .markup problem := by
  unfold parse at failed
  split at failed
  · exact exists_of_mapError failed
  · cases failed

/-- A call fails because of what it reads: a JSON text, a file, or a source that is read strictly. -/
theorem error_cases {text : String} {call : Call} {error : Error}
    (failed : call.result libraries text = .error error) :
    (∃ indent, call = .renderJsonTree indent ∧
        (error = .json (libraries.jsonReason text) ∨ ∃ violation, error = .tree violation)) ∨
      (∃ fetch indent reason, call = .renderFile fetch indent ∧ error = .file reason) ∨
      ∃ style strict problem, call = .parseToJson style strict ∧ error = .markup problem := by
  cases call with
  | render indent => cases failed
  | renderJsonTree indent => exact .inl ⟨indent, rfl, error_of_parseTree (eq_error_of_map failed)⟩
  | renderFile fetch indent =>
    rw [Call.result] at failed
    cases fetched : fetch text with
    | ok source =>
      rw [fetched] at failed
      cases failed
    | error reason =>
      rw [fetched] at failed
      cases failed
      exact .inr (.inl ⟨fetch, indent, reason, rfl, rfl⟩)
  | parseToJson style strict =>
    obtain ⟨problem, same⟩ := error_of_parse (eq_error_of_map failed)
    exact .inr (.inr ⟨style, strict, problem, rfl, same⟩)

theorem nul_mem_append_iff {front back : String} (first : '\x00' ∉ front.toList) :
    '\x00' ∈ (front ++ back).toList ↔ '\x00' ∈ back.toList := by
  rw [String.toList_append, List.mem_append, or_iff_right first]

/-- Between texts that are fixed a NUL comes from the text that is not. -/
theorem nul_mem_between_iff {front inner back : String} (first : '\x00' ∉ front.toList)
    (last : '\x00' ∉ back.toList) : '\x00' ∈ (front ++ inner ++ back).toList ↔ '\x00' ∈ inner.toList := by
  rw [String.toList_append, List.mem_append, or_iff_left last, nul_mem_append_iff first]

theorem nul_notMem_cause (cause : Cause) : '\x00' ∉ cause.message.toList := by
  cases cause with
  | unclosed markup => cases markup <;> decide +kernel
  | shortOverline | shortUnderline | skippedLevel | strayTitle | unexpectedIndentation | missingLiteral =>
    decide +kernel

theorem nul_notMem_problem (problem : Problem) : '\x00' ∉ (Error.markup problem).message.toList := by
  refine nul_notMem_append (nul_notMem_append (nul_notMem_append ?_ ?_) ?_) ?_
  · decide +kernel
  · exact nul_notMem_repr problem.line
  · decide +kernel
  · exact nul_notMem_cause problem.cause

theorem nul_mem_json_iff (reason : String) :
    '\x00' ∈ (Error.json reason).message.toList ↔ '\x00' ∈ reason.toList :=
  nul_mem_append_iff (by decide +kernel)

/-- A NUL in what is said of a tree comes from a type. -/
theorem nul_mem_tree_iff (violation : Wire.Violation) :
    '\x00' ∈ (Error.tree violation).message.toList ↔
      ∃ kind, violation.kind? = some kind ∧ '\x00' ∈ kind.toList := by
  refine (nul_mem_append_iff (by decide +kernel)).trans ?_
  cases violation with
  | noValue | noDepth | noTitle => exact iff_of_false (by decide +kernel) nofun
  | noChildren kind | noContent kind | builtin kind =>
    refine (nul_mem_between_iff (by decide +kernel) (by decide +kernel)).trans ?_
    simp [Wire.Violation.kind?]

/-- File errors have fixed messages, but for those that this library does not know. -/
theorem nul_mem_file_iff (reason : FileError) :
    '\x00' ∈ (Error.file reason).message.toList ↔ ∃ told, reason = .other told ∧ '\x00' ∈ told.toList := by
  refine (nul_mem_append_iff (by decide +kernel)).trans ?_
  cases reason with
  | other told => simp [FileError.message]
  | notFound | alreadyExists | notDirectory | isDirectory | nameTooLong | tooManyLinks | noSpace | noDevice
  | notText =>
    exact iff_of_false (by decide +kernel) nofun

theorem append_ne_empty {front : String} (filled : front ≠ "") (back : String) : front ++ back ≠ "" := by
  simp [filled]

theorem message_ne_empty (error : Error) : error.message ≠ "" := by
  cases error with
  | file | json | tree => exact append_ne_empty (by decide) _
  | markup problem =>
    exact append_ne_empty (append_ne_empty (append_ne_empty (by decide) _) _) _

/-- The error text of a call that fails is the message of the error, which is not empty, or nothing is
left of it. It is lost if it tells a NUL, and the only NULs that it can tell are those of a type of the
JSON tree, or of a reason that the file system gives. -/
theorem failed_call_tells (plain : libraries.TellsNoNul) {bytes : ByteArray} {text : String}
    (valid : String.fromUTF8? (beforeNul bytes) = some text) {call : Call} {error : Error}
    (failed : call.result libraries text = .error error) :
    call.answer libraries (some bytes) =
        ⟨false, none, some (if '\x00' ∈ error.message.toList then "" else error.message)⟩ ∧
      error.message ≠ "" ∧
      ('\x00' ∈ error.message.toList ↔
        (∃ indent violation kind, call = .renderJsonTree indent ∧ error = .tree violation ∧
          violation.kind? = some kind ∧ '\x00' ∈ kind.toList) ∨
        ∃ fetch indent told, call = .renderFile fetch indent ∧ error = .file (.other told) ∧
          '\x00' ∈ told.toList) := by
  refine ⟨?_, message_ne_empty error, ?_⟩
  · rw [answer_of_valid valid, failed, Answer.ofResult, failure_eq]
  · rcases error_cases failed with
      ⟨indent, rfl, rfl | ⟨violation, rfl⟩⟩ | ⟨fetch, indent, reason, rfl, rfl⟩ |
        ⟨style, strict, problem, rfl, rfl⟩
    · exact iff_of_false (mt (nul_mem_json_iff _).mp (plain text)) (by simp)
    · exact (nul_mem_tree_iff violation).trans (by simp)
    · exact (nul_mem_file_iff reason).trans (by simp)
    · exact iff_of_false (nul_notMem_problem problem) (by simp)

/-- A node of a type with a line feed, which has neither children nor a value. -/
def bareNode : String := "\x7b\"type\":\"a\\nb\"\x7d"

/-- What is said of the empty text. -/
def emptyTextLibraries : Libraries := .withTasks fun _ => "EOF while parsing a value at line 1 column 0"

/-- A node that is no tree, a text that is no JSON, and a file that is not there. -/
theorem failed_call_tells_reason :
    emptyTextLibraries.TellsNoNul ∧
      String.fromUTF8? (beforeNul bareNode.toUTF8) = some bareNode ∧
      (Call.renderJsonTree 2).result emptyTextLibraries bareNode = .error (.tree (.noContent "a\nb")) ∧
      renderJsonTree emptyTextLibraries (some bareNode.toUTF8) 2 =
        ⟨false, none,
          some "Invalid document tree: \x60a\nb\x60 node has neither children nor value"⟩ ∧
      renderJsonTree emptyTextLibraries (some .empty) 2 =
        ⟨false, none, some "JSON error: EOF while parsing a value at line 1 column 0"⟩ ∧
      renderFile (some bareNode.toUTF8) (fun _ => none) 2 =
        ⟨false, none, some "I/O error: No such file or directory (os error 2)"⟩ := by
  have plain : emptyTextLibraries.TellsNoNul := fun text => by
    show '\x00' ∉ "EOF while parsing a value at line 1 column 0".toList
    decide +kernel
  have valid : String.fromUTF8? (beforeNul bareNode.toUTF8) = some bareNode := by decide +kernel
  have failed : (Call.renderJsonTree 2).result emptyTextLibraries bareNode =
      .error (.tree (.noContent "a\nb")) := by decide +kernel
  have nothing : String.fromUTF8? (beforeNul .empty) = some "" := by decide +kernel
  have noJson : (Call.renderJsonTree 2).result emptyTextLibraries "" =
      .error (.json "EOF while parsing a value at line 1 column 0") := by decide +kernel
  have missing : (Call.renderFile (fun _ => .error .notFound) 2).result emptyTextLibraries bareNode =
      .error (.file .notFound) := rfl
  refine ⟨plain, valid, failed, (failed_call_tells plain valid failed).1.trans ?_,
    (failed_call_tells plain nothing noJson).1.trans ?_, ?_⟩
  · decide +kernel
  · decide +kernel
  · rw [renderFile_eq]
    refine (failed_call_tells plain valid missing).1.trans ?_
    decide +kernel

/-- The type of this node has a NUL, which JSON can write. -/
def nulNode : String := "\x7b\"type\":\"a\\u0000b\"\x7d"

/-- All that is left of the message is an empty error text. -/
theorem message_with_nul_is_lost :
    (∀ libraries, parseTree libraries nulNode = .error (.tree (.noContent "a\x00b"))) ∧
      (Error.tree (.noContent "a\x00b")).message =
        "Invalid document tree: \x60a\x00b\x60 node has neither children nor value" ∧
      ∀ libraries, renderJsonTree libraries (some nulNode.toUTF8) 2 = ⟨false, none, some ""⟩ := by
  have refused : parseTree emptyTextLibraries nulNode = .error (.tree (.noContent "a\x00b")) := by
    decide +kernel
  have read (libraries : Libraries) := parseTree_of_violation refused libraries
  refine ⟨read, rfl, fun libraries => ?_⟩
  have valid : String.fromUTF8? (beforeNul nulNode.toUTF8) = some nulNode := by decide +kernel
  rw [renderJsonTree, answering_of_valid valid, read]
  decide +kernel

end RstPress.Embed
