import Mathlib.Data.List.Forall2
import RstPress.Proofs.Disk.Growth

/-!
Files are read one after another. Nothing of that changes a disk. The input can be used up on the way,
but only by being read as a text, so no file is missed or found for it.
-/

namespace RstPress.Cli

namespace Program
variable {α β γ : Type}

theorem bind_done (program : Program α) : program.bind done = program := by
  induction program with
  | done value => rfl
  | readFile path next ih => exact congrArg (readFile path) (funext ih)
  | readInput next ih => exact congrArg readInput (funext ih)
  | writeFile path text next ih => exact congrArg (writeFile path text) (funext ih)
  | makeFolders path next ih => exact congrArg (makeFolders path) (funext ih)
  | print text next ih => exact congrArg (print text) ih
  | complain text next ih => exact congrArg (complain text) ih

theorem bind_assoc (program : Program α) (first : α → Program β) (second : β → Program γ) :
    (program.bind first).bind second = program.bind fun value => (first value).bind second := by
  induction program with
  | done value => rfl
  | readFile path next ih => exact congrArg (readFile path) (funext ih)
  | readInput next ih => exact congrArg readInput (funext ih)
  | writeFile path text next ih => exact congrArg (writeFile path text) (funext ih)
  | makeFolders path next ih => exact congrArg (makeFolders path) (funext ih)
  | print text next ih => exact congrArg (print text) ih
  | complain text next ih => exact congrArg (complain text) ih

instance : LawfulMonad Program := LawfulMonad.mk' Program bind_done (fun _ _ => rfl) bind_assoc

end Program

namespace World

/-- The text that a path leads to. -/
def textAt? (world : World) (path : String) : Option String := (world.readFile path).1.toOption

theorem readFile_of_stored {world : World} {path : String} {content : ByteArray}
    (stored : world.disk.stored? path = some content) :
    world.readFile path = (fileText (some content), world) := by
  rw [readFile, Disk.stored?_eq_some_iff.mp stored]

theorem disk_readFile (world : World) (path : String) : (world.readFile path).2.disk = world.disk := by
  unfold readFile
  split
  · rfl
  · unfold readDevice
    split <;> rfl
  · rfl
  · rfl

/-- Where a path leads, and what is left of the input, say all about the text that is read. -/
theorem textAt?_mono {old new : World} (same : new.input = old.input) {path text : String}
    (readable : ∀ entry, old.disk.readable (.ofText path) = .ok entry →
      new.disk.readable (.ofText path) = .ok entry)
    (found : old.textAt? path = some text) : new.textAt? path = some text := by
  unfold textAt? readFile at found ⊢
  cases there : old.disk.readable (.ofText path) with
  | error failed =>
    rw [there] at found
    cases found
  | ok entry =>
    rw [readable entry there]
    rw [there] at found
    cases entry with
    | folder | link | sameAs => cases found
    | file content => exact found
    | device device =>
      cases device <;> first | exact found | simpa only [readDevice, readInput, same] using found

theorem grows_of_makeFolders {world made : World} {folder : String} {result : Except FileError Unit}
    (makes : world.makeFolders folder = (result, made)) :
    made.input = world.input ∧ world.disk.Grows made.disk := by
  cases makes
  exact ⟨rfl, Disk.grows_makeFolders world.disk (.ofText folder)⟩

theorem textAt?_of_makeFolders {world made : World} {folder path text : String}
    {result : Except FileError Unit} (makes : world.makeFolders folder = (result, made))
    (found : world.textAt? path = some text) :
    made.textAt? path = some text := by
  obtain ⟨same, grows⟩ := grows_of_makeFolders makes
  exact textAt?_mono same (fun _ => grows.readable) found

/-- Two dots apart, a path leads to no other text for the folders that are made. -/
theorem textAt?_eq_of_makeFolders {world made : World} {folder path : String}
    {result : Except FileError Unit} (makes : world.makeFolders folder = (result, made))
    (tree : world.disk.IsTree) (level : world.disk.HasLevelLinks)
    (plain : ['.', '.'] ∉ (Path.ofText path).names) : made.textAt? path = world.textAt? path := by
  obtain ⟨same, grows⟩ := grows_of_makeFolders makes
  have flat : ∀ name ∈ (Path.ofText path).names, ¬name.leadsUp := fun name member up =>
    plain (of_decide_eq_true up ▸ member)
  refine Option.ext fun text => ⟨fun found => ?_, textAt?_of_makeFolders makes⟩
  exact textAt?_mono same.symm (fun _ => (grows.readable_iff tree level flat).mp) found

/-- The input is left, or it was a text. -/
def Drained (world later : World) : Prop :=
  later = world ∨ later = { world with input := .empty } ∧ ∃ text, fileText (some world.input) = .ok text

namespace Drained
variable {world later : World}

theorem disk (drained : world.Drained later) : later.disk = world.disk := by
  rcases drained with rfl | ⟨rfl, _⟩ <;> rfl

theorem textAt?_eq_none_iff (drained : world.Drained later) (path : String) :
    later.textAt? path = none ↔ world.textAt? path = none := by
  rcases drained with rfl | ⟨rfl, text, valid⟩
  · rfl
  · unfold textAt? readFile
    cases world.disk.readable (.ofText path) with
    | error failed => rfl
    | ok entry =>
      cases entry with
      | folder | link | sameAs => rfl
      | file content => rfl
      | device device =>
        cases device with
        | input =>
          -- What is left of an input that was read is the empty text, and that is a text as well.
          have none : fileText (some .empty) = .ok "" := by decide +kernel
          simp only [readDevice, readInput, valid, none]
          constructor <;> rintro ⟨⟩
        | null | full | output | complaints | terminal => rfl

theorem readFile (drained : world.Drained later) {path text : String}
    (read : (later.readFile path).1 = .ok text) : world.Drained (later.readFile path).2 := by
  unfold World.readFile at read ⊢
  cases there : later.disk.readable (.ofText path) with
  | error failed => exact drained
  | ok entry =>
    rw [there] at read
    cases entry with
    | folder | link | sameAs => exact drained
    | file content => exact drained
    | device device =>
      cases device with
      | input =>
        rcases drained with rfl | ⟨rfl, valid⟩
        · exact .inr ⟨rfl, text, read⟩
        · exact .inr ⟨rfl, valid⟩
      | null | full | output | complaints | terminal => exact drained

end Drained

end World

theorem Task.run_readFile (path : String) (world : World) :
    Program.run (ExceptT.run (Task.readFile path)) world =
      ((world.readFile path).1.mapError FileError.message, (world.readFile path).2) := rfl

variable {world later : World} {inputs : List String}

/-- All files are read if every path leads to a text. -/
theorem run_readFiles (drained : world.Drained later)
    (readable : ∀ input ∈ inputs, world.textAt? input ≠ none) :
    ∃ sources after, Program.run (ExceptT.run (inputs.mapM Task.readFile)) later = (.ok sources, after) ∧
      world.Drained after ∧
      List.Forall₂ (fun input source => ∀ content, world.disk.stored? input = some content →
        fileText (some content) = .ok source) inputs sources := by
  induction inputs generalizing later with
  | nil => exact ⟨[], later, rfl, drained, .nil⟩
  | cons input inputs ih =>
    obtain ⟨here, rest⟩ := List.forall_mem_cons.mp readable
    rw [Ne, ← drained.textAt?_eq_none_iff] at here
    cases read : (later.readFile input).1 with
    | error failed => exact absurd (by rw [World.textAt?, read]; rfl) here
    | ok source =>
      obtain ⟨sources, after, ran, left, alike⟩ := ih (drained.readFile read) rest
      refine ⟨source :: sources, after, ?_, left, .cons (fun content stored => ?_) alike⟩
      · rw [List.mapM_cons, Task.run_bind, Task.run_readFile, read]
        simp only [Except.mapError]
        rw [Task.run_bind, ran]
        rfl
      · rw [← drained.disk] at stored
        rw [← read, World.readFile_of_stored stored]

/-- Reading ends with a message if some path leads to no text. -/
theorem run_readFiles_of_missing (drained : world.Drained later)
    (missing : ∃ input ∈ inputs, world.textAt? input = none) :
    ∃ message after, Program.run (ExceptT.run (inputs.mapM Task.readFile)) later = (.error message, after) ∧
      after.disk = world.disk := by
  induction inputs generalizing later with
  | nil =>
    obtain ⟨_, member, _⟩ := missing
    cases member
  | cons input inputs ih =>
    cases read : (later.readFile input).1 with
    | error failed =>
      refine ⟨failed.message, (later.readFile input).2, ?_, ?_⟩
      · rw [List.mapM_cons, Task.run_bind, Task.run_readFile, read]
        rfl
      · rw [World.disk_readFile, drained.disk]
    | ok source =>
      have further : ∃ other ∈ inputs, world.textAt? other = none := by
        obtain ⟨other, member, absent⟩ := missing
        rcases List.mem_cons.mp member with rfl | member
        · rw [← drained.textAt?_eq_none_iff, World.textAt?, read] at absent
          cases absent
        · exact ⟨other, member, absent⟩
      obtain ⟨message, after, ran, same⟩ := ih (drained.readFile read) further
      refine ⟨message, after, ?_, same⟩
      rw [List.mapM_cons, Task.run_bind, Task.run_readFile, read]
      simp only [Except.mapError]
      rw [Task.run_bind, ran]

end RstPress.Cli
