import RstPress.Cli.Disk
import RstPress.Press

/-!
What a command asks of the world around it: files, folders, the input and two texts to print on. A
program is the list of its requests, each followed by what to do with the answer. It can be performed,
or run against a world that is a value.
-/

namespace RstPress.Cli

inductive Program (α : Type) where
  | done (value : α)
  | readFile (path : String) (next : Except FileError String → Program α)
  | readInput (next : Except FileError String → Program α)
  | writeFile (path text : String) (next : Except FileError Unit → Program α)
  | makeFolders (path : String) (next : Except FileError Unit → Program α)
  | print (text : String) (next : Program α)
  | complain (text : String) (next : Program α)

/-- All that a program can see and change. -/
structure World where
  disk : Disk
  input : ByteArray
  output : String := ""
  complaints : String := ""

namespace World

/-- Reads the rest of the input. -/
def readInput (world : World) : Except FileError String × World :=
  (fileText (some world.input), { world with input := .empty })

def print (text : String) (world : World) : World := { world with output := world.output ++ text }

def complain (text : String) (world : World) : World :=
  { world with complaints := world.complaints ++ text }

/-- Reads a device. Most have nothing to say. -/
def readDevice (device : Device) (world : World) : Except FileError String × World :=
  match device with
  | .input => world.readInput
  | .terminal => (.error .noDevice, world)
  | .null | .full | .output | .complaints => (.ok "", world)

/-- Writes to a device. Most forget what they are told. -/
def writeDevice (device : Device) (text : String) (world : World) : Except FileError Unit × World :=
  match device with
  | .null | .input => (.ok (), world)
  | .full => (if text.isEmpty then .ok () else .error .noSpace, world)
  | .output => (.ok (), world.print text)
  | .complaints => (.ok (), world.complain text)
  | .terminal => (.error .noDevice, world)

def readFile (path : String) (world : World) : Except FileError String × World :=
  match world.disk.readable (.ofText path) with
  | .ok (.file content) => (fileText (some content), world)
  | .ok (.device device) => world.readDevice device
  | .ok _ => (.error .isDirectory, world)
  | .error failed => (.error failed, world)

/-- Makes a file, or replaces the one that is there. -/
def writeFile (path text : String) (world : World) : Except FileError Unit × World :=
  match world.disk.writable (.ofText path) with
  | .error failed => (.error failed, world)
  | .ok place =>
    match world.disk.find? place with
    | some (.device device) => world.writeDevice device text
    | _ => (.ok (), { world with disk := world.disk.put place (.file text.toUTF8) })

def makeFolders (path : String) (world : World) : Except FileError Unit × World :=
  let (made, disk) := world.disk.makeFolders (.ofText path)
  (made, { world with disk })

end World

namespace Program
variable {α β : Type}

def bind : Program α → (α → Program β) → Program β
  | done value, rest => rest value
  | readFile path next, rest => readFile path fun answer => (next answer).bind rest
  | readInput next, rest => readInput fun answer => (next answer).bind rest
  | writeFile path text next, rest => writeFile path text fun answer => (next answer).bind rest
  | makeFolders path next, rest => makeFolders path fun answer => (next answer).bind rest
  | print text next, rest => print text (next.bind rest)
  | complain text next, rest => complain text (next.bind rest)

instance : Monad Program where
  pure := done
  bind := bind

/-- What a program gives in a world, and what it makes of that world. -/
def run : Program α → World → α × World
  | done value, world => (value, world)
  | readFile path next, world => (next (world.readFile path).1).run (world.readFile path).2
  | readInput next, world => (next world.readInput.1).run world.readInput.2
  | writeFile path text next, world =>
    (next (world.writeFile path text).1).run (world.writeFile path text).2
  | makeFolders path next, world => (next (world.makeFolders path).1).run (world.makeFolders path).2
  | print text next, world => next.run (world.print text)
  | complain text next, world => next.run (world.complain text)

@[simp] theorem run_pure (value : α) (world : World) : (pure value : Program α).run world = (value, world) := rfl

@[simp] theorem run_bind (program : Program α) (rest : α → Program β) (world : World) :
    (program >>= rest).run world = (rest (program.run world).1).run (program.run world).2 := by
  induction program generalizing world with
  | done value => rfl
  | readFile path next ih => exact ih (world.readFile path).1 (world.readFile path).2
  | readInput next ih => exact ih world.readInput.1 world.readInput.2
  | writeFile path text next ih => exact ih (world.writeFile path text).1 (world.writeFile path text).2
  | makeFolders path next ih => exact ih (world.makeFolders path).1 (world.makeFolders path).2
  | print text next ih => exact ih (world.print text)
  | complain text next ih => exact ih (world.complain text)

end Program

/-- A program that can fail with a message. -/
abbrev Task := ExceptT String Program

namespace Task
variable {α β : Type}

def ofResult (result : Except String α) : Task α := ExceptT.mk (.done result)

def readFile (path : String) : Task String :=
  ExceptT.mk (.readFile path fun answer => .done (answer.mapError FileError.message))

def readInput : Task String :=
  ExceptT.mk (.readInput fun answer => .done (answer.mapError FileError.message))

def writeFile (path text : String) : Task Unit :=
  ExceptT.mk (.writeFile path text fun answer => .done (answer.mapError FileError.message))

def makeFolders (path : String) : Task Unit :=
  ExceptT.mk (.makeFolders path fun answer => .done (answer.mapError FileError.message))

def print (text : String) : Task Unit := ExceptT.mk (.print text (.done (.ok ())))

def complain (text : String) : Task Unit := ExceptT.mk (.complain text (.done (.ok ())))

/-- What follows a failure is not run. -/
theorem run_bind (task : Task α) (rest : α → Task β) (world : World) :
    Program.run (ExceptT.run (task >>= rest)) world =
      match Program.run (ExceptT.run task) world with
      | (.ok value, after) => Program.run (ExceptT.run (rest value)) after
      | (.error message, after) => (.error message, after) := by
  rw [ExceptT.run_bind, Program.run_bind]
  rcases Program.run (ExceptT.run task) world with ⟨message | value, after⟩ <;> rfl

end Task

end RstPress.Cli
