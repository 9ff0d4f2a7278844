import RstPress.Cli.Argument
import RstPress.Cli.Program
import RstPress.Cli.Summary

/-!
How each command is carried out. A failure ends the command with a message; what was printed or written
before stays.
-/

namespace RstPress.Cli

/-- Reads a document from a file, or from the input if the path is a dash. -/
def readSource (path : String) : Task String := if path = "-" then Task.readInput else Task.readFile path

/-- Writes a result to a file, or prints it. -/
def writeResult (output : Option String) (text : String) : Task Unit :=
  match output with
  | none => Task.print text
  | some path => do
    Task.writeFile path text
    Task.complain ("Saved to " ++ path ++ "\n")

def tell (result : Except Error String) : Task String := Task.ofResult (result.mapError Error.message)

def printLines (lines : List String) : Task Unit := Task.print (String.join (lines.map (· ++ "\n")))

def html (libraries : Libraries) (input : String) (output : Option String) (indent : Nat)
    (strict fromJson : Bool) : Task Unit := do
  let source ← readSource input
  let tree := if fromJson then parseTree libraries source else parse { strict } source
  writeResult output (← tell (tree.map (renderTree { indent })))

def json (input : String) (output : Option String) (style : Json.Style) (strict : Bool) : Task Unit := do
  let source ← readSource input
  writeResult output (← tell ((parse { strict } source).map fun tree => treeText style tree ++ "\n"))

def info (inputs : List String) : Task Unit := do
  let sources ← inputs.mapM readSource
  printLines ((Summary.ofSources sources).report inputs)

/-- The path of the page of each input: the file name in the given folder, with another ending. No two
inputs share a page. `taken` holds the pages so far with their inputs. -/
def pagePaths (folder : String) (taken : List (String × String)) : List String → Except String (List String)
  | [] => .ok []
  | input :: inputs =>
    match (Path.ofText input).fileName? with
    | none => .error (input ++ " has no file name")
    | some name =>
      let page := Path.join folder (String.ofList name.stem ++ ".html")
      match taken.lookup page with
      | some earlier => .error (earlier ++ " and " ++ input ++ " would both be written to " ++ page)
      | none => (pagePaths folder ((page, input) :: taken) inputs).map (page :: ·)

/-- Writes the pages that could be rendered, and counts the others. -/
def writePages : List (String × Except Error String) → Task Nat
  | [] => return 0
  | (path, .ok page) :: others => do
    Task.writeFile path page
    writePages others
  | (_, .error _) :: others => do return (← writePages others) + 1

/-- Nothing is written before all inputs are read. -/
def batch (libraries : Libraries) (inputs : List String) (folder : String) (indent : Nat)
    (strict sequential : Bool) : Task Unit := do
  let pages ← Task.ofResult (pagePaths folder [] inputs)
  Task.makeFolders folder
  let sources ← inputs.mapM Task.readFile
  let results := renderBatch libraries { strict } { indent, parallel := !sequential } sources
  let failed ← writePages (pages.zip results)
  printLines ["", "Done! " ++ (inputs.length - failed).repr ++ " rendered, " ++ failed.repr ++ " failed"]
  if 0 < failed then throw (failed.repr ++ " of " ++ inputs.length.repr ++ " files failed")

def versionLine : String := "rst2html " ++ version

def Command.run (libraries : Libraries) : Command → Task Unit
  | .usage => printLines ["Usage: rst2html <FILE>", "       rst2html --help for more information"]
  | .version => printLines [versionLine, "reStructuredText to HTML renderer", "", "License: MIT"]
  | .html input output indent strict fromJson => Cli.html libraries input output indent strict fromJson
  | .json input output style strict => Cli.json input output style strict
  | .info inputs => Cli.info inputs
  | .batch inputs folder indent strict sequential =>
    Cli.batch libraries inputs folder indent strict sequential

/-- What the program can be asked. -/
def helpLines : List String :=
  ["Render reStructuredText to HTML with semantic class names", "",
    "Usage: rst2html [OPTIONS] [FILE] [COMMAND]", "",
    "Commands:",
    "  html     Render a document to HTML",
    "  json     Dump the parsed document tree as JSON",
    "  info     Show document statistics, combined over all inputs",
    "  batch    Render many files into a directory",
    "  version  Show version information",
    "  help     Print this message"]

/-- The exit code of the program, given the words of the command line and the indentation that the
environment asks for. -/
def program (libraries : Libraries) (environment : Option String) (words : List String) : Program Nat :=
  match Command.ofWords environment words with
  | .error .misuse => .complain "error: invalid arguments, see rst2html --help\n" (.done 2)
  | .error .help => .print (String.join (helpLines.map (· ++ "\n"))) (.done 0)
  | .error .version => .print (versionLine ++ "\n") (.done 0)
  | .ok command => do
    match ← (command.run libraries).run with
    | .ok () => return 0
    | .error message => .complain ("Error: " ++ message ++ "\n") (.done 1)

end RstPress.Cli
