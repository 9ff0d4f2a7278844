import RstPress.Cli.Command
import RstPress.Options

/-!
The words of a command line. Some are flags, some are values of the flags in front of them, and all
others are operands; after two dashes there are only operands. The first word that fits nothing ends the
reading, and so does a request for help.
-/

namespace RstPress.Cli

/-- What a word turns out to be. The value of a flag that takes none is empty. -/
inductive Argument where
  | operand (text : String)
  | flag (flag : Flag) (value : String)
  | command (verb : Verb) (words : List String)
  | misuse
deriving DecidableEq, Repr

/-- Why there is no command to carry out. -/
inductive Stop where
  | misuse
  | help
  | version
deriving DecidableEq, Repr

/-- A word with a dash in front. A dash alone is none: it names the input. -/
def isFlagWord (word : List Char) : Bool := word.head? = some '-' && word ≠ ['-']

/-- The value behind an equals sign, if there is one. -/
def valueAfterSign : List Char → Option (List Char)
  | [] => none
  | _ :: value => some value

/-- The value that is written together with a letter. An equals sign between them does not count. -/
def valueAfterLetter : List Char → Option (List Char)
  | [] => none
  | c :: value => some (if c = '=' then value else c :: value)

/-- The flag that a word names, with the value attached to it. What stands behind the letter of a flag
without value does not matter, since help and version end the reading at once. -/
def Verb.flag? (verb : Verb) (word : List Char) : Option (Flag × Option (List Char)) :=
  match word with
  | '-' :: '-' :: long =>
    (verb.flags.find? fun flag => flag.name.toList = long.takeWhile (· ≠ '=')).map fun flag =>
      (flag, valueAfterSign (long.dropWhile (· ≠ '=')))
  | '-' :: letter :: rest =>
    (verb.flags.find? fun flag => flag.letter? = some letter).map fun flag =>
      (flag, if flag.takesValue then valueAfterLetter rest else none)
  | _ => none

/-- Reads the words in order. Only the first command can be named, and its words are not read here. -/
def arguments (verb : Verb) : List String → List Argument
  | [] => []
  | word :: words =>
    if word = "--" then words.map .operand
    else match if verb = .render then Verb.ofName? word else none with
      | some found => [.command found words]
      | none =>
        if !isFlagWord word.toList then .operand word :: arguments verb words
        else match verb.flag? word.toList with
          | none => [.misuse]
          | some (flag, attached) =>
            if !flag.takesValue then
              if attached.isSome then [.misuse] else .flag flag "" :: arguments verb words
            else match attached, words with
              | some value, words => .flag flag (String.ofList value) :: arguments verb words
              | none, [] => [.misuse]
              | none, value :: others =>
                if isFlagWord value.toList then [.misuse] else .flag flag value :: arguments verb others

/-- A number of columns: decimal digits with or without a plus sign, below the 64th power of two. -/
def columns? (text : String) : Option Nat :=
  let digits := match text.toList with
    | '+' :: digits => digits
    | digits => digits
  (Json.natural? digits).filter (· < Nat.pow 2 64)

def Flag.accepts (flag : Flag) (value : String) : Bool :=
  match flag with
  | indent => (columns? value).isSome
  | output | outputDir => !value.isEmpty
  | strict | fromJson | compact | sequential | help | version => true

/-- What has been read so far. -/
structure Settings where
  flags : List (Flag × String) := []
  operands : List String := []
deriving DecidableEq, Repr

namespace Settings

def has (settings : Settings) (flag : Flag) : Bool := (settings.flags.lookup flag).isSome

def takes (verb : Verb) (settings : Settings) : Bool :=
  match verb.operandLimit? with
  | none => true
  | some limit => settings.operands.length < limit

/-- Collects arguments up to the name of a command. No flag may be given twice. -/
def collect (verb : Verb) (settings : Settings) :
    List Argument → Except Stop (Settings × Option (Verb × List String))
  | [] => .ok (settings, none)
  | .command found words :: _ => .ok (settings, some (found, words))
  | .misuse :: _ => .error .misuse
  | .operand text :: others =>
    if text.isEmpty || !settings.takes verb then .error .misuse
    else collect verb { settings with operands := settings.operands ++ [text] } others
  | .flag .help _ :: _ => .error .help
  | .flag .version _ :: _ => .error .version
  | .flag flag value :: others =>
    if settings.has flag || !flag.accepts value then .error .misuse
    else collect verb { settings with flags := (flag, value) :: settings.flags } others

/-- The indentation to use: what the flag says, else what the environment says, else two columns. -/
def indent (environment : Option String) (settings : Settings) : Except Stop Nat :=
  match (settings.flags.lookup .indent).or environment with
  | none => .ok ({} : RenderOptions).indent
  | some value =>
    match columns? value with
    | some columns => .ok columns
    | none => .error .misuse

end Settings

def Verb.command (verb : Verb) (environment : Option String) (settings : Settings) :
    Except Stop Command :=
  match verb, settings.operands with
  | .render, [] => do
    let _ ← settings.indent environment
    return .usage
  | .render, input :: _ => do return .html input none (← settings.indent environment) false false
  | .html, input :: _ => do
    return .html input (settings.flags.lookup .output) (← settings.indent environment)
      (settings.has .strict) (settings.has .fromJson)
  | .json, input :: _ =>
    .ok (.json input (settings.flags.lookup .output) (if settings.has .compact then .compact else .pretty)
      (settings.has .strict))
  | .info, input :: inputs => .ok (.info (input :: inputs))
  | .batch, input :: inputs => do
    return .batch (input :: inputs) ((settings.flags.lookup .outputDir).getD ".")
      (← settings.indent environment) (settings.has .strict) (settings.has .sequential)
  | .version, _ => .ok .version
  | .help, _ | .html, [] | .json, [] | .info, [] | .batch, [] => .error .misuse

/-- The command that the words of a command line ask for. The environment is checked for the words in
front of the name of a command as well, although that command does not use it. -/
def Command.ofWords (environment : Option String) (words : List String) : Except Stop Command := do
  let (outer, found) ← Settings.collect .render {} (arguments .render words)
  match found with
  | none => Verb.render.command environment outer
  | some (.help, topics) =>
    if topics.length ≤ 1 && topics.all fun topic => (Verb.ofName? topic).isSome then .error .help
    else .error .misuse
  | some (verb, words) =>
    let (inner, _) ← Settings.collect verb {} (arguments verb words)
    let command ← verb.command environment inner
    let _ ← outer.indent environment
    return command

end RstPress.Cli
