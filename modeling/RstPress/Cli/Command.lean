import RstPress.Json.Write

/-!
The commands of the program, and the flags that each of them takes.
-/

namespace RstPress.Cli

/-- What is asked for, with everything that was left open filled in. -/
inductive Command where
  | usage
  | version
  | html (input : String) (output : Option String) (indent : Nat) (strict fromJson : Bool)
  | json (input : String) (output : Option String) (style : Json.Style) (strict : Bool)
  | info (inputs : List String)
  | batch (inputs : List String) (folder : String) (indent : Nat) (strict sequential : Bool)
deriving DecidableEq, Repr

/-- The word that names a command. With none of these words, a document is rendered. -/
inductive Verb where
  | render
  | html
  | json
  | info
  | batch
  | version
  | help
deriving DecidableEq, Repr

/-- What can be said after a dash or two. -/
inductive Flag where
  | indent
  | output
  | outputDir
  | strict
  | fromJson
  | compact
  | sequential
  | help
  | version
deriving DecidableEq, Repr

namespace Flag

def name : Flag → String
  | indent => "indent"
  | output => "output"
  | outputDir => "output-dir"
  | strict => "strict"
  | fromJson => "from-json"
  | compact => "compact"
  | sequential => "sequential"
  | help => "help"
  | version => "version"

/-- The letter that stands for the flag after a single dash. -/
def letter? : Flag → Option Char
  | output => some 'o'
  | outputDir => some 'd'
  | help => some 'h'
  | version => some 'V'
  | indent | strict | fromJson | compact | sequential => none

def takesValue : Flag → Bool
  | indent | output | outputDir => true
  | strict | fromJson | compact | sequential | help | version => false

end Flag

namespace Verb

def named : List Verb := [html, json, info, batch, version, help]

def name : Verb → String
  | render => "render"
  | html => "html"
  | json => "json"
  | info => "info"
  | batch => "batch"
  | version => "version"
  | help => "help"

def ofName? (word : String) : Option Verb := named.find? fun verb => verb.name = word

def flags : Verb → List Flag
  | render => [.indent, .help, .version]
  | html => [.output, .indent, .strict, .fromJson, .help]
  | json => [.output, .compact, .strict, .help]
  | info => [.help]
  | batch => [.outputDir, .indent, .strict, .sequential, .help]
  | version => [.help]
  | help => []

/-- How many operands a command takes at most, if there is a limit. -/
def operandLimit? : Verb → Option Nat
  | render | html | json => some 1
  | info | batch => none
  | version | help => some 0

end Verb

end RstPress.Cli
