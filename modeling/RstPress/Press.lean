import RstPress.Document.Source
import RstPress.Error
import RstPress.Html.Render
import RstPress.Options
import RstPress.Tree.Statistics
import RstPress.Wire.Json

/-!
Sources and exchanged trees in, HTML, JSON and statistics out. What other libraries do for this is given
from outside.
-/

namespace RstPress
open RstPress.Tree

/-- What is taken from other libraries: the words for a text that is no JSON of a tree, and a map that can
work on several texts at the same time. -/
structure Libraries where
  jsonReason : String → String
  mapAtOnce : (String → Except Error String) → List String → List (Except Error String)

/-- No NUL is among the words for a text that is no JSON of a tree. -/
def Libraries.TellsNoNul (libraries : Libraries) : Prop :=
  ∀ text, '\x00' ∉ (libraries.jsonReason text).toList

/-- The map gives one result for each text, at the place of the text. -/
def Libraries.KeepsOrder (libraries : Libraries) : Prop :=
  ∀ work texts, (libraries.mapAtOnce work texts).length = texts.length ∧
    ∀ (place : Nat) (text : String), texts[place]? = some text →
      (libraries.mapAtOnce work texts)[place]? = some (work text)

/-- Libraries with a task of its own for each text. -/
def Libraries.withTasks (jsonReason : String → String) : Libraries where
  jsonReason
  mapAtOnce work texts := (texts.map fun text => Task.spawn fun _ => work text).map Task.get

/-- Reads a source. Strict reading fails with the first problem, lenient reading never fails. -/
def parse (options : ReadOptions) (source : String) : Except Error Node :=
  if options.strict then
    (Document.read options.tabWidth source : Except Document.Problem Node).mapError .markup
  else .ok (Document.read options.tabWidth source : Document.Reading Node).value

/-- What lenient reading reports about a source. -/
def problems (options : ReadOptions) (source : String) : List Document.Problem :=
  (Document.read options.tabWidth source : Document.Reading Node).problems

/-- The problems of a source, one line of text each. -/
def warnings (source : String) : List String := (problems {} source).map Document.Problem.summary

/-- Reads a tree from JSON text: first the wire nodes, then the tree that they make. -/
def parseTree (libraries : Libraries) (text : String) : Except Error Node :=
  match Wire.parse? text with
  | none => .error (.json (libraries.jsonReason text))
  | some wire => wire.toNode.mapError .tree

/-- Reads a tree from JSON text, without telling apart why that fails. -/
def parseTree? (text : String) : Option Node := do (← Wire.parse? text).toNode.toOption

def treeText (style : Json.Style) (tree : Node) : String := (Wire.ofNode tree).print style

/-- A name that is free for unknown nodes. -/
def unknownKind (name : String) : Except Error UnknownKind :=
  match UnknownKind.ofName? name with
  | some kind => .ok kind
  | none => .error (.tree (.builtin name))

/-- A node of the named type with the given child nodes. -/
def compositeNode (name : String) (children : List Node) : Except Error Node :=
  match Node.ofTypeName? (.ofName name) children with
  | some node => .ok node
  | none => .error (.tree (.builtin name))

def renderTree (options : RenderOptions) (tree : Node) : String := Html.page options.indent tree

def renderSource (reading : ReadOptions) (rendering : RenderOptions) (source : String) :
    Except Error String :=
  (parse reading source).map (renderTree rendering)

/-- Renders sources independently of each other: several at the same time, or one after another. -/
def renderBatch (libraries : Libraries) (reading : ReadOptions) (rendering : RenderOptions)
    (sources : List String) : List (Except Error String) :=
  if rendering.parallel then libraries.mapAtOnce (renderSource reading rendering) sources
  else sources.map (renderSource reading rendering)

/-- The text of a file, given its bytes, or nothing if there is no such file. -/
def fileText (content : Option ByteArray) : Except FileError String :=
  match content with
  | none => .error .notFound
  | some bytes =>
    match String.fromUTF8? bytes with
    | some text => .ok text
    | none => .error .notText

def parseFile (reading : ReadOptions) (content : Option ByteArray) : Except Error Node := do
  parse reading (← (fileText content).mapError .file)

/-- A rendered tree with its statistics. -/
structure Page where
  html : String
  statistics : Statistics

def Page.ofTree (options : RenderOptions) (tree : Node) : Page := ⟨renderTree options tree, .ofTree tree⟩

/-- A page about whose tree nothing is known. -/
def Page.ofHtml (html : String) : Page := ⟨html, .empty⟩

def Tree.Statistics.toJson (statistics : Statistics) : Json :=
  .object
    [Json.member "counts" (.object (statistics.counts.entries.map fun entry =>
        Json.member entry.1 (.natural entry.2))),
      Json.member "node_count" (.natural statistics.nodeCount),
      Json.member "max_depth" (.natural statistics.maxDepth),
      Json.member "fallback_kinds" (.array (statistics.fallbacks.names.map .text))]

def Page.toJson (page : Page) : Json :=
  .object [Json.member "html" (.text page.html), Json.member "stats" page.statistics.toJson]

/-- All options together. -/
structure Press where
  reading : ReadOptions := {}
  rendering : RenderOptions := {}

/-- A tree that was read, and how it is to be rendered. -/
structure Pressed where
  tree : Node
  rendering : RenderOptions

namespace Press

def parse (press : Press) (source : String) : Except Error Pressed :=
  (RstPress.parse press.reading source).map (⟨·, press.rendering⟩)

def parseTree (libraries : Libraries) (press : Press) (text : String) : Except Error Pressed :=
  (RstPress.parseTree libraries text).map (⟨·, press.rendering⟩)

def parseFile (press : Press) (content : Option ByteArray) : Except Error Pressed :=
  (RstPress.parseFile press.reading content).map (⟨·, press.rendering⟩)

def renderBatch (libraries : Libraries) (press : Press) (sources : List String) :
    List (Except Error String) :=
  RstPress.renderBatch libraries press.reading press.rendering sources

end Press

namespace Pressed

def page (pressed : Pressed) : Page := .ofTree pressed.rendering pressed.tree

def treeText (style : Json.Style) (pressed : Pressed) : String := RstPress.treeText style pressed.tree

end Pressed

/-- The version of this program. -/
def version : String := "0.1.0"

end RstPress
