import RstPress.Document.Source
import RstPress.Options
import RstPress.Tree.Statistics

/-!
What a few documents contain, counted together, and the report about it.
-/

namespace RstPress.Cli
open RstPress.Tree

structure Summary where
  statistics : Statistics := .empty
  lines : Nat := 0
  words : Nat := 0
  characters : Nat := 0
  title : Option String := none

namespace Summary

def ofSource (source : String) : Summary :=
  let tree := (Document.read ({} : ReadOptions).tabWidth source : Document.Reading Node).value
  { statistics := .ofTree tree
    lines := (Source.splitLines source.toList).length
    words := (Text.words tree.plainText.toList).length
    characters := tree.plainText.length
    title := tree.firstTitle? }

/-- Counts another document. The first title stays. -/
def add (total added : Summary) : Summary where
  statistics := total.statistics.merge added.statistics
  lines := total.lines + added.lines
  words := total.words + added.words
  characters := total.characters + added.characters
  title := total.title.or added.title

def ofSources (sources : List String) : Summary :=
  sources.foldl (fun total source => total.add (ofSource source)) {}

def rule : String := String.ofList (List.replicate 40 '─')

def entry (name : String) (count : Nat) : String := name ++ ": " ++ count.repr

/-- The lines of the report about the given inputs. -/
def report (inputs : List String) (summary : Summary) : List String :=
  ["Document Information", rule,
    match inputs with
    | [input] => "File: " ++ input
    | _ => entry "Files" inputs.length,
    entry "Lines" summary.lines,
    entry "Nodes" summary.statistics.nodeCount,
    entry "Max depth" summary.statistics.maxDepth] ++
  (summary.title.toList.map fun title => "Title: " ++ title) ++
  ["", "Node Types", rule] ++
  (summary.statistics.counts.entries.map fun (name, count) => entry name count) ++
  (if summary.statistics.hasFallbacks then
    ["", "Rendered Without Dedicated Markup", rule] ++
      summary.statistics.fallbacks.names.map fun name => "  • rst-unknown rst-" ++ name
  else []) ++
  ["", entry "Words" summary.words, entry "Characters" summary.characters]

end Summary

end RstPress.Cli
