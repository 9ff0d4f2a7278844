import RstPress.Cli.Run
import RstPress.Proofs.Grammar.Document
import RstPress.Proofs.Words.Joints

/-!
The number of words in the report about some documents. It is taken from the plain text of each tree,
which is the texts of its blocks without anything between them. Paragraphs and literal blocks end with a
line feed, but titles, terms and the lines of a line block do not, and their last words go on into the
next block. So the number falls short of the words of all blocks by the number of these joints.
-/

namespace RstPress.Grammar
open Text Inline Layout RstPress.Tree Document

mutual

/-- The texts of titles, paragraphs, literal blocks, lines and terms, in the order of the document. -/
def textBlocks : Node → List (List Char)
  | .titled _ title body => shownBy title :: textBlocksIn body
  | .composite .paragraph children | .composite .literalBlock children | .composite .line children =>
    [shownBy children]
  | .unknown kind children => if kind = termKind then [shownBy children] else textBlocksIn children
  | .composite _ children | .interpreted _ children => textBlocksIn children
  | .text _ | .transition | .unknownLeaf .. => []

def textBlocksIn : List Node → List (List Char)
  | [] => []
  | node :: nodes => textBlocks node ++ textBlocksIn nodes

end

/-- The words of all text blocks, each counted for itself. -/
def blockWords (tree : Node) : Nat := ((textBlocks tree).map fun text => (words text).length).sum

/-- The text of a node is that of its text blocks. -/
def IsCovered (node : Node) : Prop := node.plainText.toList = (textBlocks node).flatten

theorem shownBy_of_isCovered {nodes : List Node} (covered : ∀ node ∈ nodes, IsCovered node) :
    shownBy nodes = (textBlocksIn nodes).flatten := by
  induction nodes with
  | nil => rfl
  | cons node nodes ih =>
    obtain ⟨here, later⟩ := List.forall_mem_cons.mp covered
    rw [shownBy_cons, here, ih later, textBlocksIn, List.flatten_append]

theorem isCovered_of_isVerse {node : Node} (verse : IsVerse node) : IsCovered node := by
  induction verse with
  | line inline => exact (List.flatten_singleton ..).symm
  | block filled inner ih => exact shownBy_of_isCovered ih

theorem isCovered_definitionItem {item : List Node × List Node}
    (meaning : ∀ node ∈ item.2, IsCovered node) : IsCovered (definitionItem item) := by
  have term : IsCovered (.unknown termKind item.1) := by
    rw [IsCovered, textBlocks, if_pos rfl, List.flatten_singleton]
    rfl
  have definition : IsCovered (.unknown definitionKind item.2) := by
    rw [IsCovered, textBlocks, if_neg (by decide)]
    exact shownBy_of_isCovered meaning
  rw [IsCovered, definitionItem, textBlocks, if_neg (by decide)]
  exact shownBy_of_isCovered (List.forall_mem_cons.mpr ⟨term, List.forall_mem_singleton.mpr definition⟩)

theorem isCovered_of_isBody {node : Node} (body : IsBody node) : IsCovered node := by
  induction body with
  | transition => rfl
  | paragraph whole => exact (List.flatten_singleton ..).symm
  | literalBlock text => exact (List.flatten_singleton ..).symm
  | list marker filled inner ih =>
    have each body (member : body ∈ _) : IsCovered (listItem body) :=
      shownBy_of_isCovered (ih body member)
    have covered := shownBy_of_isCovered (List.forall_mem_map.mpr each)
    cases marker <;> exact covered
  | definitionList filled terms inner ih =>
    exact shownBy_of_isCovered
      (List.forall_mem_map.mpr fun item member => isCovered_definitionItem (ih item member))
  | lineBlock filled inner =>
    exact shownBy_of_isCovered fun node member => isCovered_of_isVerse (inner node member)
  | blockQuote inner ih => exact shownBy_of_isCovered ih

theorem isCovered_of_isSection {node : Node} (found : IsSection node) : IsCovered node := by
  induction found with
  | titled deep phrase inner below ih =>
    have body := shownBy_of_isCovered (List.forall_mem_append.mpr
      ⟨fun node member => isCovered_of_isBody (inner node member), ih⟩)
    rw [IsCovered, textBlocks, List.flatten_cons, ← body, Node.plainText, String.toList_append]
    rfl

theorem isCovered_of_isDocument {tree : Node} (found : IsDocument tree) : IsCovered tree := by
  cases found with
  | document inner below =>
    exact shownBy_of_isCovered (List.forall_mem_append.mpr
      ⟨fun node member => isCovered_of_isBody (inner node member),
        fun node member => isCovered_of_isSection (below node member)⟩)

/-- The words of a tree, taken all together, fall short of those of its text blocks by the joints. -/
theorem words_of_isDocument {tree : Node} (found : IsDocument tree) :
    (words tree.plainText.toList).length + joints none (textBlocks tree) = blockWords tree := by
  rw [isCovered_of_isDocument found, length_words_flatten, blockWords]

end RstPress.Grammar

namespace RstPress.Cli
open Text RstPress.Tree Grammar

theorem run_info {inputs sources : List String} {world after : World}
    (found : Program.run (ExceptT.run (inputs.mapM readSource)) world = (.ok sources, after)) :
    Program.run (ExceptT.run (info inputs)) world =
      (.ok (), after.print
        (String.join (((Summary.ofSources sources).report inputs).map (· ++ "\n")))) := by
  rw [info, Task.run_bind, found]
  rfl

/-- The report ends with the numbers of words and characters. -/
theorem exists_report (inputs : List String) (summary : Summary) :
    ∃ front, summary.report inputs =
      front ++ [Summary.entry "Words" summary.words, Summary.entry "Characters" summary.characters] :=
  ⟨_, List.append_cons _ _ _⟩

theorem words_foldl (sources : List String) (total : Summary) :
    (sources.foldl (fun total source => total.add (.ofSource source)) total).words =
      total.words + (sources.map fun source => (Summary.ofSource source).words).sum := by
  induction sources generalizing total with
  | nil => rfl
  | cons source sources ih =>
    rw [List.foldl_cons, ih, List.map_cons, List.sum_cons]
    exact Nat.add_assoc ..

/-- The tree of a source, read in spite of all problems. -/
def treeOf (source : String) : Node :=
  (Document.read ({} : ReadOptions).tabWidth source : Document.Reading Node).value

theorem parse_eq_treeOf (source : String) : parse {} source = .ok (treeOf source) := rfl

theorem isDocument_treeOf (source : String) : IsDocument (treeOf source) := by
  have parsed := Document.parse_of_lenient {} rfl source
  rw [parse_eq_treeOf] at parsed
  rw [Except.ok.inj parsed]
  exact isDocument_of_source ({} : ReadOptions).tabWidth source

/-- The words of the sources together. -/
theorem words_ofSources (sources : List String) :
    (Summary.ofSources sources).words +
        (sources.map fun source => joints none (textBlocks (treeOf source))).sum =
      (sources.map fun source => blockWords (treeOf source)).sum := by
  rw [Summary.ofSources, words_foldl, Nat.zero_add]
  induction sources with
  | nil => rfl
  | cons source sources ih =>
    have here : (Summary.ofSource source).words + joints none (textBlocks (treeOf source)) =
        blockWords (treeOf source) := words_of_isDocument (isDocument_treeOf source)
    simp only [List.map_cons, List.sum_cons]
    omega

/-- What `info` prints about the sources that it reads. The number of words falls short of the words of
all text blocks by the joints, the places where a block ends visibly and the next one that is not empty
begins visibly. -/
theorem info_words {inputs sources : List String} {world after : World}
    (found : Program.run (ExceptT.run (inputs.mapM readSource)) world = (.ok sources, after)) :
    ∃ front count characters,
      Program.run (ExceptT.run (info inputs)) world =
        (.ok (), after.print (String.join
          ((front ++ [Summary.entry "Words" count, Summary.entry "Characters" characters]).map
            (· ++ "\n")))) ∧
      count + (sources.map fun source => joints none (textBlocks (treeOf source))).sum =
        (sources.map fun source => blockWords (treeOf source)).sum := by
  obtain ⟨front, report⟩ := exists_report inputs (Summary.ofSources sources)
  exact ⟨front, _, _, by rw [run_info found, report], words_ofSources sources⟩

def titledSource : String := "Title\n=====\n\nHello world.\n"

/-- The source is given as the input. -/
def titledInput : World where
  disk := .ofFiles [] []
  input := titledSource.toUTF8

theorem info_words_titled :
    ∃ after,
      Program.run (ExceptT.run (["-"].mapM readSource)) titledInput = (.ok [titledSource], after) ∧
      ∃ front count characters,
        Program.run (ExceptT.run (info ["-"])) titledInput =
          (.ok (), after.print (String.join
            ((front ++ [Summary.entry "Words" count, Summary.entry "Characters" characters]).map
              (· ++ "\n")))) ∧
        count + joints none (textBlocks (treeOf titledSource)) = blockWords (treeOf titledSource) := by
  have found : Program.run (ExceptT.run (["-"].mapM readSource)) titledInput =
      (.ok [titledSource], (Program.run (ExceptT.run (["-"].mapM readSource)) titledInput).2) :=
    Prod.ext (by decide +kernel) rfl
  refine ⟨_, found, ?_⟩
  obtain ⟨front, count, characters, run, counted⟩ := info_words found
  exact ⟨front, count, characters, run, by simpa using counted⟩

/-- A title goes on with the first word below it, so there are two words and not three. -/
theorem info_joins_title :
    (Program.run (ExceptT.run (info ["-"])) titledInput).2.output =
        String.join ["Document Information\n", Summary.rule,
          "\nFile: -\nLines: 4\nNodes: 6\nMax depth: 3\nTitle: Title\n\nNode Types\n", Summary.rule,
          "\ndocument: 1\nparagraph: 1\nsection: 1\ntext: 2\ntitle: 1\n\nWords: 2\nCharacters: 18\n"] ∧
      blockWords (treeOf titledSource) = 3 := by
  constructor <;> decide +kernel

end RstPress.Cli
