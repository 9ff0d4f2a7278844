import RstPress.Proofs.Sections

/-!
Strict and lenient reading are two runs of the same readers. The runs of a reader agree if the
strict one ends at the first problem that the lenient one reports, or else with its value. Agreement
is kept by every step of which readers are made, so it holds of the runs over a whole source.
-/

namespace RstPress.Document
open Layout RstPress.Tree
variable {α β : Type}

/-- The strict run is what the lenient run comes to if it ends at its first problem. -/
def Agrees (lenient : Reading α) (strict : Except Problem α) : Prop := lenient.strict = strict

theorem agrees_pure (a : α) : Agrees (pure a) (pure a) := rfl

theorem agrees_note (problem : Problem) : Agrees (note problem) (note problem) := rfl

/-- After a problem nothing is left of the strict run, and before one the values are the same. -/
theorem agrees_bind {lenient : Reading α} {strict : Except Problem α} (here : Agrees lenient strict)
    {next : α → Reading β} {nextStrict : α → Except Problem β}
    (later : ∀ a, Agrees (next a) (nextStrict a)) :
    Agrees (lenient >>= next) (strict >>= nextStrict) := by
  cases lenient with
  | done a =>
    cases here
    exact later a
  | report problem rest =>
    cases here
    rfl

theorem agrees_notes (problems : List Problem) : Agrees (notes problems) (notes problems) := by
  induction problems with
  | nil => exact agrees_pure ()
  | cons problem others ih => exact agrees_bind (agrees_note problem) fun _ => ih

theorem agrees_readText (line : Nat) (text : List Char) :
    Agrees (readText line text) (readText line text) :=
  agrees_bind (agrees_notes _) fun _ => agrees_pure _

theorem agrees_noteWidth (heading : Heading) : Agrees (noteWidth heading) (noteWidth heading) := by
  unfold noteWidth
  split
  · exact agrees_pure ()
  · exact agrees_note _

mutual

theorem agrees_readVerse : (verse : Verse) → Agrees (readVerse verse) (readVerse verse)
  | .line entry => by
    simp only [readVerse]
    exact agrees_bind (agrees_readText _ _) fun _ => agrees_pure _
  | .block lines => by
    simp only [readVerse]
    exact agrees_bind (agrees_readVerses lines) fun _ => agrees_pure _

theorem agrees_readVerses : (verses : List Verse) → Agrees (readVerses verses) (readVerses verses)
  | [] => agrees_pure _
  | verse :: verses => by
    simp only [readVerses]
    exact agrees_bind (agrees_readVerse verse) fun _ =>
      agrees_bind (agrees_readVerses verses) fun _ => agrees_pure _

end

theorem agrees_readParagraphText (paragraph : Paragraph) :
    Agrees (readParagraphText paragraph) (readParagraphText paragraph) := by
  unfold readParagraphText
  split
  · exact agrees_pure _
  · exact agrees_bind (agrees_readText _ _) fun _ => agrees_pure _

theorem agrees_readLiteral (announced : Announced) :
    Agrees (readLiteral announced) (readLiteral announced) := by
  cases announced with
  | nothing => exact agrees_pure _
  | block text => exact agrees_pure _
  | missing line => exact agrees_bind (agrees_note _) fun _ => agrees_pure _

theorem agrees_readParagraph (paragraph : Paragraph) :
    Agrees (readParagraph paragraph) (readParagraph paragraph) :=
  agrees_bind (agrees_notes _) fun _ => agrees_bind (agrees_readParagraphText paragraph) fun _ =>
    agrees_bind (agrees_readLiteral paragraph.literal) fun _ => agrees_pure _

mutual

theorem agrees_readBlock : (block : Block) → Agrees (readBlock block) (readBlock block)
  | .stray heading => by
    simp only [readBlock]
    refine agrees_bind (agrees_noteWidth heading) fun _ => ?_
    exact agrees_bind (agrees_note _) fun _ => agrees_pure _
  | .quote body => by
    simp only [readBlock]
    exact agrees_bind (agrees_readBlocks body) fun _ => agrees_pure _
  | .transition => agrees_pure _
  | .list marker items => by
    simp only [readBlock]
    exact agrees_bind (agrees_readBlocks items) fun _ => agrees_pure _
  | .item body => by
    simp only [readBlock]
    exact agrees_bind (agrees_readBlocks body) fun _ => agrees_pure _
  | .lineBlock lines => by
    simp only [readBlock]
    exact agrees_bind (agrees_readVerses lines) fun _ => agrees_pure _
  | .definitionList items => by
    simp only [readBlock]
    exact agrees_bind (agrees_readBlocks items) fun _ => agrees_pure _
  | .definition term body => by
    simp only [readBlock]
    exact agrees_bind (agrees_readText _ _) fun _ =>
      agrees_bind (agrees_readBlocks body) fun _ => agrees_pure _
  | .paragraph paragraph => by
    simp only [readBlock]
    exact agrees_readParagraph paragraph

theorem agrees_readBlocks : (blocks : List Block) → Agrees (readBlocks blocks) (readBlocks blocks)
  | [] => agrees_pure _
  | block :: blocks => by
    simp only [readBlocks]
    exact agrees_bind (agrees_readBlock block) fun _ =>
      agrees_bind (agrees_readBlocks blocks) fun _ => agrees_pure _

end

/-- Both runs see the same styles and the same last depth, since no problem changes them. -/
theorem agrees_readParts (styles : List Style) (last : UInt32) (parts : List Part) :
    Agrees (readParts styles last parts) (readParts styles last parts) := by
  induction parts generalizing styles last with
  | nil => exact agrees_pure _
  | cons part parts ih =>
    cases part with
    | block block =>
      refine agrees_bind (agrees_readBlock block) fun _ => ?_
      exact agrees_bind (ih styles last) fun _ => agrees_pure _
    | heading heading =>
      refine agrees_bind (agrees_noteWidth heading) fun _ => ?_
      refine agrees_bind (agrees_notes _) fun _ => ?_
      exact agrees_bind (agrees_readText _ _) fun _ => agrees_bind (ih _ _) fun _ => agrees_pure _

theorem agrees_read (tabWidth : Nat) (source : String) :
    Agrees (read tabWidth source) (read tabWidth source) :=
  agrees_bind (agrees_readParts [] 0 _) fun _ => agrees_pure _

end RstPress.Document

namespace RstPress
open Document RstPress.Tree

/-- The strict run gives the lenient value, or the first problem of the lenient run. -/
theorem parse_of_strict (options : ReadOptions) (strict : options.strict = true) (source : String) :
    parse options source =
      match problems options source with
      | [] => parse { options with strict := false } source
      | first :: _ => .error (.markup first) := by
  have agrees := agrees_read options.tabWidth source
  rw [Agrees, Reading.strict_eq] at agrees
  simp only [parse, strict, ↓reduceIte, problems, ← agrees]
  cases (Document.read options.tabWidth source : Reading Node).problems <;> rfl

/-- Lenient reading always gives a document. Strict reading gives the same one exactly if lenient
reading has nothing to report, and else fails with the first problem reported. Nothing else goes
wrong. -/
theorem parse_strict_iff_no_problems (options : ReadOptions) (source : String) :
    ∃ children,
      parse { options with strict := false } source = .ok (.composite .document children) ∧
      ((∃ tree, parse { options with strict := true } source = .ok tree) ↔
        problems options source = []) ∧
      (problems options source = [] →
        parse { options with strict := true } source = .ok (.composite .document children)) ∧
      (∀ first others, problems options source = first :: others →
        parse { options with strict := true } source = .error (.markup first)) ∧
      ∀ error, parse options source = .error error → ∃ problem, error = .markup problem := by
  have lenient := parse_of_lenient { options with strict := false } rfl source
  have strict := parse_of_strict { options with strict := true } rfl source
  change _ = match problems options source with
    | [] => parse { options with strict := false } source
    | first :: _ => .error (.markup first) at strict
  refine ⟨_, lenient, ⟨fun ⟨tree, given⟩ => ?_, fun quiet => ?_⟩, fun quiet => ?_,
    fun first others reported => ?_, fun error failed => ?_⟩
  · cases found : problems options source with
    | nil => rfl
    | cons first others =>
      rw [strict, found] at given
      cases given
  · rw [strict, quiet]
    exact ⟨_, lenient⟩
  · rw [strict, quiet]
    exact lenient
  · rw [strict, reported]
  · cases mode : options.strict with
    | false =>
      rw [parse_of_lenient options mode] at failed
      cases failed
    | true =>
      rw [parse_of_strict options mode] at failed
      cases found : problems options source with
      | nil =>
        rw [found] at failed
        exact absurd (lenient.symm.trans failed) (by simp)
      | cons first others =>
        rw [found] at failed
        cases failed
        exact ⟨first, rfl⟩

end RstPress
