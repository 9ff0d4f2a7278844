import Mathlib.Data.Finset.Card
import Mathlib.Data.List.Chain
import Mathlib.Data.List.TakeWhile
import RstPress.Proofs.Strictness

/-!
Line blocks are nested by indentation alone. In a block the least indented entries are its lines, and
what stands deeper between two of them is one block of its own, however the indentations go up and
down. There is only one way to nest entries like this, and it is the one that is taken.
-/

namespace RstPress.Layout

mutual

/-- The entries of a verse, from top to bottom. -/
def Verse.members : Verse → List Entry
  | .line entry => [entry]
  | .block lines => membersIn lines

def membersIn : List Verse → List Entry
  | [] => []
  | verse :: verses => verse.members ++ membersIn verses

end

def Verse.isBlock : Verse → Bool
  | .line _ => false
  | .block _ => true

/-- What stands directly in a block: lines that keep to the margin, and blocks of deeper entries, no
two of them side by side. So each of these blocks is a whole run of deeper entries. -/
structure IsLayer (margin : Nat) (verses : List Verse) : Prop where
  direct : ∀ entry, .line entry ∈ verses → entry.indent = margin
  deeper : ∀ inner, .block inner ∈ verses → ∀ entry ∈ membersIn inner, margin < entry.indent
  apart : verses.IsChain fun above below => above.isBlock → below.isBlock = false

/-- Each block is such a layer, and so are the blocks in it. Its margin is the least indentation of its
entries, since at least one of them is a line. -/
inductive IsNested : List Verse → Prop where
  | block {margin : Nat} {verses : List Verse} {entry : Entry} (member : .line entry ∈ verses)
      (layer : IsLayer margin verses) (below : ∀ inner, .block inner ∈ verses → IsNested inner) :
      IsNested verses

theorem mem_membersIn {entry : Entry} {verses : List Verse} :
    entry ∈ membersIn verses ↔
      .line entry ∈ verses ∨ ∃ inner, .block inner ∈ verses ∧ entry ∈ membersIn inner := by
  induction verses with
  | nil => simp [membersIn]
  | cons verse verses ih =>
    rw [membersIn, List.mem_append, ih]
    cases verse with
    | line other => simp [Verse.members, or_assoc]
    | block inner => simp [Verse.members, or_left_comm]

theorem membersIn_nest (base : Nat) (entries : List Entry) : membersIn (nest base entries) = entries := by
  fun_induction nest base entries with
  | case1 => rfl
  | case2 base entry others flat ih => rw [membersIn, Verse.members, ih, List.singleton_append]
  | case3 base entry others deep run inner after =>
    rw [membersIn, Verse.members, inner, after, List.cons_append, List.takeWhile_append_dropWhile]

theorem leastIndent_le {entry : Entry} {entries : List Entry} (member : entry ∈ entries) :
    leastIndent entries ≤ entry.indent := by
  have listed : entry.indent ∈ entries.map Entry.indent := List.mem_map_of_mem member
  unfold leastIndent
  cases least : (entries.map Entry.indent).min? with
  | none => simp [List.min?_eq_none_iff.mp least] at listed
  | some indent => exact (List.min?_eq_some_iff.mp least).2 _ listed

theorem exists_indent_eq_leastIndent {entries : List Entry} (filled : entries ≠ []) :
    ∃ entry ∈ entries, entry.indent = leastIndent entries := by
  unfold leastIndent
  cases least : (entries.map Entry.indent).min? with
  | none => simp [filled] at least
  | some indent => exact List.mem_map.mp (List.min?_mem least)

theorem lt_indent_of_mem_run {base : Nat} {first : Entry} {others : List Entry}
    (deep : ¬ first.indent ≤ base) :
    ∀ entry ∈ first :: others.takeWhile (fun e => base < e.indent), base < entry.indent := by
  intro entry member
  rcases List.mem_cons.mp member with rfl | later
  · exact Nat.lt_of_not_le deep
  · simpa using List.mem_takeWhile_imp later

/-- The entries that are no deeper than the base are lines. -/
theorem line_mem_nest {base : Nat} {entry : Entry} {entries : List Entry} (member : entry ∈ entries)
    (flat : entry.indent ≤ base) : .line entry ∈ nest base entries := by
  fun_induction nest base entries with
  | case1 => cases member
  | case2 base first others low ih =>
    rcases List.mem_cons.mp member with rfl | later
    · exact List.mem_cons_self
    · exact List.mem_cons_of_mem _ (ih later flat)
  | case3 base first others deep run inner after =>
    have outside : entry ∉ run := fun found =>
      Nat.not_lt.mpr flat (lt_indent_of_mem_run deep entry found)
    have parts : run ++ others.dropWhile (fun e => base < e.indent) = first :: others := by
      rw [List.cons_append, List.takeWhile_append_dropWhile]
    rw [← parts, List.mem_append] at member
    exact List.mem_cons_of_mem _ (after (member.resolve_left outside) flat)

/-- Behind a run of deeper entries no block begins. -/
theorem isBlock_head_nest {base : Nat} {entries : List Entry} {verse : Verse}
    (head : verse ∈ (nest base (entries.dropWhile fun e => base < e.indent)).head?) :
    verse.isBlock = false := by
  cases rest : entries.dropWhile fun e => base < e.indent with
  | nil => simp [rest, nest] at head
  | cons first others =>
    have flat : first.indent ≤ base := by
      have stops := List.head?_dropWhile_not (fun e : Entry => decide (base < e.indent)) entries
      simpa [rest] using stops
    rw [rest, nest, if_pos flat, List.head?_cons, Option.mem_some_iff] at head
    rw [← head]
    rfl

theorem isLayer_nil (margin : Nat) : IsLayer margin [] := ⟨nofun, nofun, .nil⟩

/-- A verse on top of a layer. -/
theorem IsLayer.cons {margin : Nat} {verse : Verse} {verses : List Verse} (layer : IsLayer margin verses)
    (direct : ∀ entry, verse = .line entry → entry.indent = margin)
    (deeper : ∀ inner, verse = .block inner → ∀ entry ∈ membersIn inner, margin < entry.indent)
    (apart : ∀ next ∈ verses.head?, verse.isBlock → next.isBlock = false) :
    IsLayer margin (verse :: verses) := by
  refine ⟨fun entry member => ?_, fun inner member => ?_, List.isChain_cons.mpr ⟨apart, layer.apart⟩⟩
  · rcases List.mem_cons.mp member with same | later
    · exact direct entry same.symm
    · exact layer.direct entry later
  · rcases List.mem_cons.mp member with same | later
    · exact deeper inner same.symm
    · exact layer.deeper inner later

theorem IsLayer.tail {margin : Nat} {verse : Verse} {verses : List Verse}
    (layer : IsLayer margin (verse :: verses)) : IsLayer margin verses :=
  ⟨fun entry member => layer.direct entry (List.mem_cons_of_mem _ member),
    fun inner member => layer.deeper inner (List.mem_cons_of_mem _ member),
    (List.isChain_cons.mp layer.apart).2⟩

theorem isLayer_nest {base : Nat} {entries : List Entry} (least : ∀ entry ∈ entries, base ≤ entry.indent) :
    IsLayer base (nest base entries) := by
  fun_induction nest base entries with
  | case1 base => exact isLayer_nil base
  | case2 base first others flat ih =>
    have later : IsLayer base (nest base others) :=
      ih fun entry member => least entry (List.mem_cons_of_mem _ member)
    refine later.cons ?_ nofun (fun _ _ block => by cases block)
    rintro entry ⟨⟩
    exact Nat.le_antisymm flat (least first List.mem_cons_self)
  | case3 base first others deep run inner after =>
    have later : IsLayer base (nest base (others.dropWhile fun e => base < e.indent)) :=
      after fun entry member =>
        least entry (List.mem_cons_of_mem _ ((List.dropWhile_sublist _).subset member))
    refine later.cons nofun ?_ (fun next head _ => isBlock_head_nest head)
    rintro _ ⟨⟩
    rw [membersIn_nest]
    exact lt_indent_of_mem_run deep

/-- Entries that are nested from their least indentation on are nested all the way down. -/
theorem isNested_nest {base : Nat} {entries : List Entry} :
    (∀ inner, .block inner ∈ nest base entries → IsNested inner) ∧
      (base = leastIndent entries → entries ≠ [] → IsNested (nest base entries)) := by
  have whole {base : Nat} {entries : List Entry}
      (below : ∀ inner, .block inner ∈ nest base entries → IsNested inner)
      (least : base = leastIndent entries) (filled : entries ≠ []) : IsNested (nest base entries) := by
    subst least
    obtain ⟨entry, member, same⟩ := exists_indent_eq_leastIndent filled
    exact .block (line_mem_nest member (Nat.le_of_eq same))
      (isLayer_nest fun entry member => leastIndent_le member) below
  suffices below : ∀ inner, .block inner ∈ nest base entries → IsNested inner from ⟨below, whole below⟩
  fun_induction nest base entries with
  | case1 => nofun
  | case2 base first others flat ih =>
    intro inner member
    exact ih inner ((List.mem_cons.mp member).resolve_left nofun)
  | case3 base first others deep run inner after =>
    intro block member
    rcases List.mem_cons.mp member with same | later
    · cases same
      exact whole inner rfl (List.cons_ne_nil _ _)
    · exact after block later

theorem isNested_verses {entries : List Entry} (filled : entries ≠ []) : IsNested (verses entries) :=
  isNested_nest.2 rfl filled

theorem IsNested.membersIn_ne_nil {verses : List Verse} (nested : IsNested verses) : membersIn verses ≠ [] := by
  cases nested with
  | block member => exact List.ne_nil_of_mem (mem_membersIn.mpr (.inl member))

/-- The margin of a layer with a line is the least indentation of its entries. -/
theorem IsLayer.leastIndent_eq {margin : Nat} {verses : List Verse} {entry : Entry}
    (layer : IsLayer margin verses) (member : .line entry ∈ verses) :
    leastIndent (membersIn verses) = margin := by
  have shown : entry ∈ membersIn verses := mem_membersIn.mpr (.inl member)
  apply Nat.le_antisymm
  · exact layer.direct entry member ▸ leastIndent_le shown
  · obtain ⟨lowest, found, same⟩ := exists_indent_eq_leastIndent (List.ne_nil_of_mem shown)
    rw [← same]
    rcases mem_membersIn.mp found with line | ⟨inner, block, inside⟩
    · exact Nat.le_of_eq (layer.direct lowest line).symm
    · exact Nat.le_of_lt (layer.deeper inner block lowest inside)

/-- Deeper entries, up to one that is not, make up one block. -/
theorem nest_run {base : Nat} {run rest : List Entry} (filled : run ≠ [])
    (deeper : ∀ entry ∈ run, base < entry.indent) (stops : ∀ entry ∈ rest.head?, entry.indent ≤ base) :
    nest base (run ++ rest) = .block (nest (leastIndent run) run) :: nest base rest := by
  obtain ⟨first, others, rfl⟩ := List.exists_cons_of_ne_nil filled
  obtain ⟨deep, later⟩ := List.forall_mem_cons.mp deeper
  have each : ∀ entry ∈ others, decide (base < entry.indent) = true := fun entry member =>
    decide_eq_true (later entry member)
  have ends : rest.takeWhile (fun e => base < e.indent) = [] ∧
      rest.dropWhile (fun e => base < e.indent) = rest := by
    cases rest with
    | nil => exact ⟨rfl, rfl⟩
    | cons next rest =>
      have flat : ¬ base < next.indent := Nat.not_lt.mpr (stops next rfl)
      simp [flat]
  rw [List.cons_append, nest, if_neg (Nat.not_le.mpr deep)]
  simp only [List.takeWhile_append_of_pos each, List.dropWhile_append_of_pos each, ends, List.append_nil]

/-- Behind a block of a layer there is nothing, or a line. -/
theorem IsLayer.head_indent_le {margin : Nat} {inner verses : List Verse}
    (layer : IsLayer margin (.block inner :: verses)) :
    ∀ entry ∈ (membersIn verses).head?, entry.indent ≤ margin := by
  intro entry head
  cases verses with
  | nil => cases head
  | cons next verses =>
    cases next with
    | block other => cases (List.isChain_cons.mp layer.apart).1 _ rfl rfl
    | line first =>
      cases head
      exact Nat.le_of_eq (layer.tail.direct entry List.mem_cons_self)

/-- The entries of a layer are put back in their places, if those of its blocks are. -/
theorem nest_membersIn {margin : Nat} {verses : List Verse} (layer : IsLayer margin verses)
    (below : ∀ inner, .block inner ∈ verses →
      membersIn inner ≠ [] ∧ nest (leastIndent (membersIn inner)) (membersIn inner) = inner) :
    nest margin (membersIn verses) = verses := by
  induction verses with
  | nil => rw [membersIn, nest]
  | cons verse verses ih =>
    have later : nest margin (membersIn verses) = verses :=
      ih layer.tail fun inner member => below inner (List.mem_cons_of_mem _ member)
    cases verse with
    | line entry =>
      have flat : entry.indent ≤ margin := Nat.le_of_eq (layer.direct entry List.mem_cons_self)
      rw [membersIn, Verse.members, List.singleton_append, nest, if_pos flat, later]
    | block inner =>
      obtain ⟨filled, same⟩ := below inner List.mem_cons_self
      rw [membersIn, Verse.members,
        nest_run filled (layer.deeper inner List.mem_cons_self) layer.head_indent_le, same, later]

/-- Nested verses are what their entries are nested to. -/
theorem verses_membersIn {lines : List Verse} (nested : IsNested lines) : verses (membersIn lines) = lines := by
  induction nested with
  | block member layer below ih =>
    rw [verses, layer.leastIndent_eq member]
    exact nest_membersIn layer fun inner found => ⟨(below inner found).membersIn_ne_nil, ih inner found⟩

mutual

/-- How many blocks stand around the innermost lines. -/
def Verse.height : Verse → Nat
  | .line _ => 0
  | .block lines => heightIn lines + 1

def heightIn : List Verse → Nat
  | [] => 0
  | verse :: verses => max verse.height (heightIn verses)

end

theorem heightIn_lt {bound : Nat} (positive : 0 < bound) {verses : List Verse}
    (below : ∀ inner, .block inner ∈ verses → heightIn inner + 1 < bound) : heightIn verses < bound := by
  induction verses with
  | nil => exact positive
  | cons verse verses ih =>
    have later := ih fun inner member => below inner (List.mem_cons_of_mem _ member)
    rw [heightIn]
    cases verse with
    | line entry => exact Nat.max_lt.mpr ⟨positive, later⟩
    | block inner => exact Nat.max_lt.mpr ⟨below inner List.mem_cons_self, later⟩

def indents (entries : List Entry) : Finset Nat := (entries.map Entry.indent).toFinset

theorem mem_indents {indent : Nat} {entries : List Entry} :
    indent ∈ indents entries ↔ ∃ entry ∈ entries, entry.indent = indent := by
  rw [indents, List.mem_toFinset, List.mem_map]

/-- Each block leaves behind the indentation of its lines, so blocks do not nest as deep as there are
different indentations. -/
theorem heightIn_lt_card {lines : List Verse} (nested : IsNested lines) :
    heightIn lines < (indents (membersIn lines)).card := by
  induction nested with
  | @block margin verses entry member layer below ih =>
    have marginal : margin ∈ indents (membersIn verses) :=
      mem_indents.mpr ⟨entry, mem_membersIn.mpr (.inl member), layer.direct entry member⟩
    refine heightIn_lt (Finset.card_pos.mpr ⟨margin, marginal⟩) fun inner block => ?_
    have fewer : indents (membersIn inner) ⊂ indents (membersIn verses) := by
      refine Finset.ssubset_iff_of_subset (fun indent found => ?_) |>.mpr ⟨margin, marginal, fun found => ?_⟩
      · obtain ⟨deep, inside, same⟩ := mem_indents.mp found
        exact mem_indents.mpr ⟨deep, mem_membersIn.mpr (.inr ⟨inner, block, inside⟩), same⟩
      · obtain ⟨deep, inside, same⟩ := mem_indents.mp found
        exact absurd same (Nat.ne_of_gt (layer.deeper inner block deep inside))
    have smaller := Finset.card_lt_card fewer
    have inside := ih inner block
    omega

end RstPress.Layout

namespace RstPress.Document
open Layout RstPress.Tree

mutual

/-- A line shows the inline markup of its entry, and a block what stands in it. -/
def verseNode : Verse → Node
  | .line entry => .composite .line (Inline.nodes entry.text)
  | .block lines => .composite .lineBlock (verseNodes lines)

def verseNodes : List Verse → List Node
  | [] => []
  | verse :: verses => verseNode verse :: verseNodes verses

end

/-- What is wrong with the text of an entry, by the line on which the entry begins. -/
def entryProblems (entry : Entry) : List Problem :=
  (readText entry.number entry.text : Reading (List Node)).problems

mutual

theorem readVerse_eq : (verse : Verse) →
    (readVerse verse : Reading Node).value = verseNode verse ∧
      (readVerse verse : Reading Node).problems = verse.members.flatMap entryProblems
  | .line entry => by
    constructor
    · simp only [readVerse, readText, Reading.value_bind, Reading.value_pure, verseNode, Inline.nodes]
    · simp only [readVerse, Reading.problems_bind, Reading.problems_pure, List.append_nil, Verse.members,
        List.flatMap_singleton, entryProblems]
  | .block lines => by
    obtain ⟨value, problems⟩ := readVerses_eq lines
    constructor
    · simp only [readVerse, Reading.value_bind, Reading.value_pure, value, verseNode]
    · simp only [readVerse, Reading.problems_bind, Reading.problems_pure, List.append_nil, problems,
        Verse.members]

theorem readVerses_eq : (verses : List Verse) →
    (readVerses verses : Reading (List Node)).value = verseNodes verses ∧
      (readVerses verses : Reading (List Node)).problems = (membersIn verses).flatMap entryProblems
  | [] => ⟨rfl, rfl⟩
  | verse :: verses => by
    obtain ⟨value, problems⟩ := readVerse_eq verse
    obtain ⟨values, others⟩ := readVerses_eq verses
    constructor
    · simp only [readVerses, Reading.value_bind, Reading.value_pure, value, values, verseNodes]
    · simp only [readVerses, Reading.problems_bind, Reading.problems_pure, List.append_nil, problems, others,
        membersIn, List.flatMap_append]

end

/-- However the indentations of some entries go up and down, the entries are nested by indentation, each
in its place, and in the only way in which this can be done. Blocks do not nest as deep as there are
different indentations. The lines are read with their inline markup; strict reading gives the same
unless an entry has a problem, and the first of these is the one that it ends with. -/
theorem verses_nest_by_indentation {entries : List Entry} (filled : entries ≠ []) :
    IsNested (verses entries) ∧ membersIn (verses entries) = entries ∧
      (∀ lines, IsNested lines → membersIn lines = entries → lines = verses entries) ∧
      heightIn (verses entries) < (indents entries).card ∧
      (readVerses (verses entries) : Reading (List Node)).value = verseNodes (verses entries) ∧
      (readVerses (verses entries) : Except Problem (List Node)) =
        match entries.flatMap entryProblems with
        | [] => .ok (verseNodes (verses entries))
        | first :: _ => .error first := by
  have nested := isNested_verses filled
  have members : membersIn (verses entries) = entries := membersIn_nest _ entries
  have height := heightIn_lt_card nested
  obtain ⟨value, problems⟩ := readVerses_eq (verses entries)
  have strict := agrees_readVerses (verses entries)
  rw [members] at height problems
  rw [Agrees, Reading.strict_eq, problems, value] at strict
  refine ⟨nested, members, fun lines other same => ?_, height, value, strict.symm⟩
  rw [← same, verses_membersIn other]

/-- Entries that go up and down, the first of them deeper than others. -/
def zigzag : List Entry :=
  [⟨2, ['a'], 1⟩, ⟨5, ['b'], 2⟩, ⟨3, ['*', 'c'], 3⟩, ⟨0, ['d'], 4⟩, ⟨0, [], 5⟩, ⟨1, ['e'], 6⟩]

def zigzagVerses : List Verse :=
  [.block [.line ⟨2, ['a'], 1⟩, .block [.block [.line ⟨5, ['b'], 2⟩], .line ⟨3, ['*', 'c'], 3⟩]],
    .line ⟨0, ['d'], 4⟩, .line ⟨0, [], 5⟩, .block [.line ⟨1, ['e'], 6⟩]]

theorem verses_nest_by_indentation_zigzag :
    zigzag ≠ [] ∧ verses zigzag = zigzagVerses ∧ IsNested zigzagVerses ∧ membersIn zigzagVerses = zigzag ∧
      heightIn zigzagVerses < (indents zigzag).card ∧
      (readVerses zigzagVerses : Reading (List Node)).value = verseNodes zigzagVerses ∧
      (readVerses zigzagVerses : Except Problem (List Node)) = .error ⟨3, .unclosed .emphasis⟩ := by
  have filled : zigzag ≠ [] := by decide
  have same : verses zigzag = zigzagVerses := by
    simp [verses, zigzag, zigzagVerses, nest, leastIndent]
  have found : zigzag.flatMap entryProblems = [⟨3, .unclosed .emphasis⟩] := by decide +kernel
  obtain ⟨nested, members, _, height, value, strict⟩ := verses_nest_by_indentation filled
  rw [found] at strict
  exact ⟨filled, same, same ▸ nested, same ▸ members, same ▸ height, same ▸ value, same ▸ strict⟩

end RstPress.Document
