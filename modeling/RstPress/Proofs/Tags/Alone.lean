import RstPress.Press
import RstPress.Proofs.Grammar.Document
import RstPress.Proofs.Tags.Strokes

/-!
Which tags have a line for themselves. Behind every tag of a block stands a line feed. In front of it
stands its indentation alone, unless something without a line feed ends directly in front of it: inline
markup in front of a reference, which is a block, or a transition, which is none.
-/

namespace RstPress.Html
open RstPress.Tree

def referenceElement : Element := fallback "reference"

/-- The tag of a block that does not begin a line, and what ends in front of it: a reference behind inline
markup, or the next block or the end of the section behind a transition. -/
inductive Abuts : Stroke → Stroke → Prop where
  | reference {element : Element} (flow : element.flow = .inline) (inner outer : Nat) :
    Abuts (.closing element inner) (.opening referenceElement outer)
  | transition (inner : Nat) (element : Element) (outer : Nat) :
    Abuts (.closing transitionElement inner) (.opening element outer)
  | ending (inner outer : Nat) : Abuts (.closing transitionElement inner) (.closing sectionElement outer)

/-- Two strokes of a document that stand side by side: a line feed follows a tag of a block, and also
precedes it but for the exceptions. -/
structure Joins (previous next : Stroke) : Prop where
  ends : previous.isBlockTag → next = .feed
  begins : next.isBlockTag → previous = .feed ∨ Abuts previous next

theorem joins_feed (previous : Stroke) : Joins previous .feed := ⟨fun _ => rfl, nofun⟩

theorem feed_joins (next : Stroke) : Joins .feed next := ⟨nofun, fun _ => .inl rfl⟩

theorem joins_of_inline {previous next : Stroke} (plain : previous.isBlockTag = false)
    (inline : next.isBlockTag = false) : Joins previous next :=
  ⟨fun tag => absurd (plain.symm.trans tag) (by decide), fun tag => absurd (inline.symm.trans tag) (by decide)⟩

/-- The strokes of inline nodes begin and end like this. -/
def BeginsInline (stroke : Stroke) : Prop :=
  ∃ element level, stroke = .opening element level ∧ (element.flow = .inline ∨ element = referenceElement)

def EndsInline (stroke : Stroke) : Prop :=
  stroke = .feed ∨ ∃ element level, stroke = .closing element level ∧ element.flow = .inline

/-- The strokes of body nodes and sections begin and end like this. -/
def BeginsBody (stroke : Stroke) : Prop :=
  ∃ element level, stroke = .opening element level ∧ (element.flow = .inline → element = transitionElement)

def EndsBody (stroke : Stroke) : Prop := stroke = .feed ∨ ∃ level, stroke = .closing transitionElement level

theorem joins_inline {previous next : Stroke} (ends : EndsInline previous) (begins : BeginsInline next) :
    Joins previous next := by
  obtain rfl | ⟨element, inner, rfl, flow⟩ := ends
  · exact feed_joins next
  · obtain ⟨other, outer, rfl, inline | rfl⟩ := begins
    · exact joins_of_inline (by simp [Stroke.isBlockTag, flow]) (by simp [Stroke.isBlockTag, inline])
    · exact ⟨fun tag => by simp [Stroke.isBlockTag, flow] at tag, fun _ => .inr (.reference flow inner outer)⟩

theorem joins_body {previous next : Stroke} (ends : EndsBody previous) (begins : BeginsBody next) :
    Joins previous next := by
  obtain rfl | ⟨inner, rfl⟩ := ends
  · exact feed_joins next
  · obtain ⟨other, outer, rfl, _⟩ := begins
    exact ⟨nofun, fun _ => .inr (.transition inner other outer)⟩

/-- Strokes that are joined as in a document, and how they begin and end. -/
structure Runs (begins ends : Stroke → Prop) (run : List Stroke) : Prop where
  chain : run.IsChain Joins
  head : ∀ stroke ∈ run.head?, begins stroke
  last : ∀ stroke ∈ run.getLast?, ends stroke

section runs
variable {begins ends : Stroke → Prop}

theorem runs_nil : Runs begins ends [] := ⟨.nil, nofun, nofun⟩

theorem Runs.append (joined : ∀ previous next, ends previous → begins next → Joins previous next)
    {front back : List Stroke} (here : Runs begins ends front) (later : Runs begins ends back) :
    Runs begins ends (front ++ back) := by
  refine ⟨List.isChain_append.mpr ⟨here.chain, later.chain, ?_⟩, fun stroke first => ?_, fun stroke final => ?_⟩
  · exact fun previous inside next behind =>
      joined previous next (here.last previous inside) (later.head next behind)
  · rw [List.head?_append] at first
    cases same : front.head? with
    | none => exact later.head stroke (by rwa [same, Option.none_or] at first)
    | some other =>
      rw [same, Option.some_or] at first
      exact here.head stroke (same.trans first)
  · rw [List.getLast?_append] at final
    cases same : back.getLast? with
    | none => exact here.last stroke (by rwa [same, Option.none_or] at final)
    | some other =>
      rw [same, Option.some_or] at final
      exact later.last stroke (same.trans final)

/-- Nodes one directly after the other. -/
theorem runs_strokesAll (joined : ∀ previous next, ends previous → begins next → Joins previous next)
    (level : Nat) {nodes : List Node} (each : ∀ node ∈ nodes, Runs begins ends (strokes level node)) :
    Runs begins ends (strokesAll level nodes) := by
  induction nodes with
  | nil => exact runs_nil
  | cons node nodes ih =>
    obtain ⟨here, later⟩ := List.forall_mem_cons.mp each
    exact here.append joined (ih later)

/-- Nodes with line feeds between them. -/
theorem runs_strokesSeparated (level : Nat) {nodes : List Node}
    (each : ∀ node ∈ nodes, Runs begins ends (strokes level node)) :
    (strokesSeparated level nodes).IsChain Joins ∧
      ∀ stroke ∈ (strokesSeparated level nodes).getLast?, ends stroke ∨ stroke = .feed := by
  induction nodes with
  | nil => exact ⟨.nil, nofun⟩
  | cons node nodes ih =>
    obtain ⟨here, later⟩ := List.forall_mem_cons.mp each
    obtain ⟨chain, last⟩ := ih later
    rw [strokesSeparated]
    cases nodes with
    | nil =>
      rw [List.isEmpty_nil, if_pos rfl, strokesSeparated, List.append_nil, List.append_nil]
      exact ⟨here.chain, fun stroke final => .inl (here.last stroke final)⟩
    | cons other others =>
      rw [List.isEmpty_cons, if_neg Bool.false_ne_true, List.singleton_append]
      refine ⟨List.isChain_append.mpr ⟨here.chain, ?_, ?_⟩, fun stroke final => ?_⟩
      · exact List.isChain_cons.mpr ⟨fun next _ => feed_joins next, chain⟩
      · rintro previous _ next first
        cases first
        exact joins_feed previous
      · rw [List.getLast?_append, List.getLast?_cons] at final
        cases same : (strokesSeparated level (other :: others)).getLast? with
        | none =>
          rw [same] at final
          cases final
          exact .inr rfl
        | some found =>
          rw [same] at final
          cases final
          exact last found same

end runs

/-- A block begins with its tag and ends with a line feed, and nothing in it stands directly at its tags. -/
theorem runs_around_block (element : Element) (flow : element.flow = .block) (level : Nat)
    {inner : List Stroke} (chain : inner.IsChain Joins) {begins : Stroke → Prop}
    (first : begins (.opening element level)) {ends : Stroke → Prop} (last : ends .feed) :
    Runs begins ends (element.around level inner) := by
  have closing : [Stroke.feed, .closing element level, .feed].IsChain Joins :=
    List.isChain_cons_cons.mpr ⟨feed_joins _, List.isChain_cons_cons.mpr ⟨joins_feed _, .singleton _⟩⟩
  have whole : (inner ++ [Stroke.feed, .closing element level, .feed]).IsChain Joins := by
    refine List.isChain_append.mpr ⟨chain, closing, fun previous _ next head => ?_⟩
    cases head
    exact joins_feed previous
  rw [Element.around, flow]
  refine ⟨List.isChain_cons_cons.mpr ⟨joins_feed _, List.isChain_cons.mpr ⟨fun next _ => feed_joins next, whole⟩⟩,
    fun stroke head => ?_, fun stroke final => ?_⟩
  · cases head
    exact first
  · rw [← List.cons_append, ← List.cons_append, List.getLast?_append] at final
    cases final
    exact last

/-- An inline element around a single text. -/
theorem runs_marked (element : Element) (flow : element.flow = .inline) (level : Nat) (value : String) :
    Runs BeginsInline EndsInline (element.around level (strokesAll (level + 1) [.text value])) := by
  have own (first : Bool) : (if first then Stroke.opening element level else .closing element level).isBlockTag =
      false := by
    cases first <;> simp [Stroke.isBlockTag, flow]
  rw [Element.around, flow]
  refine ⟨?_, fun stroke head => ?_, fun stroke final => ?_⟩
  · exact .cons_cons (joins_of_inline (own true) rfl) (.cons_cons (joins_of_inline rfl rfl)
      (.cons_cons (joins_of_inline rfl rfl) (.cons_cons (joins_of_inline rfl (own false)) (.singleton _))))
  · cases head
    exact ⟨element, level, rfl, .inl flow⟩
  · cases final
    exact .inr ⟨element, level, rfl, flow⟩

theorem runs_text (level : Nat) (value : String) :
    Runs BeginsInline EndsInline (strokes level (.text value)) := by
  refine ⟨?_, fun stroke head => ?_, fun stroke final => ?_⟩
  · exact .cons_cons (joins_of_inline rfl rfl) (.cons_cons (joins_of_inline rfl rfl) (.singleton _))
  · cases head
    exact ⟨textElement, level, rfl, .inl rfl⟩
  · cases final
    exact .inr ⟨textElement, level, rfl, rfl⟩

theorem isChain_text (level : Nat) (value : String) :
    (strokesAll level [.text value]).IsChain Joins :=
  (runs_strokesAll (fun _ _ => joins_inline) level (List.forall_mem_singleton.mpr (runs_text level value))).chain

theorem runs_of_isInline {node : Node} (inline : Inline.IsInline node) (level : Nat) :
    Runs BeginsInline EndsInline (strokes level node) := by
  cases inline with
  | text _ => exact runs_text level _
  | marked marked _ =>
    cases marked with
    | emphasis => exact runs_marked (elementOf .emphasis) rfl level _
    | strong => exact runs_marked (elementOf .strong) rfl level _
    | literal => exact runs_marked (elementOf .literal) rfl level _
    | interpreted role => exact runs_marked (interpretedElement role) rfl level _
    | reference =>
      exact runs_around_block referenceElement rfl level (isChain_text (level + 1) _)
        ⟨_, level, rfl, .inr rfl⟩ (.inl rfl)

theorem isChain_inline {words : List Node} (inline : ∀ node ∈ words, Inline.IsInline node) (level : Nat) :
    (strokesAll level words).IsChain Joins :=
  (runs_strokesAll (fun _ _ => joins_inline) level fun node member =>
    runs_of_isInline (inline node member) level).chain

/-- A block among blocks. -/
theorem runs_composite {kind : Kind} (flow : (elementOf kind).flow = .block) (level : Nat)
    {children : List Node} (chain : (strokesAll (level + 1) children).IsChain Joins) :
    Runs BeginsBody EndsBody (strokes level (.composite kind children)) :=
  runs_around_block _ flow level chain ⟨_, level, rfl, fun inline => by rw [flow] at inline; cases inline⟩ (.inl rfl)

theorem runs_unknown {kind : UnknownKind} (level : Nat) {children : List Node}
    (chain : (strokesAll (level + 1) children).IsChain Joins) :
    Runs BeginsBody EndsBody (strokes level (.unknown kind children)) :=
  runs_around_block (fallback kind.name) rfl level chain ⟨_, level, rfl, nofun⟩ (.inl rfl)

theorem isChain_body {children : List Node} {level : Nat}
    (each : ∀ node ∈ children, Runs BeginsBody EndsBody (strokes level node)) :
    (strokesAll level children).IsChain Joins :=
  (runs_strokesAll (fun _ _ => joins_body) level each).chain

theorem runs_of_isVerse {node : Node} (verse : Grammar.IsVerse node) (level : Nat) :
    Runs BeginsBody EndsBody (strokes level node) := by
  induction verse generalizing level with
  | line inline => exact runs_composite rfl level (isChain_inline inline (level + 1))
  | block filled inner ih =>
    exact runs_composite rfl level (isChain_body fun node member => ih node member (level + 1))

theorem flow_listKind (marker : Layout.Marker) : (elementOf (Document.listKind marker)).flow = .block := by
  cases marker <;> rfl

theorem runs_of_isBody {node : Node} (body : Grammar.IsBody node) (level : Nat) :
    Runs BeginsBody EndsBody (strokes level node) := by
  induction body generalizing level with
  | transition =>
    refine ⟨?_, fun stroke head => ?_, fun stroke final => ?_⟩
    · exact .cons_cons (joins_of_inline rfl rfl) (.cons_cons (joins_of_inline rfl rfl) (.singleton _))
    · cases head
      exact ⟨transitionElement, level, rfl, fun _ => rfl⟩
    · cases final
      exact .inr ⟨level, rfl⟩
  | paragraph whole => exact runs_composite rfl level (isChain_inline whole.inline (level + 1))
  | literalBlock text => exact runs_composite rfl level (isChain_text (level + 1) _)
  | list marker filled inner ih =>
    refine runs_composite (flow_listKind marker) level (isChain_body (List.forall_mem_map.mpr ?_))
    intro body member
    exact runs_composite rfl (level + 1)
      (isChain_body fun node inside => ih body member node inside (level + 1 + 1))
  | definitionList filled terms inner ih =>
    refine runs_composite rfl level (isChain_body (List.forall_mem_map.mpr ?_))
    intro item member
    refine runs_unknown (level + 1) (isChain_body (List.forall_mem_cons.mpr
      ⟨?_, List.forall_mem_singleton.mpr ?_⟩))
    · exact runs_unknown (level + 2) (isChain_inline (terms item member).inline (level + 3))
    · exact runs_unknown (level + 2)
        (isChain_body fun node inside => ih item member node inside (level + 3))
  | lineBlock filled inner =>
    exact runs_composite rfl level (isChain_body fun node member => runs_of_isVerse (inner node member) (level + 1))
  | blockQuote inner ih =>
    exact runs_composite rfl level (isChain_body fun node member => ih node member (level + 1))

/-- A section has line feeds between the blocks of its body, but none behind the last one. -/
theorem runs_titled (depth : UInt32) {title body : List Node} (level : Nat)
    (phrase : ∀ node ∈ title, Inline.IsInline node)
    (each : ∀ node ∈ body, Runs BeginsBody EndsBody (strokes (level + 1) node)) :
    Runs BeginsBody EndsBody (strokes level (.titled depth title body)) := by
  have heading : Runs (fun _ => True) (· = .feed)
      ((titleElement depth).around (level + 1) (strokesAll (level + 2) title)) :=
    runs_around_block (titleElement depth) rfl (level + 1) (isChain_inline phrase (level + 2)) trivial rfl
  obtain ⟨chain, last⟩ := runs_strokesSeparated (level + 1) each
  have closing : [Stroke.closing sectionElement level, .feed].IsChain Joins :=
    .cons_cons (joins_feed _) (.singleton _)
  have behind : (strokesSeparated (level + 1) body ++
      [Stroke.closing sectionElement level, .feed]).IsChain Joins := by
    refine List.isChain_append.mpr ⟨chain, closing, fun previous final next head => ?_⟩
    cases head
    obtain (rfl | ⟨inner, rfl⟩) | rfl := last previous final
    · exact feed_joins _
    · exact ⟨nofun, fun _ => .inr (.ending inner level)⟩
    · exact feed_joins _
  have whole : ((titleElement depth).around (level + 1) (strokesAll (level + 2) title) ++
      (strokesSeparated (level + 1) body ++
        [Stroke.closing sectionElement level, .feed])).IsChain Joins := by
    refine List.isChain_append.mpr ⟨heading.chain, behind, fun previous final next _ => ?_⟩
    rw [heading.last previous final]
    exact feed_joins next
  refine ⟨.cons_cons (joins_feed _) (List.isChain_cons.mpr ⟨fun next _ => feed_joins next, whole⟩),
    fun stroke head => ?_, fun stroke final => ?_⟩
  · cases head
    exact ⟨sectionElement, level, rfl, nofun⟩
  · rw [strokes, ← List.append_assoc, ← List.cons_append, ← List.cons_append, List.getLast?_append] at final
    cases final
    exact .inl rfl

theorem runs_of_isSection {node : Node} (titled : Grammar.IsSection node) (level : Nat) :
    Runs BeginsBody EndsBody (strokes level node) := by
  induction titled generalizing level with
  | titled deep phrase inner below ih =>
    exact runs_titled _ level phrase.inline (List.forall_mem_append.mpr
      ⟨fun node member => runs_of_isBody (inner node member) (level + 1),
        fun node member => ih node member (level + 1)⟩)

/-- The strokes of a document. -/
theorem runs_of_isDocument {node : Node} (document : Grammar.IsDocument node) :
    Runs (fun _ => True) (· = .feed) (strokes 0 node) := by
  cases document with
  | document inner below =>
    have inside := isChain_body (List.forall_mem_append.mpr
      ⟨fun node member => runs_of_isBody (inner node member) 1,
        fun node member => runs_of_isSection (below node member) 1⟩)
    exact runs_around_block (elementOf .document) rfl 0 inside trivial rfl

/-- What is written up to here ends a line, or it is nothing. -/
def EndsLine (front : String) : Prop := ∀ c ∈ front.toList.getLast?, c = '\n'

theorem getLast?_written (width : Nat) (front : List Stroke) {stroke : Stroke} {c : Char}
    (last : (stroke.written width).toList.getLast? = some c) :
    (written width (front ++ [stroke])).toList.getLast? = some c := by
  rw [written_append, written, written, String.append_empty, String.toList_append, List.getLast?_append, last,
    Option.some_or]

theorem getLast?_closing (width level : Nat) (element : Element) :
    ((Stroke.closing element level).written width).toList.getLast? = some '>' := by
  rw [Stroke.written, closeTag, String.toList_append, String.toList_append, List.getLast?_append,
    List.getLast?_append]
  rfl

theorem Abuts.exists_closing {previous next : Stroke} (abuts : Abuts previous next) :
    ∃ element level, previous = .closing element level := by
  cases abuts <;> exact ⟨_, _, rfl⟩

/-- What stands around a tag of a block. -/
theorem Runs.around_tag {begins : Stroke → Prop} {front back : List Stroke} {tag : Stroke}
    (runs : Runs begins (· = .feed) (front ++ tag :: back)) (own : tag.isBlockTag) (width : Nat) :
    (written width back).toList.head? = some '\n' ∧
      (EndsLine (written width front) ↔ ∀ previous ∈ front.getLast?, ¬Abuts previous tag) := by
  obtain ⟨above, below⟩ := List.isChain_split.mp runs.chain
  constructor
  · cases back with
    | nil =>
      rw [runs.last tag List.getLast?_concat] at own
      cases own
    | cons next others =>
      have feed : (Stroke.feed.written width).toList.head? = some '\n' := by simp [Stroke.written]
      rw [(List.isChain_cons_cons.mp below).1.ends own, written, String.toList_append, List.head?_append, feed,
        Option.some_or]
  · rcases List.eq_nil_or_concat front with rfl | ⟨before, previous, rfl⟩
    · exact ⟨fun _ => nofun, fun _ => nofun⟩
    · rw [List.concat_eq_append] at above ⊢
      rw [List.getLast?_concat]
      have joined : Joins previous tag :=
        (List.isChain_append.mp above).2.2 previous List.getLast?_concat tag rfl
      constructor
      · rintro ends other same abuts
        cases same
        obtain ⟨element, level, rfl⟩ := abuts.exists_closing
        cases ends '>' (getLast?_written width before (getLast?_closing width level element))
      · intro free
        rcases joined.begins own with rfl | abuts
        · intro c final
          have feed : (Stroke.feed.written width).toList.getLast? = some '\n' := by simp [Stroke.written]
          rw [getLast?_written width before feed] at final
          cases final
          rfl
        · exact absurd abuts (free previous rfl)

/-- The tags of blocks have lines for themselves, as far as they can: behind each of them stands a line
feed, and in front of it its own indentation and nothing else, if nothing without a line feed ends there. -/
theorem block_tags_have_lines (options : ReadOptions) (source : String) (width : Nat) :
    ∃ tree, parse { options with strict := false } source = .ok tree ∧
      written width (strokes 0 tree) = page width tree ∧
      ∀ front tag back, strokes 0 tree = front ++ tag :: back → tag.isBlockTag →
        (written width back).toList.head? = some '\n' ∧
        (EndsLine (written width front) ↔ ∀ previous ∈ front.getLast?, ¬Abuts previous tag) := by
  have runs := runs_of_isDocument (Grammar.isDocument_of_source options.tabWidth source)
  refine ⟨_, Document.parse_of_lenient _ rfl source, written_strokes width 0 _, ?_⟩
  intro front tag back split own
  rw [split] at runs
  exact runs.around_tag own width

/-- A paragraph between two others, the first of which a transition follows. -/
def partedTree : Node :=
  .composite .document [.composite .paragraph [.text "one\n"], .transition, .composite .paragraph [.text "two\n"]]

/-- The paragraph behind a transition begins on the line of the transition. -/
theorem paragraph_shares_line :
    parse {} "one\n\n----\n\ntwo\n" = .ok partedTree ∧
      page 2 partedTree = "<div class=\"rst-document\">\n  <p class=\"rst-paragraph\">\n" ++
        "<span class=\"rst-text\">one</span>\n  </p>\n" ++
        "<div class=\"rst-unknown rst-transition\"></div>  <p class=\"rst-paragraph\">\n" ++
        "<span class=\"rst-text\">two</span>\n  </p>\n\n</div>\n" ∧
      ∃ front back, strokes 0 partedTree = front ++ .opening (elementOf .paragraph) 1 :: back ∧
        ¬EndsLine (written 2 front) := by
  have whole : Document.sections (Document.elementsOf [] 0
      (Layout.outline (Source.lines 8 "one\n\n----\n\ntwo\n".toList))) =
      [.composite .paragraph [.text "one\n"], .transition, .composite .paragraph [.text "two\n"]] := by
    decide +kernel
  refine ⟨?_, by decide +kernel, (strokes 0 partedTree).take 13, (strokes 0 partedTree).drop 14, ?_, ?_⟩
  · rw [Document.parse_of_lenient _ rfl, whole]
    rfl
  · decide +kernel
  · intro ends
    have last : (written 2 ((strokes 0 partedTree).take 13)).toList.getLast? = some '>' := by decide +kernel
    cases ends '>' last

end RstPress.Html
