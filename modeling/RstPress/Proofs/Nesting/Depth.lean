import Mathlib.Data.List.Chain
import Mathlib.Data.List.Nodup
import RstPress.Proofs.Heading
import RstPress.Proofs.Nesting.Order
import RstPress.Proofs.Stops
import RstPress.Proofs.Strictness
import RstPress.Proofs.Text

/-!
What the depth of a section says. It is the rank of its style, and there are too few styles for the
rank to leave its 32 bits. A strict reading ends where a title skips a level, so after one that
succeeds the titles climb by one at most, and then the depth of a section is the number of sections
from the document down to it.
-/

namespace RstPress.Layout
open Text Source

def Part.heading? : Part → Option Heading
  | .heading found => some found
  | .block _ => none

/-- Every title of a document is a heading that begins at one of its lines. -/
theorem exists_isHeading_of_mem_outline (lines : List Line) :
    ∀ heading ∈ (outline lines).filterMap Part.heading?,
      ∃ part adornment after, part <:+ lines ∧ IsHeading part heading adornment after := by
  fun_induction outline lines with
  | case1 => exact fun heading member => (List.not_mem_nil member).elim
  | case2 line rest blank ih =>
    intro heading member
    obtain ⟨part, adornment, after, suffix, shaped⟩ := ih heading member
    exact ⟨part, adornment, after, suffix.trans (List.suffix_cons line rest), shaped⟩
  | case3 line rest filled heading below found ih =>
    intro other member
    rcases List.mem_cons.mp member with rfl | later
    · obtain ⟨_, adornment, shaped⟩ := headingAt?_eq_some_iff.mp found
      exact ⟨line :: rest, adornment, below, List.suffix_refl _, shaped⟩
    · obtain ⟨part, adornment, after, suffix, shaped⟩ := ih other later
      exact ⟨part, adornment, after,
        (suffix.trans (headingAt?_suffix found)).trans (List.suffix_cons line rest), shaped⟩
  | case4 line rest filled none ih =>
    intro heading member
    obtain ⟨part, adornment, after, suffix, shaped⟩ := ih heading member
    have visible : line.isBlank = false := by simpa using filled
    exact ⟨part, adornment, after,
      (suffix.trans (Piece.first_suffix rest visible)).trans (List.suffix_cons line rest), shaped⟩

/-- All titles of a document are adorned with punctuation. -/
theorem isPunctuation_of_mem_outline (lines : List Line) :
    ∀ heading ∈ (outline lines).filterMap Part.heading?, isPunctuation heading.style.mark := by
  intro heading member
  obtain ⟨_, _, _, _, shaped⟩ := exists_isHeading_of_mem_outline lines heading member
  obtain ⟨_, _, drawn⟩ := shaped.exists_drawn
  cases drawn with
  | overlined _ _ _ lower | underlined _ _ lower => exact lower.1

end RstPress.Layout

namespace RstPress.Document
open Text Layout Source RstPress.Tree

/-- The section titles of a source as they are written, with their adornment. -/
def headings (tabWidth : Nat) (source : String) : List Heading :=
  (outline (lines tabWidth source.toList)).filterMap Part.heading?

def styles (tabWidth : Nat) (source : String) : List Style :=
  (headings tabWidth source).map Heading.style

/-- The place of a style in the order in which the styles first appear, counted from one. -/
def rank (styles : List Style) (style : Style) : Nat := styles.eraseDups.idxOf style + 1

/-- No style appears before itself, so more titles do not change the rank of one that was seen. -/
theorem rank_append {front : List Style} {style : Style} (seen : style ∈ front) (back : List Style) :
    rank (front ++ back) style = rank front style := by
  rw [rank, rank, List.eraseDups_append, List.idxOf_append_of_mem (List.mem_eraseDups.mpr seen)]

theorem rank_inj {styles : List Style} {first : Style} (member : first ∈ styles) (second : Style) :
    rank styles first = rank styles second ↔ first = second := by
  rw [rank, rank, Nat.add_right_cancel_iff]
  exact List.idxOf_inj (List.mem_eraseDups.mpr member)

theorem rank_cons_self (style : Style) (styles : List Style) : rank (style :: styles) style = 1 := by
  rw [rank, List.eraseDups_cons, List.idxOf_cons_self]

theorem nodup_eraseDups (styles : List Style) : styles.eraseDups.Nodup := by
  induction size : styles.length using Nat.strong_induction_on generalizing styles with
  | h size ih =>
    cases styles with
    | nil => exact .nil
    | cons style others =>
      have fewer := List.length_filter_le (fun other => !other == style) others
      rw [List.length_cons] at size
      rw [List.eraseDups_cons, List.nodup_cons]
      exact ⟨by simp, ih _ (by omega) _ rfl⟩

/-- Twice as many as there are ASCII characters. -/
def styleLimit : Nat := 256

/-- All styles that have an ASCII character. -/
def asciiStyles : List Style :=
  (List.range 128).flatMap fun code => [⟨.ofNat code, true⟩, ⟨.ofNat code, false⟩]

theorem mem_asciiStyles {style : Style} (mark : isPunctuation style.mark) : style ∈ asciiStyles := by
  have code := code_of_isPunctuation mark
  refine List.mem_flatMap.mpr ⟨style.mark.toNat, List.mem_range.mpr (by omega), ?_⟩
  rw [Char.ofNat_toNat]
  obtain ⟨mark, overlined⟩ := style
  cases overlined <;> simp

theorem length_asciiStyles : asciiStyles.length = styleLimit := by
  simp [asciiStyles, List.length_flatMap, styleLimit]

theorem length_eraseDups_le {styles : List Style} (marks : ∀ style ∈ styles, isPunctuation style.mark) :
    styles.eraseDups.length ≤ styleLimit := by
  rw [← length_asciiStyles]
  apply (nodup_eraseDups styles).length_le_of_subset
  exact fun style member => mem_asciiStyles (marks style (List.mem_eraseDups.mp member))

theorem rank_le {styles : List Style} (marks : ∀ style ∈ styles, isPunctuation style.mark) {style : Style}
    (member : style ∈ styles) : rank styles style ≤ styleLimit := by
  have bound := length_eraseDups_le marks
  have place := List.idxOf_lt_length_of_mem (List.mem_eraseDups.mpr member)
  rw [rank]
  omega

theorem toNat_ofNat_of_le {value : Nat} (small : value ≤ styleLimit) : (UInt32.ofNat value).toNat = value := by
  rw [UInt32.toNat_ofNat', Nat.mod_eq_of_lt]
  unfold styleLimit at small
  omega

/-- The table of styles holds the styles of the titles read, and gives a title its rank. -/
theorem depthOf_eraseDups (seen : List Style) (style : Style) :
    depthOf seen.eraseDups style =
      (.ofNat (rank (seen ++ [style]) style), (seen ++ [style]).eraseDups) := by
  have place := List.idxOf_eq_getD_idxOf? style seen.eraseDups
  unfold depthOf
  cases found : seen.eraseDups.idxOf? style with
  | none =>
    have fresh : style ∉ seen := fun member =>
      List.idxOf?_eq_none_iff.mp found (List.mem_eraseDups.mpr member)
    have grown : (seen ++ [style]).eraseDups = seen.eraseDups ++ [style] := by
      rw [List.eraseDups_append]
      simp [List.removeAll, fresh, List.eraseDups_cons]
    have last : rank (seen ++ [style]) style = seen.eraseDups.length + 1 := by
      rw [rank, grown, List.idxOf_append_of_notMem (mt List.mem_eraseDups.mp fresh), List.idxOf_cons_self]
    rw [grown, last]
  | some index =>
    have known : style ∈ seen := by
      apply List.mem_eraseDups.mp
      by_contra fresh
      rw [List.idxOf?_eq_none_iff.mpr fresh] at found
      cases found
    have kept : (seen ++ [style]).eraseDups = seen.eraseDups := by
      rw [List.eraseDups_append]
      simp [List.removeAll, known]
    have same : rank (seen ++ [style]) style = index + 1 := by
      rw [rank_append known, rank, place, found]
      rfl
    rw [kept, same]

theorem titles_map_body (nodes : List Node) :
    (nodes.map Element.body).filterMap Element.title? = [] := by
  simp [List.filterMap_map, Function.comp_def, Element.title?]

/-- Each title has the rank of its style among the styles of all titles, those behind it included. -/
theorem titles_elementsOf (seen : List Style) (last : UInt32) (parts : List Part) :
    (elementsOf seen.eraseDups last parts).filterMap Element.title? =
      (parts.filterMap Part.heading?).map fun heading =>
        (.ofNat (rank (seen ++ (parts.filterMap Part.heading?).map Heading.style) heading.style),
          Inline.nodes heading.text) := by
  induction parts generalizing seen last with
  | nil => rfl
  | cons part parts ih =>
    cases part with
    | block block =>
      rw [elementsOf_block, List.filterMap_append, titles_map_body, List.nil_append, ih]
      rfl
    | heading heading =>
      have shown : (Part.heading heading :: parts).filterMap Part.heading? =
          heading :: parts.filterMap Part.heading? := rfl
      have later := ih (seen ++ [heading.style]) (.ofNat (rank (seen ++ [heading.style]) heading.style))
      rw [List.append_assoc, List.singleton_append] at later
      rw [elementsOf_heading, depthOf_eraseDups, shown, List.map_cons, List.map_cons, ← later]
      have own : heading.style ∈ seen ++ [heading.style] := by simp
      have same := rank_append own ((parts.filterMap Part.heading?).map Heading.style)
      rw [List.append_assoc, List.singleton_append] at same
      rw [same]
      rfl

/-- The depths of the titles, as numbers. -/
def titleDepths (elements : List Element) : List Nat :=
  (elements.filterMap Element.title?).map fun title => title.1.toNat

theorem mem_titleDepths {elements : List Element} {value : Nat} :
    value ∈ titleDepths elements ↔
      ∃ depth content, .title depth content ∈ elements ∧ depth.toNat = value := by
  simp only [titleDepths, List.mem_map, List.mem_filterMap]
  constructor
  · rintro ⟨title, ⟨element, member, shown⟩, same⟩
    cases element with
    | body => cases shown
    | title depth content =>
      cases shown
      exact ⟨depth, content, member, same⟩
  · rintro ⟨depth, content, member, same⟩
    exact ⟨(depth, content), ⟨_, member, rfl⟩, same⟩

theorem lt_of_mem_titleDepths_inside {elements : List Element} {depth : UInt32} {value : Nat}
    (member : value ∈ titleDepths (elements.takeWhile (Element.isBelow depth))) :
    depth.toNat < value := by
  obtain ⟨inner, content, within, rfl⟩ := mem_titleDepths.mp member
  have below : depth < inner := by simpa [Element.isBelow] using List.mem_takeWhile_imp within
  exact UInt32.lt_iff_toNat_lt.mp below

/-- The first title behind a section is not deeper than it. -/
theorem le_of_head_titleDepths_behind {elements : List Element} {depth : UInt32} {value : Nat}
    (begins : (titleDepths (elements.dropWhile (Element.isBelow depth))).head? = some value) :
    value ≤ depth.toNat := by
  cases behind : elements.dropWhile (Element.isBelow depth) with
  | nil =>
    rw [behind] at begins
    cases begins
  | cons first others =>
    have notBelow : first.isBelow depth = false :=
      isBelow_of_head_dropWhile (by rw [behind]; rfl)
    rw [behind] at begins
    cases first with
    | body => cases notBelow
    | title other content =>
      cases begins
      have least : other ≤ depth := by simpa [Element.isBelow] using notBelow
      exact UInt32.le_iff_toNat_le.mp least

mutual

/-- Every section in a tree: how many sections lead down to it, itself counted, and its depth. -/
def levelsOf (level : Nat) : Node → List (Nat × UInt32)
  | .titled depth title body =>
    (level, depth) :: (levelsIn (level + 1) title ++ levelsIn (level + 1) body)
  | .interpreted _ children | .composite _ children | .unknown _ children => levelsIn level children
  | .text _ | .transition | .unknownLeaf .. => []

def levelsIn (level : Nat) : List Node → List (Nat × UInt32)
  | [] => []
  | node :: nodes => levelsOf level node ++ levelsIn level nodes

end

mutual

theorem depths_levelsOf (level : Nat) :
    (node : Node) → (levelsOf level node).map Prod.snd = (titlesOf node).map Prod.fst
  | .titled depth title body => by
    rw [levelsOf, titlesOf_titled, List.map_cons, List.map_cons, List.map_append, List.map_append,
      depths_levelsIn _ title, depths_levelsIn _ body]
  | .interpreted _ children | .composite _ children | .unknown _ children => depths_levelsIn level children
  | .text _ | .transition | .unknownLeaf .. => rfl

theorem depths_levelsIn (level : Nat) :
    (nodes : List Node) → (levelsIn level nodes).map Prod.snd = (titlesIn nodes).map Prod.fst
  | [] => rfl
  | node :: nodes => by
    rw [levelsIn, titlesIn_cons, List.map_append, List.map_append, depths_levelsOf level node,
      depths_levelsIn level nodes]

end

theorem levelsOf_eq_nil {node : Node} (untitled : titlesOf node = []) (level : Nat) :
    levelsOf level node = [] := by
  apply List.map_eq_nil_iff.mp
  rw [depths_levelsOf, untitled, List.map_nil]

theorem levelsIn_eq_nil {nodes : List Node} (untitled : titlesIn nodes = []) (level : Nat) :
    levelsIn level nodes = [] := by
  apply List.map_eq_nil_iff.mp
  rw [depths_levelsIn, untitled, List.map_nil]

/-- Below a section of the given level, titles that are deeper and climb by one at most have the
depths of their levels: the first is one level deeper, and so is the next after its section. -/
theorem levelsIn_sections {elements : List Element} (untitled : Untitled elements) {level : Nat}
    (deeper : ∀ depth ∈ titleDepths elements, level < depth)
    (climbs : (level :: titleDepths elements).IsChain fun before after => after ≤ before + 1) :
    ∀ place ∈ levelsIn (level + 1) (sections elements), place.2.toNat = place.1 := by
  fun_induction sections elements generalizing level with
  | case1 => exact fun place member => (List.not_mem_nil member).elim
  | case2 node elements ih =>
    rw [levelsIn, levelsOf_eq_nil (untitled (.body node) List.mem_cons_self), List.nil_append]
    exact ih untitled.tail deeper climbs
  | case3 depth content elements inside after =>
    have all : titleDepths (.title depth content :: elements) = depth.toNat :: titleDepths elements :=
      rfl
    rw [all] at deeper climbs
    obtain ⟨step, rest⟩ := List.isChain_cons_cons.mp climbs
    have own : depth.toNat = level + 1 := by
      have above := deeper _ List.mem_cons_self
      omega
    have front : titleDepths (elements.takeWhile (Element.isBelow depth)) <+: titleDepths elements :=
      ((List.takeWhile_prefix _).filterMap _).map _
    have back : titleDepths (elements.dropWhile (Element.isBelow depth)) <:+ titleDepths elements :=
      ((List.dropWhile_suffix _).filterMap _).map _
    have within : ∀ place ∈ levelsIn (level + 1 + 1)
        (sections (elements.takeWhile (Element.isBelow depth))), place.2.toNat = place.1 := by
      apply inside (untitled.tail.sublist (List.takeWhile_sublist _))
      · intro value member
        rw [← own]
        exact lt_of_mem_titleDepths_inside member
      · rw [← own]
        exact rest.prefix ((List.prefix_cons_inj _).mpr front)
    have behind : ∀ place ∈ levelsIn (level + 1)
        (sections (elements.dropWhile (Element.isBelow depth))), place.2.toNat = place.1 := by
      apply after (untitled.tail.sublist (List.dropWhile_sublist _))
      · exact fun value member => deeper value (List.mem_cons_of_mem _ (back.subset member))
      · refine List.isChain_cons.mpr ⟨fun value begins => ?_, rest.suffix (back.trans (List.suffix_cons _ _))⟩
        rw [← own]
        exact le_of_head_titleDepths_behind begins
    intro place member
    rw [levelsIn, levelsOf, levelsIn_eq_nil (untitled _ List.mem_cons_self : titlesIn content = []),
      List.nil_append] at member
    rcases List.mem_append.mp member with first | later
    · rcases List.mem_cons.mp first with rfl | below
      · exact own
      · exact within place below
    · exact behind place later

/-- A reading without problems meets no title that skips a level. -/
theorem climbs_of_quiet {seen : List Style} {last : UInt32} {parts : List Part}
    (marks : ∀ style ∈ seen ++ (parts.filterMap Part.heading?).map Heading.style,
      isPunctuation style.mark)
    (small : last.toNat ≤ styleLimit)
    (quiet : (readParts seen.eraseDups last parts : Reading (List Element)).problems = []) :
    (last.toNat :: titleDepths (elementsOf seen.eraseDups last parts)).IsChain
      fun before after => after ≤ before + 1 := by
  induction parts generalizing seen last with
  | nil => exact .singleton _
  | cons part parts ih =>
    cases part with
    | block block =>
      simp only [readParts, Reading.problems_bind, Reading.problems_pure, List.append_nil,
        List.append_eq_nil_iff] at quiet
      rw [elementsOf_block, titleDepths, List.filterMap_append, titles_map_body, List.nil_append]
      exact ih marks small quiet.2
    | heading heading =>
      have shown : (Part.heading heading :: parts).filterMap Part.heading? =
          heading :: parts.filterMap Part.heading? := rfl
      rw [shown, List.map_cons, ← List.singleton_append, ← List.append_assoc] at marks
      have member : heading.style ∈ seen ++ [heading.style] := by simp
      have rankSmall : rank (seen ++ [heading.style]) heading.style ≤ styleLimit :=
        rank_le (fun style within => marks style (List.mem_append_left _ within)) member
      have depth := toNat_ofNat_of_le rankSmall
      simp only [readParts, depthOf_eraseDups, Reading.problems_bind, Reading.problems_pure,
        Reading.problems_notes, List.append_nil, List.append_eq_nil_iff] at quiet
      obtain ⟨_, noSkip, _, later⟩ := quiet
      have next := ih marks (by rw [depth]; exact rankSmall) later
      rw [elementsOf_heading, depthOf_eraseDups]
      refine List.isChain_cons_cons.mpr ⟨?_, next⟩
      by_contra steep
      have above : (last + 1).toNat = last.toNat + 1 := by
        rw [UInt32.toNat_add, Nat.mod_eq_of_lt]
        · rfl
        · change last.toNat + 1 < 2 ^ 32
          unfold styleLimit at small
          omega
      have skips : last + 1 < UInt32.ofNat (rank (seen ++ [heading.style]) heading.style) := by
        rw [UInt32.lt_iff_toNat_lt, above]
        exact Nat.lt_of_not_le steep
      rw [if_pos skips] at noSkip
      cases noSkip

/-- The first section at the top has the first title. -/
theorem head_depths_sections {elements : List Element} (untitled : Untitled elements) :
    ((depths (sections elements)).map UInt32.toNat).head? = (titleDepths elements).head? := by
  fun_induction sections elements with
  | case1 => rfl
  | case2 node elements ih =>
    rw [depths_cons_body (titled?_of_titlesOf (untitled _ List.mem_cons_self))]
    exact ih untitled.tail
  | case3 depth content elements inside after => rfl

section source
variable (tabWidth : Nat) (source : String)

theorem isPunctuation_of_mem_styles : ∀ style ∈ styles tabWidth source, isPunctuation style.mark := by
  intro style member
  obtain ⟨heading, present, rfl⟩ := List.mem_map.mp member
  exact isPunctuation_of_mem_outline _ heading present

/-- The rank of a style of the source fits into the depth of a section. -/
theorem toNat_rank {heading : Heading} (member : heading ∈ headings tabWidth source) :
    (UInt32.ofNat (rank (styles tabWidth source) heading.style)).toNat =
      rank (styles tabWidth source) heading.style :=
  toNat_ofNat_of_le
    (rank_le (isPunctuation_of_mem_styles tabWidth source) (List.mem_map_of_mem member))

/-- What the sections of a document show of themselves is told by the headings of its source. -/
theorem titlesIn_document :
    titlesIn (sections (elementsOf [] 0 (outline (lines tabWidth source.toList)))) =
      (headings tabWidth source).map fun heading =>
        (.ofNat (rank (styles tabWidth source) heading.style), Inline.nodes heading.text) := by
  rw [titlesIn_sections (untitled_elementsOf [] 0 _)]
  exact titles_elementsOf [] 0 (outline (lines tabWidth source.toList))

theorem titleDepths_document :
    titleDepths (elementsOf [] 0 (outline (lines tabWidth source.toList))) =
      (headings tabWidth source).map fun heading => rank (styles tabWidth source) heading.style := by
  rw [titleDepths, ← titlesIn_sections (untitled_elementsOf [] 0 _), titlesIn_document, List.map_map]
  exact List.map_congr_left fun heading member => toNat_rank tabWidth source member

theorem pos_of_mem_titleDepths {value : Nat}
    (member : value ∈ titleDepths (elementsOf [] 0 (outline (lines tabWidth source.toList)))) :
    0 < value := by
  rw [titleDepths_document] at member
  obtain ⟨heading, _, rfl⟩ := List.mem_map.mp member
  exact Nat.succ_pos _

/-- The first section has the first style. -/
theorem eq_one_of_head_depths :
    ∀ first, (depths (sections (elementsOf [] 0
      (outline (lines tabWidth source.toList))))).head? = some first → first.toNat = 1 := by
  intro first begins
  have head := head_depths_sections (untitled_elementsOf [] 0 (outline (lines tabWidth source.toList)))
  rw [titleDepths_document, List.head?_map, begins, styles] at head
  cases shown : headings tabWidth source with
  | nil =>
    rw [shown] at head
    cases head
  | cons heading later =>
    rw [shown] at head
    rw [Option.some.inj head]
    exact rank_cons_self _ _

/-- The first section at the top is the deepest one there. -/
theorem eq_one_of_mem_depths {depth : UInt32}
    (member : depth ∈ depths (sections (elementsOf [] 0 (outline (lines tabWidth source.toList))))) :
    depth = 1 := by
  have untitled := untitled_elementsOf [] 0 (outline (lines tabWidth source.toList))
  have descending := (inOrder_sections untitled).descending
  have highest := eq_one_of_head_depths tabWidth source
  obtain ⟨content, element⟩ := exists_title_of_mem_depths untitled member
  have positive : 0 < depth.toNat :=
    pos_of_mem_titleDepths tabWidth source (mem_titleDepths.mpr ⟨depth, content, element, rfl⟩)
  have bounded : depth.toNat ≤ 1 := by
    cases all : depths (sections (elementsOf [] 0 (outline (lines tabWidth source.toList)))) with
    | nil =>
      rw [all] at member
      cases member
    | cons top others =>
      rw [all] at member descending highest
      rw [← highest top rfl]
      rcases List.mem_cons.mp member with rfl | later
      · exact le_rfl
      · exact UInt32.le_iff_toNat_le.mp ((List.pairwise_cons.mp descending).1 depth later)
  apply UInt32.toNat_inj.mp
  exact le_antisymm bounded positive

/-- Without a problem in the source, sections are as deep as they are nested. -/
theorem levelsIn_of_quiet
    (quiet : (readElements tabWidth source : Reading (List Element)).problems = []) :
    ∀ place ∈ levelsIn 1 (sections (elementsOf [] 0 (outline (lines tabWidth source.toList)))),
      place.2.toNat = place.1 := by
  change (readParts ([] : List Style).eraseDups 0 (outline (lines tabWidth source.toList)) :
    Reading (List Element)).problems = [] at quiet
  have climbs := climbs_of_quiet (isPunctuation_of_mem_styles tabWidth source) (Nat.zero_le _) quiet
  exact levelsIn_sections (untitled_elementsOf [] 0 _)
    (fun depth => pos_of_mem_titleDepths tabWidth source) climbs

end source

/-- The depth of a section is the rank of its style: titles have the same depth if and only if they
have the same style, in the order in which the styles first appear. The sections of the document itself
have depth one. If strict reading succeeds, every section is as deep as it is nested. -/
theorem parse_depths (options : ReadOptions) (source : String) :
    ∃ children,
      parse { options with strict := false } source = .ok (.composite .document children) ∧
      List.Forall₂
        (fun title heading =>
          title.2 = Inline.nodes heading.text ∧
            title.1.toNat = rank (styles options.tabWidth source) heading.style)
        (titlesIn children) (headings options.tabWidth source) ∧
      (∀ first ∈ (titlesIn children).zip (headings options.tabWidth source),
        ∀ second ∈ (titlesIn children).zip (headings options.tabWidth source),
          first.1.1 = second.1.1 ↔ first.2.style = second.2.style) ∧
      (∀ depth title body, .titled depth title body ∈ children → depth = 1) ∧
      ∀ tree, parse { options with strict := true } source = .ok tree →
        ∀ place ∈ levelsOf 1 tree, place.2.toNat = place.1 := by
  refine ⟨sections (elementsOf [] 0 (outline (lines options.tabWidth source.toList))),
    parse_of_lenient _ rfl source, ?_, ?_, ?_, ?_⟩
  · rw [titlesIn_document, List.forall₂_map_left_iff, List.forall₂_same]
    exact fun heading member => ⟨rfl, toNat_rank options.tabWidth source member⟩
  · rw [titlesIn_document, ← List.map_prod_right_eq_zip]
    intro first member second other
    obtain ⟨heading, present, rfl⟩ := List.mem_map.mp member
    obtain ⟨last, shown, rfl⟩ := List.mem_map.mp other
    rw [← UInt32.toNat_inj, toNat_rank _ _ present, toNat_rank _ _ shown]
    exact rank_inj (List.mem_map_of_mem present) last.style
  · intro depth title body member
    exact eq_one_of_mem_depths options.tabWidth source (List.mem_filterMap.mpr ⟨_, member, rfl⟩)
  · intro tree given place member
    rw [parse_of_strict _ rfl] at given
    cases reported : problems { options with strict := true } source with
    | cons first others =>
      rw [reported] at given
      cases given
    | nil =>
      rw [reported, parse_of_lenient _ rfl] at given
      cases given
      simp only [problems, read, Reading.problems_bind, Reading.problems_pure, List.append_nil]
        at reported
      exact levelsIn_of_quiet options.tabWidth source reported place member

def nestedSource : String := "A\n=\n\nB\n-\n\nC\n~\n\nD\n-\n\nE\n=\n"

example : (parse { strict := true } nestedSource).toOption.map (levelsOf 1) =
    some [(1, 1), (2, 2), (3, 3), (2, 2), (1, 1)] := by
  decide +kernel

theorem parse_depths_nested :
    ∃ tree, parse { strict := true } nestedSource = .ok tree ∧
      (levelsOf 1 tree).length = 5 ∧ ∀ place ∈ levelsOf 1 tree, place.2.toNat = place.1 := by
  have read : (parse { strict := true } nestedSource).toOption.map
      (fun tree => (levelsOf 1 tree).length) = some 5 := by decide +kernel
  cases given : parse { strict := true } nestedSource with
  | error reason =>
    rw [given] at read
    cases read
  | ok tree =>
    rw [given] at read
    obtain ⟨_, _, _, _, _, nested⟩ := parse_depths {} nestedSource
    exact ⟨tree, rfl, Option.some.inj read, nested tree given⟩

/-- The style and the text of a title are those of its lines in the source. -/
theorem exists_drawn_of_mem_headings {tabWidth : Nat} {source : String} {heading : Heading}
    (member : heading ∈ headings tabWidth source) :
    ∃ drawn, drawn <:+: lines tabWidth source.toList ∧ IsDrawn heading.style heading.text drawn := by
  obtain ⟨_, _, after, ⟨above, whole⟩, shaped⟩ := exists_isHeading_of_mem_outline _ heading member
  obtain ⟨drawn, rfl, made⟩ := shaped.exists_drawn
  exact ⟨drawn, ⟨above, after, by rw [List.append_assoc, whole]⟩, made⟩

end RstPress.Document
