import RstPress.Layout.Block
import RstPress.Proofs.Accounts.Text
import RstPress.Proofs.Heading
import RstPress.Proofs.Marker

/-!
The parts of a layout account for the lines from which they are taken. Markers, adornments and
announcements are left out; moving, joining and trimming lines changes blank characters only.
-/

namespace RstPress.Source
open Text

/-- The texts of some lines, one after the other. -/
def script (lines : List Line) : List Char := lines.flatMap Line.text

@[simp] theorem script_nil : script [] = [] := rfl

@[simp] theorem script_cons (line : Line) (lines : List Line) :
    script (line :: lines) = line.text ++ script lines := by
  rw [script, List.flatMap_cons, script]

@[simp] theorem script_append (front back : List Line) :
    script (front ++ back) = script front ++ script back := by
  rw [script, List.flatMap_append, script, script]

theorem script_of_isBlank {lines : List Line} (blank : ∀ line ∈ lines, line.isBlank) :
    script lines = [] := by
  induction lines with
  | nil => rfl
  | cons line lines ih =>
    have empty : line.text = [] := List.isEmpty_iff.mp (blank line List.mem_cons_self)
    rw [script_cons, empty, ih fun other member => blank other (List.mem_cons_of_mem _ member),
      List.nil_append]

theorem script_dropEndWhile (lines : List Line) :
    script (dropEndWhile Line.isBlank lines) = script lines := by
  have ending : script (lines.reverse.takeWhile Line.isBlank).reverse = [] := by
    apply script_of_isBlank
    intro line member
    exact List.mem_takeWhile_imp (List.mem_reverse.mp member)
  conv => rhs; rw [← dropEndWhile_append_ending Line.isBlank lines]
  rw [script_append, ending, List.append_nil]

theorem script_map_dedent (amount : Nat) (lines : List Line) :
    script (lines.map (Line.dedent amount)) = script lines := by
  rw [script, List.flatMap_map]
  rfl

theorem script_dedentBlock (lines : List Line) : script (dedentBlock lines) = script lines := by
  rw [dedentBlock, script_map_dedent, script_dropEndWhile]

theorem script_insetBlock (lines : List Line) :
    script (insetBlock lines) ++ script (afterInset lines) = script lines := by
  rw [← script_append, insetBlock_append_afterInset]

theorem script_skipBlank (lines : List Line) : script (skipBlank lines) = script lines := by
  have front : script (lines.takeWhile Line.isBlank) = [] := by
    apply script_of_isBlank
    intro line member
    exact List.mem_takeWhile_imp member
  conv => rhs; rw [← List.takeWhile_append_dropWhile (p := Line.isBlank) (l := lines)]
  rw [script_append, front, List.nil_append, skipBlank]

/-! Splitting a source into lines changes blank characters only. -/

theorem ink_spaces (count : Nat) : ink (List.replicate count ' ') = [] := by
  apply ink_of_isBlank
  intro c member
  rw [(List.mem_replicate.mp member).2]
  decide

theorem ink_flatten_splitLines (source : List Char) :
    ink (splitLines source).flatten = ink source := by
  have feed (text : List Char) : ink ('\n' :: text) = ink text := rfl
  fun_induction splitLines source with
  | case1 => rfl
  | case2 source ih => rw [List.flatten_cons, List.nil_append, ih, feed]
  | case3 c source other none ih =>
    rw [ink_cons c source, ← ih, none]
    exact (List.append_nil _).symm
  | case4 c source other first others cut ih =>
    rw [ink_cons c source, ← ih, cut]
    exact ink_cons c (first :: others).flatten

theorem ink_expandTabs (width column : Nat) (text : List Char) :
    ink (expandTabs width column text) = ink text := by
  induction text generalizing column with
  | nil => rfl
  | cons c text ih =>
    rw [expandTabs]
    dsimp only
    split
    · rename_i tab
      rw [ink_append, ink_spaces, ih, ink_cons c, tab]
      rfl
    · rw [ink_cons, ih, ink_cons c text]

theorem ink_dropEndWhile_isBlank (text : List Char) :
    ink (dropEndWhile isBlank text) = ink text := by
  have ending : ink (text.reverse.takeWhile isBlank).reverse = [] :=
    ink_of_isBlank fun c member =>
      List.mem_takeWhile_imp (List.mem_reverse.mp member)
  conv => rhs; rw [← dropEndWhile_append_ending isBlank text]
  rw [ink_append, ending, List.append_nil]

theorem ink_shown (width : Nat) (text : List Char) : ink (shown width text) = ink text := by
  rw [shown, trimEnd, ink_dropEndWhile_isBlank, ink_expandTabs]

theorem ink_dropWhile {p : Char → Bool} (blank : ∀ c, p c → isBlank c) (text : List Char) :
    ink (text.dropWhile p) = ink text := by
  have front : ink (text.takeWhile p) = [] :=
    ink_of_isBlank fun c member => blank c (List.mem_takeWhile_imp member)
  conv => rhs; rw [← List.takeWhile_append_dropWhile (p := p) (l := text)]
  rw [ink_append, front, List.nil_append]

theorem isBlank_of_space (c : Char) (space : decide (c = ' ')) : isBlank c := by
  rw [of_decide_eq_true space]
  decide

theorem ink_script_numberFrom (width number : Nat) (texts : List (List Char)) :
    ink (script (numberFrom number (texts.map (shown width)))) = ink texts.flatten := by
  induction texts generalizing number with
  | nil => rfl
  | cons text texts ih =>
    have line : ink (Line.ofText number (shown width text)).text = ink text := by
      rw [Line.ofText, ink_dropWhile isBlank_of_space, ink_shown]
    rw [List.map_cons, numberFrom, script_cons, ink_append, line, ih, List.flatten_cons, ink_append]

theorem accounts_lines (tabWidth : Nat) (source : List Char) :
    Accounts (script (lines tabWidth source)) source :=
  .of_ink_eq (by rw [lines, ink_script_numberFrom, ink_flatten_splitLines])

end RstPress.Source

namespace RstPress.Layout
open Text Source

theorem take_length_takeWhile (text : List Char) :
    text.take (text.takeWhile (· = ' ')).length = text.takeWhile (· = ' ') :=
  (List.prefix_iff_eq_take.mp (List.takeWhile_prefix _)).symm

theorem accounts_spaces (text : List Char) : Accounts [] (text.takeWhile (· = ' ')) :=
  .of_blank fun c member => by
    have space := List.mem_takeWhile_imp member
    exact isBlank_of_space c space

theorem isForeign_of_isEnumeratorChar {c : Char} (plain : isEnumeratorChar c) :
    isForeign c = false := by
  simp only [isEnumeratorChar, Bool.or_eq_true, decide_eq_true_eq] at plain
  rcases plain with letter | rfl
  · exact isForeign_of_isAlphanum letter
  · decide

theorem accounts_enumerator {text : List Char} {width : Nat}
    (found : enumeratorWidth? text = some width) :
    Accounts [] (text.take width) := by
  obtain ⟨front, label, close, after, rfl, framed, ordinal, _, spaced⟩ :=
    exists_of_enumeratorWidth? found
  obtain rfl := spacedWidth?_eq spaced
  have mark : isLabelMark close := by cases framed <;> decide
  have opens : ∀ c ∈ front, isPunctuation c := List.all_eq_true.mp (by cases framed <;> decide)
  have whole : (front ++ label ++ close :: after).take
      (front.length + label.length + 1 + (after.takeWhile (· = ' ')).length) =
        front ++ (label ++ [close] ++ after.takeWhile (· = ' ')) := by
    have longer : front.length + label.length + 1 + (after.takeWhile (· = ' ')).length =
        (front ++ label ++ [close]).length + (after.takeWhile (· = ' ')).length := by
      simp [Nat.add_assoc]
    rw [List.append_cons (front ++ label), longer, List.take_length_add_append,
      take_length_takeWhile]
    simp only [List.append_assoc]
  have named : Accounts [] (label ++ [close]) := by
    apply Accounts.of_left_out
    · intro c member
      rcases List.mem_append.mp member with inside | last
      · exact isForeign_of_isEnumeratorChar (ordinal c inside)
      · rw [List.mem_singleton.mp last]
        simp only [isLabelMark, Bool.or_eq_true, decide_eq_true_eq] at mark
        rcases mark with (rfl | rfl) | rfl <;> decide
    · exact .inl ⟨close, by simp, mark⟩
  rw [whole]
  exact (Accounts.of_punctuation opens).left_out_append
    (named.left_out_append (accounts_spaces after))

/-- The marker of an item is left out. -/
theorem accounts_marker {marker : Marker} {line : Line} {width : Nat}
    (found : marker.at? line = some width) :
    Accounts [] (line.text.take width) := by
  have marked := (Option.ite_none_right_eq_some.mp found).2
  cases same : line.text with
  | nil =>
    rw [List.take_nil]
    exact .refl _
  | cons c after =>
    rw [same] at marked
    cases marker with
    | enumerator => exact accounts_enumerator marked
    | bullet mark =>
      rw [Marker.width?, Option.ite_none_right_eq_some] at marked
      obtain ⟨begins, spaced⟩ := marked
      rw [Bool.and_eq_true] at begins
      have bullet := isPunctuation_of_isBullet begins.2
      rw [spacedWidth?_eq spaced, Nat.add_comm, List.take_succ_cons, take_length_takeWhile]
      exact .punctuation_cons bullet (accounts_spaces after)

theorem script_itemBody (width : Nat) (line : Line) (block : List Line) :
    script (itemBody width line block) = trimStart (line.text.drop width) ++ script block := by
  simp only [itemBody]
  split
  · rename_i empty
    rw [List.isEmpty_iff.mp empty, script_dedentBlock, script_map_dedent, List.nil_append]
  · rw [script_cons, script_map_dedent]

theorem accounts_itemBody {marker : Marker} {line : Line} {width : Nat}
    (found : marker.at? line = some width) (block : List Line) :
    Accounts (script (itemBody width line block)) (line.text ++ script block) := by
  have text : Accounts (trimStart (line.text.drop width)) line.text := by
    have whole := (accounts_marker found).left_out_append
      (.of_ink_eq (ink_dropWhile (fun _ blank => blank) (line.text.drop width)))
    rwa [List.take_append_drop] at whole
  rw [script_itemBody]
  exact text.append (.refl _)

theorem accounts_listItems (marker : Marker) (lines : List Line) :
    Accounts ((listItems marker lines).1.flatMap script ++ script (listItems marker lines).2)
      (script lines) := by
  fun_induction listItems marker lines with
  | case1 => exact .refl _
  | case2 line rest unmarked => exact .refl _
  | case3 line rest width marked items remaining taken ih =>
    rw [taken, script_skipBlank] at ih
    rw [List.flatMap_cons, List.append_assoc, script_cons, ← script_insetBlock rest,
      ← List.append_assoc line.text]
    exact (accounts_itemBody marked _).append ih

theorem accounts_definitions (lines : List Line) :
    Accounts (((definitions lines).1.flatMap fun item => item.1.text ++ script item.2) ++
      script (definitions lines).2) (script lines) := by
  fun_induction definitions lines with
  | case1 => exact .refl _
  | case2 term rest starts items remaining taken ih =>
    rw [taken, script_skipBlank] at ih
    rw [List.flatMap_cons, List.append_assoc, script_cons, ← script_insetBlock rest,
      script_dedentBlock, ← List.append_assoc term.text]
    exact (Accounts.refl _).append ih
  | case3 term rest ends => exact .refl _

theorem accounts_bar {line : Line} {content : List Char} (found : barAt? line = some content) :
    Accounts (entryText content) line.text := by
  have same : Accounts (entryText content) content :=
    .of_ink_eq (ink_dropWhile isBlank_of_space content)
  have barred := (Option.ite_none_right_eq_some.mp found).2
  unfold barContent? at barred
  split at barred
  · cases barred
  · rename_i c after text
    rw [Option.ite_none_right_eq_some] at barred
    obtain ⟨rfl, rest⟩ := barred
    rw [text]
    apply Accounts.punctuation_cons (by decide)
    split at rest
    · rw [Option.some.injEq] at rest
      rw [← rest] at same ⊢
      exact same
    · rename_i d inner
      rw [Option.ite_none_right_eq_some, Option.some.injEq] at rest
      rw [rest.1]
      apply Accounts.blank_cons (by decide)
      rw [← rest.2] at same
      exact rest.2 ▸ same

theorem ink_joinLines (text : List Char) (lines : List Line) :
    ink (joinLines text lines) = ink (text ++ script lines) := by
  induction lines generalizing text with
  | nil => rw [script_nil, List.append_nil, joinLines, List.foldl_nil]
  | cons line lines ih =>
    have spaced : ink (if text.isEmpty then text else text ++ [' ']) = ink text := by
      split
      · rfl
      · rw [ink_append]
        exact List.append_nil _
    calc
      _ = ink ((if text.isEmpty then text else text ++ [' ']) ++ line.text ++ script lines) := by
        rw [joinLines, List.foldl_cons, ← joinLines, ih]
      _ = ink text ++ ink (line.text ++ script lines) := by
        rw [List.append_assoc, ink_append, spaced]
      _ = _ := by rw [← ink_append, script_cons]

theorem accounts_entries (above : Nat) (lines : List Line) :
    Accounts ((entries above lines).1.flatMap Entry.text ++ script (entries above lines).2)
      (script lines) := by
  fun_induction entries above lines with
  | case1 => exact .refl _
  | case2 => exact .refl _
  | case3 above line rest content marked indent others remaining taken ih =>
    rw [taken] at ih
    have text : Accounts (joinLines (entryText content) (rest.takeWhile continuesEntry))
        (line.text ++ script (rest.takeWhile continuesEntry)) := by
      apply Accounts.trans (.of_ink_eq (ink_joinLines _ _))
      exact (accounts_bar marked).append (.refl _)
    have whole := text.append ih
    rw [List.append_assoc, ← script_append, List.takeWhile_append_dropWhile,
      ← List.append_assoc] at whole
    rw [List.flatMap_cons, script_cons]
    exact whole

theorem accounts_unannounced {text : List Char} {texts : List (List Char)}
    (found : unannounced? text = some texts) :
    Accounts texts.flatten text := by
  unfold unannounced? at found
  split at found
  · rename_i last previous front same
    rw [Option.ite_none_right_eq_some] at found
    simp only [Bool.and_eq_true, decide_eq_true_eq] at found
    obtain ⟨⟨rfl, rfl⟩, rest⟩ := found
    have whole : text = front.reverse ++ [':', ':'] := by
      rw [← List.reverse_reverse text, same]
      simp
    have colon : Accounts [] [':'] := .punctuation_cons (by decide) (.refl [])
    have colons : Accounts [] [':', ':'] := .punctuation_cons (by decide) colon
    rw [whole]
    split at rest
    · rw [← Option.some.inj rest]
      exact colons
    · rename_i c more
      rw [← Option.some.inj rest, List.flatten_singleton]
      split
      · rename_i space
        rw [List.reverse_cons, space, List.append_assoc]
        apply Accounts.append_left_out (.of_ink_eq (ink_dropEndWhile_isBlank _))
        exact .blank_cons (by decide) colons
      · have one : Accounts [':'] [':', ':'] := .punctuation_cons (by decide) (.refl _)
        rw [List.reverse_cons]
        exact (Accounts.refl _).append one
  · cases found

theorem accounts_paragraphTexts (texts : List (List Char)) :
    Accounts (paragraphTexts texts).1.flatten texts.flatten := by
  fun_induction paragraphTexts texts with
  | case1 => exact .refl _
  | case2 last texts found =>
    rw [List.flatten_singleton]
    exact accounts_unannounced found
  | case3 last kept => exact .refl _
  | case4 text others more ih =>
    rw [List.flatten_cons, List.flatten_cons]
    exact (Accounts.refl text).append ih

theorem ink_flatMap_feed (texts : List (List Char)) :
    ink (texts.flatMap (· ++ ['\n'])) = ink texts.flatten := by
  have feed : ink ['\n'] = [] := rfl
  induction texts with
  | nil => rfl
  | cons text texts ih =>
    calc
      _ = ink text ++ ink ['\n'] ++ ink (texts.flatMap (· ++ ['\n'])) := by
        rw [List.flatMap_cons, ink_append, ink_append]
      _ = ink text ++ ink texts.flatten := by rw [feed, ih, List.append_nil]
      _ = _ := by rw [List.flatten_cons, ink_append]

theorem ink_flatMap_written (lines : List Line) :
    ink (lines.flatMap Line.written) = ink (script lines) := by
  have feed : ink ['\n'] = [] := rfl
  induction lines with
  | nil => rfl
  | cons line lines ih =>
    calc
      _ = ink (List.replicate line.indent ' ') ++ ink line.text ++ ink ['\n'] ++
          ink (lines.flatMap Line.written) := by
        rw [List.flatMap_cons, Line.written, ink_append, ink_append, ink_append]
      _ = ink line.text ++ ink (script lines) := by
        rw [ink_spaces, feed, ih, List.nil_append, List.append_nil]
      _ = _ := by rw [script_cons, ink_append]

/-- The text of the literal block, if there is one. -/
def Announced.shown : Announced → List Char
  | .block text => text
  | .nothing | .missing _ => []

theorem accounts_announced (previous : Nat) (lines : List Line) :
    Accounts ((announced previous lines).1.shown ++ script (announced previous lines).2)
      (script lines) := by
  unfold announced
  split
  · exact .refl _
  · rename_i next rest found
    split
    · rw [← script_skipBlank lines, found, ← script_insetBlock (next :: rest)]
      apply Accounts.append _ (.refl _)
      apply Accounts.of_ink_eq
      rw [Announced.shown, ink_flatMap_written, script_dedentBlock]
    · exact .refl _

theorem accounts_paragraphOf (line : Line) (others after : List Line) :
    Accounts ((paragraphOf line others after).1.text ++
      (paragraphOf line others after).1.literal.shown ++
      script (paragraphOf line others after).2) (script (line :: others) ++ script after) := by
  have text : Accounts (paragraphOf line others after).1.text (script (line :: others)) := by
    apply Accounts.trans (.of_ink_eq (ink_flatMap_feed _))
    rw [script, List.flatMap_def]
    exact accounts_paragraphTexts ((line :: others).map Line.text)
  have literal : Accounts ((paragraphOf line others after).1.literal.shown ++
      script (paragraphOf line others after).2) (script after) := by
    simp only [paragraphOf]
    split
    · exact accounts_announced _ after
    · exact .refl _
  rw [List.append_assoc]
  exact text.append literal

theorem accounts_paragraph (line : Line) (rest : List Line) :
    Accounts ((paragraph line rest).1.text ++ (paragraph line rest).1.literal.shown ++
      script (paragraph line rest).2) (script (line :: rest)) := by
  have whole :=
    accounts_paragraphOf line (rest.takeWhile continuesParagraph)
      (rest.dropWhile continuesParagraph)
  rwa [← script_append, List.cons_append, List.takeWhile_append_dropWhile] at whole

theorem accounts_adornment {text : List Char} {mark : Char} (adorned : adornment? text = some mark) :
    Accounts [] text := by
  obtain ⟨punctuation, _, same⟩ := adornment?_eq_some_iff.mp adorned
  apply Accounts.of_punctuation
  intro c member
  rw [same] at member
  rw [(List.mem_replicate.mp member).2]
  exact punctuation

/-- A heading and what follows it account for the lines; the adornment is left out. -/
theorem accounts_heading {line : Line} {rest after : List Line} {heading : Heading}
    (found : headingAt? line rest = some (heading, after)) :
    Accounts (heading.text ++ script after) (script (line :: rest)) := by
  obtain ⟨_, adornment, shaped⟩ := headingAt?_eq_some_iff.mp found
  cases shaped with
  | overlined upper filled flush lower other =>
    have below := (accounts_adornment lower).left_out_append (.refl (script after))
    rw [script_cons, script_cons, script_cons]
    exact (accounts_adornment upper).left_out_append ((Accounts.refl _).append below)
  | underlined plain flush lower long =>
    have below := (accounts_adornment lower).left_out_append (.refl (script after))
    rw [script_cons, script_cons]
    exact (Accounts.refl _).append below

/-- The text of a piece, before inline markup is read. -/
def Piece.script : Piece → List Char
  | .quote body => Source.script body
  | .transition => []
  | .list _ items => items.flatMap Source.script
  | .lineBlock entries => entries.flatMap Entry.text
  | .definitionList items => items.flatMap fun item => item.1.text ++ Source.script item.2
  | .paragraph text => text.text ++ text.literal.shown

theorem accounts_take {line : Line} {rest : List Line} {construct : Construct}
    (begins : construct.Begins line rest) :
    Accounts ((construct.take line rest).1.script ++ script (construct.take line rest).2)
      (script (line :: rest)) := by
  cases begins with
  | quote inset =>
    simp only [Construct.take, Piece.script]
    rw [script_dedentBlock, script_insetBlock]
    exact .refl _
  | transition flush starts =>
    simp only [startsTransition, Bool.and_eq_true] at starts
    obtain ⟨mark, adorned⟩ := Option.isSome_iff_exists.mp starts.1.1
    rw [script_cons]
    exact (accounts_adornment adorned).left_out_append (.refl _)
  | list marked => exact accounts_listItems _ _
  | lineBlock barred => exact accounts_entries 0 (line :: rest)
  | definitionList starts => exact accounts_definitions (line :: rest)
  | paragraph flush => exact accounts_paragraph line rest

theorem accounts_first (line : Line) (rest : List Line) :
    Accounts ((Piece.first line rest).1.script ++ script (Piece.first line rest).2)
      (script (line :: rest)) :=
  accounts_take (construct_begins line rest)

end RstPress.Layout
