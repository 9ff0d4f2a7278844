import RstPress.Proofs.Cursor.Lines
import RstPress.Proofs.Cursor.Inset
import RstPress.Proofs.Verses

/-!
Line blocks by index. The entries are read line by line, an indented line being joined to the last entry so
far. Nesting goes over the entries by index again, cuts out each run of deeper ones as a slice, and nests
the runs only after that; a run that were not less deep than the entries around it would not be nested.
-/

namespace RstPress.Cursor
open Layout Source

/-- The indentation of an entry: what its content is longer than its text, or that of the entry above. -/
def entryIndent? (above : Nat) (content : List Char) : Option Nat :=
  if (entryText content).isEmpty then some above else difference? (bytes content) (bytes (entryText content))

/-- Reads the line at an index as an entry, or as the continuation of the last one. -/
def entryPass? (lines : List Line) (found : List Entry) (index : Nat) : Option (Option (List Entry × Nat)) :=
  visit? lines index fun line =>
    if line.isBlank then some none
    else if 0 < line.indent then
      some (found.getLast?.map fun last =>
        (found.dropLast ++ [{ last with text := joinLines last.text [line] }], index + 1))
    else
      match barContent? line.text with
      | none => some none
      | some content => do
        let indent ← entryIndent? ((found.getLast?.map Entry.indent).getD 0) content
        return some (found ++ [⟨indent, entryText content, line.number⟩], index + 1)

def entries? (lines : List Line) (start : Nat) : Option (List Entry × Nat) :=
  loop? lines.length (entryPass? lines) [] start

/-- An entry that is a line of its block, or a run of deeper ones. -/
inductive Row where
  | line (entry : Entry)
  | run (entries : List Entry)

def rowPass? (base : Nat) (entries : List Entry) (rows : List Row) (index : Nat) :
    Option (Option (List Row × Nat)) :=
  visit? entries index fun entry =>
    if entry.indent ≤ base then some (some (rows ++ [.line entry], index + 1))
    else do
      let after ← suffix? index entries
      let stop := (after.findIdx? fun other => other.indent ≤ base).elim entries.length (index + ·)
      let run ← slice? index stop entries
      return some (rows ++ [.run run], stop)

def nest? (base : Nat) (entries : List Entry) : Option (List Verse) :=
  (loop? entries.length (rowPass? base entries) [] 0).bind fun (rows, _) =>
    rows.mapM fun
      | .line entry => some (.line entry)
      | .run run =>
        let inner := (run.map Entry.indent).min?.getD (base + 1)
        if _ : excess inner run < excess base entries then (nest? inner run).map .block else none
termination_by excess base entries

def verses? (entries : List Entry) : Option (List Verse) := nest? (leastIndent entries) entries

variable {lines rest : List Line} {index : Nat}

theorem entryIndent?_eq (above : Nat) (content : List Char) :
    entryIndent? above content = some (entryIndent above content) := by
  rw [entryIndent?, entryText, difference?_content, entryIndent, entryText]
  split <;> rfl

theorem entryPass?_of_continued {line : Line} (here : IsAt lines index (line :: rest))
    (continued : continuesEntry line) (front : List Entry) (last : Entry) :
    entryPass? lines (front ++ [last]) index =
      some (some (front ++ [{ last with text := joinLines last.text [line] }], index + 1)) := by
  simp only [continuesEntry, Bool.and_eq_true, Bool.not_eq_true', decide_eq_true_eq] at continued
  rw [entryPass?, here.visit?, if_neg (by simp [continued.1]), if_pos continued.2, List.getLast?_concat,
    List.dropLast_concat]
  rfl

theorem entryPass?_of_bar {line : Line} {content : List Char} (here : IsAt lines index (line :: rest))
    (bar : barAt? line = some content) (found : List Entry) :
    entryPass? lines found index =
      some (some (found ++ [⟨entryIndent ((found.getLast?.map Entry.indent).getD 0) content, entryText content,
        line.number⟩], index + 1)) := by
  have filled : ¬line.isBlank := fun blank => by simp [barAt?_of_isBlank blank] at bar
  obtain ⟨flush, same⟩ := Option.ite_none_right_eq_some.mp bar
  rw [entryPass?, here.visit?, if_neg filled, if_neg (by omega), same]
  simp only [entryIndent?_eq]
  rfl

theorem entryPass?_of_no_bar {line : Line} {found : List Entry} (here : IsAt lines index (line :: rest))
    (plain : barAt? line = none) (ends : continuesEntry line → found = []) :
    entryPass? lines found index = some none := by
  rw [entryPass?, here.visit?]
  split
  · rfl
  · rename_i filled
    split
    · rename_i deep
      rw [ends (by simp [continuesEntry, filled, deep])]
      rfl
    · rename_i flush
      rw [barAt?, if_pos (by omega)] at plain
      rw [plain]

/-- Behind an entry the lines that continue it are joined to it, and further entries are read. -/
theorem loop?_entryPass?_concat (here : IsAt lines index rest) (front : List Entry) (last : Entry) :
    ∃ next, loop? lines.length (entryPass? lines) (front ++ [last]) index =
        some (front ++ { last with text := joinLines last.text (rest.takeWhile continuesEntry) } ::
          (entries last.indent (rest.dropWhile continuesEntry)).1, next) ∧
      index ≤ next ∧ IsAt lines next (entries last.indent (rest.dropWhile continuesEntry)).2 := by
  induction rest generalizing index front last with
  | nil =>
    refine ⟨index, ?_, Nat.le_refl _, by simpa using here⟩
    rw [loop?_of_ends (visit?_of_le here.length_eq.ge _)]
    simp [joinLines]
  | cons line rest ih =>
    have inside := here.lt_iff.mpr (List.cons_ne_nil line rest)
    by_cases continued : continuesEntry line
    · obtain ⟨next, looped, le, there⟩ := ih here.succ front { last with text := joinLines last.text [line] }
      rw [List.takeWhile_cons_of_pos continued, List.dropWhile_cons_of_pos continued]
      refine ⟨next, ?_, Nat.le_of_succ_le le, there⟩
      rw [loop?_of_advances (entryPass?_of_continued here continued front last) (Nat.lt_succ_self _) inside, looped]
      rfl
    · rw [List.takeWhile_cons_of_neg continued, List.dropWhile_cons_of_neg continued]
      cases bar : barAt? line with
      | none =>
        rw [entries_of_no_bar last.indent rest bar]
        refine ⟨index, ?_, Nat.le_refl _, here⟩
        rw [loop?_of_ends (entryPass?_of_no_bar here bar fun goes => absurd goes continued)]
        rfl
      | some content =>
        have advances := entryPass?_of_bar here bar (front ++ [last])
        rw [List.getLast?_concat] at advances
        obtain ⟨next, looped, le, there⟩ := ih here.succ (front ++ [last])
          ⟨entryIndent last.indent content, entryText content, line.number⟩
        rw [entries_of_bar last.indent rest bar]
        refine ⟨next, ?_, Nat.le_of_succ_le le, there⟩
        rw [loop?_of_advances advances (Nat.lt_succ_self _) inside]
        exact looped.trans (by simp [joinLines])

theorem entries?_eq {line : Line} (here : IsAt lines index (line :: rest)) (begins : (barAt? line).isSome) :
    ∃ stop, entries? lines index = some ((entries 0 (line :: rest)).1, stop) ∧ index < stop ∧
      IsAt lines stop (entries 0 (line :: rest)).2 := by
  obtain ⟨content, bar⟩ := Option.isSome_iff_exists.mp begins
  obtain ⟨stop, looped, le, there⟩ := loop?_entryPass?_concat here.succ []
    ⟨entryIndent 0 content, entryText content, line.number⟩
  rw [entries_of_bar 0 rest bar]
  refine ⟨stop, ?_, le, there⟩
  rw [entries?, loop?_of_advances (entryPass?_of_bar here bar []) (Nat.lt_succ_self _)
    (here.lt_iff.mpr (List.cons_ne_nil line rest))]
  exact looped

/-- A run that is deeper than the base is less deep below its own least indentation. -/
theorem excess_leastIndent_lt {base : Nat} {run : List Entry} (filled : run ≠ [])
    (deeper : ∀ entry ∈ run, base < entry.indent) : excess (leastIndent run) run < excess base run := by
  have lower := lt_leastIndent filled deeper
  cases run with
  | nil => exact absurd rfl filled
  | cons first others =>
    have inner := excess_le_of_le lower.le others
    have deep := deeper first List.mem_cons_self
    rw [excess_cons, excess_cons]
    omega

theorem findIdx?_elim (p : Entry → Bool) (items : List Entry) (index : Nat) :
    (items.findIdx? p).elim (index + items.length) (index + ·) =
      index + (items.takeWhile fun item => !p item).length := by
  induction items generalizing index with
  | nil => rfl
  | cons item items ih =>
    rw [List.findIdx?_cons]
    by_cases found : p item
    · simp [found]
    · have later := ih (index + 1)
      simp only [found, List.takeWhile_cons, Bool.not_false, if_true, List.length_cons, Bool.false_eq_true,
        if_false]
      cases place : items.findIdx? p <;> simp_all

variable {base : Nat} {entries run : List Entry}

theorem rowPass?_of_deep {entry : Entry} {others : List Entry} (here : IsAt entries index (entry :: others))
    (deep : ¬entry.indent ≤ base) (rows : List Row) :
    ∃ next, rowPass? base entries rows index =
        some (some (rows ++ [.run (entry :: others.takeWhile fun e => base < e.indent)], next)) ∧
      index < next ∧ IsAt entries next (others.dropWhile fun e => base < e.indent) := by
  have parts : IsAt entries index
      ((entry :: others.takeWhile fun e => base < e.indent) ++ others.dropWhile fun e => base < e.indent) := by
    rwa [List.cons_append, List.takeWhile_append_dropWhile]
  have place := findIdx?_elim (fun e => decide (e.indent ≤ base)) (entry :: others) index
  have run : ((entry :: others).takeWhile fun e => !decide (e.indent ≤ base)) =
      entry :: others.takeWhile fun e => base < e.indent := by
    have test : (fun e : Entry => !decide (e.indent ≤ base)) = fun e => decide (base < e.indent) := by
      simp only [← Nat.not_le, decide_not]
    rw [test, List.takeWhile_cons_of_pos (by simpa using deep)]
  rw [here.length_eq, run] at place
  refine ⟨_, ?_, ?_, parts.add⟩
  · rw [rowPass?, here.visit?, if_neg deep, here.suffix?, Option.bind_eq_bind, Option.bind_some, place]
    simp only [parts.slice?]
    rfl
  · rw [List.length_cons]
    omega

/-- The rows become the nested lines if each run does. -/
theorem loop?_rowPass? (base : Nat) (here : IsAt entries index run) (rows : List Row) (build : Row → Option Verse)
    (line : ∀ entry, build (.line entry) = some (.line entry))
    (deeper : ∀ inner, inner ≠ [] → inner.Sublist entries → (∀ entry ∈ inner, base < entry.indent) →
      build (.run inner) = some (.block (nest (leastIndent inner) inner))) :
    ∃ found next, loop? entries.length (rowPass? base entries) rows index = some (rows ++ found, next) ∧
      found.mapM build = some (nest base run) := by
  fun_induction nest base run generalizing index rows with
  | case1 =>
    refine ⟨[], index, ?_, rfl⟩
    rw [loop?_of_ends (visit?_of_le here.length_eq.ge _), List.append_nil]
  | case2 base entry others flat ih =>
    obtain ⟨found, next, looped, made⟩ := ih here.succ (rows ++ [.line entry]) deeper
    have advances : rowPass? base entries rows index = some (some (rows ++ [.line entry], index + 1)) := by
      rw [rowPass?, here.visit?, if_pos flat]
    refine ⟨.line entry :: found, next, ?_, ?_⟩
    · rw [loop?_of_advances advances (Nat.lt_succ_self _) (here.lt_iff.mpr (List.cons_ne_nil _ _)), looped,
        List.append_assoc]
      rfl
    · rw [List.mapM_cons, line, made]
      rfl
  | case3 base entry others deep run =>
    rename_i ih
    obtain ⟨middle, advances, forward, there⟩ := rowPass?_of_deep here deep rows
    obtain ⟨found, next, looped, made⟩ := ih there (rows ++ [.run run]) deeper
    refine ⟨.run run :: found, next, ?_, ?_⟩
    · rw [loop?_of_advances advances forward (here.lt_iff.mpr (List.cons_ne_nil _ _)), looped, List.append_assoc]
      rfl
    · have part : run.Sublist entries := by
        obtain ⟨front, rfl, _⟩ := here
        exact ((List.takeWhile_sublist _).cons_cons entry).trans (List.sublist_append_right _ _)
      rw [List.mapM_cons, deeper run (List.cons_ne_nil _ _) part (lt_indent_of_mem_run deep), made]
      rfl

/-- Nesting by index gives the nested lines, and no run is as deep as what surrounds it. -/
theorem nest?_eq (base : Nat) (entries : List Entry) : nest? base entries = some (nest base entries) := by
  induction measure : excess base entries using Nat.strong_induction_on generalizing base entries with
  | h size ih =>
    subst measure
    rw [nest?]
    have rows := loop?_rowPass? base (isAt_zero entries) [] (fun
      | .line entry => some (.line entry)
      | .run run =>
        let inner := (run.map Entry.indent).min?.getD (base + 1)
        if _ : excess inner run < excess base entries then (nest? inner run).map .block else none)
      (fun _ => rfl) fun inner filled part deeper => by
        have same : (inner.map Entry.indent).min?.getD (base + 1) = leastIndent inner := by
          rw [leastIndent]
          cases found : (inner.map Entry.indent).min? with
          | none => simp [filled] at found
          | some least => rfl
        have smaller := Nat.lt_of_lt_of_le (excess_leastIndent_lt filled deeper) (excess_le_of_sublist base part)
        simp only [same, dif_pos smaller, ih _ smaller _ _ rfl]
        rfl
    obtain ⟨found, next, looped, made⟩ := rows
    rw [looped, List.nil_append, Option.bind_some]
    exact made

theorem verses?_eq (entries : List Entry) : verses? entries = some (verses entries) := nest?_eq _ entries

end RstPress.Cursor
