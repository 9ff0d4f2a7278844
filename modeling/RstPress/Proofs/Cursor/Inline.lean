import RstPress.Inline.Token
import RstPress.Proofs.Cursor.Access
import RstPress.Proofs.Grammar.Inline

/-!
Inline markup by index. The characters of a text are looked up where the reading stands, in front of it and
behind it, and the content of markup and the name of a role are slices. A step over an escaped character may
lead past the end of the text; nothing is looked up there.
-/

namespace RstPress.Cursor
open Text Inline RstPress.Tree

def beginsAt (chars : List Char) (index : Nat) (pattern : List Char) : Bool := pattern.isPrefixOf (chars.drop index)

/-- The role at an index, if there is one, and where it ends. -/
def roleAt? (chars : List Char) (index : Nat) : Option (Option (List Char × Nat)) :=
  if chars[index]? = some ':' then do
    let after ← suffix? (index + 1) chars
    let size := (after.takeWhile isRoleChar).length
    if size ≠ 0 ∧ chars[index + 1 + size]? = some ':' then
      return some (← slice? (index + 1) (index + 1 + size) chars, index + 1 + size + 1)
    else return none
  else some none

/-- The suffix of interpreted text at an index, and where it ends. -/
def suffixAt? (chars : List Char) (index : Nat) : Option (Suffix × Nat) :=
  if chars[index]? = some '_' then
    some (.reference, if chars[index + 1]? = some '_' then index + 2 else index + 1)
  else (roleAt? chars index).map fun
    | some (name, next) => (.role name, next)
    | none => (.nothing, index)

/-- Where the markup with its suffix is over, if its end string stands at the index. -/
def overAt? (markup : Markup) (chars : List Char) (index : Nat) : Option Nat :=
  let next := index + markup.delimiter.length
  if markup = .interpreted then (suffixAt? chars next).map Prod.snd else some next

/-- Whether the end string at an index ends the markup. -/
def endAllowed? (markup : Markup) (chars : List Char) (index : Nat) : Option Bool := do
  let last ← previous? chars index
  if isBlank last then return false
  else return mayEnd chars[← overAt? markup chars index]?.toList

/-- Whether the markup whose content begins at `start` ends at an index. -/
def endsAt? (markup : Markup) (chars : List Char) (start index : Nat) : Option Bool :=
  if beginsAt chars index markup.delimiter ∧ start < index then endAllowed? markup chars index else some false

/-- Looks for the end string at an index. The search is over where it is found, or where it does not fit. -/
def searchPass? (markup : Markup) (chars : List Char) (start : Nat) (_ : Unit) (index : Nat) :
    Option (Option (Unit × Nat)) :=
  if index + markup.delimiter.length ≤ chars.length then do
    let c ← chars[index]?
    if markup.escapes && c = '\\' then return some ((), index + 2)
    else return if ← endsAt? markup chars start index then none else some ((), index + 1)
  else some none

/-- Where the search for the end of markup is over, from an index on. -/
def searchFrom? (markup : Markup) (chars : List Char) (start index : Nat) : Option (Option Nat) :=
  (loop? chars.length (searchPass? markup chars start) () index).map fun (_, stop) =>
    if stop + markup.delimiter.length ≤ chars.length then some stop else none

def search? (markup : Markup) (chars : List Char) (start : Nat) : Option (Option Nat) :=
  searchFrom? markup chars start start

/-- What begins at an index. A span comes with the index behind it. -/
inductive Outcome where
  | nothing
  | unclosed (markup : Markup)
  | span (node : Node) (next : Nat)

/-- Whether content may begin at `start`, the start string standing at the index. -/
def contentMayBegin? (chars : List Char) (index start : Nat) : Option Bool :=
  (before? chars index).map fun before => contentMayBegin before chars[start]?.toList

/-- The span with the given content, what follows its end string being at an index. -/
def spanAt? (markup : Markup) (content chars : List Char) (next : Nat) : Option Outcome :=
  match markup with
  | .literal => some (.span (.composite .literal [textNode content]) next)
  | .strong => some (.span (.composite .strong [textNode (unescape content)]) next)
  | .emphasis => some (.span (.composite .emphasis [textNode (unescape content)]) next)
  | .interpreted => (suffixAt? chars next).map fun
    | (.nothing, next) => .span (interpretedNode none content) next
    | (.role name, next) => .span (interpretedNode (some name) content) next
    | (.reference, next) => .span (.unknown referenceKind [textNode (unescape content)]) next

/-- Interpreted text behind the role at an index. -/
def rolePrefixAt? (chars : List Char) (index : Nat) : Option Outcome := do
  match ← roleAt? chars index with
  | none => return .nothing
  | some (name, opening) =>
    if chars[opening]? = some '\x60' then
      if ← contentMayBegin? chars opening (opening + 1) then
        match ← search? .interpreted chars (opening + 1) with
        | none => return .nothing
        | some stop => return .span (interpretedNode (some name) (← slice? (opening + 1) stop chars)) (stop + 1)
      else return .nothing
    else return .nothing

def markupAt? (chars : List Char) (index : Nat) : Option Outcome := do
  if mayBegin (← before? chars index) then
    let c ← chars[index]?
    if c = ':' then rolePrefixAt? chars index
    else
      match Markup.first? (chars.drop index) with
      | none => return .nothing
      | some markup =>
        let start := index + markup.delimiter.length
        if ← contentMayBegin? chars index start then
          match ← search? markup chars start with
          | none => return .unclosed markup
          | some stop => spanAt? markup (← slice? start stop chars) chars (stop + markup.delimiter.length)
        else return .nothing
  else return .nothing

/-- The tokens of a backslash, given what follows it and whether the text is over behind that. -/
def escapeTokens (next : Option Char) (beyond : Bool) : List Token :=
  match next with
  | none => [.char '\\']
  | some c => if c = ' ' then [] else if c = '\n' && beyond then [.char '\\', .char c] else [.char c]

/-- Reads the token at an index. -/
def tokenPass? (chars : List Char) (found : List Token) (index : Nat) : Option (Option (List Token × Nat)) :=
  visit? chars index fun c =>
    if c = '\\' then
      some (some (found ++ escapeTokens chars[index + 1]? (index + 2 = chars.length), index + 2))
    else do
      match ← markupAt? chars index with
      | .nothing => return some (found ++ [.char c], index + 1)
      | .unclosed markup => return some (found ++ [.unclosed markup, .char c], index + 1)
      | .span node next => return some (found ++ [.node node], next)

def tokens? (chars : List Char) : Option (List Token) :=
  (loop? chars.length (tokenPass? chars) [] 0).map Prod.fst

variable {chars rest : List Char} {index : Nat}

theorem beginsAt_eq (here : IsAt chars index rest) (pattern : List Char) :
    beginsAt chars index pattern = pattern.isPrefixOf rest := by
  rw [beginsAt, here.drop_eq]

/-- A role at an index is the role in front of the rest. -/
theorem roleAt?_eq (here : IsAt chars index rest) :
    (role? rest = none ∧ roleAt? chars index = some none) ∨
      ∃ name after next, role? rest = some (name, after) ∧ roleAt? chars index = some (some (name, next)) ∧
        index < next ∧ IsAt chars next after := by
  have first : chars[index]? = rest.head? := here.head?
  cases rest with
  | nil => exact .inl ⟨rfl, by rw [roleAt?, first]; rfl⟩
  | cons c text =>
    by_cases colon : c = ':'
    · subst colon
      have first : chars[index]? = some ':' := here.head?
      have parts : IsAt chars (index + 1) (text.takeWhile isRoleChar ++ text.dropWhile isRoleChar) := by
        rw [List.takeWhile_append_dropWhile]
        exact here.succ
      have close : chars[index + 1 + (text.takeWhile isRoleChar).length]? = (text.dropWhile isRoleChar).head? :=
        parts.add.head?
      rw [roleAt?, if_pos first, here.succ.suffix?, role?]
      simp only [Option.bind_eq_bind, Option.bind_some, close, parts.slice?]
      cases behind : text.dropWhile isRoleChar with
      | nil => exact .inl ⟨rfl, by simp⟩
      | cons d after =>
        rw [behind] at parts
        by_cases whole : (text.takeWhile isRoleChar).length ≠ 0 ∧ d = ':'
        · obtain ⟨filled, rfl⟩ := whole
          have named : (text.takeWhile isRoleChar).isEmpty = false := by simpa using filled
          exact .inr ⟨text.takeWhile isRoleChar, after, _, by simp [named], if_pos ⟨filled, rfl⟩, by omega,
            parts.add.succ⟩
        · have other : ¬((text.takeWhile isRoleChar).length ≠ 0 ∧ (d :: after).head? = some ':') := by
            simpa using whole
          refine .inl ⟨if_neg ?_, if_neg other⟩
          simpa [and_comm] using whole
    · have other : chars[index]? ≠ some ':' := by simpa [first] using colon
      refine .inl ⟨?_, if_neg other⟩
      rw [role?]
      cases text.dropWhile isRoleChar <;> simp [colon]

/-- A suffix at an index is the suffix in front of the rest. -/
theorem suffixAt?_eq (here : IsAt chars index rest) :
    ∃ next, suffixAt? chars index = some ((suffix rest).1, next) ∧ index ≤ next ∧
      IsAt chars next (suffix rest).2 := by
  have first : chars[index]? = rest.head? := here.head?
  rcases roleAt?_eq here with ⟨plain, none⟩ | ⟨name, after, next, role, found, forward, there⟩
  · cases rest with
    | nil => exact ⟨index, by rw [suffixAt?, first, if_neg (by simp), none]; rfl, Nat.le_refl _, here⟩
    | cons c text =>
      by_cases mark : c = '_'
      · subst mark
        have first : chars[index]? = some '_' := here.head?
        have second : chars[index + 1]? = text.head? := here.succ.head?
        rw [suffixAt?, if_pos first, second]
        cases text with
        | nil => exact ⟨index + 1, by simp [suffix, plain], Nat.le_succ _, by simpa [suffix, plain] using here.succ⟩
        | cons d more =>
          have same : suffix ('_' :: d :: more) = (.reference, if d = '_' then more else d :: more) := by
            simp [suffix, plain]
          simp only [same, List.head?_cons, Option.some_inj]
          by_cases double : d = '_'
          · rw [if_pos double, if_pos double]
            exact ⟨index + 2, rfl, Nat.le_add_right _ _, here.succ.succ⟩
          · rw [if_neg double, if_neg double]
            exact ⟨index + 1, rfl, Nat.le_succ _, here.succ⟩
      · have same : suffix (c :: text) = (.nothing, c :: text) := by
          simp [suffix, plain, mark]
        refine ⟨index, ?_, Nat.le_refl _, by rwa [same]⟩
        rw [suffixAt?, first, if_neg (by simpa using mark), none, same]
        rfl
  · have same : suffix rest = (.role name, after) := by simp [suffix, role]
    have other : chars[index]? ≠ some '_' := by
      rw [first, eq_of_role? role]
      simp
    refine ⟨next, ?_, forward.le, by rwa [same]⟩
    rw [suffixAt?, if_neg other, found, same]
    rfl

theorem mayEnd_head? (text : List Char) : mayEnd text.head?.toList = mayEnd text := by
  cases text <;> rfl

theorem contentMayBegin_head? (before : Option Char) (text : List Char) :
    contentMayBegin before text.head?.toList = contentMayBegin before text := by
  cases text <;> rfl

/-- What is checked behind an end string is what follows there. -/
theorem overAt?_eq {markup : Markup} {after : List Char} (here : IsAt chars index (markup.delimiter ++ after)) :
    ∃ next, overAt? markup chars index = some next ∧ mayEnd chars[next]?.toList = markup.mayEndBefore after := by
  rw [overAt?, Markup.mayEndBefore]
  split
  · obtain ⟨next, found, _, there⟩ := suffixAt?_eq here.add
    refine ⟨next, congrArg (Option.map Prod.snd) found, ?_⟩
    rw [there.head?, mayEnd_head?]
  · refine ⟨_, rfl, ?_⟩
    rw [here.add.head?, mayEnd_head?]

theorem endAllowed?_eq {markup : Markup} {after : List Char} {last : Char}
    (here : IsAt chars index (markup.delimiter ++ after)) (behind : previous? chars index = some last) :
    endAllowed? markup chars index = some (!isBlank last && markup.mayEndBefore after) := by
  obtain ⟨next, beyond, same⟩ := overAt?_eq here
  rw [endAllowed?, behind, Option.bind_eq_bind, Option.bind_some]
  cases isBlank last with
  | true => rfl
  | false =>
    rw [if_neg Bool.false_ne_true, beyond]
    exact congrArg some same

/-- The search stands at its start, or behind a character that it has passed over. -/
inductive Passed (chars : List Char) (start : Nat) : Nat → Option Char → Prop where
  | start : Passed chars start start none
  | behind {index : Nat} {last : Char} (past : start < index) (previous : previous? chars index = some last) :
    Passed chars start index (some last)

theorem previous?_succ (index : Nat) : previous? chars (index + 1) = chars[index]? := by
  rw [previous?, difference?_add, Option.bind_some]

theorem endsAt?_eq (markup : Markup) {start : Nat} {last : Option Char} (here : IsAt chars index rest)
    (passed : Passed chars start index last) :
    endsAt? markup chars start index =
      some (match markup.delimiter.isPrefixOf? rest with
        | some after => (last.any fun d => !isBlank d) && markup.mayEndBefore after
        | none => false) := by
  rw [endsAt?, beginsAt_eq here]
  cases matched : markup.delimiter.isPrefixOf? rest with
  | none =>
    have other : ¬markup.delimiter.isPrefixOf rest := fun front => by
      obtain ⟨after, same⟩ := List.isPrefixOf_iff_prefix.mp front
      rw [isPrefixOf?_eq_some_iff.mpr same.symm] at matched
      cases matched
    exact if_neg fun begins => other begins.1
  | some after =>
    obtain rfl := isPrefixOf?_eq_some_iff.mp matched
    have front : markup.delimiter.isPrefixOf (markup.delimiter ++ after) := by simp
    cases passed with
    | start => simp
    | behind past previous => rw [if_pos ⟨front, past⟩, endAllowed?_eq here previous]; rfl

theorem length_delimiter_le (markup : Markup) : markup.delimiter.length ≤ 2 := by cases markup <;> decide

/-- The search fails where the end string does not fit any more. -/
theorem searchFrom?_of_lt {markup : Markup} {start : Nat} (beyond : chars.length < index + markup.delimiter.length) :
    searchFrom? markup chars start index = some none := by
  have short := Nat.not_le.mpr beyond
  rw [searchFrom?, loop?_of_ends (if_neg short)]
  exact congrArg some (if_neg short)

theorem searchFrom?_of_goes {markup : Markup} {start next : Nat}
    (goes : searchPass? markup chars start () index = some (some ((), next))) (forward : index < next)
    (fits : index + markup.delimiter.length ≤ chars.length) :
    searchFrom? markup chars start index = searchFrom? markup chars start next := by
  have positive := length_pos_delimiter markup
  rw [searchFrom?, loop?_of_advances goes forward (by omega), searchFrom?]

theorem searchPass?_of_escape {markup : Markup} {start : Nat} {c : Char} (here : IsAt chars index (c :: rest))
    (escaped : markup.escapes && c = '\\') (fits : index + markup.delimiter.length ≤ chars.length) :
    searchPass? markup chars start () index = some (some ((), index + 2)) := by
  rw [searchPass?, if_pos fits, here.head?, List.head?_cons, Option.bind_eq_bind, Option.bind_some, if_pos escaped]
  rfl

theorem searchPass?_of_plain {markup : Markup} {start : Nat} {c : Char} {ends : Bool}
    (here : IsAt chars index (c :: rest)) (plain : ¬(markup.escapes && c = '\\'))
    (fits : index + markup.delimiter.length ≤ chars.length) (found : endsAt? markup chars start index = some ends) :
    searchPass? markup chars start () index = some (if ends then none else some ((), index + 1)) := by
  rw [searchPass?, if_pos fits, here.head?, List.head?_cons, Option.bind_eq_bind, Option.bind_some, if_neg plain,
    found]
  rfl

/-- The search from an index on ends where the markup is closed. -/
theorem searchFrom?_eq {markup : Markup} {start : Nat} {last : Option Char} (here : IsAt chars index rest)
    (passed : Passed chars start index last) :
    searchFrom? markup chars start index =
      some ((markup.close? last rest).map fun found => index + found.1.length) := by
  have positive := length_pos_delimiter markup
  have small := length_delimiter_le markup
  have size := here.length_eq
  have le : start ≤ index := by cases passed <;> omega
  fun_induction Markup.close? markup last rest generalizing index with
  | case1 last => exact searchFrom?_of_lt (by rw [List.length_nil] at size; omega)
  | case2 last c escaped =>
    rw [List.length_singleton] at size
    by_cases fits : index + markup.delimiter.length ≤ chars.length
    · rw [searchFrom?_of_goes (searchPass?_of_escape here escaped fits) (by omega) fits]
      exact searchFrom?_of_lt (by omega)
    · exact searchFrom?_of_lt (by omega)
  | case3 last c escaped d text ih =>
    simp only [List.length_cons] at size
    have fits : index + markup.delimiter.length ≤ chars.length := by omega
    have previous : previous? chars (index + 2) = some d := (previous?_succ _).trans here.succ.head?
    have later := ih here.succ.succ (.behind (by omega) previous) (by omega) (by omega)
    rw [searchFrom?_of_goes (searchPass?_of_escape here escaped fits) (by omega) fits, later]
    cases markup.close? (some d) text <;> simp
    omega
  | case4 last c text plain after matched ends =>
    have fits : index + markup.delimiter.length ≤ chars.length := by
      rw [isPrefixOf?_eq_some_iff.mp matched, List.length_append] at size
      omega
    have found := endsAt?_eq markup here passed
    simp only [matched, ends] at found
    rw [searchFrom?, loop?_of_ends (searchPass?_of_plain here plain fits found)]
    exact congrArg some (if_pos fits)
  | case5 last c text plain after matched goes ih | case6 last c text plain unmatched ih =>
    rw [List.length_cons] at size
    have previous : previous? chars (index + 1) = some c := (previous?_succ _).trans here.head?
    have later := ih here.succ (.behind (by omega) previous) (by omega) (by omega)
    have found : endsAt? markup chars start index = some false := by
      rw [endsAt?_eq markup here passed]
      simp [*]
    by_cases fits : index + markup.delimiter.length ≤ chars.length
    · rw [searchFrom?_of_goes (searchPass?_of_plain here plain fits found) (Nat.lt_succ_self _) fits, later]
      cases markup.close? (some c) text <;> simp
      omega
    · rw [searchFrom?_of_lt (by omega)] at later ⊢
      have endless := Option.map_eq_none_iff.mp (Option.some.inj later).symm
      rw [endless]
      rfl

/-- The end of markup is looked for as far as the text goes, and no farther. -/
theorem search?_eq {markup : Markup} (here : IsAt chars index rest) :
    search? markup chars index = some ((markup.close? none rest).map fun found => index + found.1.length) :=
  searchFrom?_eq here .start

/-- What begins at an index is what is tried there, a span ending where the rest behind it begins. -/
inductive Fits (chars : List Char) : Outcome → Trial → Prop where
  | nothing : Fits chars .nothing .nothing
  | unclosed (markup : Markup) : Fits chars (.unclosed markup) (.unclosed markup)
  | span {node : Node} {next : Nat} {last : Char} {rest : List Char} (there : IsAt chars next rest) :
    Fits chars (.span node next) (.span node last rest)

theorem spanAt?_fits (there : IsAt chars index rest) (markup : Markup) (content : List Char) :
    ∃ outcome, spanAt? markup content chars index = some outcome ∧
      Fits chars outcome (markup.span content rest) := by
  cases markup with
  | literal | strong | emphasis => exact ⟨_, rfl, .span there⟩
  | interpreted =>
    obtain ⟨stop, found, _, behind⟩ := suffixAt?_eq there
    rw [spanAt?, found, Markup.span]
    rcases kind : suffix rest with ⟨_ | _ | name, after⟩
    all_goals
      rw [kind] at behind
      exact ⟨_, rfl, .span behind⟩

theorem contentMayBegin?_eq {start : Nat} {before : Option Char} (behind : before? chars index = some before)
    (there : IsAt chars start rest) :
    contentMayBegin? chars index start = some (contentMayBegin before rest) := by
  rw [contentMayBegin?, behind, Option.map_some, there.head?, contentMayBegin_head?]

theorem before?_of_previous? {c : Char} (behind : previous? chars index = some c) :
    before? chars index = some (some c) := by
  cases index with
  | zero => cases behind
  | succ index => rw [before?, ← previous?_succ, behind, Option.map_some]

/-- Content that is closed is a slice, and behind its end string the text goes on. -/
theorem slice?_of_close? {markup : Markup} {content after : List Char} (there : IsAt chars index rest)
    (closed : markup.close? none rest = some (content, after)) :
    slice? index (index + content.length) chars = some content ∧
      IsAt chars (index + content.length + markup.delimiter.length) after := by
  rw [eq_of_close? closed, List.append_assoc] at there
  exact ⟨there.slice?, there.add.add⟩

theorem rolePrefixAt?_fits {name after : List Char} {next : Nat} (here : IsAt chars index rest)
    (role : role? rest = some (name, after)) (found : roleAt? chars index = some (some (name, next)))
    (there : IsAt chars next after) :
    ∃ outcome, rolePrefixAt? chars index = some outcome ∧ Fits chars outcome (tryRole name after) := by
  have whole : rest = (':' :: name ++ [':']) ++ after := by simp [eq_of_role? role]
  rw [whole] at here
  have behind : previous? chars next = some ':' :=
    (here.previous?_eq there (by simp)).trans (List.getLast?_concat ..)
  rw [rolePrefixAt?, found, tryRole]
  simp only [Option.bind_eq_bind, Option.bind_some, there.head?]
  cases opened : Markup.interpreted.delimiter.isPrefixOf? after with
  | none =>
    have other : after.head? ≠ some '\x60' := fun mark => by
      obtain ⟨content, rfl⟩ := List.head?_eq_some_iff.mp mark
      have front : Markup.interpreted.delimiter.isPrefixOf? ('\x60' :: content) = some content :=
        isPrefixOf?_eq_some_iff.mpr rfl
      rw [front] at opened
      cases opened
    rw [if_neg other]
    exact ⟨_, rfl, .nothing⟩
  | some content =>
    obtain rfl := isPrefixOf?_eq_some_iff.mp opened
    have inside : IsAt chars (next + 1) content := there.succ
    have begins := contentMayBegin?_eq (before?_of_previous? behind) inside
    have mark : (Markup.interpreted.delimiter ++ content).head? = some '\x60' := rfl
    rw [if_pos mark, begins, Option.bind_some]
    simp only
    split
    · rw [search?_eq inside]
      cases closed : Markup.interpreted.close? none content with
      | none => exact ⟨_, rfl, .nothing⟩
      | some parts =>
        obtain ⟨inner, rest⟩ := parts
        obtain ⟨slice, there⟩ := slice?_of_close? inside closed
        simp only [Option.map_some, Option.bind_some, slice]
        exact ⟨_, rfl, .span there⟩
    · exact ⟨_, rfl, .nothing⟩

theorem markupAt?_fits {before : Option Char} {c : Char} {text : List Char} (here : IsAt chars index (c :: text))
    (behind : before? chars index = some before) :
    ∃ outcome, markupAt? chars index = some outcome ∧ Fits chars outcome (trySpan before (c :: text)) := by
  rw [markupAt?, behind, trySpan]
  simp only [Option.bind_eq_bind, Option.bind_some, here.head?, List.head?_cons, here.drop_eq]
  by_cases begins : mayBegin before
  · rw [if_pos begins, if_pos begins]
    by_cases colon : c = ':'
    · subst colon
      rw [if_pos rfl]
      rcases roleAt?_eq here with ⟨plain, none⟩ | ⟨name, after, next, role, found, _, there⟩
      · have other : Markup.first? (':' :: text) = Option.none := rfl
        rw [plain, other]
        exact ⟨.nothing, by rw [rolePrefixAt?, none]; rfl, .nothing⟩
      · rw [role]
        exact rolePrefixAt?_fits here role found there
    · have plain : role? (c :: text) = none := by
        rw [Option.eq_none_iff_forall_ne_some]
        exact fun found role => colon (List.cons.inj (eq_of_role? role)).1
      rw [if_neg colon, plain]
      cases starts : Markup.first? (c :: text) with
      | none => exact ⟨_, rfl, .nothing⟩
      | some markup =>
        have front := List.find?_some starts
        obtain ⟨content, same⟩ := List.isPrefixOf_iff_prefix.mp front
        have there : IsAt chars (index + markup.delimiter.length) content := by
          rw [← same] at here
          exact here.add
        have dropped : (c :: text).drop markup.delimiter.length = content := by rw [← same, List.drop_left]
        simp only [contentMayBegin?_eq behind there, Option.bind_some, dropped, tryMarkup]
        split
        · rw [search?_eq there]
          cases closed : markup.close? none content with
          | none => exact ⟨_, rfl, .unclosed markup⟩
          | some parts =>
            obtain ⟨slice, beyond⟩ := slice?_of_close? there closed
            simp only [Option.map_some, Option.bind_some, slice]
            exact spanAt?_fits beyond markup parts.1
        · exact ⟨_, rfl, .nothing⟩
  · rw [if_neg begins, if_neg begins]
    exact ⟨_, rfl, .nothing⟩

theorem tokens_of_escape (before : Option Char) (c : Char) (text : List Char) :
    tokens before ('\\' :: c :: text) = escapeTokens (some c) text.isEmpty ++ tokens (some c) text := by
  rw [tokens, if_pos rfl, escapeTokens]
  by_cases space : c = ' '
  · simp [space]
  · simp only [space, if_false]
    split
    · rename_i last
      rw [List.isEmpty_iff.mp (Bool.and_eq_true_iff.mp last).2, tokens]
      rfl
    · rfl

theorem tokens_of_plain {before : Option Char} {c : Char} (plain : c ≠ '\\') (text : List Char) :
    tokens before (c :: text) =
      match trySpan before (c :: text) with
      | .nothing => .char c :: tokens (some c) text
      | .unclosed markup => .unclosed markup :: .char c :: tokens (some c) text
      | .span node last rest => .node node :: tokens (some last) rest := by
  rw [tokens.eq_def]
  simp only [plain, if_false]
  split <;> simp only [*]

/-- Where the text goes on behind an item of it. -/
theorem before?_succ {c : Char} (here : IsAt chars index (c :: rest)) :
    before? chars (index + 1) = some (some c) := by
  rw [before?, here.head?]
  rfl

/-- Behind a span the text goes on after its last character. -/
theorem before?_of_span {before : Option Char} {text : List Char} {node : Node} {last : Char} {next : Nat}
    (here : IsAt chars index text) (found : trySpan before text = .span node last rest)
    (there : IsAt chars next rest) : index < next ∧ before? chars next = some (some last) := by
  have shorter := length_trySpan_lt found
  obtain ⟨_, _, front, rfl⟩ := exists_of_trySpan found
  refine ⟨here.lt there shorter, before?_of_previous? ?_⟩
  rw [List.append_cons] at here
  rw [here.previous?_eq there (by simp), List.getLast?_concat]

/-- A pass takes one token or two, or drops an escaped space, and moves on to the text behind; a backslash at
the very end leads it past the end of the text. -/
theorem tokenPass?_eq {before : Option Char} {c : Char} {text : List Char} (here : IsAt chars index (c :: text))
    (behind : before? chars index = some before) (found : List Token) :
    ∃ own next, tokenPass? chars found index = some (some (found ++ own, next)) ∧ index < next ∧
      ((next = chars.length + 1 ∧ tokens before (c :: text) = own) ∨
        ∃ last rest, IsAt chars next rest ∧ before? chars next = some (some last) ∧
          tokens before (c :: text) = own ++ tokens (some last) rest) := by
  have visited : tokenPass? chars found index = _ := here.visit? _
  have size := here.length_eq
  by_cases escape : c = '\\'
  · have second : chars[index + 1]? = text.head? := here.succ.head?
    rw [if_pos escape, second] at visited
    subst escape
    refine ⟨_, index + 2, visited, by omega, ?_⟩
    cases text with
    | nil =>
      rw [List.length_singleton] at size
      exact .inl ⟨by omega, by rw [tokens]; rfl⟩
    | cons d text =>
      have beyond : decide (index + 2 = chars.length) = text.isEmpty := by
        simp only [List.length_cons] at size
        rw [Bool.eq_iff_iff, decide_eq_true_eq, List.isEmpty_iff, ← List.length_eq_zero_iff]
        omega
      refine .inr ⟨d, text, here.succ.succ, before?_succ here.succ, ?_⟩
      rw [tokens_of_escape, beyond]
      rfl
  · obtain ⟨outcome, tried, fits⟩ := markupAt?_fits here behind
    rw [if_neg escape, tried] at visited
    rw [tokens_of_plain escape]
    generalize trial : trySpan before (c :: text) = tried at fits
    cases fits with
    | nothing | unclosed =>
      exact ⟨_, _, visited, Nat.lt_succ_self _, .inr ⟨c, text, here.succ, before?_succ here, rfl⟩⟩
    | span there =>
      obtain ⟨forward, after⟩ := before?_of_span here trial there
      exact ⟨_, _, visited, forward, .inr ⟨_, _, there, after, rfl⟩⟩

/-- The tokens from an index on are those of the rest there. -/
theorem loop?_tokenPass? {before : Option Char} (here : IsAt chars index rest)
    (behind : before? chars index = some before) (found : List Token) :
    ∃ next, loop? chars.length (tokenPass? chars) found index = some (found ++ tokens before rest, next) := by
  induction size : rest.length using Nat.strong_induction_on generalizing index rest before found with
  | h size ih =>
    subst size
    cases rest with
    | nil =>
      refine ⟨index, ?_⟩
      rw [loop?_of_ends (visit?_of_le here.length_eq.ge _), tokens, List.append_nil]
    | cons c text =>
      have inside := here.lt_iff.mpr (List.cons_ne_nil c text)
      obtain ⟨own, next, advances, forward, ⟨rfl, whole⟩ | ⟨last, rest, there, after, whole⟩⟩ :=
        tokenPass?_eq here behind found
      · refine ⟨chars.length + 1, ?_⟩
        rw [loop?_of_advances advances forward inside, loop?_of_ends (visit?_of_le (Nat.le_succ _) _), whole]
      · have shorter : rest.length < (c :: text).length := by
          have first := here.length_eq
          have second := there.length_eq
          omega
        obtain ⟨stop, looped⟩ := ih _ shorter there after (found ++ own) rfl
        refine ⟨stop, ?_⟩
        rw [loop?_of_advances advances forward inside, looped, whole, List.append_assoc]

/-- The tokens of a text are found without an access out of range, whatever the text. -/
theorem tokens?_eq (text : List Char) : tokens? text = some (tokens none text) := by
  obtain ⟨next, looped⟩ := loop?_tokenPass? (isAt_zero text) rfl []
  rw [tokens?, looped]
  rfl

end RstPress.Cursor
