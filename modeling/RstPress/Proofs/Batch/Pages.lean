import Mathlib.Data.List.Nodup
import RstPress.Cli.Run
import RstPress.Proofs.Disk.Path
import RstPress.Proofs.Text

/-!
The pages of a batch. All of them are names in one folder, so inputs with different stems have pages at
different places, unless one of these names is that of a link.
-/

namespace RstPress.Cli

/-- The last name of a path is that of a link, or a further name of a file. -/
def Disk.NamesLink (disk : Disk) (path : String) : Prop :=
  ∃ place, disk.placeOf (.ofText path) = .ok place ∧
    ((∃ target, disk.find? place = some (.link target)) ∨ ∃ first, disk.find? place = some (.sameAs first))

/-- A path that ends with no link leads to its last name, in the folder where the front of it leads. -/
theorem Disk.exists_around_of_leads {disk : Disk} {path : String} {place : Location} {front : List Name}
    {last : Name} (parts : (Path.ofText path).names = front ++ [last]) (filled : last.isEmpty = false)
    (leads : disk.Leads path place) (own : ¬disk.NamesLink path) :
    ∃ left around, disk.Follows false Place.linkLimit (start disk.home (.ofText path)) front left around ∧
      disk.step around last = .ok place := by
  obtain ⟨final, led, same⟩ := walk_eq_ok_iff.mp leads
  obtain ⟨short, left, follows⟩ := lead_eq_ok_iff.mp led
  rw [parts] at follows
  obtain ⟨mid, around, first, further⟩ := follows.exists_of_append
  have named {next : Location} (taken : disk.step around last = .ok next) :
      disk.placeOf (.ofText path) = .ok next := by
    have whole : (Path.ofText path).closed = front ++ [last] := by
      rw [Path.closed, parts, Text.dropEndWhile_append_singleton filled]
    rw [placeOf, whole, List.dropLast_concat, lead_eq_ok_iff.mpr ⟨short, mid, first⟩, List.getLast?_concat]
    exact taken
  refine ⟨mid, around, first, ?_⟩
  cases further with
  | @name _ _ _ next _ _ _ entered plain later =>
    have taken := (enter_eq_ok_iff.mp entered).2
    cases later
    have here : disk.origin final = final := by
      unfold origin
      split
      · next first found => exact absurd ⟨final, named taken, .inr ⟨first, found⟩⟩ own
      · rfl
    rwa [← same, here]
  | @link _ _ _ next _ _ _ target entered linked later =>
    have found : disk.find? next = some (.link target) := by
      unfold link? at linked
      split at linked
      · next found => exact found.trans (congrArg (some ∘ Entry.link) (Option.some.inj linked))
      · cases linked
    exact absurd ⟨next, named (enter_eq_ok_iff.mp entered).2, .inl ⟨target, found⟩⟩ own

theorem splitNames_eq_splitOn (text : List Char) : splitNames text = text.splitOn '/' := by
  induction text with
  | nil => rfl
  | cons c text ih =>
    obtain ⟨first, others, pieces⟩ := List.exists_cons_of_ne_nil (List.splitOn_ne_nil '/' text)
    rw [splitNames, List.splitOn_cons_eq_if_modifyHead, ih, pieces]
    simp

theorem slash_notMem_fileName {path : String} {name : Name}
    (named : (Path.ofText path).fileName? = some name) : '/' ∉ name := by
  unfold Path.fileName? at named
  obtain ⟨last, found, kept⟩ := Option.bind_eq_some_iff.mp named
  have member : last ∈ splitNames path.toList := (List.mem_filter.mp (List.mem_of_getLast? found)).1
  rw [splitNames_eq_splitOn] at member
  split at kept
  · cases kept
  · cases kept
    exact Text.notMem_of_mem_splitOn member

theorem Name.stem_isPrefix (name : Name) : name.stem <+: name := by
  unfold Name.stem
  split
  · exact List.prefix_refl _
  · exact List.prefix_refl _
  · next dot front _ split =>
    have kept : (dot :: front) <:+ name.reverse := split ▸ List.dropWhile_suffix _
    have inner := (List.suffix_cons dot front).trans kept
    rwa [← List.reverse_prefix, List.reverse_reverse] at inner

/-- What the page of an input is named after, if the input has a file name. -/
def stem? (input : String) : Option Name := (Path.ofText input).fileName?.map Name.stem

/-- The name of a page. -/
def pageName (stem : Name) : String := String.ofList stem ++ ".html"

/-- Where the page of an input is written. -/
def pageOf (folder input : String) : String := Path.join folder (pageName ((stem? input).getD []))

/-- Every input has a stem, and no two have the same. -/
def HaveOwnStems (inputs : List String) : Prop := none ∉ inputs.map stem? ∧ (inputs.map stem?).Nodup

instance (inputs : List String) : Decidable (HaveOwnStems inputs) := instDecidableAnd

theorem pageOf_of_fileName {folder input : String} {name : Name}
    (named : (Path.ofText input).fileName? = some name) :
    pageOf folder input = Path.join folder (String.ofList name.stem ++ ".html") := by
  rw [pageOf, stem?, named, Option.map_some, Option.getD_some, pageName]

theorem pagePaths_of_nodup {folder : String} {taken : List (String × String)} {inputs : List String}
    (stems : none ∉ inputs.map stem?) (apart : (inputs.map (pageOf folder)).Nodup)
    (free : ∀ input ∈ inputs, taken.lookup (pageOf folder input) = none) :
    pagePaths folder taken inputs = .ok (inputs.map (pageOf folder)) := by
  fun_induction pagePaths folder taken inputs with
  | case1 => rfl
  | case2 taken input inputs missing => simp [stem?, missing] at stems
  | case3 taken input inputs name named page earlier found =>
    have absent := free input List.mem_cons_self
    rw [pageOf_of_fileName named, found] at absent
    cases absent
  | case4 taken input inputs name named page absent ih =>
    rw [List.map_cons, List.nodup_cons] at apart
    have further : ∀ other ∈ inputs, List.lookup (pageOf folder other) ((page, input) :: taken) = none := by
      intro other member
      have distinct : pageOf folder other ≠ page := by
        intro same
        rw [pageOf_of_fileName named] at apart
        exact apart.1 (List.mem_map.mpr ⟨other, member, same⟩)
      rw [List.lookup_cons, beq_eq_false_iff_ne.mpr distinct]
      exact free other (List.mem_cons_of_mem _ member)
    rw [ih (fun missing => stems (List.mem_cons_of_mem _ missing)) apart.2 further, List.map_cons,
      pageOf_of_fileName named]
    rfl

theorem nodup_of_pagePaths {folder : String} {taken : List (String × String)} {inputs pages : List String}
    (found : pagePaths folder taken inputs = .ok pages) :
    none ∉ inputs.map stem? ∧ (inputs.map (pageOf folder)).Nodup ∧
      ∀ input ∈ inputs, taken.lookup (pageOf folder input) = none := by
  induction inputs generalizing taken pages with
  | nil => exact ⟨List.not_mem_nil, List.nodup_nil, List.forall_mem_nil _⟩
  | cons input inputs ih =>
    rw [pagePaths] at found
    split at found
    · cases found
    · next name named =>
      have same : pageOf folder input = _ := pageOf_of_fileName named
      simp only [← same] at found
      split at found
      · cases found
      · next absent =>
        cases rest : pagePaths folder ((pageOf folder input, input) :: taken) inputs with
        | error message =>
          rw [rest] at found
          cases found
        | ok others =>
          obtain ⟨stems, apart, free⟩ := ih rest
          have further (other : String) (member : other ∈ inputs) :
              pageOf folder other ≠ pageOf folder input ∧ taken.lookup (pageOf folder other) = none := by
            have clear := free other member
            rw [List.lookup_cons] at clear
            split at clear
            · cases clear
            · exact ⟨ne_of_beq_false ‹_›, clear⟩
          refine ⟨?_, ?_, List.forall_mem_cons.mpr ⟨absent, fun other member => (further other member).2⟩⟩
          · rw [List.map_cons, List.mem_cons, not_or]
            exact ⟨by simp [stem?, named], stems⟩
          · rw [List.map_cons, List.nodup_cons]
            refine ⟨fun present => ?_, apart⟩
            obtain ⟨other, member, alike⟩ := List.mem_map.mp present
            exact (further other member).1 alike

theorem toList_join (folder : String) : (∀ file, Path.join folder file = file) ∨
    ∃ front : List Char, ∀ file, (Path.join folder file).toList = front ++ '/' :: file.toList := by
  by_cases empty : folder.isEmpty
  · left
    intro file
    rw [Path.join, empty, Bool.true_or, if_pos rfl, String.isEmpty_iff.mp empty, String.empty_append]
  · right
    by_cases closed : folder.toList.getLast? = some '/'
    · obtain ⟨front, whole⟩ := List.getLast?_eq_some_iff.mp closed
      exact ⟨front, fun file => by simp [Path.join, whole]⟩
    · exact ⟨folder.toList, fun file => by simp [Path.join, empty, closed]⟩

/-- The paths of files in one folder differ in their last names only. -/
theorem exists_ofText_join (folder : String) : ∃ absolute front, ∀ file : String, '/' ∉ file.toList →
    Path.ofText (Path.join folder file) = ⟨absolute, front ++ [file.toList]⟩ := by
  rcases toList_join folder with plain | ⟨front, whole⟩
  · refine ⟨false, [], fun file flat => ?_⟩
    have relative : file.toList.head? ≠ some '/' := fun slash => flat (List.mem_of_head? slash)
    rw [plain, Path.ofText, decide_eq_false relative, splitNames_eq_splitOn,
      List.splitOn_eq_singleton flat]
    rfl
  · refine ⟨(front ++ ['/']).head? = some '/', splitNames front, fun file flat => ?_⟩
    rw [Path.ofText, whole, splitNames_eq_splitOn, splitNames_eq_splitOn,
      List.splitOn_append_cons_self, List.splitOn_eq_singleton flat]
    cases front <;> rfl

theorem slash_notMem_pageName {input : String} {stem : Name} (given : stem? input = some stem) :
    '/' ∉ (pageName stem).toList := by
  obtain ⟨name, named, rfl⟩ := Option.map_eq_some_iff.mp given
  have inside : '/' ∉ name.stem := fun slash =>
    slash_notMem_fileName named (name.stem_isPrefix.subset slash)
  simp [pageName, inside]

/-- A name of a page is looked up in the folder where it stands. -/
theorem eq_of_step_pageName {disk : Disk} {place next : Location} {stem : Name}
    (taken : disk.step place (pageName stem).toList = .ok next) :
    next = place ++ [(pageName stem).toList] := by
  have ends : (pageName stem).toList.getLast? = some 'l' := by simp [pageName]
  rcases (Disk.step_cases taken).2 with ⟨here, _⟩ | ⟨up, _⟩ | same
  · simp only [Name.staysHere, Bool.or_eq_true, List.isEmpty_iff, decide_eq_true_eq] at here
    rcases here with none | dot
    · rw [none] at ends
      cases ends
    · rw [dot] at ends
      cases ends
  · rw [of_decide_eq_true up] at ends
    cases ends
  · exact same

theorem exists_ofText_pageOf (folder : String) : ∃ absolute front, ∀ input stem, stem? input = some stem →
    Path.ofText (pageOf folder input) = ⟨absolute, front ++ [(pageName stem).toList]⟩ := by
  obtain ⟨absolute, front, parts⟩ := exists_ofText_join folder
  exact ⟨absolute, front, fun input stem given => by
    rw [pageOf, given, Option.getD_some, parts _ (slash_notMem_pageName given)]⟩

theorem pageName_inj {stem other : Name} (same : (pageName stem).toList = (pageName other).toList) :
    stem = other := by simpa [pageName] using same

theorem stem?_eq_of_pageOf {folder one other : String} (named : stem? one ≠ none)
    (also : stem? other ≠ none) (same : pageOf folder one = pageOf folder other) :
    stem? one = stem? other := by
  obtain ⟨absolute, front, parts⟩ := exists_ofText_pageOf folder
  obtain ⟨stem, given⟩ := Option.ne_none_iff_exists'.mp named
  obtain ⟨another, given'⟩ := Option.ne_none_iff_exists'.mp also
  have paths := congrArg Path.ofText same
  rw [parts _ _ given, parts _ _ given', Path.mk.injEq, List.append_cancel_left_eq,
    List.singleton_inj] at paths
  rw [given, given', pageName_inj paths.2]

theorem isEmpty_pageName (stem : Name) : (pageName stem).toList.isEmpty = false := by simp [pageName]

/-- No two pages with different names are at one place, unless one of them is a link. -/
theorem stem?_eq_of_leads {disk : Disk} {folder one other : String} {place : Location}
    (named : stem? one ≠ none) (also : stem? other ≠ none) (own : ¬disk.NamesLink (pageOf folder one))
    (own' : ¬disk.NamesLink (pageOf folder other)) (first : disk.Leads (pageOf folder one) place)
    (second : disk.Leads (pageOf folder other) place) : stem? one = stem? other := by
  obtain ⟨absolute, front, parts⟩ := exists_ofText_pageOf folder
  obtain ⟨stem, given⟩ := Option.ne_none_iff_exists'.mp named
  obtain ⟨another, given'⟩ := Option.ne_none_iff_exists'.mp also
  obtain ⟨left, around, led, last⟩ := Disk.exists_around_of_leads
    (congrArg Path.names (parts _ _ given)) (isEmpty_pageName stem) first own
  obtain ⟨left', around', led', last'⟩ := Disk.exists_around_of_leads
    (congrArg Path.names (parts _ _ given')) (isEmpty_pageName another) second own'
  rw [parts _ _ given] at led
  rw [parts _ _ given'] at led'
  obtain ⟨_, rfl⟩ := led.unique led'
  have names := (eq_of_step_pageName last).symm.trans (eq_of_step_pageName last')
  rw [List.append_cancel_left_eq, List.singleton_inj] at names
  rw [given, given', pageName_inj names]

/-- The page of an input is at no place where the page of another input is. -/
def HasOwnPage (disk : Disk) (folder : String) (inputs : List String) (input : String) : Prop :=
  ∀ other ∈ inputs, other ≠ input → ∀ place,
    disk.Leads (pageOf folder input) place → ¬disk.Leads (pageOf folder other) place

namespace HaveOwnStems
variable {folder : String} {inputs : List String}

theorem ne_none (own : HaveOwnStems inputs) {input : String} (member : input ∈ inputs) :
    stem? input ≠ none := fun missing => own.1 (List.mem_map.mpr ⟨input, member, missing⟩)

theorem nodup_pages (own : HaveOwnStems inputs) (folder : String) : (inputs.map (pageOf folder)).Nodup :=
  List.pairwise_map.mpr ((List.pairwise_map.mp own.2).imp_of_mem fun one other distinct same =>
    distinct (stem?_eq_of_pageOf (own.ne_none one) (own.ne_none other) same))

theorem hasOwnPage (own : HaveOwnStems inputs) {disk : Disk}
    (unlinked : ∀ input ∈ inputs, ¬disk.NamesLink (pageOf folder input)) :
    ∀ input ∈ inputs, HasOwnPage disk folder inputs input := by
  intro input member other present distinct place first second
  have same := stem?_eq_of_leads (own.ne_none member) (own.ne_none present) (unlinked input member)
    (unlinked other present) first second
  exact distinct (List.inj_on_of_nodup_map own.2 present member same.symm)

theorem pagePaths (own : HaveOwnStems inputs) :
    Cli.pagePaths folder [] inputs = .ok (inputs.map (pageOf folder)) :=
  pagePaths_of_nodup own.1 (own.nodup_pages folder) fun _ _ => rfl

theorem of_pagePaths {pages : List String} (found : Cli.pagePaths folder [] inputs = .ok pages) :
    HaveOwnStems inputs := by
  obtain ⟨stems, apart, _⟩ := nodup_of_pagePaths found
  exact ⟨stems, List.pairwise_map.mpr ((List.pairwise_map.mp apart).imp fun distinct same =>
    distinct (by rw [pageOf, pageOf, same]))⟩

end HaveOwnStems

end RstPress.Cli
