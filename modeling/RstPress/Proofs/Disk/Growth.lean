import RstPress.Proofs.Disk.Path

/-!
A disk grows by folders that are made where nothing was. Whatever a path leads to, it leads to on the grown
disk. A path that led nowhere can lead to a file there, but only through two dots that leave one of the new
folders, in the path itself or in the target of a link.
-/

namespace RstPress.Cli.Disk
variable {disk old new : Disk} {making : Bool} {links left : Nat} {place last : Location}
variable {path : Path} {names : List Name}

/-- One disk has all that another one has, and further folders at most. -/
structure Grows (old new : Disk) : Prop where
  home : new.home = old.home
  places : ∀ place, new.find? place = old.find? place ∨
    old.find? place = none ∧ new.find? place = some .folder

namespace Grows

theorem refl (disk : Disk) : disk.Grows disk := ⟨rfl, fun _ => .inl rfl⟩

theorem trans {middle : Disk} (first : old.Grows middle) (second : middle.Grows new) : old.Grows new := by
  refine ⟨second.home.trans first.home, fun place => ?_⟩
  rcases first.places place with same | ⟨free, folder⟩
  · rw [← same]
    exact second.places place
  · rcases second.places place with same | ⟨absent, _⟩
    · exact .inr ⟨free, same.trans folder⟩
    · rw [folder] at absent
      cases absent

theorem stays (grows : old.Grows new) {entry : Entry} (found : old.find? place = some entry) :
    new.find? place = some entry := by
  rcases grows.places place with same | ⟨free, _⟩
  · exact same.trans found
  · rw [found] at free
    cases free

theorem keepsWays (grows : old.Grows new) : old.KeepsWays new := by
  refine ⟨grows.home, grows.stays, fun place => ?_, fun place => ?_⟩
  · rcases grows.places place with same | ⟨free, folder⟩
    · exact link?_congr same
    · rw [link?, link?, free, folder]
  · rcases grows.places place with same | ⟨free, folder⟩
    · exact origin_congr same
    · rw [origin, origin, free, folder]

theorem content? (grows : old.Grows new) (place : Location) : new.content? place = old.content? place := by
  rcases grows.places place with same | ⟨free, folder⟩
  · exact content?_congr same
  · rw [Disk.content?, Disk.content?, free, folder]

theorem readable (grows : old.Grows new) {entry : Entry} (found : old.readable path = .ok entry) :
    new.readable path = .ok entry := by
  obtain ⟨place, walked, there, solid⟩ := readable_eq_ok_iff.mp found
  exact readable_eq_ok_iff.mpr ⟨place, grows.keepsWays.walk walked, grows.stays there, solid⟩

theorem stored? (grows : old.Grows new) {path : String} {content : ByteArray}
    (found : old.stored? path = some content) : new.stored? path = some content :=
  stored?_eq_some_iff.mpr (grows.readable (stored?_eq_some_iff.mp found))

end Grows

theorem grows_put_folder (free : disk.find? place = none) : disk.Grows (disk.put place .folder) := by
  refine ⟨rfl, fun other => ?_⟩
  by_cases same : other = place
  · subst same
    exact .inr ⟨free, find?_put disk other .folder⟩
  · exact .inl (find?_put_of_ne disk same _)

theorem grows_makeFolder {made : Disk} (makes : disk.makeFolder path = .ok made) : disk.Grows made := by
  obtain ⟨place, _, makes⟩ := bind_eq_ok.mp makes
  split at makes
  · cases makes
  · next free =>
    split at makes
    · cases makes
      exact grows_put_folder free
    · cases makes

theorem grows_keepFolder (disk : Disk) (path : Path) : disk.Grows (disk.keepFolder path).2 := by
  unfold keepFolder
  split
  · next made done => exact grows_makeFolder done
  · exact .refl disk

theorem grows_makeFoldersAt (absolute : Bool) (reversed : List Name) (disk : Disk) :
    disk.Grows (disk.makeFoldersAt absolute reversed).2 := by
  rw [makeFoldersAt]
  split
  · exact .refl disk
  · next filled =>
    have shorter := Path.length_around_lt filled
    have around := grows_makeFoldersAt absolute (Path.around reversed) disk
    simp only
    split
    · split
      · next outer made =>
        rw [made] at around
        exact around.trans (grows_keepFolder outer _)
      · next failed outer made =>
        rw [made] at around
        exact around
    · exact grows_keepFolder disk _
termination_by reversed.length

theorem grows_makeFolders (disk : Disk) (path : Path) : disk.Grows (disk.makeFolders path).2 :=
  grows_makeFoldersAt path.absolute path.names.reverse disk

/-- Whatever there is stands in a folder. -/
def IsTree (disk : Disk) : Prop :=
  ∀ place name, disk.find? place ≠ some .folder → disk.find? (place ++ [name]) = none

/-- It is enough that all entries stand in folders. -/
theorem isTree_of_entries (stands : ∀ place ∈ disk.entries.map Prod.fst, place ≠ [] →
    disk.find? place.dropLast = some .folder) : disk.IsTree := by
  intro place name other
  cases known : disk.find? (place ++ [name]) with
  | none => rfl
  | some entry =>
    obtain ⟨front, back, parts, _⟩ := List.lookup_eq_some_iff.mp known
    have around := stands (place ++ [name]) (by simp [parts]) (by simp)
    rw [List.dropLast_concat] at around
    exact absurd around other

/-- No link leads up by two dots. -/
def HasLevelLinks (disk : Disk) : Prop :=
  ∀ place target, disk.link? place = some target → ∀ name ∈ target.names, ¬name.leadsUp

theorem hasLevelLinks_of_entries (level : ∀ entry ∈ disk.entries, ∀ target, entry.2 = .link target →
    ∀ name ∈ target.names, ¬name.leadsUp) : disk.HasLevelLinks := by
  intro place target linked
  unfold link? at linked
  split at linked
  · next other found =>
    cases linked
    obtain ⟨front, back, parts, _⟩ := List.lookup_eq_some_iff.mp found
    exact level (place, .link target) (by simp [parts]) target rfl
  · cases linked

/-- Two dots apart, names that lead out of a missing place lead to a missing place. -/
theorem Grows.absent_of_follows (grows : old.Grows new) (tree : old.IsTree)
    (plain : ∀ name ∈ names, ¬name.leadsUp) (free : old.find? place = none)
    (follows : new.Follows making links place names left last) : old.find? last = none := by
  have inside {place next : Location} {name : Name} {rest : List Name} (free : old.find? place = none)
      (level : ¬name.leadsUp) (entered : new.enter making place name rest = .ok next) :
      old.find? next = none := by
    rcases (step_cases (enter_eq_ok_iff.mp entered).2).2 with ⟨_, rfl⟩ | ⟨up, _⟩ | rfl
    · exact free
    · exact absurd up level
    · exact tree place name (by rw [free]; exact nofun)
  induction follows with
  | here links place => exact free
  | name entered other later ih =>
    obtain ⟨level, further⟩ := List.forall_mem_cons.mp plain
    exact ih further (inside free level entered)
  | @link _ _ _ next _ _ _ target entered linked later ih =>
    -- Where nothing was there is no link, since all that is new are folders.
    have absent := inside free (List.forall_mem_cons.mp plain).1 entered
    rw [grows.keepsWays.links, link?, absent] at linked
    cases linked

/-- Two dots apart, names that lead somewhere on a grown disk lead there before, or nothing was there. -/
theorem Grows.follows_cases (grows : old.Grows new) (tree : old.IsTree) (level : old.HasLevelLinks)
    (plain : ∀ name ∈ names, ¬name.leadsUp) (follows : new.Follows making links place names left last) :
    old.Follows making links place names left last ∨ old.find? last = none := by
  induction follows with
  | here links place => exact .inl (.here links place)
  | @name links left place next last name rest entered other later ih =>
    rcases grows.places place with same | ⟨free, _⟩
    · rw [enter_congr same] at entered
      rw [grows.keepsWays.links] at other
      exact (ih (List.forall_mem_cons.mp plain).2).imp_left (.name entered other)
    · exact .inr (grows.absent_of_follows tree plain free (.name entered other later))
  | @link links left place next last name rest target entered linked later ih =>
    rcases grows.places place with same | ⟨free, _⟩
    · rw [enter_congr same] at entered
      rw [grows.keepsWays.links] at linked
      have further : ∀ name ∈ target.names ++ rest, ¬name.leadsUp := fun name member =>
        (List.mem_append.mp member).elim (level next target linked name)
          ((List.forall_mem_cons.mp plain).2 name)
      exact (ih further).imp_left (.link entered linked)
    · exact .inr (grows.absent_of_follows tree plain free (.link entered linked later))

theorem Grows.readable_iff (grows : old.Grows new) (tree : old.IsTree) (level : old.HasLevelLinks)
    (plain : ∀ name ∈ path.names, ¬name.leadsUp) {entry : Entry} :
    new.readable path = .ok entry ↔ old.readable path = .ok entry := by
  refine ⟨fun found => ?_, grows.readable⟩
  obtain ⟨place, walked, there, solid⟩ := readable_eq_ok_iff.mp found
  obtain ⟨last, led, rfl⟩ := walk_eq_ok_iff.mp walked
  obtain ⟨short, left, follows⟩ := lead_eq_ok_iff.mp led
  rw [grows.home] at follows
  rw [grows.keepsWays.origins] at there
  rcases grows.places (old.origin last) with same | ⟨_, folder⟩
  · rcases grows.follows_cases tree level plain follows with before | absent
    · exact readable_eq_ok_iff.mpr ⟨old.origin last,
        walk_eq_ok_iff.mpr ⟨last, lead_eq_ok_iff.mpr ⟨short, left, before⟩, rfl⟩, same.symm.trans there,
          solid⟩
    · have here : old.origin last = last := by rw [origin, absent]
      rw [here] at same there
      rw [← same, there] at absent
      cases absent
  · rw [folder] at there
    cases there
    cases solid

end RstPress.Cli.Disk
