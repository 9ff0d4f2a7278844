import RstPress.Proofs.Disk.Path

/-!
A disk is filled by files that are put where a file or nothing is. The paths that lead somewhere are the same
then, and they lead to the same places.
-/

namespace RstPress.Cli.Disk
variable {disk old new : Disk} {making : Bool} {place : Location} {path : Path}

/-- There is a file at a place, or nothing. -/
def IsBare (disk : Disk) (place : Location) : Prop :=
  disk.find? place = none ∨ ∃ content, disk.find? place = some (.file content)

/-- A path leads to a place where a file is or can be made. -/
def TakesFile (disk : Disk) (path : String) (place : Location) : Prop :=
  disk.writable (.ofText path) = .ok place ∧ ∀ device, disk.find? place ≠ some (.device device)

/-- One disk has files at some places where another one has files or nothing, and is the same elsewhere. -/
structure Fills (old new : Disk) : Prop where
  home : new.home = old.home
  isOpen : new.isOpen = old.isOpen
  places : ∀ place, new.find? place = old.find? place ∨
    old.IsBare place ∧ ∃ content, new.find? place = some (.file content)

namespace Fills

theorem refl (disk : Disk) : disk.Fills disk := ⟨rfl, rfl, fun _ => .inl rfl⟩

theorem trans {middle : Disk} (first : old.Fills middle) (second : middle.Fills new) : old.Fills new := by
  refine ⟨second.home.trans first.home, second.isOpen.trans first.isOpen, fun place => ?_⟩
  rcases second.places place with same | ⟨bare, filled⟩
  · rw [same]
    exact first.places place
  · rcases first.places place with before | ⟨before, _⟩
    · rw [IsBare, before] at bare
      exact .inr ⟨bare, filled⟩
    · exact .inr ⟨before, filled⟩

/-- What is neither a file nor missing is the same on both disks. -/
theorem find?_eq_iff (fills : old.Fills new) {entry : Entry} (other : ∀ content, entry ≠ .file content) :
    new.find? place = some entry ↔ old.find? place = some entry := by
  rcases fills.places place with same | ⟨free | ⟨earlier, before⟩, content, filled⟩
  · rw [same]
  · simp [free, filled, (other content).symm]
  · simp [before, filled, (other content).symm, (other earlier).symm]

theorem find?_eq_folder_iff (fills : old.Fills new) :
    new.find? place = some .folder ↔ old.find? place = some .folder := fills.find?_eq_iff nofun

theorem link?_eq (fills : old.Fills new) (place : Location) : new.link? place = old.link? place := by
  rcases fills.places place with same | ⟨free | ⟨earlier, before⟩, content, filled⟩
  · exact link?_congr same
  · rw [link?, link?, free, filled]
  · rw [link?, link?, before, filled]

theorem origin_eq (fills : old.Fills new) (place : Location) : new.origin place = old.origin place := by
  rcases fills.places place with same | ⟨free | ⟨earlier, before⟩, content, filled⟩
  · exact origin_congr same
  · rw [origin, origin, free, filled]
  · rw [origin, origin, before, filled]

theorem walk_eq_ok_iff (fills : old.Fills new) :
    new.walk making path = .ok place ↔ old.walk making path = .ok place :=
  ⟨KeepsWays.walk ⟨fills.home.symm, fills.find?_eq_folder_iff.mp, fun place => (fills.link?_eq place).symm,
      fun place => (fills.origin_eq place).symm⟩,
    KeepsWays.walk ⟨fills.home, fills.find?_eq_folder_iff.mpr, fills.link?_eq, fills.origin_eq⟩⟩

theorem writable (fills : old.Fills new) (found : old.writable path = .ok place) :
    new.writable path = .ok place := by
  obtain ⟨walked, room⟩ := writable_eq_ok_iff.mp found
  refine writable_eq_ok_iff.mpr ⟨fills.walk_eq_ok_iff.mpr walked, ?_⟩
  rw [fills.isOpen]
  rcases fills.places place with same | ⟨_, content, filled⟩
  · rwa [same]
  · exact .inl ⟨.file content, filled, rfl⟩

theorem takesFile (fills : old.Fills new) {path : String} (takes : old.TakesFile path place) :
    new.TakesFile path place := by
  refine ⟨fills.writable takes.1, fun device => ?_⟩
  have other : ∀ content, Entry.device device ≠ .file content := nofun
  exact mt (fills.find?_eq_iff other).mp (takes.2 device)

theorem stored?_eq (fills : old.Fills new) {path : String}
    (same : ∀ place, old.Leads path place → new.find? place = old.find? place) :
    new.stored? path = old.stored? path := by
  unfold stored?
  cases before : old.walk false (.ofText path) with
  | ok place =>
    rw [fills.walk_eq_ok_iff.mpr before]
    exact content?_congr (same place before)
  | error failed =>
    cases after : new.walk false (.ofText path) with
    | ok place =>
      rw [fills.walk_eq_ok_iff.mp after] at before
      cases before
    | error failed => rfl

end Fills

/-- A path that takes a file leads to its place. -/
theorem TakesFile.leads {path : String} (takes : disk.TakesFile path place) : disk.Leads path place :=
  walk_reading (writable_eq_ok_iff.mp takes.1).1

theorem TakesFile.isBare {path : String} (takes : disk.TakesFile path place) : disk.IsBare place := by
  rcases (writable_eq_ok_iff.mp takes.1).2 with ⟨entry, found, solid⟩ | ⟨free, _⟩
  · cases entry with
    | file content => exact .inr ⟨content, found⟩
    | device device => exact absurd found (takes.2 device)
    | folder | link | sameAs => cases solid
  · exact .inl free

theorem TakesFile.fills {path : String} (takes : disk.TakesFile path place) (content : ByteArray) :
    disk.Fills (disk.put place (.file content)) := by
  refine ⟨rfl, rfl, fun other => ?_⟩
  by_cases same : other = place
  · subst same
    exact .inr ⟨takes.isBare, content, find?_put disk other _⟩
  · exact .inl (find?_put_of_ne disk same _)

end RstPress.Cli.Disk
