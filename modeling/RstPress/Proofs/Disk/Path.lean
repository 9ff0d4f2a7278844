import RstPress.Cli.Program
import RstPress.Proofs.Disk.Following

/-!
What is read and written along a path, told in terms of the place where the path leads. A path that leads
somewhere still does so on a disk that keeps the ways.
-/

namespace RstPress.Cli.Disk
variable {disk old new : Disk} {making : Bool} {place last : Location} {path : Path} {names : List Name}

/-- The bytes of the file at a place. -/
def content? (disk : Disk) (place : Location) : Option ByteArray :=
  match disk.find? place with
  | some (.file content) => some content
  | _ => none

/-- A path leads to a place, links followed. There need not be anything. -/
def Leads (disk : Disk) (path : String) (place : Location) : Prop :=
  disk.walk false (.ofText path) = .ok place

/-- The bytes of the file that a path leads to. -/
def stored? (disk : Disk) (path : String) : Option ByteArray :=
  match disk.walk false (.ofText path) with
  | .ok place => disk.content? place
  | .error _ => none

theorem content?_eq_some_iff {content : ByteArray} :
    disk.content? place = some content ↔ disk.find? place = some (.file content) := by
  unfold content?
  split <;> simp_all

theorem content?_congr (same : new.find? place = old.find? place) :
    new.content? place = old.content? place := by rw [content?, content?, same]

theorem origin_congr (same : new.find? place = old.find? place) : new.origin place = old.origin place := by
  rw [origin, origin, same]

theorem link?_congr (same : new.find? place = old.find? place) : new.link? place = old.link? place := by
  rw [link?, link?, same]

theorem readable_eq_ok_iff {entry : Entry} : disk.readable path = .ok entry ↔
    ∃ place, disk.walk false path = .ok place ∧ disk.find? place = some entry ∧ entry.isSolid := by
  rw [readable, bind_eq_ok]
  refine exists_congr fun place => and_congr_right fun _ => ?_
  cases disk.find? place with
  | none => exact ⟨nofun, nofun⟩
  | some found =>
    simp only [Option.some.injEq]
    split
    · next solid =>
      rw [Except.ok.injEq]
      exact ⟨fun same => ⟨same, same ▸ solid⟩, And.left⟩
    · next other => exact ⟨nofun, fun ⟨same, solid⟩ => absurd (same ▸ solid) other⟩

theorem writable_eq_ok_iff : disk.writable path = .ok place ↔ disk.walk true path = .ok place ∧
    ((∃ entry, disk.find? place = some entry ∧ entry.isSolid) ∨
      disk.find? place = none ∧ disk.isOpen place) := by
  rw [writable, bind_eq_ok]
  constructor
  · rintro ⟨other, walked, given⟩
    cases found : disk.find? other with
    | none =>
      rw [found] at given
      simp only at given
      split at given
      · next room =>
        cases given
        exact ⟨walked, .inr ⟨found, room⟩⟩
      · cases given
    | some entry =>
      rw [found] at given
      simp only at given
      split at given
      · next solid =>
        cases given
        exact ⟨walked, .inl ⟨entry, found, solid⟩⟩
      · cases given
  · rintro ⟨walked, ⟨entry, found, solid⟩ | ⟨free, room⟩⟩
    · exact ⟨place, walked, by simp only [found, if_pos solid]⟩
    · exact ⟨place, walked, by simp only [free, if_pos room]⟩

theorem lead_eq_ok_iff : disk.lead making path names = .ok last ↔ path.size ≤ Place.pathLimit ∧
    ∃ left, disk.Follows making Place.linkLimit (start disk.home path) names left last := by
  unfold lead
  split
  · next long => exact ⟨nofun, fun given => absurd given.1 (Nat.not_le_of_lt long)⟩
  · next short =>
    rw [follow_eq_ok_iff]
    exact ⟨fun given => ⟨Nat.le_of_not_lt short, given⟩, And.right⟩

theorem walk_eq_ok_iff : disk.walk making path = .ok place ↔
    ∃ last, disk.lead making path path.names = .ok last ∧ disk.origin last = place := by
  rw [walk]
  cases disk.lead making path path.names with
  | error failed => exact ⟨nofun, nofun⟩
  | ok last => simp [Except.map]

/-- A path along which a file can be made leads to the same place when it is only read. -/
theorem walk_reading (walked : disk.walk making path = .ok place) : disk.walk false path = .ok place := by
  obtain ⟨last, led, same⟩ := walk_eq_ok_iff.mp walked
  obtain ⟨short, left, follows⟩ := lead_eq_ok_iff.mp led
  exact walk_eq_ok_iff.mpr ⟨last, lead_eq_ok_iff.mpr ⟨short, left, follows.reading⟩, same⟩

theorem KeepsWays.walk (keeps : old.KeepsWays new) (walked : old.walk making path = .ok place) :
    new.walk making path = .ok place := by
  obtain ⟨last, led, same⟩ := walk_eq_ok_iff.mp walked
  obtain ⟨short, left, follows⟩ := lead_eq_ok_iff.mp led
  rw [← keeps.home] at follows
  exact walk_eq_ok_iff.mpr ⟨last, lead_eq_ok_iff.mpr ⟨short, left, keeps.follows follows⟩,
    (keeps.origins last).trans same⟩

theorem stored?_of_leads {path : String} (leads : disk.Leads path place) :
    disk.stored? path = disk.content? place := by rw [stored?, leads]

theorem stored?_eq_some_iff {path : String} {content : ByteArray} :
    disk.stored? path = some content ↔ disk.readable (.ofText path) = .ok (.file content) := by
  rw [readable_eq_ok_iff, stored?]
  cases disk.walk false (.ofText path) with
  | error failed => simp
  | ok place => simp [content?_eq_some_iff, Entry.isSolid]

end RstPress.Cli.Disk
