import RstPress.Cli.Disk

/-!
How names lead from one place to another. Links are followed on the way as long as some may be. Names that
lead somewhere still do so on a disk that keeps the folders and the links.
-/

namespace RstPress.Cli.Disk
variable {disk old new : Disk} {making : Bool} {links left : Nat} {place next last : Location}
variable {name : Name} {rest names front back : List Name} {target : Path}

/-- Where one name can lead. -/
theorem step_cases (taken : disk.step place name = .ok next) :
    disk.find? place = some .folder ∧
      (name.staysHere ∧ next = place ∨ name.leadsUp ∧ next = place.dropLast ∨ next = place ++ [name]) := by
  unfold step at taken
  split at taken
  · cases taken
  · next folder =>
    refine ⟨folder, ?_⟩
    split at taken
    · exact .inl ⟨‹_›, (Except.ok.inj taken).symm⟩
    · split at taken
      · exact .inr (.inl ⟨‹_›, (Except.ok.inj taken).symm⟩)
      · split at taken
        · cases taken
        · exact .inr (.inr (Except.ok.inj taken).symm)
  · cases taken

theorem step_congr (same : new.find? place = old.find? place) (name : Name) :
    new.step place name = old.step place name := by
  rw [step, step, same]

theorem enter_congr (same : new.find? place = old.find? place) (making : Bool) (name : Name)
    (rest : List Name) : new.enter making place name rest = old.enter making place name rest := by
  rw [enter, enter, step_congr same, step_congr same]

theorem enter_eq_ok_iff : disk.enter making place name rest = .ok next ↔
    (making && Path.asksForFolder rest) = false ∧ disk.step place name = .ok next := by
  unfold enter
  split
  · next refused =>
    cases disk.step place [] <;> simp [refused, bind, Except.bind]
  · next free => simp [free]

/-- Names lead from one place to another one. Of the links that may be followed, some are left then. -/
inductive Follows (disk : Disk) (making : Bool) : Nat → Location → List Name → Nat → Location → Prop
  | here (links : Nat) (place : Location) : Follows disk making links place [] links place
  | name {links left : Nat} {place next last : Location} {name : Name} {rest : List Name}
      (entered : disk.enter making place name rest = .ok next) (plain : disk.link? next = none)
      (later : Follows disk making links next rest left last) :
      Follows disk making links place (name :: rest) left last
  | link {links left : Nat} {place next last : Location} {name : Name} {rest : List Name} {target : Path}
      (entered : disk.enter making place name rest = .ok next) (linked : disk.link? next = some target)
      (later : Follows disk making links (start place target) (target.names ++ rest) left last) :
      Follows disk making (links + 1) place (name :: rest) left last

theorem follow_nil : disk.follow making links place [] = .ok place := by cases links <;> rfl

/-- A name that is no link leads on, and a link leads on along its target. -/
theorem follow_cons : disk.follow making links place (name :: rest) =
    disk.enter making place name rest >>= fun next =>
      match disk.link? next, links with
      | none, _ => disk.follow making links next rest
      | some _, 0 => .error .tooManyLinks
      | some target, links + 1 =>
        disk.follow making links (start place target) (target.names ++ rest) := by
  cases links with
  | zero =>
    rw [follow, followUpTo]
    congr 1
    funext next
    cases disk.link? next <;> rfl
  | succ links =>
    rw [follow, followUpTo]
    congr 1
    funext next
    cases disk.link? next <;> rfl

theorem follows_of_follow (led : disk.follow making links place names = .ok last) :
    ∃ left, disk.Follows making links place names left last := by
  induction links using Nat.strongRecOn generalizing place names with
  | ind links fewer =>
    induction names generalizing place with
    | nil =>
      rw [follow_nil] at led
      cases led
      exact ⟨links, .here links _⟩
    | cons name rest ih =>
      rw [follow_cons] at led
      obtain ⟨next, entered, led⟩ := bind_eq_ok.mp led
      cases linked : disk.link? next with
      | none =>
        rw [linked] at led
        obtain ⟨left, later⟩ := ih led
        exact ⟨left, .name entered linked later⟩
      | some target =>
        rw [linked] at led
        cases links with
        | zero => cases led
        | succ links =>
          obtain ⟨left, later⟩ := fewer links (Nat.lt_succ_self links) led
          exact ⟨left, .link entered linked later⟩

theorem Follows.follow_eq (follows : disk.Follows making links place names left last) :
    disk.follow making links place names = .ok last := by
  induction follows with
  | here links place => exact follow_nil
  | name entered plain later ih =>
    rw [follow_cons, entered]
    simp only [bind, Except.bind, plain]
    exact ih
  | link entered linked later ih =>
    rw [follow_cons, entered]
    simp only [bind, Except.bind, linked]
    exact ih

theorem follow_eq_ok_iff : disk.follow making links place names = .ok last ↔
    ∃ left, disk.Follows making links place names left last :=
  ⟨follows_of_follow, fun ⟨_, follows⟩ => follows.follow_eq⟩

namespace Follows

/-- Names lead to one place only, with one number of links. -/
theorem unique {left' : Nat} {last' : Location} (first : disk.Follows making links place names left last)
    (second : disk.Follows making links place names left' last') : left = left' ∧ last = last' := by
  induction first with
  | here links place =>
    cases second
    exact ⟨rfl, rfl⟩
  | name entered plain later ih =>
    cases second with
    | name entered' plain' later' =>
      cases entered.symm.trans entered'
      exact ih later'
    | link entered' linked' later' =>
      cases entered.symm.trans entered'
      cases plain.symm.trans linked'
  | link entered linked later ih =>
    cases second with
    | name entered' plain' later' =>
      cases entered.symm.trans entered'
      cases linked.symm.trans plain'
    | link entered' linked' later' =>
      cases entered.symm.trans entered'
      cases linked.symm.trans linked'
      exact ih later'

/-- Names along which a file can be made lead to the same place when they are only read. -/
theorem reading (follows : disk.Follows making links place names left last) :
    disk.Follows false links place names left last := by
  induction follows with
  | here links place => exact .here links place
  | name entered plain later ih =>
    exact .name (enter_eq_ok_iff.mpr ⟨rfl, (enter_eq_ok_iff.mp entered).2⟩) plain ih
  | link entered linked later ih =>
    exact .link (enter_eq_ok_iff.mpr ⟨rfl, (enter_eq_ok_iff.mp entered).2⟩) linked ih

/-- Names that are read lead first where the front of them leads. -/
theorem exists_of_append (follows : disk.Follows false links place (front ++ back) left last) :
    ∃ mid around, disk.Follows false links place front mid around ∧
      disk.Follows false mid around back left last := by
  generalize whole : front ++ back = names at follows
  induction follows generalizing front with
  | here links place =>
    obtain ⟨rfl, rfl⟩ := List.append_eq_nil_iff.mp whole
    exact ⟨links, place, .here links place, .here links place⟩
  | @name links left place next last name rest entered plain later ih =>
    cases front with
    | nil =>
      obtain rfl : back = name :: rest := whole
      exact ⟨links, place, .here links place, .name entered plain later⟩
    | cons first front =>
      obtain ⟨rfl, rfl⟩ := List.cons.inj whole
      obtain ⟨mid, around, led, further⟩ := ih rfl
      exact ⟨mid, around, .name (enter_eq_ok_iff.mpr (enter_eq_ok_iff.mp entered)) plain led, further⟩
  | @link links left place next last name rest target entered linked later ih =>
    cases front with
    | nil =>
      obtain rfl : back = name :: rest := whole
      exact ⟨links + 1, place, .here _ place, .link entered linked later⟩
    | cons first front =>
      obtain ⟨rfl, rfl⟩ := List.cons.inj whole
      obtain ⟨mid, around, led, further⟩ := ih (List.append_assoc target.names front back)
      exact ⟨mid, around, .link (enter_eq_ok_iff.mpr (enter_eq_ok_iff.mp entered)) linked led, further⟩

end Follows

/-- All folders of one disk are folders of another one that has the same links and names of files. -/
structure KeepsWays (old new : Disk) : Prop where
  home : new.home = old.home
  folders : ∀ {place}, old.find? place = some .folder → new.find? place = some .folder
  links : ∀ place, new.link? place = old.link? place
  origins : ∀ place, new.origin place = old.origin place

namespace KeepsWays

theorem enter (keeps : old.KeepsWays new) (entered : old.enter making place name rest = .ok next) :
    new.enter making place name rest = .ok next := by
  have folder := (step_cases (enter_eq_ok_iff.mp entered).2).1
  rwa [enter_congr ((keeps.folders folder).trans folder.symm)]

theorem follows (keeps : old.KeepsWays new) (follows : old.Follows making links place names left last) :
    new.Follows making links place names left last := by
  induction follows with
  | here links place => exact .here links place
  | name entered plain later ih => exact .name (keeps.enter entered) ((keeps.links _).trans plain) ih
  | link entered linked later ih => exact .link (keeps.enter entered) ((keeps.links _).trans linked) ih

end KeepsWays

end RstPress.Cli.Disk
