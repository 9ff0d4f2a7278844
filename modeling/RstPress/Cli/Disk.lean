import RstPress.Cli.Place
import RstPress.Error

/-!
The files and folders of a system. A path is followed name by name, and each name is looked up in a
folder that exists. The folder around the root is the root itself. A link is followed where it is met,
unless it is asked for the link itself.
-/

namespace RstPress.Cli

/-- Later entries stand in front of the earlier ones that they replace. Where a place is not open, nothing
new can be made. -/
structure Disk where
  home : Location
  entries : List (Location × Entry)
  isOpen : Location → Bool := fun _ => true

namespace Disk

/-- What there is at a place. -/
def find? (disk : Disk) (place : Location) : Option Entry := disk.entries.lookup place

def put (place : Location) (entry : Entry) (disk : Disk) : Disk :=
  { disk with entries := (place, entry) :: disk.entries }

@[simp] theorem find?_put (disk : Disk) (place : Location) (entry : Entry) :
    (disk.put place entry).find? place = some entry := by
  simp [find?, put]

theorem find?_put_of_ne (disk : Disk) {place other : Location} (distinct : other ≠ place)
    (entry : Entry) : (disk.put place entry).find? other = disk.find? other := by
  simp [find?, put, List.lookup_cons, beq_eq_false_iff_ne.mpr distinct]

/-- A place with the folders around it. -/
def withFolders (place : Location) (entry : Entry) : List (Location × Entry) :=
  (place, entry) :: (List.range place.length).map fun depth => (place.take depth, .folder)

/-- A system with files in and below its working folder. -/
def ofFiles (home : Location) (files : List (Location × ByteArray)) : Disk where
  home
  entries := (files.flatMap fun (place, content) => withFolders (home ++ place) (.file content)) ++
    withFolders home .folder ++ Place.usual home
  isOpen := Place.isOpen

/-- The target of a link. -/
def link? (disk : Disk) (place : Location) : Option Path :=
  match disk.find? place with
  | some (.link target) => some target
  | _ => none

/-- Where a file is kept, given one of its names. -/
def origin (disk : Disk) (place : Location) : Location :=
  match disk.find? place with
  | some (.sameAs first) => first
  | _ => place

/-- Looks up one name. What it names need not exist. -/
def step (disk : Disk) (place : Location) (name : Name) : Except FileError Location :=
  match disk.find? place with
  | none => .error .notFound
  | some .folder =>
    if name.staysHere then .ok place
    else if name.leadsUp then .ok place.dropLast
    else if Place.nameLimit < (String.ofList name).utf8ByteSize then .error .nameTooLong
    else .ok (place ++ [name])
  | some _ => .error .notDirectory

/-- Looks up a name, given the rest of the path. A path along which a file can be made is refused in front
of a last name that slashes say to be a folder. -/
def enter (disk : Disk) (making : Bool) (place : Location) (name : Name) (rest : List Name) :
    Except FileError Location :=
  if making && Path.asksForFolder rest then do
    let _ ← disk.step place []
    throw .isDirectory
  else disk.step place name

/-- Follows names up to the first link, with which it goes on as it is told. -/
def followUpTo (disk : Disk) (making : Bool)
    (jump : Location → Path → List Name → Except FileError Location) (place : Location) :
    List Name → Except FileError Location
  | [] => .ok place
  | name :: rest => do
    let next ← disk.enter making place name rest
    match disk.link? next with
    | none => followUpTo disk making jump next rest
    | some target => jump place target rest

/-- Where a path starts that stands in a folder. -/
def start (folder : Location) (path : Path) : Location := if path.absolute then [] else folder

/-- Follows names, and at most so many links. -/
def follow (disk : Disk) (making : Bool) : Nat → Location → List Name → Except FileError Location
  | 0 => disk.followUpTo making fun _ _ _ => .error .tooManyLinks
  | links + 1 => disk.followUpTo making fun place target rest =>
    disk.follow making links (start place target) (target.names ++ rest)

/-- Follows some of the names of a path. Whether the path is too long is asked first. -/
def lead (disk : Disk) (making : Bool) (path : Path) (names : List Name) : Except FileError Location :=
  if Place.pathLimit < path.size then .error .nameTooLong
  else disk.follow making Place.linkLimit (start disk.home path) names

/-- Follows a path to the place of a file. -/
def walk (disk : Disk) (making : Bool) (path : Path) : Except FileError Location :=
  (disk.lead making path path.names).map disk.origin

/-- The place of the last name of a path, whether it is that of a link or not. -/
def placeOf (disk : Disk) (path : Path) : Except FileError Location := do
  let around ← disk.lead false path path.closed.dropLast
  match path.closed.getLast? with
  | none => return around
  | some last => disk.step around last

/-- What a path leads to, if that can be read. -/
def readable (disk : Disk) (path : Path) : Except FileError Entry := do
  match disk.find? (← disk.walk false path) with
  | some entry => if entry.isSolid then .ok entry else .error .isDirectory
  | none => .error .notFound

/-- The place that a path leads to, if there is a file or can be one. -/
def writable (disk : Disk) (path : Path) : Except FileError Location := do
  let place ← disk.walk true path
  match disk.find? place with
  | some entry => if entry.isSolid then .ok place else .error .isDirectory
  | none => if disk.isOpen place then .ok place else .error .notFound

/-- Makes one folder where there is nothing yet. -/
def makeFolder (path : Path) (disk : Disk) : Except FileError Disk := do
  let place ← disk.placeOf path
  match disk.find? place with
  | some _ => .error .alreadyExists
  | none => if disk.isOpen place then .ok (disk.put place .folder) else .error .notFound

def isFolder (disk : Disk) (path : Path) : Bool :=
  match disk.walk false path with
  | .error _ => false
  | .ok place => (disk.find? place).any fun entry => entry matches .folder

/-- Makes one folder, or leaves the one that is there. -/
def keepFolder (path : Path) (disk : Disk) : Except FileError Unit × Disk :=
  match disk.makeFolder path with
  | .ok made => (.ok (), made)
  | .error failed => (if disk.isFolder path then .ok () else .error failed, disk)

/-- Makes a folder. If the folder around it is missing, that one is made first, and stays if the other one
cannot be made. The names are given in reverse. -/
def makeFoldersAt (absolute : Bool) (reversed : List Name) (disk : Disk) : Except FileError Unit × Disk :=
  if _filled : reversed = [] then (.ok (), disk)
  else
    let path : Path := ⟨absolute, reversed.reverse⟩
    match disk.makeFolder path with
    | .error .notFound =>
      match makeFoldersAt absolute (Path.around reversed) disk with
      | (.ok (), outer) => outer.keepFolder path
      | (.error failed, outer) => (.error failed, outer)
    | _ => disk.keepFolder path
termination_by reversed.length
decreasing_by exact Path.length_around_lt _filled

def makeFolders (path : Path) (disk : Disk) : Except FileError Unit × Disk :=
  disk.makeFoldersAt path.absolute path.names.reverse

/-- The files below the working folder that are new or have another content than before. -/
def written (before after : Disk) : List (Location × ByteArray) :=
  (after.entries.map Prod.fst).eraseDups.filterMap fun place =>
    (after.home.isPrefixOf? place).bind fun below =>
      match after.find? place, before.find? place with
      | some (.file content), some (.file earlier) =>
        if content.data = earlier.data then none else some (below, content)
      | some (.file content), _ => some (below, content)
      | _, _ => none

end Disk

end RstPress.Cli
