import RstPress.Cli.Path

/-!
A place is the list of names that lead to it from the root. Besides files and folders there can be devices
and links. This lists the folders, devices and links that systems usually have.
-/

namespace RstPress.Cli

/-- The names that lead from the root to a file or a folder. -/
abbrev Location := List Name

/-- What stands for something else than stored bytes. -/
inductive Device where
  | null
  | full
  | input
  | output
  | complaints
  | terminal
deriving DecidableEq, Repr

/-- What there can be at a place. A symbolic link leads on along its target, and a file that has several
names is kept at one of them. -/
inductive Entry where
  | folder
  | file (content : ByteArray)
  | device (device : Device)
  | link (target : Path)
  | sameAs (place : Location)

/-- Whether it can be read and written. -/
def Entry.isSolid : Entry → Bool
  | file _ | device _ => true
  | folder | link _ | sameAs _ => false

namespace Place

/-- The longest name, in bytes. -/
def nameLimit : Nat := 255

/-- The longest path, in bytes. -/
def pathLimit : Nat := 4095

/-- How many links are followed along one path. -/
def linkLimit : Nat := 40

/-- The place that an absolute path without dots names. -/
def ofText (path : String) : Location := (splitNames path.toList).tail

def devices : List (Location × Device) :=
  [(ofText "/dev/null", .null), (ofText "/dev/zero", .null), (ofText "/dev/full", .full),
    (ofText "/dev/tty", .terminal),
    (ofText "/proc/self/fd/0", .input), (ofText "/proc/self/fd/1", .output),
    (ofText "/proc/self/fd/2", .complaints)]

def folders : List Location :=
  [[], ofText "/bin", ofText "/boot", ofText "/dev", ofText "/dev/pts",
    ofText "/dev/shm", ofText "/etc", ofText "/home", ofText "/lib", ofText "/media",
    ofText "/mnt", ofText "/opt", ofText "/proc", ofText "/proc/self", ofText "/proc/self/fd",
    ofText "/root", ofText "/run", ofText "/sbin", ofText "/srv", ofText "/sys", ofText "/tmp",
    ofText "/usr", ofText "/usr/bin", ofText "/usr/lib", ofText "/usr/local", ofText "/usr/share",
    ofText "/var", ofText "/var/tmp"]

def links : List (Location × Path) :=
  [(ofText "/dev/fd", .ofText "/proc/self/fd"), (ofText "/dev/stdin", .ofText "/proc/self/fd/0"),
    (ofText "/dev/stdout", .ofText "/proc/self/fd/1"), (ofText "/dev/stderr", .ofText "/proc/self/fd/2")]

/-- What a system usually has, given its working folder. -/
def usual (home : Location) : List (Location × Entry) :=
  folders.map (·, .folder) ++ devices.map (fun (place, device) => (place, .device device)) ++
    ((ofText "/proc/self/cwd", .mk true home) :: links).map fun (place, target) => (place, .link target)

/-- Whether new files and folders can usually be made at a place. Among the processes there can be none. -/
def isOpen (place : Location) : Bool := place.head? ≠ (ofText "/proc").head?

end Place

end RstPress.Cli
