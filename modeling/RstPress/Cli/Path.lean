import RstPress.Text.Blank

/-!
A path is a text whose names are divided by slashes. The empty name and a single dot stay in the folder
where they are looked up, and two dots lead to the folder around it.
-/

namespace RstPress.Cli

abbrev Name := List Char

namespace Name

def staysHere (name : Name) : Bool := name.isEmpty || name = ['.']

def leadsUp (name : Name) : Bool := name = ['.', '.']

/-- A file name without what its last dot divides off. A dot in front divides nothing off. -/
def stem (name : Name) : Name :=
  match name.reverse.dropWhile (· ≠ '.') with
  | [] | [_] => name
  | _ :: front => front.reverse

end Name

/-- The pieces between slashes. There is always at least one. -/
def splitNames : List Char → List Name
  | [] => [[]]
  | c :: text =>
    if c = '/' then [] :: splitNames text
    else match splitNames text with
      | [] => [[c]]
      | first :: others => (c :: first) :: others

/-- A path, taken apart. An absolute one starts at the root, any other in the working folder. -/
structure Path where
  absolute : Bool
  names : List Name
deriving DecidableEq, Repr

namespace Path

def ofText (text : String) : Path := ⟨text.toList.head? = some '/', splitNames text.toList⟩

/-- The number of bytes in the text of a path. -/
def size (path : Path) : Nat :=
  path.names.foldr (fun name bytes => (String.ofList name).utf8ByteSize + bytes) (path.names.length - 1)

/-- The names without the empty ones that slashes at the end make. -/
def closed (path : Path) : List Name := Text.dropEndWhile List.isEmpty path.names

/-- Whether the rest of a path only says that the name in front of it is a folder. -/
def asksForFolder (rest : List Name) : Bool := !rest.isEmpty && rest.all List.isEmpty

/-- The name of the file that the path leads to. Two dots are none. -/
def fileName? (path : Path) : Option Name :=
  (path.names.filter fun name => !name.staysHere).getLast?.bind fun name =>
    if name.leadsUp then none else some name

/-- The path around this one, and no path around one that names nothing. Names that stay in place are
passed over on both sides. The names are given in reverse. -/
def around (reversed : List Name) : List Name :=
  (reversed.dropWhile Name.staysHere).tail.dropWhile Name.staysHere

theorem length_around_lt {reversed : List Name} (some : reversed ≠ []) :
    (around reversed).length < reversed.length := by
  have inner := (List.dropWhile_sublist Name.staysHere (l := reversed)).length_le
  have outer := (List.dropWhile_sublist Name.staysHere
    (l := (reversed.dropWhile Name.staysHere).tail)).length_le
  have filled := List.length_pos_iff.mpr some
  simp only [around]
  rw [List.length_tail] at outer
  omega

/-- The path of a file in a folder. -/
def join (folder file : String) : String :=
  if folder.isEmpty || folder.toList.getLast? = some '/' then folder ++ file else folder ++ "/" ++ file

end Path

end RstPress.Cli
