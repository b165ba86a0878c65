import FlowLang.Object

/-!
# Folders

The files that a compiler can reach: a working folder, in which a file is known by the names on the
way to it. Reading and writing follow a path name by name, and fail as an operating system does.

This is the file system of the plain host only. It has no links, rights or devices, and no limit but
that on the length of a name. Results about calls are about any file system (`FileSystem`), and
depend on nothing here.
-/

namespace FlowLang

/-- Why a file cannot be read or written. -/
inductive PathFault where
  | notFound
  | notFolder
  | isFolder
  | nameTooLong
  deriving DecidableEq

/-- The operating system's words and number for the fault. -/
def PathFault.message : PathFault → String
  | .notFound => "No such file or directory (os error 2)"
  | .notFolder => "Not a directory (os error 20)"
  | .isFolder => "Is a directory (os error 21)"
  | .nameTooLong => "File name too long (os error 36)"

/-- What is in a file. -/
inductive Content where
  | bytes (data : ByteArray)
  | object (o : Object)

/-- A path as written: where it starts, the names on it, and whether it has to lead to a folder. -/
structure Path where
  start : List String
  names : List String
  folder : Bool

namespace Path

/-- The root of all folders. -/
def root : List String := ["/"]

/-- Splits a path at its slashes. Empty names and `.` lead nowhere. -/
def ofString (s : String) : Path :=
  let parts := s.splitOn "/"
  { start := if s.toList.head? = some '/' then root else []
    names := parts.filter fun name => name ≠ "" ∧ name ≠ "."
    folder := parts.getLast?.any (· ∈ ["", ".", ".."]) }

/-- The longest name in bytes that a file can have. -/
def maxName : Nat := 255

/-- The folder above a place. From the working folder the way up goes through `..`. -/
def above (place : List String) : List String :=
  if place = root then root
  else if place.all (· = "..") then place ++ [".."]
  else place.dropLast

end Path

/-- Files, each with the names on the way to it from the working folder. -/
structure Folder where
  files : List (List String × Content)

namespace Folder

def empty : Folder := ⟨[]⟩

/-- What is at the end of a path. -/
inductive Entry where
  | file (content : Content)
  | folder
  | nothing

/-- Whether there is a folder at a place: the working folder and all above it, and wherever the way
to a file passes. -/
def hasFolder (f : Folder) (place : List String) : Bool :=
  place.all (· = "..") || place = Path.root || f.files.any (place.isPrefixOf ·.1)

/-- What is at a place. -/
def entry (f : Folder) (place : List String) : Entry :=
  match f.files.lookup place with
  | some content => .file content
  | none => if f.hasFolder place then .folder else .nothing

/-- Follows names from a place. All but the last have to lead to folders. -/
def follow (f : Folder) (place : List String) : List String → Except PathFault (List String)
  | [] => .ok place
  | name :: names =>
    match f.entry place with
    | .nothing => .error .notFound
    | .file _ => .error .notFolder
    | .folder =>
      if Path.maxName < name.utf8ByteSize then .error .nameTooLong
      else if name = ".." then f.follow (Path.above place) names
      else f.follow (place ++ [name]) names

/-- The place to which a path leads. -/
def locate (f : Folder) (path : String) : Except PathFault (List String) :=
  if path.isEmpty then .error .notFound
  else
    let p := Path.ofString path
    f.follow p.start p.names

/-- The content of a file. -/
def read (f : Folder) (path : String) : Except PathFault Content := do
  match f.entry (← f.locate path) with
  | .nothing => .error .notFound
  | .folder => .error .isFolder
  | .file content => if (Path.ofString path).folder then .error .notFolder else .ok content

/-- The folder with a file at a place. -/
def put (f : Folder) (place : List String) (content : Content) : Folder :=
  ⟨f.files.filter (·.1 ≠ place) ++ [(place, content)]⟩

/-- Makes a file, or replaces its content. -/
def write (f : Folder) (path : String) (content : Content) : Except PathFault Folder := do
  let place ← f.locate path
  if (Path.ofString path).folder then .error .isFolder
  else
    match f.entry place with
    | .folder => .error .isFolder
    | _ => .ok (f.put place content)

end Folder

end FlowLang
