/-
Where the command line finds its files.

A store answers four requests about a path: whether a regular file is there, what that file holds,
whether anything is there at all, and to write a file. The command line asks for nothing else, and it
is written for any store, so that one text serves the file system of the machine and the file trees
below, about which it can be reasoned.

A file tree is a list of files by their places. There are no empty directories in it: a directory is
what a file's place goes through, together with the directories around the one that paths start from.
A path is followed name by name. Each name but the last has to lead to a directory, and so has the
last one if a slash stands behind it. A path may lead to a place where nothing is yet, and a file can
be written there.

A file that is there need not be one that can be read, and not at every place can a file be written. The
tree holds the places of which this is so, with the reasons. Whether a file is there can be seen all the
same.

Names and paths have a greatest length, which is counted in bytes. A path that is too long leads nowhere
from the start, and a name that is too long stops a path when it comes to it, so not before the names in
front of it have been followed.
-/
import UtteranceGrammar.Text.Basic

set_option autoImplicit false

namespace UtteranceGrammar

/-- Why a path cannot be read or written. -/
inductive StoreError where
  /-- A name on the path leads nowhere. -/
  | notFound
  /-- A name on the path leads to a file that should be a directory. -/
  | notDirectory
  /-- The path leads to a directory that should be a file. -/
  | isDirectory
  /-- The path, or a name on it, is too long. -/
  | nameTooLong
  /-- Any other reason, with the number that the system gives it. -/
  | other (code : Nat) (description : String)
deriving DecidableEq, Repr

/-- The wording of a store's error. -/
def StoreError.message : StoreError → String
  | .notFound => "No such file or directory (os error 2)"
  | .notDirectory => "Not a directory (os error 20)"
  | .isDirectory => "Is a directory (os error 21)"
  | .nameTooLong => "File name too long (os error 36)"
  | .other code description => s!"{description} (os error {code})"

/-- What the command line asks of a file system. -/
class Store (m : Type → Type) where
  /-- Whether a path leads to a regular file. -/
  isFile (path : String) : m Bool
  /-- What a file holds. -/
  read (path : String) : m (Except StoreError ByteArray)
  /-- Whether a path leads to anything. -/
  occupied (path : String) : m Bool
  /-- Makes a path lead to a file with the given content. -/
  write (path : String) (content : ByteArray) : m (Except StoreError Unit)

/-! ## File trees -/

/-- The names that lead from the directory where paths start to a place. Steps up come first, and `/`
stands in front of the names that lead from the root. -/
abbrev Place := List String

/-- What a path leads to. -/
inductive Found where
  | directory
  | file (place : Place) (content : ByteArray)
  | vacant (place : Place)

/-- Files by their places, and what cannot be done there. -/
structure FileTree where
  files : List (Place × ByteArray)
  /-- The places of files that cannot be read, with the reasons. -/
  unreadable : List (Place × StoreError) := []
  /-- The places where no file can be written, with the reasons. -/
  unwritable : List (Place × StoreError) := []

namespace FileTree

/-- The tree without files. -/
def empty : FileTree := { files := [] }

/-- The content of the file at a place. -/
def get? (t : FileTree) (place : Place) : Option ByteArray := t.files.lookup place

/-- The tree with a file at a place, in place of the one that may have been there. -/
def put (t : FileTree) (place : Place) (content : ByteArray) : FileTree :=
  { t with files := (place, content) :: t.files.filter (·.1 ≠ place) }

/-- Whether a place is a directory. -/
def isDirectory (t : FileTree) (place : Place) : Bool :=
  place.all (· = "..") || place = ["/"] ||
    t.files.any fun (other, _) => place.isPrefixOf other && place ≠ other

/-- The greatest number of bytes in a name. -/
def maxNameSize : Nat := 255

/-- The greatest number of bytes in a path. -/
def maxPathSize : Nat := 4095

/-- The place that a name leads to from a directory. -/
def next (place : Place) (name : String) : Place :=
  if name = "" ∨ name = "." then place
  else if name = ".." then
    -- above the directory where paths start there is nothing to take away, above the root nothing
    if place.all (· = "..") then place ++ [".."]
    else if place = ["/"] then place
    else place.dropLast
  else place ++ [name]

/-- Follows names from a directory. An empty last name asks for a directory. -/
def follow (t : FileTree) (place : Place) : List String → Except StoreError Found
  | [] => .ok .directory
  | name :: names =>
    let there := next place name
    if maxNameSize < name.utf8ByteSize then .error .nameTooLong
    else if t.isDirectory there then t.follow there names
    else
      match t.get? there, names with
      | some content, [] => .ok (.file there content)
      | some _, _ :: _ => .error .notDirectory
      | none, [] => .ok (.vacant there)
      | none, _ :: _ => .error .notFound

/-- Where a path starts, and the names on it. -/
def parts (path : String) : Place × List String :=
  match (Text.split (· == '/') path.toList).map String.ofList with
  | "" :: name :: names => (["/"], name :: names)
  | names => ([], names)

/-- Where a path starts, and the names on it, unless it is none that can be followed. -/
def route (path : String) : Except StoreError (Place × List String) :=
  if path = "" then .error .notFound
  else if maxPathSize < path.utf8ByteSize then .error .nameTooLong
  else .ok (parts path)

/-- The tree with the given files, each at the place that its path names. -/
def ofList (files : List (String × ByteArray)) : FileTree :=
  files.foldl (fun t (path, content) => t.put ((parts path).2.foldl next (parts path).1) content) empty

/-- Follows a path. -/
def find (t : FileTree) (path : String) : Except StoreError Found :=
  match route path with
  | .error e => .error e
  | .ok (start, names) => t.follow start names

/-- Whether a path leads to a file. -/
def isFile (t : FileTree) (path : String) : Bool :=
  match t.find path with
  | .ok (.file _ _) => true
  | _ => false

/-- What the file holds that a path leads to, if it can be read. -/
def read (t : FileTree) (path : String) : Except StoreError ByteArray :=
  match t.find path with
  | .ok (.file place content) =>
    match t.unreadable.lookup place with
    | some e => .error e
    | none => .ok content
  | .ok .directory => .error .isDirectory
  | .ok (.vacant _) => .error .notFound
  | .error e => .error e

/-- Whether a path leads to anything. -/
def occupied (t : FileTree) (path : String) : Bool :=
  match t.find path with
  | .ok .directory | .ok (.file _ _) => true
  | _ => false

/-- Whether the last name on a path can only be that of a directory. -/
def endsInDirectory (names : List String) : Bool :=
  match names.getLast? with
  | some name => name = "" || name = "." || name = ".."
  | none => true

/-- The names on a path but the last, slashes at its end not counted. -/
def parentNames (names : List String) : List String :=
  ((names.reverse.dropWhile (· = "")).drop 1).reverse

/-- The tree with a file where a path leads, if one can be written there. A path that can only lead to a
directory is refused as one, whether there is such a directory or not, as soon as the names before its
last can be followed. -/
def write (t : FileTree) (path : String) (content : ByteArray) : Except StoreError FileTree :=
  match route path with
  | .error e => .error e
  | .ok (start, names) =>
    if endsInDirectory names then
      -- the empty name asks for the parent to be a directory
      match t.follow start (parentNames names ++ [""]) with
      | .ok _ => .error .isDirectory
      | .error e => .error e
    else
      match t.follow start names with
      | .ok (.file place _) | .ok (.vacant place) =>
        match t.unwritable.lookup place with
        | some e => .error e
        | none => .ok (t.put place content)
      | .ok .directory => .error .isDirectory
      | .error e => .error e

end FileTree

/-- A file tree that changes with what is written. -/
instance : Store (StateM FileTree) where
  isFile path := do return (← get).isFile path
  read path := do return (← get).read path
  occupied path := do return (← get).occupied path
  write path content := do
    match (← get).write path content with
    | .ok t => do
      set t
      return .ok ()
    | .error e => return .error e

end UtteranceGrammar
