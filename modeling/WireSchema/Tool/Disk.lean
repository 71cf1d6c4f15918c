/-!
# Files, as far as the tool needs them

The tool looks at paths, reads and writes files, and lists the files below a
directory.  These are the operations of a `Disk`, in any monad: the program runs on
the disk of the machine, and everything that can be said about the tool is said
about a disk that is a value, a `FileTree` whose operations change nothing but the
tree.

Files below a directory are listed in the order of their names, directory by
directory.  That is the order of words over the alphabet of names, so a tree only
has to sort its files.
-/

namespace WireSchema

/-- Why an operation on a file fails. -/
inductive FileError where
  | notFound
  | notDirectory
  | isDirectory
  | nameTooLong
  | other (text : String)
  deriving DecidableEq

/-- The message of a file error. -/
def FileError.message : FileError → String
  | .notFound => "No such file or directory (os error 2)"
  | .notDirectory => "Not a directory (os error 20)"
  | .isDirectory => "Is a directory (os error 21)"
  | .nameTooLong => "File name too long (os error 36)"
  | .other text => text

/-- What a path leads to. -/
inductive FileSort where
  | file
  | directory
  deriving DecidableEq

/-- The operations of a disk. -/
structure Disk (m : Type → Type) where
  /-- What a path leads to, if to anything. -/
  sort? : String → m (Option FileSort)
  /-- The text of a file. -/
  read : String → m (Except FileError String)
  /-- The paths of the files below a directory, in the order of their names. -/
  filesBelow : String → m (List String)
  /-- A file with a text, in place of the file that was there. -/
  write : String → String → m (Except FileError Unit)

/-- A path some names further. -/
def joinPath (path : String) : List String → String
  | [] => path
  | names => (if path.endsWith "/" then path else path ++ "/") ++ "/".intercalate names

/-- The parts of a path up to its name, which is the last part that is neither empty
nor a point. -/
def partsToName (path : String) : List String :=
  ((path.splitOn "/").reverse.dropWhile fun part => part = "" || part = ".").reverse

/-- The ending of the name that a path leads to: what is behind its last point, if
anything is in front of that. -/
def ending? (path : String) : Option String :=
  match ((partsToName path).getLastD "..").splitOn "." with
  | ["", "", ""] => none
  | ["", _] => none
  | [_] => none
  | pieces => pieces.getLast?

/-- A path with one more ending behind its name, if it ends in a name. -/
def withEnding? (path ending : String) : Option String :=
  let parts := partsToName path
  if parts.getLastD ".." = ".." then none else some ("/".intercalate parts ++ "." ++ ending)

/-! ## Disks that are values -/

/-- Files and directories under their paths from the root, name by name.  A
directory need not be listed if something in it is. -/
structure FileTree where
  nodes : List (List String × Option String)

namespace FileTree

/-- What stands in a tree. -/
inductive Node where
  | file (text : String)
  | directory

/-- The names of a path, without the empty one and the point, both of which stand
for the directory they are in. -/
def pathNames (path : String) : List String :=
  (path.splitOn "/").filter fun name => name ≠ "" ∧ name ≠ "."

/-- A tree from files under their paths; a path without a text is a
directory. -/
def ofFiles (files : List (String × Option String)) : FileTree :=
  ⟨files.map fun f => (pathNames f.1, f.2)⟩

/-- What stands under the names of a path. -/
def node? (t : FileTree) (names : List String) : Option Node :=
  if names = [] then some .directory
  else
    match t.nodes.lookup names with
    | some (some text) => some (.file text)
    | some none => some .directory
    | none =>
      if t.nodes.any fun n => names.isPrefixOf n.1 then some .directory else none

/-- How many bytes a name may have. -/
def maxNameLength : Nat := 255

/-- How many bytes a path may have. -/
def maxPathLength : Nat := 4095

/-- The names of the path that is reached from a directory: every name but the
last has to be that of a directory. -/
def follow (t : FileTree) (names : List String) : List String → Except FileError (List String)
  | [] => .ok names
  | name :: rest =>
    match t.node? names with
    | none => .error .notFound
    | some (.file _) => .error .notDirectory
    | some .directory =>
      if name = "" ∨ name = "." then follow t names rest
      else if name = ".." then follow t names.dropLast rest
      else if maxNameLength < name.utf8ByteSize then .error .nameTooLong
      else follow t (names ++ [name]) rest

/-- The names of the place a path leads to.  Nothing outside the tree is
reached. -/
def locate (t : FileTree) (path : String) : Except FileError (List String) :=
  if path = "" then .error .notFound
  else if maxPathLength < path.utf8ByteSize then .error .nameTooLong
  else if path.startsWith "/" then .error .notFound
  else t.follow [] (path.splitOn "/")

/-- What a path leads to. -/
def sort? (t : FileTree) (path : String) : Option FileSort :=
  match t.locate path with
  | .error _ => none
  | .ok names =>
    match t.node? names with
    | some (.file _) => some .file
    | some .directory => some .directory
    | none => none

/-- The text of the file a path leads to. -/
def read (t : FileTree) (path : String) : Except FileError String := do
  match t.node? (← t.locate path) with
  | some (.file text) => return text
  | some .directory => throw .isDirectory
  | none => throw .notFound

/-- Whether names come before others, or are the same: the first name that differs
decides. -/
def notAfter : List String → List String → Bool
  | [], _ => true
  | _ :: _, [] => false
  | a :: as, b :: bs => if a = b then notAfter as bs else a < b

/-- The names from a directory to a file below it. -/
def below? (directory : List String) (node : List String × Option String) :
    Option (List String) :=
  if directory.isPrefixOf node.1 ∧ node.2.isSome then some (node.1.drop directory.length) else none

/-- The paths of the files below the directory a path leads to, in the order of
their names. -/
def filesBelow (t : FileTree) (path : String) : List String :=
  match t.locate path with
  | .error _ => []
  | .ok directory =>
    let found := (t.nodes.filterMap (below? directory)).eraseDups
    (found.mergeSort notAfter).map (joinPath path)

/-- The place of the file that a path is to be written to.  A path that ends in a
stroke leads to no file, whatever is there. -/
def placeToWrite (t : FileTree) (path : String) : Except FileError (List String) :=
  match (path.splitOn "/").reverse.dropWhile (· = "") with
  | [] => t.locate path
  | _ :: before => do
    if path.endsWith "/" then
      let _ ← t.locate ("/".intercalate (before.reverse ++ ["."]))
      throw .isDirectory
    else t.locate path

/-- The tree with a text in the file a path leads to. -/
def write (t : FileTree) (path text : String) : Except FileError FileTree := do
  let place ← t.placeToWrite path
  match t.node? place with
  | some .directory => throw .isDirectory
  | some (.file _) => return ⟨t.nodes.map fun n => if n.1 = place then (place, some text) else n⟩
  | none =>
    match t.node? place.dropLast with
    | some .directory => return ⟨t.nodes ++ [(place, some text)]⟩
    | some (.file _) => throw .notDirectory
    | none => throw .notFound

/-- A tree as a disk. -/
def disk : Disk (StateM FileTree) where
  sort? path := do return (← get).sort? path
  read path := do return (← get).read path
  filesBelow path := do return (← get).filesBelow path
  write path text := do
    match (← get).write path text with
    | .ok t =>
      set t
      return .ok ()
    | .error e => return .error e

end FileTree
end WireSchema
