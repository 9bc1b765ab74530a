/-!
The files below a working directory, found by paths. Nothing is known of what lies outside of it,
except that it is a directory too.
-/

namespace TreeWalk

/-- Why a file gave no text. -/
inductive FileFailure where
  | missing
  | notDirectory
  | nameTooLong
  | isDirectory
  | invalidText
  deriving DecidableEq, Repr

namespace FileFailure

/-- Whether the file was found and opened before it failed to be read. -/
def opened : FileFailure → Bool
  | missing => false
  | notDirectory => false
  | nameTooLong => false
  | isDirectory => true
  | invalidText => true

def message : FileFailure → String
  | missing => "No such file or directory (os error 2)"
  | notDirectory => "Not a directory (os error 20)"
  | nameTooLong => "File name too long (os error 36)"
  | isDirectory => "Is a directory (os error 21)"
  | invalidText => "stream did not contain valid UTF-8"

end FileFailure

namespace Path

abbrev Component := List Char

/-- The parts of a path between slashes, empty ones included. -/
def components : List Char → List Component
  | [] => [[]]
  | c :: cs =>
    if c = '/' then [] :: components cs
    else
      match components cs with
      | [] => [[c]]
      | first :: rest => (c :: first) :: rest

/-- Whether a component stays where it is. -/
def isIdle (component : Component) : Bool :=
  component = [] || component = ['.']

def isParent (component : Component) : Bool :=
  component = ['.', '.']

/-- How many bytes a component may have. -/
def maxComponent : Nat := 255

/-- How many bytes a whole path may have. -/
def maxPath : Nat := 4095

end Path

/-- Files by the components of their paths. The directories on the way to a file exist with it. -/
structure FileTree where
  files : List (List Path.Component × ByteArray)

namespace FileTree

def ofNamed (files : List (String × ByteArray)) : FileTree :=
  ⟨files.map fun (name, bytes) =>
    ((Path.components name.toList).filter (!Path.isIdle ·), bytes)⟩

/-- Where a walk along a path has come to. -/
inductive Place where
  | inside (directory : List Path.Component)
  | outside
  | file (bytes : ByteArray)

def hasDirectory (tree : FileTree) (directory : List Path.Component) : Bool :=
  tree.files.any fun (path, _) => directory.isPrefixOf path

/-- Enters a named file or directory. -/
def enter (tree : FileTree) (directory : List Path.Component) (name : Path.Component) :
    Except FileFailure Place :=
  let path := directory ++ [name]
  match tree.files.lookup path with
  | some bytes => .ok (.file bytes)
  | none => if tree.hasDirectory path then .ok (.inside path) else .error .missing

def step (tree : FileTree) (place : Place) (component : Path.Component) :
    Except FileFailure Place :=
  match place with
  | .file _ => .error .notDirectory
  | .outside =>
    if Path.isIdle component || Path.isParent component then .ok .outside else .error .missing
  | .inside directory =>
    if Path.isIdle component then .ok place
    else if Path.isParent component then
      .ok (if directory.isEmpty then .outside else .inside directory.dropLast)
    else if Path.maxComponent < (String.ofList component).utf8ByteSize then .error .nameTooLong
    else tree.enter directory component

/-- Opens and reads the file at a path. -/
def read (tree : FileTree) (path : String) : Except FileFailure ByteArray := do
  if Path.maxPath < path.utf8ByteSize then throw .nameTooLong
  let start : Place := if path.toList.head? = some '/' then .outside else .inside []
  match ← (Path.components path.toList).foldlM tree.step start with
  | .file bytes => return bytes
  | _ => throw .isDirectory

end FileTree

end TreeWalk
