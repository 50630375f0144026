import LoxTokens.Files.Input

/-!
# File trees

A file tree says what stands at each place below the root, a place being the list of
names that lead there. A path is followed name by name. Only a directory can be
stepped through, be it by a name, by a dot, or by a slash at the end; an empty name
and a dot stay where they are, two dots go up, and the root is its own parent.
-/

namespace LoxTokens

/-- What stands at a place. -/
inductive Entry where
  | directory
  | file (contents : ByteArray)

/-- The places below the root that are taken, the latest first. -/
structure FileTree where
  entries : List (List String × Entry)

namespace FileTree

def empty : FileTree := ⟨[]⟩

/-- Puts an entry at a place, over what was there. -/
def insert (t : FileTree) (place : List String) (e : Entry) : FileTree :=
  ⟨(place, e) :: t.entries⟩

/-- What stands at a place. The root is a directory. -/
def entry? (t : FileTree) (place : List String) : Option Entry :=
  if place = [] then some .directory else t.entries.lookup place

/-- The longest path that can be followed has fewer bytes than this. -/
def maxPathBytes : Nat := 4096

/-- The longest name that can be looked up, in bytes. -/
def maxNameBytes : Nat := 255

/-- The place that a list of names leads to from `place`. -/
def follow (t : FileTree) (place : List String) : List String → Except ReadError (List String)
  | [] => .ok place
  | name :: names =>
      match t.entry? place with
      | none => .error .notFound
      | some (.file _) => .error .notDirectory
      | some .directory =>
          if name = "" ∨ name = "." then t.follow place names
          else if name = ".." then t.follow place.dropLast names
          else if name.utf8ByteSize > maxNameBytes then .error .nameTooLong
          else if (t.entry? (place ++ [name])).isNone then .error .notFound
          else t.follow (place ++ [name]) names

/-- The bytes of the file that a path names, as seen from the directory `here`. -/
def readBytes (t : FileTree) (here : List String) (path : String) :
    Except ReadError ByteArray := do
  if path.toList.contains '\x00' then throw .zeroByteInName
  if path.isEmpty then throw .notFound
  if path.utf8ByteSize ≥ maxPathBytes then throw .nameTooLong
  let root := path.toList.head? == some '/'
  let place ← t.follow (if root then [] else here) (path.splitOn "/")
  match t.entry? place with
  | none => throw .notFound
  | some .directory => throw .isDirectory
  | some (.file contents) => pure contents

/-- The text of an input, when files stand in the tree `t` and `standardInput` holds
what can be read there. -/
def readInput (t : FileTree) (here : List String) (standardInput : ByteArray) :
    Input → Except ReadError String
  | .standardInput => decodeText standardInput
  | .file path => do decodeText (← t.readBytes here path)

end FileTree

end LoxTokens
