import Toplevel.Files.Path

/-!
# Files

`Files` is what a program can see of a file system: the text of the file at a path, or why there
is none. `FileTree` is a file system given by a list of files in the current directory.

Texts are read with one line end: a carriage return, alone or before a line feed, is a line feed.
-/

namespace Toplevel

inductive FileError where
  | notFound
  | isDirectory
  | notDirectory
  | nameTooLong
deriving DecidableEq

namespace FileError

def message : FileError → Text
  | notFound => "No such file or directory"
  | isDirectory => "Is a directory"
  | notDirectory => "Not a directory"
  | nameTooLong => "File name too long"

def kind : FileError → Text
  | notFound => "FileNotFoundError"
  | isDirectory => "IsADirectoryError"
  | notDirectory => "NotADirectoryError"
  | nameTooLong => "OSError"

def number : FileError → Nat
  | notFound => 2
  | isDirectory => 21
  | notDirectory => 20
  | nameTooLong => 36

/-- The error with its number and the path that it is about. -/
def report (e : FileError) (p : Path) : Text :=
  Text.concat ["[Errno ", Text.ofNat e.number, "] ", e.message, ": ", p.text.quoted]

end FileError

/-- The home directories in a table of users: each line has seven fields, of which the first is the
name and the sixth the directory. -/
def homesOfTable (table : Text) : List (Text × Text) :=
  (Text.splitOn '\n' table).filterMap fun line =>
    match Text.splitOn ':' line with
    | [name, _, _, _, _, home, _] => some (name, home)
    | _ => none

/-- Why a file gives no text: the system does not hand it over, or its bytes are no text. -/
inductive ReadError where
  | system (e : FileError)
  | notText (detail : Text)
deriving DecidableEq

/-- A file system as a program sees it. -/
structure Files where
  home : Text
  /-- The home directory of another user. -/
  homeOf : Text → Option Text
  read : Path → Except ReadError Text

namespace Text

/-- Makes line ends line feeds; right after a carriage return a line feed is dropped. -/
def unifyFrom (afterReturn : Bool) : Text → Text
  | [] => []
  | c :: t =>
    if c = ('\r' : CodePoint) then '\n' :: unifyFrom true t
    else if afterReturn && c = ('\n' : CodePoint) then unifyFrom false t
    else c :: unifyFrom false t

def unifyLines (t : Text) : Text := unifyFrom false t

end Text

/-- A directory by the files and the empty directories below it, each with its path from here. -/
structure FileTree where
  entries : List (List Text × Text)
  directories : List (List Text)

namespace FileTree

def maxNameBytes : Nat := 255

def maxPathBytes : Nat := 4095

def bytes (t : Text) : Nat := t.foldl (fun n c => n + c.pathBytes) 0

def isDirectory (tree : FileTree) (place : List Text) : Bool :=
  place.isEmpty || tree.directories.any place.isPrefixOf
    || tree.entries.any fun f => place.isPrefixOf f.1 && place ≠ f.1

def file? (tree : FileTree) (place : List Text) : Option Text := tree.entries.lookup place

/-- Walks from a place along the parts of a path. Above the tree there are directories without end,
of which nothing else is known; `above` counts how far up the walk is. Above a tree that is a whole
file system there is the tree itself. -/
def walk (tree : FileTree) (whole : Bool) (above : Nat) (place : List Text) :
    List Text → Except FileError Text
  | [] =>
    if tree.isDirectory place then .error .isDirectory
    else
      match tree.file? place with
      | some text => .ok text
      | none => .error .notFound
  | part :: parts =>
    if !tree.isDirectory place then
      .error (if (tree.file? place).isSome then .notDirectory else .notFound)
    else if maxNameBytes < bytes part then .error .nameTooLong
    else if part = (".." : Text) then
      if place.isEmpty && !whole then walk tree whole (above + 1) [] parts
      else walk tree whole above place.dropLast parts
    else if 0 < above then .error .notFound
    else walk tree whole above (place ++ [part]) parts

/-- The file system in which `tree` is the current directory, and `whole` is what is known from the
root on; `homes` are the home directories of the users, the first of them one's own. -/
def toFiles (tree whole : FileTree) (homes : List (Text × Text)) : Files where
  home := (homes.head?.map Prod.snd).getD "/"
  homeOf := fun user => homes.lookup user
  read := fun p =>
    Except.mapError .system
      (if maxPathBytes < bytes p.text then .error .nameTooLong
      else if p.root.isEmpty then tree.walk false 0 [] p.parts
      else whole.walk true 0 [] p.parts)

end FileTree

end Toplevel
