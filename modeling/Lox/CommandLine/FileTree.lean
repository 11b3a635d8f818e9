/-
**Files by their paths.**

A directory with files and directories below it, and what reading a path gives: the bytes of a
file, or the reason why there are none.  A path is walked name by name, so that of two reasons the
one that stands first on the way is given; only the length of the whole path is looked at before.

Main definitions:

* `Lox.ReadError` — why a path cannot be read, with its message;
* `Lox.FileTree` — the files and directories below a directory;
* `Lox.FileTree.ofPaths` — the tree with given paths;
* `Lox.FileTree.walk` — a walk along the names of a path;
* `Lox.FileTree.read` — **reading a path**.
-/

set_option relaxedAutoImplicit false
set_option autoImplicit false

namespace Lox

/-- Why a path cannot be read. -/
inductive ReadError where
  | missing
  | isDirectory
  | notDirectory
  | nameTooLong
  | other (message : String)
deriving DecidableEq

/-- The wording of a reason. -/
def ReadError.message : ReadError → String
  | missing => "No such file or directory"
  | isDirectory => "Is a directory"
  | notDirectory => "Not a directory"
  | nameTooLong => "File name too long"
  | other message => message

/-- The files and directories below a directory, by the names on the way to them.  Of two files at
the end of one way the later counts. -/
structure FileTree where
  files : List (List String × ByteArray)
  directories : List (List String)
  /-- Whether there is no directory above. -/
  rooted : Bool := false

namespace FileTree

/-! ### Names and ways -/

/-- The names that a path is made of. -/
def segments (path : String) : List String := path.splitOn "/"

/-- A name that leads nowhere else. -/
def isIdle (name : String) : Bool := name == "" || name == "."

/-- A name that leads to the directory above. -/
def isUpward (name : String) : Bool := name == ".."

/-- One step of a way from the top of the tree.  The last name of a way comes first here. -/
def step (way : List String) (name : String) : List String :=
  if isIdle name then way else if isUpward name then way.tail else name :: way

/-- The way from the top that names describe. -/
def wayOf (names : List String) : List String := (names.foldl step []).reverse

/-- The ways to all the directories that names lead through, the last one among them. -/
def waysThrough (way : List String) : List String → List (List String)
  | [] => [way.reverse]
  | name :: names => way.reverse :: waysThrough (step way name) names

/-- The file tree with the given paths.  A directory on the way to something is there as well. -/
def ofPaths (files : List (String × ByteArray)) (directories : List String) : FileTree where
  files := files.map fun f => (wayOf (segments f.1), f.2)
  directories := directories.flatMap (fun d => waysThrough [] (segments d)) ++
    files.flatMap fun f => waysThrough [] (segments f.1).dropLast

/-- The contents of the file at the end of a way. -/
def file? (t : FileTree) (way : List String) : Option ByteArray :=
  (t.files.reverse.find? fun f => f.1 == way).map (·.2)

/-- Whether a way ends in a directory. -/
def isDirectory (t : FileTree) (way : List String) : Bool := t.directories.contains way

/-! ### Walks -/

/-- Where a walk along a path is. -/
inductive Position where
  /-- In a directory of the tree; the last name on the way comes first. -/
  | inside (way : List String)
  /-- In a directory above the tree, of which nothing else is known. -/
  | outside
  | atFile (contents : ByteArray)

/-- A name may be this many bytes long. -/
def maxNameBytes : Nat := 255

/-- A path may be this many bytes long. -/
def maxPathBytes : Nat := 4095

/-- A step down from a directory, to what has the given name there. -/
def descend (t : FileTree) (way : List String) (name : String) : Except ReadError Position :=
  match t.file? (name :: way).reverse with
  | some contents => .ok (.atFile contents)
  | none =>
    if t.isDirectory (name :: way).reverse then .ok (.inside (name :: way)) else .error .missing

/-- One step of a walk. -/
def advance (t : FileTree) (position : Position) (name : String) : Except ReadError Position :=
  match position with
  | .atFile _ => .error .notDirectory
  | .outside =>
    if isIdle name || isUpward name then .ok .outside
    else if maxNameBytes < name.utf8ByteSize then .error .nameTooLong
    else .error .missing
  | .inside way =>
    if isIdle name then .ok (.inside way)
    else if isUpward name then
      if way.isEmpty && !t.rooted then .ok .outside else .ok (.inside way.tail)
    else if maxNameBytes < name.utf8ByteSize then .error .nameTooLong
    else t.descend way name

/-- A walk along the names of a path. -/
def walk (t : FileTree) : Position → List String → Except ReadError Position
  | position, [] => .ok position
  | position, name :: names => do
    let position ← t.advance position name
    t.walk position names

/-! ### Reading -/

/-- The directories that every system has at its top, and the file that is always empty. -/
def system : FileTree :=
  { ofPaths [("dev/null", ByteArray.empty)]
      ["bin", "boot", "etc", "home", "lib", "media", "mnt", "opt", "proc", "run", "sbin", "srv",
        "sys", "tmp", "usr/bin", "usr/lib", "var"] with
    rooted := true }

/-- What **reading a path** gives.  The empty path names nothing, and a path that begins with a
slash is walked from the top of the system. -/
def read (t : FileTree) (path : String) : Except ReadError ByteArray :=
  if path == "" then .error .missing
  else if maxPathBytes < path.utf8ByteSize then .error .nameTooLong
  else
    let tree := if path.startsWith "/" then system else t
    match tree.walk (.inside []) (segments path) with
    | .ok (.atFile contents) => .ok contents
    | .ok _ => .error .isDirectory
    | .error e => .error e

end FileTree

end Lox
