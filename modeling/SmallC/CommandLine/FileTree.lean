import SmallC.CommandLine.Files

/-!
File trees: directories and files held in memory, and how a path leads to them. A path is followed name
by name, from the root or from the working directory, and each name is looked up in what the names before
it lead to; so a path may fail at a name that a later one would take back. Where a file is written, the
last name may be new.
-/
namespace SmallC.CommandLine

/-- What a file tree has at a place. A sink is empty to a reader and keeps nothing of what is written. -/
inductive Node where
  | directory
  | text (content : String)
  | sink
  deriving DecidableEq, Repr

/-- A place in a file tree: the names that lead to it from the root, the last of them first. -/
abbrev Place := List String

/-- A file tree, and the directory in it at which a path starts that does not start at the root. -/
structure FileTree where
  nodes : List (Place × Node)
  working : Place
  deriving Repr

namespace FileTree

/-! ## Paths -/

/-- The most bytes that a name may have. -/
def longestName : Nat := 255

/-- The most bytes that a path may have. -/
def longestPath : Nat := 4095

/-- The names along a path. Several slashes separate names as one does. -/
def names (path : String) : List String := (path.splitOn "/").filter fun name => name ≠ ""

/-- Whether a path starts at the root. -/
def isAbsolute (path : String) : Bool := path.toList.head? = some '/'

/-- Whether a path ends in a slash, which only the path of a directory does. -/
def endsInSlash (path : String) : Bool := path.toList.getLast? = some '/'

/-- The place that a name means at another. The root is the parent of itself. -/
def move (place : Place) (name : String) : Place :=
  if name = "." then place else if name = ".." then place.tail else name :: place

/-- The place at which a path starts. -/
def start (working : Place) (path : String) : Place := if isAbsolute path then [] else working

/-! ## Following paths -/

/-- What is at a place. The root is a directory. -/
def node? (t : FileTree) (place : Place) : Option Node :=
  if place.isEmpty then some .directory else t.nodes.lookup place

/-- A place in which names can be looked up, as only a directory allows. -/
def enter (t : FileTree) (place : Place) : Except FileError Place :=
  if t.node? place = some .directory then .ok place else .error .notDirectory

/-- Follows one name. -/
def step (t : FileTree) (place : Place) (name : String) : Except FileError Place := do
  let outer ← t.enter place
  if longestName < name.utf8ByteSize then .error .nameTooLong
  else if (t.node? (move outer name)).isNone then .error .missing
  else .ok (move outer name)

/-- Follows some of the names along a path, from its start. Nothing is at the empty path. -/
def follow (t : FileTree) (path : String) (along : List String) : Except FileError Place :=
  if path.isEmpty then .error .missing
  else if longestPath < path.utf8ByteSize then .error .nameTooLong
  else along.foldlM t.step (start t.working path)

/-- Reads a file. -/
def read (t : FileTree) (path : String) : Except FileError String := do
  let found ← t.follow path (names path)
  let place ← if endsInSlash path then t.enter found else .ok found
  match t.node? place with
  | some .directory => .error .isDirectory
  | some (.text content) => .ok content
  | some .sink => .ok ""
  | none => .error .missing

/-- Puts a text at a place, in place of what was there. -/
def put (t : FileTree) (place : Place) (text : String) : FileTree :=
  { t with nodes := (place, .text text) :: t.nodes.filter fun entry => entry.1 ≠ place }

/-- Writes a file that a name means in a directory. -/
def writeIn (t : FileTree) (outer : Place) (name text : String) : Except FileError FileTree :=
  match t.step outer name with
  | .error .missing => .ok (t.put (move outer name) text)
  | .error e => .error e
  | .ok place =>
    match t.node? place with
    | some .directory => .error .isDirectory
    | some .sink => .ok t
    | _ => .ok (t.put place text)

/-- Writes a file, in place of what was there. The directory that is to hold it has to be there. -/
def write (t : FileTree) (path text : String) : Except FileError FileTree := do
  let outer ← t.enter (← t.follow path (names path).dropLast)
  match (names path).getLast? with
  | some name => if endsInSlash path then .error .isDirectory else t.writeIn outer name text
  | none => .error .isDirectory

/-- Access to a file tree that is kept as a state. -/
def access : Files (StateM FileTree) where
  read path := return (← get).read path
  write path text := do
    match (← get).write path text with
    | .ok t =>
      set t
      return .ok ()
    | .error e => return .error e

/-! ## Building trees -/

/-- The directories that lead to a place. -/
def directories : Place → List Place
  | [] => []
  | _ :: outer => outer :: directories outer

/-- Names of directories at the root. -/
def rootDirectories : List String :=
  ["bin", "boot", "dev", "etc", "home", "lib", "media", "mnt", "opt", "proc", "root", "run", "sbin",
    "srv", "sys", "tmp", "usr", "var"]

/-- The working directory of a new tree. No path can spell its name. -/
def nameless : Place := ["", "tmp"]

/-- A tree with one sink and no texts. -/
def empty : FileTree where
  nodes := (nameless, .directory) :: (["null", "dev"], .sink) ::
    rootDirectories.map fun name => ([name], .directory)
  working := nameless

/-- Puts a text at a place and directories on the way to it. -/
def insert (t : FileTree) (file : String × String) : FileTree :=
  let place := (names file.1).foldl move (start t.working file.1)
  let onTheWay := (directories place).map fun outer => (outer, Node.directory)
  { t with nodes := t.nodes ++ onTheWay }.put place file.2

/-- The tree that holds texts at given paths. -/
def ofList (files : List (String × String)) : FileTree := files.foldl insert empty

end FileTree

end SmallC.CommandLine
