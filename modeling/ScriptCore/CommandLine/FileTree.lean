import ScriptCore.CommandLine.Machine

/-!
# File trees

A file tree holds files at places. A place is the list of the names that lead
to it from the top of the tree. Outside the tree, a place begins with `..` for
each directory that is left, or with `/` if it is reached from the root. The
directories above the tree and the root are there in any case.

A path is followed name by name from a directory. Each name must be looked up
in a directory, even the empty name and `.`, which lead nowhere else. A file is
opened for writing by the same steps, on which missing directories are made.
-/

namespace ScriptCore.CommandLine

/-- A file tree: its files, and directories that need not hold any. -/
structure FileTree where
  files : List (List String × Bytes)
  directories : List (List String) := []
  deriving DecidableEq, Repr

namespace FileTree

/-! ## Paths -/

/-- The parts between the slashes. -/
def splitSlashes : List Char → List (List Char)
  | [] => [[]]
  | '/' :: s => [] :: splitSlashes s
  | c :: s =>
    match splitSlashes s with
    | [] => [[c]]
    | name :: names => (c :: name) :: names

/-- The names that a path is made of. -/
def splitPath (path : String) : List String :=
  (splitSlashes path.toList).map String.ofList

/-- The names on a path within the tree. -/
def namesOf (path : String) : List String :=
  (splitPath path).filter fun name => name ≠ "" ∧ name ≠ "."

/-- The place that a path begins at, and the names on it. An empty path leads
    nowhere, and a path has at most 4095 bytes. -/
def splitStart (here : List String) (path : String) :
    Except SystemError (List String × List String) :=
  if '\x00' ∈ path.toList then .error .invalid
  else if path = "" then .error .missing
  else if 4095 < path.utf8ByteSize then .error .nameTooLong
  else
    match splitPath path with
    | "" :: names => .ok (["/"], names)
    | names => .ok (here, names)

/-! ## Places -/

/-- Whether a place is known to be a directory although nothing in the tree says
    so: the top of the tree, those above it, and the root. -/
def isGiven (place : List String) : Bool :=
  place = ["/"] ∨ ∀ name ∈ place, name = ".."

/-- The place above a directory. The root is above itself. -/
def above (place : List String) : List String :=
  if place = ["/"] then place
  else if isGiven place then place ++ [".."]
  else place.dropLast

/-- What is at a place. -/
def node? (t : FileTree) (place : List String) : Option Node :=
  match t.files.lookup place with
  | some contents => some (.file contents)
  | none =>
    if isGiven place ∨ t.files.any (place <+: ·.1) ∨ t.directories.any (place <+: ·) then
      some .directory
    else none

/-- Where a name leads to from a place, whether there is anything or not. A name
    has at most 255 bytes. -/
def step (t : FileTree) (place : List String) (name : String) :
    Except SystemError (List String) :=
  match t.node? place with
  | none => .error .missing
  | some (.file _) => .error .notDirectory
  | some .directory =>
    if name = "" ∨ name = "." then .ok place
    else if name = ".." then .ok (above place)
    else if 255 < name.utf8ByteSize then .error .nameTooLong
    else .ok (place ++ [name])

/-- What a path leads to from a directory. -/
def look (t : FileTree) (here : List String) (path : String) : Except SystemError Node := do
  let (start, names) ← splitStart here path
  match t.node? (← names.foldlM t.step start) with
  | some n => .ok n
  | none => .error .missing

/-! ## Making files -/

/-- Where a name leads to, and the tree in which a directory is made there if
    there was nothing. -/
def makeStep : FileTree × List String → String → Except SystemError (FileTree × List String)
  | (t, place), name => do
    let place ← t.step place name
    match t.node? place with
    | some _ => return (t, place)
    | none => return ({ t with directories := place :: t.directories }, place)

/-- The tree after a file is opened for writing. The directories on the way to it
    and the file are made if need be. -/
def openFile (t : FileTree) (here : List String) (path : String) :
    Except SystemError FileTree := do
  let (start, names) ← splitStart here path
  let (t, place) ← names.dropLast.foldlM makeStep (t, start)
  let place ← t.step place (names.getLast?.getD "")
  match t.node? place with
  | some (.file _) => return t
  | some .directory => .error .isDirectory
  | none => return { t with files := (place, []) :: t.files }

/-! ## Machines -/

/-- A machine with nothing but a tree, a working directory in it, a date, and an
    input that was written before. -/
def machine (here : List String) (date : String) (input : Bytes) :
    Machine (StateM FileTree) where
  look path := return (← get).look here path
  openFile path := do
    match (← get).openFile here path with
    | .ok t => set t; return .ok ()
    | .error e => return .error e
  depth := return here.length
  date := return date
  input := return input
  isTyped := return false

end FileTree

end ScriptCore.CommandLine
