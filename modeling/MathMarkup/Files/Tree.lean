import MathMarkup.Files.Path
import MathMarkup.Text.Lines
import MathMarkup.Text.Utf8

/-! Directories and files. A place is the list of the names that lead to it from the top. -/
namespace MathMarkup

-- Contents are compared as the core library does, also where others are at hand.
attribute [local instance (high)] ByteArray.instDecidableEq

inductive Entry where
  | directory
  | file (content : ByteArray)
  deriving DecidableEq

inductive FileProblem where
  | missing | exists | notDirectory | isDirectory
  deriving DecidableEq

def FileProblem.text : FileProblem → String
  | .missing => "[Errno 2] No such file or directory"
  | .exists => "[Errno 17] File exists"
  | .notDirectory => "[Errno 20] Not a directory"
  | .isDirectory => "[Errno 21] Is a directory"

structure FileFault where
  problem : FileProblem
  path : Path
  deriving DecidableEq

def FileFault.message (f : FileFault) : String :=
  f.problem.text ++ ": " ++ Text.quoted f.path.toString

/-- Why a file is not written: what stands on the way to it, or that it may not be written. -/
inductive WriteFault where
  | file (fault : FileFault)
  | denied (path : Path)
  deriving DecidableEq

def WriteFault.message : WriteFault → String
  | .file fault => fault.message
  | .denied path => "[Errno 13] Permission denied: " ++ Text.quoted path.toString

abbrev Place := List String

/-- Relative paths start at the place `here`, which is that of a directory, as is all on the way to
it. -/
structure Tree where
  here : Place
  entries : List (Place × Entry)

namespace Tree

/-- What stands at a place. -/
def find? (t : Tree) (place : Place) : Option Entry :=
  if place.isPrefixOf t.here then some .directory else t.entries.lookup place

def put (t : Tree) (place : Place) (e : Entry) : Tree :=
  { t with entries := (place, e) :: t.entries.filter (·.1 ≠ place) }

/-- The place that names lead to. All on the way to it are directories; a double dot leads one
directory up. -/
def walk (t : Tree) (place : Place) : List String → Except FileProblem Place
  | [] => .ok place
  | name :: names =>
    match t.find? place with
    | some .directory => t.walk (if name = ".." then place.dropLast else place ++ [name]) names
    | some (.file _) => .error .notDirectory
    | none => .error .missing

def place? (t : Tree) (p : Path) : Except FileProblem Place :=
  t.walk (if p.absolute then [] else t.here) p.names

def isDirectory (t : Tree) (p : Path) : Bool :=
  match t.place? p with
  | .ok place => t.find? place = some .directory
  | .error _ => false

def read (t : Tree) (p : Path) : Except FileFault ByteArray :=
  match t.place? p with
  | .error problem => .error ⟨problem, p⟩
  | .ok place =>
    match t.find? place with
    | some (.file content) => .ok content
    | some .directory => .error ⟨.isDirectory, p⟩
    | none => .error ⟨.missing, p⟩

/-- The place of the file of a path, there already or not. -/
def filePlace (t : Tree) (p : Path) : Except FileFault Place :=
  match t.place? p with
  | .error problem => .error ⟨problem, p⟩
  | .ok place =>
    if t.find? place = some .directory then .error ⟨.isDirectory, p⟩ else .ok place

def content (t : Tree) (place : Place) : ByteArray :=
  match t.find? place with
  | some (.file content) => content
  | _ => .empty

/-- More at the end of the file at a place, which is there from now on. -/
def extend (t : Tree) (place : Place) (more : ByteArray) : Tree :=
  t.put place (.file (t.content place ++ more))

def makeDirectory (t : Tree) (p : Path) : Except FileProblem Tree :=
  match t.place? p with
  | .error problem => .error problem
  | .ok place =>
    if (t.find? place).isSome then .error .exists else .ok (t.put place .directory)

/-- A directory that may be there already. -/
def haveDirectory (t : Tree) (p : Path) : Except FileProblem Tree :=
  match t.makeDirectory p with
  | .ok t => .ok t
  | .error problem => if t.isDirectory p then .ok t else .error problem

/-- The directory of a path, whose names are given from the last to the first, together with all on
the way to it. What was made before a failure stays. -/
def ensure (absolute : Bool) : List String → Tree → Tree × Option FileFault
  | [], t =>
    match t.haveDirectory ⟨absolute, []⟩ with
    | .ok t => (t, none)
    | .error problem => (t, some ⟨problem, ⟨absolute, []⟩⟩)
  | name :: names, t =>
    let p : Path := ⟨absolute, (name :: names).reverse⟩
    match t.haveDirectory p with
    | .ok t => (t, none)
    | .error .missing =>
      match ensure absolute names t with
      | (t, some fault) => (t, some fault)
      | (t, none) =>
        match t.haveDirectory p with
        | .ok t => (t, none)
        | .error problem => (t, some ⟨problem, p⟩)
    | .error problem => (t, some ⟨problem, p⟩)

def ensureDirectory (t : Tree) (p : Path) : Tree × Option FileFault :=
  ensure p.absolute p.names.reverse t

/-- The place of the file of a path, once the directories on the way to it are made. -/
def prepare (t : Tree) (p : Path) : Tree × Except FileFault Place :=
  match t.ensureDirectory p.parent with
  | (t, some fault) => (t, .error fault)
  | (t, none) => (t, t.filePlace p)

/-- A text in place of what the file of a path held, if that file may be written. -/
def write (t : Tree) (p : Path) (s : String) (writable : Bool := true) :
    Tree × Option WriteFault :=
  match t.prepare p with
  | (t, .error fault) => (t, some (.file fault))
  | (t, .ok place) =>
    if writable then (t.put place (.file s.toUTF8), none) else (t, some (.denied p))

end Tree

inductive TextFault where
  | file (fault : FileFault)
  | encoding (fault : Text.Utf8Fault)
  deriving DecidableEq

def TextFault.message : TextFault → String
  | .file fault => fault.message
  | .encoding fault => fault.message

/-- The text of a file, with line feeds at the ends of its lines. -/
def Tree.readText (t : Tree) (p : Path) : Except TextFault String :=
  match t.read p with
  | .error fault => .error (.file fault)
  | .ok content =>
    match Text.decodeUtf8 content with
    | .error fault => .error (.encoding fault)
    | .ok s => .ok (String.ofList (Text.feeds s.toList))

end MathMarkup
