import WordAutomata.Bytes
import WordAutomata.StreamError

namespace WordAutomata

/-- The files that a command sees and leaves behind, by place, and the folders known beside those that files lie in. A place is
the shortest path to it; that of the current folder is empty. -/
structure Directory where
  files : List (String × Bytes)
  folders : List String := []

namespace Directory

def maxPath : Nat := 4096

def maxName : Nat := 255

/-- What stands between the slashes of a path. -/
def segments (path : String) : List String := (path.toList.splitOn '/').map String.ofList

def parts (path : String) : List String := (segments path).filter (· ≠ "")

def start (path : String) : String := if path.startsWith "/" then "/" else ""

def below (folder name : String) : String :=
  if folder = "" then name else if folder = "/" then folder ++ name else folder ++ "/" ++ name

/-- Whether a place is reached by going up only. -/
def isAbove (place : String) : Bool := (segments place).all (· = "..")

def above (folder : String) : String :=
  if folder = "/" then folder
  else if folder = "" ∨ isAbove folder then below folder ".."
  else match (segments folder).dropLast with
    | [""] => "/"
    | parts => "/".intercalate parts

/-- The place that one part of a path leads to. -/
def advance (folder part : String) : String :=
  if part = "." then folder else if part = ".." then above folder else below folder part

/-- The place of a path, whether there is something or not. -/
def place (path : String) : String := (parts path).foldl advance (start path)

def ancestors (place : String) : List String :=
  let parts := segments place
  (List.range parts.length).tail.map fun n => "/".intercalate (parts.take n)

/-- What a path leads to, and its place. -/
inductive Entry
  | file (place : String) (data : Bytes)
  | folder (place : String)
  /-- Nothing, in a folder that there is. -/
  | vacant (place : String)

def get? (d : Directory) (place : String) : Option Bytes :=
  (d.files.find? fun f => f.1 = place).map Prod.snd

def hasFolder (d : Directory) (place : String) : Bool :=
  place = "" || place = "/" || isAbove place || d.folders.contains place ||
    d.files.any fun f => (ancestors f.1).contains place

def step (d : Directory) (folder part : String) : Except IoCause Entry :=
  if maxName < part.utf8ByteSize then .error .nameTooLong
  else
    let place := advance folder part
    if d.hasFolder place then .ok (.folder place)
    else match d.get? place with
      | some data => .ok (.file place data)
      | none => .ok (.vacant place)

/-- Follows a path part by part from a folder. Every part but the last has to lead to a folder. -/
def walk (d : Directory) (folder : String) : List String → Except IoCause Entry
  | [] => .ok (.folder folder)
  | [part] => d.step folder part
  | part :: rest => do
    match ← d.step folder part with
    | .folder place => d.walk place rest
    | .file .. => throw .notADirectory
    | .vacant _ => throw .notFound

/-- Refuses what no path may be. -/
def checkPath (path : String) : Except IoCause Unit :=
  if path = "" then .error .notFound
  else if maxPath ≤ path.utf8ByteSize then .error .nameTooLong
  else .ok ()

def put (d : Directory) (place : String) (data : Bytes) : Directory :=
  { d with files := (place, data) :: d.files.filter fun f => f.1 ≠ place }

/-- Makes an empty file, or empties one, and tells its place. A path that ends like that of a folder cannot make a file,
whatever it leads to. -/
def create (d : Directory) (path : String) : Except IoCause (String × Directory) := do
  checkPath path
  if path.endsWith "/" then
    match ← d.walk (start path) (parts path).dropLast with
    | .folder _ => throw .isADirectory
    | .file .. => throw .notADirectory
    | .vacant _ => throw .notFound
  else match ← d.walk (start path) (parts path) with
    | .folder _ => throw .isADirectory
    | .file place _ | .vacant place => return (place, d.put place #[])

/-- The contents of a file. A path that ends like that of a folder does not lead to one. -/
def read (d : Directory) (path : String) : Except IoCause Bytes := do
  checkPath path
  match ← d.walk (start path) (parts path) with
  | .file _ data => if path.endsWith "/" then throw .notADirectory else return data
  | .folder _ => throw .isADirectory
  | .vacant _ => throw .notFound

end Directory

end WordAutomata
