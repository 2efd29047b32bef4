import Bytelift.Console
import Bytelift.Table
import Bytelift.Text.Blank
import Bytelift.Text.Decode
import Bytelift.Text.Scan

/-! Files and directories. A path is looked up from the working directory, one part after the other, and
each part but the last must be a directory that is there. -/

namespace Bytelift

open Text

/-- A program outside this one, by what it does when it is run. -/
structure Program where
  output : String := ""
  complaint : String := ""
  status : Int := 0
  deriving DecidableEq, Repr

inductive Content where
  | text (s : String)
  | bytes (bs : List UInt8)
  | program (p : Program)
  deriving DecidableEq, Repr

/-- A place by the names on the way to it from the working directory. Above that lies `..`. -/
abbrev Place := List String

structure Files where
  contents : Table Place Content := {}
  directories : List Place := []

namespace Files

inductive Entry where
  | file (content : Content)
  | directory
  | nothing
  deriving DecidableEq, Repr

/-- The working directory, and those above it, are always there. -/
def isDirectory (files : Files) (place : Place) : Bool :=
  place.all (· == "..") || place == ["/"] || files.directories.contains place

def entryAt (files : Files) (place : Place) : Entry :=
  if files.isDirectory place then .directory
  else match files.contents.get? place with
    | some content => .file content
    | none => .nothing

def step (place : Place) (part : String) : Place :=
  if part = "." then place
  else if part ≠ ".." then place ++ [part]
  else if place.all (· == "..") then place ++ [".."]
  else if place = ["/"] then place
  else place.dropLast

def parts (path : String) : List String := (split path "/").filter (· ≠ "")

def endsInSlash (path : String) : Bool := closesWith path "/"

def walk (files : Files) (path : String) : Place → List String → Except Fault Place
  | place, [] => .ok place
  | place, part :: rest =>
    match files.entryAt place with
    | .directory => walk files path (step place part) rest
    | .file _ => .error (.notADirectory path)
    | .nothing => .error (.noSuchFile path)

def origin (path : String) : Place := if opensWith path "/" then ["/"] else []

/-- The place that a path leads to, whether or not there is anything. -/
def resolve (files : Files) (path : String) : Except Fault Place :=
  if path.isEmpty then .error (.noSuchFile path)
  else files.walk path (origin path) (parts path)

def lookup (files : Files) (path : String) : Except Fault (Place × Entry) := do
  let place ← files.resolve path
  return (place, files.entryAt place)

def isFile (files : Files) (path : String) : Bool :=
  match files.lookup path with
  | .ok (_, .file _) => !endsInSlash path
  | _ => false

def isThere (files : Files) (path : String) : Bool :=
  match files.lookup path with
  | .ok (_, .file _) => !endsInSlash path
  | .ok (_, .directory) => true
  | _ => false

def content (files : Files) (path : String) : Except Fault Content := do
  match ← files.lookup path with
  | (_, .file content) =>
    if endsInSlash path then throw (.notADirectory path) else return content
  | (_, .directory) => throw (.isDirectory path)
  | (_, .nothing) => throw (.noSuchFile path)

def readLenient (files : Files) (path : String) : Except Fault String := do
  match ← files.content path with
  | .text s => return s
  | .bytes bs => return decodeLenient bs
  | .program _ => return ""

def readStrict (files : Files) (path : String) : Except Fault String := do
  match ← files.content path with
  | .text s => return s
  | .bytes bs =>
    match decodeStrict? bs with
    | some s => return s
    | none => throw (.undecodable path)
  | .program _ => return ""

def put (files : Files) (place : Place) (content : Content) : Files :=
  { files with contents := files.contents.put place content }

def writable (files : Files) (path : String) : Except Fault Place := do
  match ← files.lookup path with
  | (_, .directory) => throw (.isDirectory path)
  | (place, _) => if endsInSlash path then throw (.isDirectory path) else return place

def write (files : Files) (path text : String) : Except Fault Files := do
  let place ← files.writable path
  return files.put place (.text text)

/-! ## Directories -/

def addDirectory (files : Files) (place : Place) : Files :=
  if files.isDirectory place then files
  else { files with directories := files.directories ++ [place] }

def makeDirectory (files : Files) (path : String) : Except Fault Files := do
  match ← files.lookup path with
  | (place, .nothing) => return files.addDirectory place
  | _ => throw (.alreadyThere path)

/-- The part of a path before its last slash, without the slashes at its end unless it is all slashes, and
the part after it. -/
def splitPath (path : String) : String × String :=
  match cutAtLast? path '/' with
  | none => ("", path)
  | some (before, name) =>
    let directory := trimEnd (· == '/') before.toList
    (if directory.isEmpty then before ++ "/" else String.ofList directory, name)

/-- The path of a directory, and its last part, slashes at the end aside. -/
def splitDirectory (path : String) : String × String :=
  match splitPath path with
  | (above, "") => splitPath above
  | parts => parts

/-- Goes on where an action failed because something is there already. -/
def unlessThere (act : Run Files Unit) : Run Files Unit := fun files =>
  match act files with
  | .error (.alreadyThere _) files => .ok () files
  | result => result

/-- Makes a directory and those above it that are missing. The path above is shorter, so the length of the
path bounds the steps. -/
def makeWithin : Nat → String → Run Files Unit
  | 0, path => do set (← Run.ofExcept ((← get).makeDirectory path))
  | bound + 1, path => do
    let (above, name) := splitDirectory path
    if !above.isEmpty && !name.isEmpty && !(← get).isThere above then
      unlessThere (makeWithin bound above)
      if name = "." then return
    set (← Run.ofExcept ((← get).makeDirectory path))

def makeDirectories (path : String) : Run Files Unit := makeWithin path.length path

def join (path name : String) : String :=
  if opensWith name "/" then name
  else if path.isEmpty || closesWith path "/" then path ++ name
  else path ++ "/" ++ name

/-- The place that a path names, if all on the way to it is there. -/
def placeOf (path : String) : Place := (parts path).foldl step (origin path)

def above (place : Place) : List Place := (List.range place.length).map fun n => place.take n

def pathTo : Place → String
  | "/" :: rest => "/" ++ "/".intercalate rest
  | place => "/".intercalate place

/-- A file that is simply there, with the directories on the way to it. -/
def withFile (files : Files) (path : String) (content : Content) : Files :=
  let place := placeOf path
  ((above place).foldl addDirectory files).put place content

end Files

structure Workspace where
  files : Files := {}
  console : Console := {}

instance : HasConsole Workspace := ⟨Workspace.console, fun s c => { s with console := c }⟩

abbrev WorkM := Run Workspace

namespace WorkM

def setFiles (files : Files) : WorkM Unit := modify fun s => { s with files }

/-- Makes directories, and says whether they are there afterwards. A fault is told on the console. -/
def makeDirectories (path : String) : WorkM Bool := do
  match Files.unlessThere (Files.makeDirectories path) (← get).files with
  | .ok _ files =>
    setFiles files
    return true
  | .error fault files =>
    setFiles files
    say ("An error occurred: " ++ fault.message)
    return false

end WorkM

end Bytelift
