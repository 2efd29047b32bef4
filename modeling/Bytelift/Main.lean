import Bytelift.Command.Run

/-! The command line program. It brings the files that the command may read into a workspace, runs the
command there, and puts on disk what the command has written. It starts no other programs. -/

namespace Bytelift

def contentOf (bytes : List UInt8) : Content :=
  match Text.decodeStrict? bytes with
  | some s => .text s
  | none => .bytes bytes

def bringFiles (files : Files) : List String → IO Files
  | [] => return files
  | path :: rest => do
    let files ← try
        let bytes ← IO.FS.readBinFile path
        pure (files.withFile path (contentOf bytes.toList))
      catch _ => pure files
    bringFiles files rest

def isDirectoryOnDisk (path : String) : IO Bool := do
  try
    let _ ← IO.FS.realPath (path ++ "/.")
    return true
  catch _ => return false

def bringDirectories (files : Files) : List Place → IO Files
  | [] => return files
  | place :: rest => do
    if ← isDirectoryOnDisk (Files.pathTo place) then
      bringDirectories (files.addDirectory place) rest
    else bringDirectories files rest

def pathsOf (options : Command.Options) : List String :=
  [options.input] ++ options.included.toList ++ options.excluded.toList ++
    options.disassembler.toList

def placesOf (options : Command.Options) : List Place :=
  match options.output with
  | none => []
  | some path =>
    let place := Files.placeOf path
    (Files.above place).drop 1 ++ [place]

def putOnDisk (before : Files) : List (Place × Content) → IO Unit
  | [] => return
  | (place, content) :: rest => do
    match content with
    | .text s =>
      if before.contents.get? place ≠ some content then
        if 1 < place.length then IO.FS.createDirAll (Files.pathTo place.dropLast)
        IO.FS.writeFile (Files.pathTo place) s
    | _ => pure ()
    putOnDisk before rest

def bring (arguments : List String) : IO Files :=
  match Command.read arguments with
  | .error _ => return {}
  | .ok options => do
    let files ← bringFiles {} (pathsOf options)
    bringDirectories files (placesOf options)

end Bytelift

open Bytelift in
def main (arguments : List String) : IO UInt32 := do
  let files ← bring arguments
  match Command.run Text.Format.fit? "bytelift" "." arguments { files } with
  | .ok outcome workspace =>
    IO.print workspace.console.output
    putOnDisk files workspace.files.contents.entries
    if !outcome.complaint.isEmpty then IO.eprintln outcome.complaint
    return UInt32.ofNat outcome.status
  | .error fault workspace =>
    IO.print workspace.console.output
    putOnDisk files workspace.files.contents.entries
    IO.eprintln fault.message
    return 1
