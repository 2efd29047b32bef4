import Bytelift.Files

/-! The programs outside: one tells the version of a compiled file, and there is a disassembler for each
version. -/

namespace Bytelift.Disassembler

open Text

def withLineFeeds (s : String) : String := "\n".intercalate (Text.lines s)

/-- The program at a path. A path of one part is looked for elsewhere and not found. -/
def launch (files : Files) (path : String) : Except Fault Program :=
  if !has path "/" then .error (.noSuchFile path)
  else do
    match ← files.content path with
    | .program p => return p
    | _ => throw (.notAProgram path)

def installed (home name : String) : String := Files.join (Files.join home "Bin") name

def detector (home : String) : String := installed home "VersionDetector.exe"

def version (home file : String) : WorkM String := do
  let files := (← get).files
  let path := detector home
  if !files.isFile path then throw (.noDetector path)
  let program ← Run.ofExcept (launch files path)
  if program.status ≠ 0 then throw (.undetectedVersion file)
  return strip (withLineFeeds program.output)

def run (path output : String) : WorkM Unit := do
  if !(← get).files.isFile path then throw (.noDisassembler path)
  let opened ← Run.ofExcept ((← get).files.write output "")
  WorkM.setFiles opened
  let program ← Run.ofExcept (launch opened path)
  WorkM.setFiles (← Run.ofExcept (opened.write output program.output))
  let complaint := withLineFeeds program.complaint
  if program.status ≠ 0 then throw (.disassemblyFailed program.status (strip complaint))
  if !complaint.isEmpty then say ("[!] Disassembler stderr: " ++ strip complaint)

/-- Disassembles a compiled file with the program given, or else with the one for its version. -/
def disassemble (home file output : String) (given : Option String) : WorkM Unit := do
  let path ← match given.filter (!·.isEmpty) with
    | some path => pure path
    | none => do
      say "Detecting version."
      let version ← version home file
      say s!"Detected version: {version}."
      pure (installed home (version ++ ".exe"))
  say s!"Executing disassembler binary: {path}."
  run path output
  say "Disassembly completed successfully."

end Bytelift.Disassembler
