import Bytelift.Flow.Basic

/-! Blocks of statements: where they close, the jumps that leave them, loops, and guarded ranges. -/

namespace Bytelift.FlowM

open Text

def blockEnd : String := "\n\x7d\n"

/-- Whether a handler starts after an offset and extends forward. -/
def follows? (start : Offset) (handler : Jump) : Option Bool := do
  if ← start.lt? handler.start then handler.start.le? handler.stop else return false

/-- Closes a block at an offset, and says where it was closed. A handler that starts after the block does
draws the end to the start of the handler. The brace goes before a line that opens a block itself. -/
def closeBlock (start stop : Offset) : FlowM Offset := do
  let flow ← get
  let stop ← settled (flow.tables.handlers.values.foldlM (fun stop i => do
    let handler := flow.jump i
    return if ← follows? start handler then handler.start else stop) stop)
  if has (← textAt stop) "\x7b" then prepend stop blockEnd else append stop blockEnd
  return stop

def showExit (keyword : String) (i : Nat) : FlowM Offset := do
  let j ← jump i
  if j.kind = .test then append j.start (" " ++ keyword)
  else if has (← textAt j.stop) "\x7b" then prepend j.start keyword
  else append j.start keyword
  retire i
  return j.stop

/-- Whether a jump starts in a range and goes past its end. -/
def leaves? (first last : Offset) (j : Jump) : Option Bool := do
  if !(← first.le? j.start) then return false
  if !(← j.start.le? last) then return false
  last.lt? j.stop

/-- Shows as a break each of the jumps that lead out of a range, and gives where they go. -/
def breaksAmong (first last : Offset) : List Nat → FlowM (List Offset)
  | [] => return []
  | i :: rest => do
    let j ← jump i
    if ← settled (leaves? first last j) then
      let stop ← showExit "break" i
      return stop :: (← breaksAmong first last rest)
    else breaksAmong first last rest

def markBreaks (first last : Offset) : FlowM (List Offset) := do
  breaksAmong first last ((← openTests) ++ (← openSkips))

/-- Whether a jump starts after the start of a range and goes to its last lines. -/
def resumes? (first near last : Offset) (j : Jump) : Option Bool := do
  if !(← first.le? j.start) then return false
  if !(← near.le? j.stop) then return false
  j.stop.le? last

/-- Shows as a continue each of the jumps from a range to its last lines. A test that goes to a skip is
no continue. -/
def continuesAmong (first near last : Offset) : List Nat → FlowM Unit
  | [] => return
  | i :: rest => do
    let j ← jump i
    if ← settled (resumes? first near last j) then
      if j.kind = .test && (← skipAt? j.stop).isSome then continuesAmong first near last rest
      else
        let _ ← showExit "continue" i
        continuesAmong first near last rest
    else continuesAmong first near last rest

/-- Nothing is shown in a loop whose end has no four lines before it. -/
def markContinues (first last : Offset) : FlowM Unit := do
  match (← get).neighbour last (-4) with
  | .error _ => return
  | .ok near => continuesAmong first near last ((← openTests) ++ (← openSkips))

/-- Puts a loop around its lines, and shows the jumps out of it and to its end. -/
def wrapLoop (i : Nat) : FlowM Bool := do
  let loop ← jump i
  if loop.kind ≠ .loop then return false
  prepend loop.start "while (true)\n\x7b\n"
  let _ ← closeBlock loop.start loop.stop
  retire i
  let last ← neighbour loop.stop (-1)
  let _ ← markBreaks loop.start last
  markContinues loop.start last
  return true

/-- Files a jump over a handler also as the extent of the handler. -/
def fileHandler (i : Nat) : FlowM Unit := do
  let j ← jump i
  modify fun s => { s with tables := s.tables.put .handler j.start i }

/-- Puts a guarded range and its handler around their lines. The handler extends over what the skip at
the end of the range jumps over; without a skip it is empty. -/
def wrapGuarded (i : Nat) : FlowM Bool := do
  let guarded ← jump i
  if guarded.kind ≠ .guarded then return false
  prepend guarded.start "try\n\x7b\n"
  match ← skipAt? guarded.stop with
  | some skip =>
    let handler ← jump skip
    append handler.start "\n\x7d\ncatch\n\x7b"
    append handler.stop blockEnd
    fileHandler skip
    retire skip
  | none => append guarded.stop "\n\x7d\ncatch \x7b\x7d\n"
  retire i
  return true

end Bytelift.FlowM
