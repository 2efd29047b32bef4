import Bytelift.Flow.Block

/-! Switches. A table switch is a chain of arms, each starting where the one before it stops. A comparison
switch is a run of tests over one range that go to different places, and a skip after the last of them that
goes to the default. -/

namespace Bytelift.FlowM

open Text

/-- A block that turns out to hold nothing is closed where it opens. -/
def closeEmpty (text : String) : String := replace text "\n\x7b\n" "\n\x7b\x7d\n"

def defaultStart : String := "\n\x7d\ndefault:\n\x7b\n"

def filedAt? (kind : JumpKind) (start : Offset) : FlowM (Option Nat) := do
  match (← get).tables.get? kind with
  | some table => return table.get? start
  | none => throw (.unfiledKind kind.label)

def armOf (j : Jump) : FlowM Arm := Run.need .notAnArm j.arm

/-- Lays out the arms from one on, and gives where the breaks out of them go. Each arm leaves its table
when it is laid out, so the number of jumps bounds the chain. -/
def layOutArms : Nat → Offset → Option Nat → FlowM (List Offset)
  | _, _, none => return []
  | 0, _, some _ => throw .endless
  | bound + 1, previous, some i => do
    let j ← jump i
    let arm ← armOf j
    prepend j.start ("\n\x7d\n" ++ arm.labels ++ "\n\x7b\n")
    let ends ← markBreaks previous (← neighbour j.start (-1))
    retire i
    return ends ++ (← layOutArms bound j.start (← filedAt? j.kind j.stop))

/-- Closes the last arm where the breaks go. If they go to two places or more, what lies between the last
two is the default; if to none, the last arm is empty. -/
def closeArms (last : Offset) (ends : List Offset) : FlowM Bool := do
  let ends ← settled (Offset.ascending? ends)
  match (← settled (ends.filterM last.lt?)).reverse with
  | [] =>
    revise last closeEmpty
    return true
  | [stop] =>
    let _ ← closeBlock last stop
    return true
  | [stop, start] =>
    append start defaultStart
    let closed ← closeBlock start stop
    let _ ← markBreaks start (← neighbour closed (-1))
    return true
  | stop :: start :: _ =>
    append start defaultStart
    let closed ← closeBlock start stop
    let _ ← markBreaks start closed
    return false

/-- Lays out a table switch from its first arm, the one that carries the header. -/
def layOutTable (i : Nat) : FlowM Bool := do
  let switch ← jump i
  let arm ← armOf switch
  if !has arm.labels "switch" then return false
  append switch.start ("\n" ++ arm.labels ++ "\n\x7b\n")
  let bound := (← get).jumps.length
  let ends ← layOutArms bound switch.start (← filedAt? switch.kind switch.stop)
  match ← settled (Offset.ascending? ends) with
  | [] => closeArms arm.lastStart []
  | first :: _ =>
    let more ← markBreaks arm.lastStart (← neighbour first (-1))
    closeArms arm.lastStart (ends ++ more)

def handleArm (i : Nat) : FlowM Bool := do
  if (← jump i).kind ≠ .arm then return false
  let _ ← layOutTable i
  return true

/-- Whether the next of the cases goes to the same place. -/
def sharesBody (flow : Flow) (stop : Offset) : List Nat → Bool
  | [] => false
  | next :: _ => (flow.jump next).stop = stop

/-- Gives a case its number in place of its test. The default has no test of its own. -/
def nameCase (fallback number i : Nat) : FlowM Unit := do
  if i ≠ fallback then revise (← jump i).start fun _ => s!"CASE_{number} = ACCU"

/-- Shows the breaks out of a body that starts after one offset and ends at another, and gives where they
go. A body that starts at offset 0 or nowhere takes no breaks. -/
def markBodyBreaks (previous : Option Offset) (stop : Offset) : FlowM (List Offset) :=
  match previous with
  | none => return []
  | some body => do
    if body = .number 0 || body = .blank then return []
    markBreaks (← neighbour body 1) stop

/-- Lays out the cases of a comparison switch in the order of where they go, and gives where the breaks out
of their bodies go. Cases with one body are listed together. -/
def layOutCases (fallback : Nat) (number : Nat) (labels : String) (previous : Option Offset) :
    List Nat → FlowM (List Offset)
  | [] => return []
  | i :: rest => do
    let j ← jump i
    let labels := labels ++ (if i = fallback then "default:\n" else s!"case CASE_{number}:\n")
    nameCase fallback number i
    retire i
    if sharesBody (← get) j.stop rest then
      layOutCases fallback (number + 1) labels previous rest
    else
      let ends ← markBodyBreaks previous j.stop
      append j.stop (labels ++ "\x7b\n")
      return ends ++ (← layOutCases fallback (number + 1) "\n\x7d\n" (some j.stop) rest)

/-- Closes the last case where the furthest break goes. If that is where the default goes, or if there is no
break, the last case is empty. -/
def closeCases (last : Jump) (past : Offset) (ends : List Offset) : FlowM Unit := do
  match (← settled (Offset.ascending? ends)).getLast? with
  | some furthest =>
    if furthest = past then
      revise last.stop closeEmpty
    else
      let closed ← closeBlock last.start furthest
      let _ ← markBreaks last.start (← neighbour closed (-1))
  | none => revise last.stop closeEmpty

/-- Whether a test starts in the range of another and goes no less far. -/
def isCase? (switch c : Jump) : Option Bool := do
  if !(← switch.start.le? c.start) then return false
  if !(← c.start.le? switch.stop) then return false
  switch.stop.le? c.stop

/-- Lays out a comparison switch that starts with this test, if there is one. -/
def layOutComparison (i : Nat) : FlowM Bool := do
  let switch ← jump i
  if switch.kind ≠ .test then return false
  let flow ← get
  let cases ← settled ((← openTests).filterM fun c => isCase? switch (flow.jump c))
  let lastTest ← Run.need .noTests cases.getLast?
  match ← skipAt? (← neighbour (flow.jump lastTest).start 1) with
  | none => return false
  | some fallback =>
    let bodies := (cases.map fun c => (flow.jump c).stop).eraseDups
    if bodies.length < 2 then return false
    if ← settled (switch.stop.lt? (flow.jump fallback).start) then return false
    let cases ← settled (Offset.sortBy? (fun c => (flow.jump c).stop) (cases ++ [fallback]))
    let ends ← layOutCases fallback 0 "switch ()\n" none cases
    closeCases (flow.jump (cases.getLastD fallback)) (flow.jump fallback).stop ends
    return true

/-- Shows the jump at an offset as the break of a case, and gives where it goes. -/
def markCaseBreak (offset : Offset) : FlowM (Option Offset) := do
  let found ← match ← skipAt? offset with
    | some i => pure (some i)
    | none => testAt? offset
  match found with
  | none => return none
  | some i =>
    let j ← jump i
    append j.start (if j.kind = .test then " break" else "break")
    retire i
    return some j.stop

end Bytelift.FlowM
