import Bytelift.Offset
import Bytelift.Table

/-! Jumps and the tables they are filed in: one table for each kind of jump, keyed by where the jump
starts, always listed in the same order of kinds. -/

namespace Bytelift

inductive JumpKind where
  /-- Back to the head of a loop. -/
  | loop
  /-- From the start of a guarded range to its handler. -/
  | guarded
  /-- Over a handler, from the end of the guarded range. -/
  | handler
  /-- To the next arm of a table switch. -/
  | arm
  /-- Taken or not by a test of the accumulator. -/
  | test
  /-- Always taken, forward. -/
  | skip
  /-- Taken if the accumulator holds an object, in code that finishes an iteration. -/
  | receiver
  /-- A kind that has no table. -/
  | other (name : String)
  deriving DecidableEq, Repr, Inhabited

namespace JumpKind

def label : JumpKind → String
  | .loop => "Loop"
  | .guarded => "Exception"
  | .handler => "Catch"
  | .arm => "IntSwitch"
  | .test => "If"
  | .skip => "Jump"
  | .receiver => "IfJSReceiver"
  | .other name => name

/-- The kinds that have a table, in the order of the tables. -/
def filed : List JumpKind := [.loop, .guarded, .handler, .arm, .test, .skip, .receiver]

def ofLabel (name : String) : JumpKind :=
  (filed.find? fun k => k.label == name).getD (.other name)

end JumpKind

/-- What the arm of a table switch prints: its labels. Each arm knows where the last one starts. -/
structure Arm where
  labels : String
  lastStart : Offset
  deriving DecidableEq, Repr, Inhabited

structure Jump where
  kind : JumpKind
  start : Offset
  stop : Offset
  done : Bool := false
  arm : Option Arm := none
  deriving DecidableEq, Repr, Inhabited

structure JumpTables (α : Type) where
  loops : Table Offset α := {}
  guardeds : Table Offset α := {}
  handlers : Table Offset α := {}
  arms : Table Offset α := {}
  tests : Table Offset α := {}
  skips : Table Offset α := {}
  receivers : Table Offset α := {}
  deriving Repr, Inhabited

namespace JumpTables

variable {α β : Type}

def get? (t : JumpTables α) : JumpKind → Option (Table Offset α)
  | .loop => some t.loops
  | .guarded => some t.guardeds
  | .handler => some t.handlers
  | .arm => some t.arms
  | .test => some t.tests
  | .skip => some t.skips
  | .receiver => some t.receivers
  | .other _ => none

def set (t : JumpTables α) (kind : JumpKind) (table : Table Offset α) : JumpTables α :=
  match kind with
  | .loop => { t with loops := table }
  | .guarded => { t with guardeds := table }
  | .handler => { t with handlers := table }
  | .arm => { t with arms := table }
  | .test => { t with tests := table }
  | .skip => { t with skips := table }
  | .receiver => { t with receivers := table }
  | .other _ => t

/-- Files a value under its start; a kind without a table keeps nothing. -/
def put (t : JumpTables α) (kind : JumpKind) (start : Offset) (a : α) : JumpTables α :=
  match t.get? kind with
  | some table => t.set kind (table.put start a)
  | none => t

def toList (t : JumpTables α) : List (JumpKind × Table Offset α) :=
  JumpKind.filed.filterMap fun k => (t.get? k).map (k, ·)

def all (t : JumpTables α) : List α := t.toList.flatMap fun (_, table) => table.values

theorem get?_set (t : JumpTables α) {k : JumpKind} {old : Table Offset α} (h : t.get? k = some old)
    (table : Table Offset α) (j : JumpKind) :
    (t.set k table).get? j = if k = j then some table else t.get? j := by
  cases k <;> cases j <;> simp_all [get?, set]

end JumpTables

end Bytelift
