import Bytelift.Fault

/-! The console that a run talks to, and runs themselves. A run that fails keeps the state it reached, so
what was printed before a fault is still there after it. -/

namespace Bytelift

/-- What was printed so far, and the lines still to be read. -/
structure Console where
  output : String := ""
  input : List String := []
  deriving DecidableEq, Repr, Inhabited

namespace Console

def print (c : Console) (text : String) : Console := { c with output := c.output ++ text }

def printLine (c : Console) (line : String) : Console := c.print (line ++ "\n")

end Console

/-- An action on a state that may fail; the state survives the fault. -/
abbrev Run (σ α : Type) := EStateM Fault σ α

/-- Runs an action on a part of the state, and puts the part back however the action ends. -/
def Run.on {σ τ α : Type} (part : σ → τ) (put : σ → τ → σ) (act : Run τ α) : Run σ α := fun s =>
  match act (part s) with
  | .ok a t => .ok a (put s t)
  | .error e t => .error e (put s t)

def Run.need {σ α : Type} (fault : Fault) : Option α → Run σ α
  | some a => pure a
  | none => throw fault

def Run.ofExcept {σ α : Type} : Except Fault α → Run σ α
  | .ok a => pure a
  | .error fault => throw fault

class HasConsole (σ : Type) where
  console : σ → Console
  setConsole : σ → Console → σ

instance : HasConsole Console := ⟨id, fun _ c => c⟩

def say {σ : Type} [HasConsole σ] (line : String) : Run σ Unit :=
  modify fun s => HasConsole.setConsole s ((HasConsole.console s).printLine line)

def sayAll {σ : Type} [HasConsole σ] : List String → Run σ Unit
  | [] => return
  | line :: lines => do
    say line
    sayAll lines

/-- Prints a prompt, without ending the line, and reads the answer. -/
def ask {σ : Type} [HasConsole σ] (prompt : String) : Run σ String := do
  modify fun s => HasConsole.setConsole s ((HasConsole.console s).print prompt)
  let console := HasConsole.console (← get)
  match console.input with
  | [] => throw .noMoreInput
  | line :: rest =>
    modify fun s => HasConsole.setConsole s { console with input := rest }
    return line

end Bytelift
