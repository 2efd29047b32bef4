import Bytelift.Console
import Bytelift.Table

/-! Contexts: the scopes that closures capture. Each has a number, from 1 on in the order in which they are
entered, and a parent; 0 stands for what lies outside all of them. A function starts in the context in
which it was created, or else in that of its declarer. -/

namespace Bytelift

structure Contexts where
  last : Nat := 0
  parents : Table Int Int := {}
  functions : Table String Int := {}
  deriving DecidableEq, Repr, Inhabited

namespace Contexts

def enter (c : Contexts) (current : Int) : Int × Contexts :=
  (c.last + 1, { c with last := c.last + 1, parents := c.parents.put (c.last + 1) current })

def parent (c : Contexts) (context : Int) : Int := (c.parents.get? context).getD 0

def outward (c : Contexts) (context : Int) : Nat → Int
  | 0 => context
  | steps + 1 => c.outward (c.parent context) steps

def setFunction (c : Contexts) (name : String) (context : Int) : Contexts :=
  { c with functions := c.functions.put name context }

/-- The context in which a function starts. The first function asked for starts outside all contexts, and
so does one of which nothing is known. -/
def start (c : Contexts) (name : String) (declarer : Option String) : Option Int × Contexts :=
  match c.functions.get? name with
  | some context => (some context, c)
  | none =>
    if c.functions.isEmpty then (some 0, c.setFunction name 0)
    else match declarer.bind c.functions.get? with
      | some context => (some context, c.setFunction name context)
      | none => (none, c)

end Contexts

class HasContexts (σ : Type) where
  contexts : σ → Contexts
  setContexts : σ → Contexts → σ

def startContext {σ : Type} [HasConsole σ] [HasContexts σ] (name : String)
    (declarer : Option String) : Run σ Int := do
  let (context, contexts) := (HasContexts.contexts (← get)).start name declarer
  modify fun s => HasContexts.setContexts s contexts
  match context with
  | some context => return context
  | none =>
    say s!"Error: function {name} is not in context stack."
    return 0

end Bytelift
