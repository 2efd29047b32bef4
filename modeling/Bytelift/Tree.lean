import Bytelift.Export
import Bytelift.Functions.Usage

/-! Trees of functions: the branches below a root, by declaration or by use, and the files that they are
written to. -/

namespace Bytelift

open Functions

/-- The functions of each branch, by the function at its root. -/
abbrev Branches := Table String (List String)

namespace Branches

/-- Small branches first; branches of one size keep their order. -/
def bySize (branches : Branches) : Branches :=
  ⟨branches.entries.mergeSort fun a b => a.2.length ≤ b.2.length⟩

/-- The branches that a function uses: each holds what its root reaches without coming back through the
function. -/
def ofUsage (functions : Functions) (usage : Usage) (limit : Option Int) (root : String) :
    Option Branches :=
  if !functions.contains root then none
  else
    let children := (usage.uses root).mergeSort (· ≤ ·)
    let family (child : String) : List String :=
      (usage.reach (· == root) limit child 1).filter functions.contains
    some (bySize (Table.ofList (children.map fun child => (child, family child))))

def families (functions : Functions) : List String → Except Fault (List (String × List String))
  | [] => .ok []
  | child :: rest => do
    let family ← functions.included [child]
    return (child, family.keys) :: (← families functions rest)

def ofDeclarations {σ : Type} [HasConsole σ] (functions : Functions) (root : String) :
    Run σ (Option Branches) := do
  match functions.get? root with
  | none => return none
  | some f =>
    say ("Tree root: " ++ f.name)
    match f.declarer with
    | none => say "Declarer Root"
    | some declarer => say ("Parent: " ++ declarer)
    let branches ← Run.ofExcept (families functions (functions.declaredBy root))
    return some (bySize ⟨branches⟩)

end Branches

namespace Tree

/-- How branches are shared out between the file of the root and files of their own. -/
structure Layout where
  /-- The most functions of a branch that has no file of its own. -/
  limit : Int
  /-- How far from the root functions go into its file. -/
  depth : Int := 0
  /-- Whether the branches may go into the file of the root at all. -/
  withBranches : Bool := true

/-- The functions near the root. Where uses are not known that is the root alone. -/
def near (functions : Functions) (usage : Option Usage) (root : String) (depth : Int) :
    List String :=
  match usage with
  | none => [root]
  | some usage => usage.reach (fun name => !functions.contains name) (some depth) root 0

def isSmall (layout : Layout) (branch : List String) : Bool :=
  (branch.eraseDups.length : Int) ≤ layout.limit

def mainSet (functions : Functions) (usage : Option Usage) (root : String) (layout : Layout)
    (branches : Branches) : List String :=
  near functions usage root layout.depth ++
    (if layout.withBranches then
      branches.entries.flatMap fun (child, branch) =>
        child :: (if isSmall layout branch then branch else [])
    else [])

def saveBranches (functions : Functions) (layout : Layout) (directory : String)
    (forms : List OutputForm) (excluded : Option (List String)) :
    List (String × List String) → WorkM Unit
  | [] => return
  | (child, branch) :: rest => do
    if !isSmall layout branch then
      let size := branch.eraseDups.length
      say s!"Name: {child}, List Length: {size}"
      let place := Files.join directory (toString size)
      let _ ← WorkM.makeDirectories place
      Export.run (Files.join place (child ++ ".txt")) functions forms
        { included := some branch, excluded }
    saveBranches functions layout directory forms excluded rest

/-- Writes the file of the root, and a file for each branch that is not small, in a directory named for the
size of the branch. -/
def save (functions : Functions) (usage : Option Usage) (root : String) (layout : Layout)
    (branches : Branches) (directory : String) (forms : List OutputForm)
    (excluded : Option (List String)) : WorkM Unit := do
  let main := mainSet functions usage root layout branches
  let _ ← WorkM.makeDirectories directory
  Export.run (Files.join directory (root ++ ".txt")) functions forms
    { included := some main, excluded }
  saveBranches functions layout directory forms excluded branches.entries

end Tree

end Bytelift
