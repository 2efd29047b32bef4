import Bytelift.Flow.Switch

/-! Conditionals. A condition of several tests is a run of jumps that go to its body, past its body, or to
one another; each is joined to the next by what its target says about the whole condition. -/

namespace Bytelift.FlowM

open Text

inductive Connective where
  | or
  | and
  deriving DecidableEq, Repr

namespace Connective

def sign : Connective → String
  | .or => "||"
  | .and => "&&"

def other : Connective → Connective
  | .or => .and
  | .and => .or

end Connective

/-- Follows the tests that each go to the next one. A chain that visits no test twice is no longer than
the table of tests. -/
def followTests : Nat → Nat → FlowM Nat
  | 0, _ => throw .endless
  | bound + 1, i => do
    match ← testAt? (← jump i).stop with
    | none => return i
    | some next =>
      let target ← jump next
      if next = i || target.start = target.stop then return i
      else followTests bound next

/-- Of the given jumps the first among those that start last. -/
def latest (flow : Flow) : List Nat → FlowM (Option Nat)
  | [] => return none
  | i :: rest => return some (← settled (rest.foldlM (fun best c => do
      return if ← (flow.jump best).start.lt? (flow.jump c).start then c else best) i))

def testBefore (skip : Nat) : FlowM Nat := do
  let start := (← jump skip).start
  let flow ← get
  Run.need (.noTestBefore start)
    (← latest flow ((← openTests).filter fun c => (flow.jump c).stop = start))

/-- The test that ends the chain from a test on. If that one goes to a skip, the condition has an else part,
and the test is the last of those that go there. -/
def chainEnd (i : Nat) : FlowM Nat := do
  let chained ← followTests ((← openTests).length + 2) i
  match ← skipAt? (← jump chained).stop with
  | none => return chained
  | some skip => testBefore skip

/-- A test that only steps over a skip goes where the skip goes. -/
def stepOver (i : Nat) : FlowM Unit := do
  match ← skipAt? (← neighbour (← jump i).start 1) with
  | none => return
  | some far =>
    setStop i (← jump far).stop
    retire far

def lastTest (i : Nat) : FlowM Nat := do
  let last ← chainEnd i
  stepOver last
  return last

def negate (test : String) : String :=
  if has test " != " then replace test " != " " == "
  else if has test "!" then replace test "!" ""
  else replace test "(" "(!"

def invertTest (i : Nat) : FlowM Unit := do revise (← jump i).start negate

/-- Extends the known connectives to the tests that go to the offset at the head of the queue. -/
def spread (flow : Flow) (tests : List Nat) (offset : Offset) (connective : Connective)
    (known : Table Offset Connective) : Table Offset Connective × List (Offset × Connective) :=
  tests.foldl (fun (known, found) i =>
    let j := flow.jump i
    if j.stop = offset && !known.contains j.start then
      (known.put j.start connective.other, found ++ [(j.start, connective.other)])
    else (known, found)) (known, [])

/-- Each test is found once, so the number of tests bounds the queue. -/
def spreadAll (flow : Flow) (tests : List Nat) :
    Nat → List (Offset × Connective) → Table Offset Connective → Table Offset Connective
  | 0, _, known => known
  | _, [], known => known
  | bound + 1, (offset, connective) :: queue, known =>
    let (known, found) := spread flow tests offset connective known
    spreadAll flow tests bound (queue ++ found) known

/-- What a jump to an offset says about a condition with this last test: the body makes it an alternative,
the place past the body a further demand, and a test the opposite of what that test says. -/
def connectives (tests : List Nat) (last : Nat) : FlowM (Table Offset Connective) := do
  let j ← jump last
  let body ← neighbour j.start 1
  let first := [(body, Connective.or), (j.stop, Connective.and)]
  return spreadAll (← get) tests (tests.length + 2) first (Table.ofList first)

/-- Joins a test to what stands before it. A further demand is met if the jump is not taken. -/
def joinTest (connective : Connective) (keyword : String) (i : Nat) : FlowM Unit := do
  if connective = .and then invertTest i
  revise (← jump i).start (replace · "if" keyword)
  retire i

/-- Joins the tests of a condition, the first by the given keyword. -/
def joinTests (known : Table Offset Connective) (keyword : String) : List Nat → FlowM Unit
  | [] => return
  | i :: rest => do
    match known.get? (← jump i).stop with
    | none => joinTests known keyword rest
    | some connective =>
      joinTest connective keyword i
      joinTests known ("\t" ++ connective.sign) rest

/-- Whether a test that goes elsewhere starts in a range. -/
def belongs? (first last : Offset) (c : Jump) : Option Bool := do
  if !(← first.le? c.start) then return false
  if !(← c.start.le? last) then return false
  return c.start ≠ c.stop

/-- The skip over the else part of a condition that goes to an offset. A skip that goes nowhere skips no
else part. -/
def elseSkip? (offset : Offset) : FlowM (Option Nat) := do
  match ← skipAt? offset with
  | none => return none
  | some past =>
    let j ← jump past
    return if j.start = j.stop then none else some past

def layOutBody (condition : Jump) : FlowM Unit := do
  append condition.start "\n\x7b"
  match ← elseSkip? condition.stop with
  | some past =>
    let j ← jump past
    append j.start "\n\x7d\nelse\n\x7b"
    let _ ← closeBlock j.start j.stop
    retire past
  | none =>
    let _ ← closeBlock condition.start condition.stop

/-- Lays out the conditional that a test begins. A test that goes nowhere has an empty body. -/
def layOutTest (i : Nat) : FlowM Bool := do
  let first ← jump i
  if first.kind ≠ .test then return false
  if first.start = first.stop then
    revise first.start (replace · ")" ") \x7b\x7d\n")
    retire i
    return true
  let last ← lastTest i
  let flow ← get
  let tests ← settled ((← openTests).filterM fun c =>
    belongs? first.start (flow.jump last).start (flow.jump c))
  joinTests (← connectives tests last) "if" tests
  layOutBody (← jump last)
  return true

def handleTest (i : Nat) : FlowM Unit := do
  if ← layOutComparison i then return
  let _ ← layOutTest i

/-- A skip that goes to itself or to the next line needs no statement. -/
def isIdle (i : Nat) : FlowM Bool := do
  let j ← jump i
  if j.start = j.stop then return true
  return (← neighbour j.start 1) = j.stop

end Bytelift.FlowM
