import Bytelift.Instruction.Operand
import Bytelift.Jump

/-! The form of each instruction: what statement it stands for, and where its operands go in it. The
families that differ only in an operator sign are given by that sign. -/

namespace Bytelift.Instruction

inductive Fragment where
  | lit (text : String)
  | operand (i : Nat)
  | bare (i : Nat)
  | registers (i : Nat)
  /-- The registers of a range without the first, which is the receiver. -/
  | laterRegisters (i : Nat)
  | typeName (i : Nat)
  | scope
  deriving DecidableEq, Repr

inductive Form where
  | statement (parts : List Fragment)
  /-- A jump, shown by a fixed text. -/
  | jump (kind : JumpKind) (text : String)
  | cases
  /-- A call of one of the engine's own functions. -/
  | intrinsic
  deriving DecidableEq, Repr

namespace Form

def fixed (text : String) : Form := .statement [.lit text]

def silent : Form := .statement []

def load (value : List Fragment) : Form := .statement (.lit "ACCU = " :: value)

def store (place : List Fragment) : Form := .statement (place ++ [.lit " = ACCU"])

/-- A register stands before the sign and the accumulator after it. -/
def binary (sign : String) : Form := load [.lit "(", .operand 0, .lit s!" {sign} ACCU)"]

/-- The accumulator stands before the sign and a small number after it. -/
def immediate (sign : String) : Form := load [.lit s!"(ACCU {sign} ", .bare 0, .lit ")"]

def comparison (sign : String) : Form := load [.operand 0, .lit s!" {sign} ACCU"]

def call (callee : Fragment) (arguments : List Fragment) : Form :=
  load (callee :: .lit "(" :: arguments ++ [.lit ")"])

end Form

open Form Fragment

def callForms : List (String × Form) := [
  ("CallProperty", call (operand 0) [laterRegisters 1]),
  ("CallProperty0", call (operand 0) []),
  ("CallProperty1", call (operand 0) [operand 2]),
  ("CallProperty2", call (operand 0) [operand 2, lit ", ", operand 3]),
  ("CallAnyReceiver", call (operand 0) [registers 1]),
  ("CallUndefinedReceiver", call (operand 0) [registers 1]),
  ("CallUndefinedReceiver0", call (operand 0) []),
  ("CallUndefinedReceiver1", call (operand 0) [operand 1]),
  ("CallUndefinedReceiver2", call (operand 0) [operand 1, lit ", ", operand 2]),
  ("CallWithSpread", call (operand 0) [lit "...", registers 1]),
  ("CallRuntime", call (bare 0) [registers 1]),
  ("CallJSRuntime", call (bare 0) [registers 1]),
  ("InvokeIntrinsic", intrinsic),
  ("Construct", call (operand 0) [registers 1]),
  ("ConstructWithSpread", call (operand 0) [lit "...", registers 1, lit ")"])]

def createForms : List (String × Form) := [
  ("CreateEmptyArrayLiteral", load [lit "[]"]),
  ("CreateEmptyObjectLiteral", load [lit "\x7b\x7d"]),
  ("CreateArrayLiteral", load [lit "new ConstPool", operand 0]),
  ("CreateObjectLiteral", load [lit "new ConstPool", operand 0]),
  ("CreateRegExpLiteral", load [lit "\\ConstPool", operand 0, lit "\\"]),
  ("CreateArrayFromIterable", load [lit "Array.from(ACCU)"]),
  ("CreateClosure", load [lit "new func ConstPool", operand 0]),
  ("CreateRestParameter", load [lit "..."]),
  ("CreateMappedArguments", load [lit "Array.map(a0)"]),
  ("CreateUnmappedArguments", load [lit "unmapped(a0)"])]

/-- The conditional jumps, by the test they show. Each has a form that takes its target from the constant
pool. -/
def testForms : List (String × Form) :=
  [("True", "if (ACCU)"),
    ("False", "if (!ACCU)"),
    ("Null", "if (ACCU == null)"),
    ("NotNull", "if (ACCU != null)"),
    ("Undefined", "if (ACCU == undefined)"),
    ("NotUndefined", "if (ACCU != undefined)"),
    ("UndefinedOrNull", "if (ACCU == undefined)"),
    ("ToBooleanTrue", "if (ACCU)"),
    ("ToBooleanFalse", "if (!ACCU)")].flatMap fun (name, text) =>
      [("JumpIf" ++ name, jump .test text), ("JumpIf" ++ name ++ "Constant", jump .test text)]

def jumpForms : List (String × Form) := testForms ++ [
  ("Jump", jump .skip ""),
  ("JumpConstant", jump .skip ""),
  ("JumpLoop", jump (.other "JumpLoop") ""),
  ("JumpLoopConstant", jump (.other "JumpLoop") ""),
  ("JumpIfJSReceiver", jump .receiver "if (JumpIfJSReceiver(ACCU))"),
  ("JumpIfJSReceiverConstant", jump .receiver "if (!JumpIfJSReceiver(ACCU))")]

/-- The short instructions that name one of the first sixteen registers. -/
def shortForms : List (String × Form) :=
  (List.range 16).flatMap fun i =>
    [(s!"Ldar{i}", load [lit s!"r{i}"]), (s!"Star{i}", store [lit s!"r{i}"])]

def loadForms : List (String × Form) := [
  ("LdaZero", load [lit "0"]),
  ("LdaUndefined", load [lit "undefined"]),
  ("LdaTrue", load [lit "true"]),
  ("LdaFalse", load [lit "false"]),
  ("LdaNull", load [lit "null"]),
  ("LdaTheHole", load [lit "null"]),
  ("LdaSmi", load [bare 0]),
  ("Ldar", load [operand 0]),
  ("LdaGlobalInsideTypeof", load [lit "typeof(ConstPool", operand 0, lit ")"]),
  ("LdaGlobal", load [lit "ConstPool", operand 0]),
  ("LdaLookupGlobalSlot", load [lit "ConstPool", operand 0]),
  ("LdaLookupSlot", load [lit "ConstPool", operand 0]),
  ("LdaContextSlot", load [lit "Scope[", scope, lit "]", operand 1]),
  ("LdaImmutableContextSlot", load [lit "Scope[", scope, lit "]", operand 1]),
  ("LdaLookupContextSlot", load [lit "Scope[CURRENT-", bare 2, lit "]", operand 1]),
  ("LdaCurrentContextSlot", load [lit "Scope[CURRENT]", operand 0]),
  ("LdaImmutableCurrentContextSlot", load [lit "Scope[CURRENT]", operand 0]),
  ("LdaConstant", load [lit "ConstPoolLiteral", operand 0]),
  ("LdaNamedProperty", load [operand 0, lit "[ConstPoolLiteral", operand 1, lit "]"]),
  ("GetNamedProperty", load [operand 0, lit "[ConstPoolLiteral", operand 1, lit "]"]),
  ("LdaNamedPropertyFromSuper", load [lit "ACCU[ConstPoolLiteral", operand 1, lit "]"]),
  ("GetNamedPropertyFromSuper", load [lit "ACCU[ConstPoolLiteral", operand 1, lit "]"]),
  ("GetKeyedProperty", load [operand 0, lit "[ACCU]"]),
  ("LdaKeyedProperty", load [operand 0, lit "[ACCU]"]),
  ("GetTemplateObject", load [lit "ConstPool", operand 0])]

def storeForms : List (String × Form) := [
  ("Star", store [operand 0]),
  ("StaGlobal", store [lit "ConstPool", operand 0]),
  ("StaLookupSlot", store [lit "ConstPool", operand 0]),
  ("StaContextSlot", store [lit "Scope[", scope, lit "]", operand 1]),
  ("StaCurrentContextSlot", store [lit "Scope[CURRENT]", operand 0]),
  ("StaInArrayLiteral", store [operand 0, lit "[", operand 1, lit "]"]),
  ("StaNamedOwnProperty", store [operand 0, lit "[ConstPoolLiteral", operand 1, lit "]"]),
  ("StaNamedProperty", store [operand 0, lit "[ConstPoolLiteral", operand 1, lit "]"]),
  ("StaKeyedProperty", store [operand 0, lit "[", operand 1, lit "]"]),
  ("StaKeyedPropertyAsDefine", store [operand 0, lit "[", operand 1, lit "]"]),
  ("StaDataPropertyInLiteral", store [operand 0, lit ".", operand 1]),
  ("SetNamedProperty", store [operand 0, lit "[ConstPoolLiteral", operand 1, lit "]"]),
  ("SetKeyedProperty", store [operand 0, lit "[", operand 1, lit "]"]),
  ("DefineNamedOwnProperty", store [operand 0, lit "[ConstPoolLiteral", operand 1, lit "]"]),
  ("DefineKeyedOwnPropertyInLiteral", store [operand 0, lit "[", operand 1, lit "]"]),
  ("DefineKeyedOwnProperty", store [operand 0, lit "[", operand 1, lit "]"])]

def comparisonForms : List (String × Form) :=
  ([("TestEqual", "=="), ("TestEqualStrict", "==="), ("TestGreaterThan", ">"),
    ("TestGreaterThanOrEqual", ">="), ("TestLessThan", "<"), ("TestLessThanOrEqual", "<="),
    ("TestIn", "in"), ("TestInstanceOf", "instanceof"), ("TestReferenceEqual", "===")].map
      fun (name, sign) => (name, comparison sign)) ++ [
  ("TestUndetectable", load [lit "undetectable === ACCU"]),
  ("TestTypeOf", load [lit "typeof(ACCU) == ", typeName 0]),
  ("TestNull", load [lit "null == ACCU"]),
  ("TestUndefined", load [lit "undefined == ACCU"])]

def conversionForms : List (String × Form) := [
  ("ToString", load [lit "String(ACCU)"]),
  ("ToNumeric", load [lit "Number(ACCU)"]),
  ("ToNumber", load [lit "Number(ACCU)"]),
  ("ToObject", load [lit "ToObject(ACCU)"]),
  ("ToName", load [lit "ToName(ACCU)"]),
  ("ToBooleanLogicalNot", load [lit "!Boolean(ACCU)"]),
  ("CloneObject", load [lit "CloneObject(", operand 0, lit ")"])]

def arithmeticForms : List (String × Form) :=
  ([("Add", "+"), ("Sub", "-"), ("Mod", "%"), ("Mul", "*"), ("Exp", "**"), ("Div", "/"),
    ("BitwiseXor", "^"), ("BitwiseOr", "|"), ("BitwiseAnd", "&"), ("ShiftRightLogical", ">>>"),
    ("ShiftRight", ">>"), ("ShiftLeftLogical", "<<<"), ("ShiftLeft", "<<")].map
      fun (name, sign) => (name, binary sign)) ++
  ([("AddSmi", "+"), ("SubSmi", "-"), ("ModSmi", "%"), ("MulSmi", "*"), ("DivSmi", "\\"),
    ("BitwiseXorSmi", "^"), ("BitwiseOrSmi", "|"), ("BitwiseAndSmi", "&"),
    ("ShiftRightLogicalSmi", ">>>"), ("ShiftRightSmi", ">>"), ("ShiftLeftLogicalSmi", "<<<"),
    ("ShiftLeftSmi", "<<")].map fun (name, sign) => (name, immediate sign)) ++ [
  ("ExpSmi", load [lit "(ACCU ** ", operand 0, lit ")"]),
  ("Inc", load [lit "(ACCU + 1)"]),
  ("Dec", load [lit "(ACCU - 1)"]),
  ("Negate", load [lit "(-ACCU)"]),
  ("NegateSmi", load [lit "-(ACCU)"]),
  ("LogicalNot", load [lit "!(ACCU)"]),
  ("BitwiseNot", load [lit "~(ACCU)"]),
  ("BitwiseNotSmi", load [lit "~(ACCU)"])]

def silentForms : List (String × Form) :=
  ["Throw", "ReThrow", "ThrowSuperNotCalledIfHole", "ThrowSuperAlreadyCalledIfNotHole",
    "ThrowIfNotSuperConstructor", "ThrowSymbolIteratorInvalid", "ThrowReferenceErrorIfHole",
    "SuspendGenerator", "ResumeGenerator", "SetPendingMessage", "SwitchOnGeneratorState",
    "ForInPrepare"].map fun name => (name, silent)

def contextForms : List (String × Form) :=
  (["Function", "Block", "Catch", "Eval", "With"].map fun sort =>
    ("Create" ++ sort ++ "Context", load [lit ("PushContext(\"" ++ sort ++ "\")")])) ++ [
  ("PopContext", fixed "PopContext()"),
  ("PushContext", store [operand 0])]

def otherForms : List (String × Form) := [
  ("Mov", statement [operand 1, lit " = ", operand 0]),
  ("Return", fixed "return ACCU"),
  ("TypeOf", load [lit "TypeOf(ACCU)"]),
  ("GetIterator", load [lit "GetIterator(", operand 0, lit ")"]),
  ("GetSuperConstructor", statement [operand 0, lit " = supper"]),
  ("DeletePropertySloppy", statement [lit "delete ACCU[", operand 0, lit "]"]),
  ("DeletePropertyStrict", statement [lit "delete ACCU[", operand 0, lit "]"]),
  ("SwitchOnSmiNoFeedback", cases),
  ("Debugger", fixed "//Debugger"),
  ("ForInEnumerate", statement [operand 0, lit " = Generator(ACCU)"]),
  ("ForInContinue", load [lit "GeneratorContinue(", operand 0, lit ")"]),
  ("ForInNext", load [operand 0, lit ".next().value"]),
  ("ForInStep", load [lit "GeneratorStep(", operand 0, lit ")"])]

def forms : List (String × Form) :=
  callForms ++ createForms ++ jumpForms ++ shortForms ++ loadForms ++ storeForms ++
    comparisonForms ++ conversionForms ++ arithmeticForms ++ silentForms ++ contextForms ++ otherForms

def form? (operator : String) : Option Form := forms.lookup operator

def Fragment.render (operands : List String) : Fragment → Except Fault String
  | .lit text => .ok text
  | .operand i => operandAt operands i
  | .bare i => return Text.inner (← operandAt operands i)
  | .registers i => return commas (← registerRange (← operandAt operands i))
  | .laterRegisters i =>
    return commas ((← registerRange (← operandAt operands i)).drop 1)
  | .typeName i => return typeText (← operandAt operands i)
  | .scope => scopeName operands

def renderParts (operands : List String) : List Fragment → Except Fault String
  | [] => .ok ""
  | part :: parts => do
    let text ← part.render operands
    return text ++ (← renderParts operands parts)

end Bytelift.Instruction
