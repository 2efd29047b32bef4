import Bytelift.Offset

/-! What can go wrong, by cause. Every stage fails with one of these and none fails with a bare text; the
wording is in `Fault.message` alone. -/

namespace Bytelift

inductive Fault where
  -- Instructions
  | missingOperand
  | openRange (range : String)
  | unreadableNumber (text : String)
  | noTable (kind : String)
  | occupied (kind : String) (start : Offset)
  | malformedExpression
  | indentedExpression
  | noValue
  | changingKey
  | notCases
  | noCases
  | strangeTarget
  | noMoreInput
  -- Structuring
  | unknownOffset (offset : Offset)
  | outOfReach (index : Int) (offset : Offset)
  | noOrder
  | noLineAt (offset : Offset)
  | notAnArm
  | unfiledKind (kind : String)
  | noTests
  | noTestBefore (offset : Offset)
  | unsortable (offset : Offset)
  | oversizedOffset (offset : Int)
  | endless
  -- Registers and contexts
  | noSuchLine (index : Int)
  | noContext
  | notARegister (name : String)
  | neverWritten
  | malformedScope (text : String)
  -- Functions
  | noPool
  | noParameterCount
  | noCode
  | noHandlers
  | unknownFunction (name : String)
  -- Listings
  | expectedStart (line what : String)
  | malformedBytecode (line : String)
  | malformedConstant (line : String)
  | malformedCount (line : String)
  | malformedHandler (line : String)
  | incompleteFunction (name : String)
  | endOfListing
  | noConstant
  | noEntries
  | exhausted
  -- Notes
  | unindexedNote
  -- Files and outside programs
  | noSuchFile (path : String)
  | notADirectory (path : String)
  | isDirectory (path : String)
  | alreadyThere (path : String)
  | undecodable (path : String)
  | notAnArchive (path : String)
  | emptyArchive (path : String)
  | notAProgram (path : String)
  | noInputFile (path : String)
  | noDetector (path : String)
  | noDisassembler (path : String)
  | undetectedVersion (path : String)
  | disassemblyFailed (status : Int) (complaint : String)
  deriving DecidableEq, Repr

def Fault.message : Fault → String
  | .missingOperand => "an operand is missing"
  | .openRange range => s!"register range {range} has no end"
  | .unreadableNumber text => s!"not a number: {text}"
  | .noTable kind => s!"No Table for jump type {kind}"
  | .occupied kind start => s!"Jump Table {kind} already has key {start.plain}"
  | .malformedExpression => "malformed expression"
  | .indentedExpression => "an indented line after an expression"
  | .noValue => "an expression without a value"
  | .changingKey => "a key that can change"
  | .notCases => "not a case table"
  | .noCases => "a case table is empty"
  | .strangeTarget => "a case that goes to no offset"
  | .noMoreInput => "no more input"
  | .unknownOffset offset => s!"offset {offset.plain} not found in code offsets"
  | .outOfReach index offset => s!"relative offset {index} from {offset.plain} out of range"
  | .noOrder => "a number and a text stand in no order"
  | .noLineAt offset => s!"no line at {offset.plain}"
  | .notAnArm => "the jump is no arm of a switch"
  | .unfiledKind kind => s!"no table holds jumps of kind {kind}"
  | .noTests => "no test lies in the range"
  | .noTestBefore offset => s!"no test ends at {offset.plain}"
  | .unsortable offset => s!"{offset.display} is no number to sort by"
  | .oversizedOffset offset => s!"{offset} is too large to sort by"
  | .endless => "a chain of jumps closes on itself"
  | .noSuchLine index => s!"no line {index}"
  | .noContext => "no current context"
  | .notARegister name => s!"{name} is no register"
  | .neverWritten => "the register was never written"
  | .malformedScope text => s!"malformed scope {text}"
  | .noPool => "the function has no constant pool"
  | .noParameterCount => "the function has no parameter count"
  | .noCode => "the function has no code"
  | .noHandlers => "the function has no handler table"
  | .unknownFunction name => s!"no function {name}"
  | .expectedStart line what => s!"Error got line \"{line}\" not Start {what}"
  | .malformedBytecode line => s!"Invalid bytecode line format: {line}"
  | .malformedConstant line => s!"Invalid constant line format: {line}"
  | .malformedCount line => s!"malformed line: {line}"
  | .malformedHandler line => s!"malformed handler: {line}"
  | .incompleteFunction name => s!"Incomplete parsing of function: {name}"
  | .endOfListing => "the listing ends too early"
  | .noConstant => "the listing ends before a constant"
  | .noEntries => "the listing ends before the entries"
  | .exhausted => "the listing has been read to its end"
  | .unindexedNote => "the note takes no entries"
  | .noSuchFile path => "[Errno 2] No such file or directory: " ++ Text.quoteDisplay path
  | .notADirectory path => "[Errno 20] Not a directory: " ++ Text.quoteDisplay path
  | .isDirectory path => "[Errno 21] Is a directory: " ++ Text.quoteDisplay path
  | .alreadyThere path => "[Errno 17] File exists: " ++ Text.quoteDisplay path
  | .undecodable path => s!"not UTF-8: {path}"
  | .notAnArchive path => s!"not an archive: {path}"
  | .emptyArchive path => s!"an empty archive: {path}"
  | .notAProgram path => s!"cannot run {path}"
  | .noInputFile path => s!"The input file {path} does not exist."
  | .noDetector path => s!"The binary '{path}' does not exist."
  | .noDisassembler path =>
    s!"The binary '{path}' does not exist. You can specify a path to a similar disassembler version " ++
      "using the --path (-p) argument."
  | .undetectedVersion path => s!"Failed to detect version for file {path}."
  | .disassemblyFailed status complaint =>
    s!"Binary execution failed with status code {status}." ++
      (if complaint.isEmpty then "" else s!" Stderr: {complaint}")

end Bytelift
