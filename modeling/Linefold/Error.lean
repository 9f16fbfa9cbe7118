import Linefold.Tag
import Linefold.Token

/-!
# Errors

Fatal errors, each by its cause, and their wording. A `Diagnostic` is an error in the shape that
editors show: a range and a message.
-/

namespace Linefold

/-! ### Causes -/

/-- What is wrong with one entry of an imported table. -/
inductive EntryFault where
  | notANode
  | missingTag
  | unknownTag
  | missingPayload
  | boolPayload
  | identPayload
  | strPayload
  | numPayload
  | childNotAnId
  | childOutOfRange
  deriving DecidableEq, Repr

/-- Why a table cannot be imported. -/
inductive ImportFault where
  | notAnObject
  | entry (id : Nat) (fault : EntryFault)
  /-- The entries before this one do not fill the ids below it. -/
  | gap (id : Nat)
  | missingRoot
  | rootOutside (root : Nat)
  deriving DecidableEq, Repr

/-- A scope that a construct opened and did not find again at its end. -/
inductive ScopeOwner where
  | letDefinition
  | lambda
  | clause
  deriving DecidableEq, Repr

/-- A broken invariant of the parser or the folder. -/
inductive InternalFault where
  | operandUnderflow
  | missingScope (owner : ScopeOwner)
  | malformedConditional
  | notAnOperator (name : String)
  | unbalancedStack
  | missingNode (id : Nat)
  | malformedBinding
  | caseWithoutScrutinee
  | operandCount
  | negWithoutOperand
  | leafWithChildren (tag : Tag)
  | malformedLambda
  | malformedPattern
  | malformedClause
  | clauseOutOfRange
  /-- The operator words of one fold were applied more often than the folder allows. -/
  | operatorBudget
  deriving DecidableEq, Repr

/-- A fatal error. -/
inductive Error where
  /-- A token that the grammar does not allow at its place. -/
  | unexpected (expected found : TokenKind) (span : Span)
  | recursion (limit : Nat)
  | unimplemented (tag : Tag)
  | nonExhaustiveCase (scrutinee : String) (span : Option Span)
  /-- A configuration file that cannot be read, for the given reason. -/
  | unreadableConfig (path reason : String)
  /-- A configuration that is no JSON text or has a field of the wrong type. -/
  | malformedConfig
  /-- An alias in a configuration that names no binary operator. -/
  | notBinaryOperator (tagName : String)
  | malformedTable (fault : ImportFault)
  | internal (fault : InternalFault)
  deriving DecidableEq, Repr

/-! ### Wording -/

def EntryFault.message : EntryFault → String
  | notANode => "expected a literal or a tagged node"
  | missingTag => "missing tag"
  | unknownTag => "unknown tag"
  | missingPayload => "missing payload"
  | boolPayload => "BOOL payload is not a boolean"
  | identPayload => "IDENT payload is not a string"
  | strPayload => "STR payload is not a string"
  | numPayload => "NUM payload is not a number"
  | childNotAnId => "child is not a node id"
  | childOutOfRange => "child id out of range"

def ImportFault.message : ImportFault → String
  | notAnObject => "expected a JSON object"
  | entry id fault => "node " ++ id.repr ++ ": " ++ fault.message
  | gap id => "node ids are not dense at " ++ id.repr
  | missingRoot => "missing root"
  | rootOutside root => "root " ++ root.repr ++ " is not in the table"

def ScopeOwner.name : ScopeOwner → String
  | letDefinition => "let"
  | lambda => "lambda"
  | clause => "case"

def InternalFault.message : InternalFault → String
  | operandUnderflow => "operand stack underflow"
  | missingScope owner => owner.name ++ " scope missing"
  | malformedConditional => "malformed conditional"
  | notAnOperator name => "'" ++ name ++ "' is not an operator"
  | unbalancedStack => "fold left an unbalanced stack"
  | missingNode id => "node " ++ id.repr ++ " is not in the pool"
  | malformedBinding => "malformed binding"
  | caseWithoutScrutinee => "CASE without scrutinee"
  | operandCount => "binary operator needs two operands"
  | negWithoutOperand => "NEG without operand"
  | leafWithChildren tag => tag.name ++ " node with children"
  | malformedLambda => "malformed lambda"
  | malformedPattern => "parameter pattern is not a name or list"
  | malformedClause => "malformed OF clause"
  | clauseOutOfRange => "CASE clause out of range"
  | operatorBudget => "operator words applied too often"

namespace Error

/-- The wording of an error. -/
def message : Error → String
  | unexpected expected found _ =>
    "Expecting " ++ expected.phrase ++ ", found " ++ found.phrase ++ "."
  | recursion limit => "Runaway recursion: scope depth exceeded " ++ limit.repr ++ "."
  | unimplemented tag => tag.name ++ " is not implemented."
  | nonExhaustiveCase scrutinee _ => "No case matches " ++ scrutinee ++ "."
  | unreadableConfig path reason => "Invalid configuration: " ++ path ++ ": " ++ reason
  | malformedConfig => "Invalid configuration: not a configuration object"
  | notBinaryOperator tagName =>
    "Invalid configuration: '" ++ tagName ++ "' is not a binary operator"
  | malformedTable fault => "Invalid AST table: " ++ fault.message
  | internal fault => "Internal error: " ++ fault.message

/-- The place of an error, if it has one. -/
def span? : Error → Option Span
  | unexpected _ _ span => some span
  | nonExhaustiveCase _ span => span
  | _ => none

end Error

/-! ### Diagnostics -/

/-- An error message for a range of the text. -/
structure Diagnostic where
  first : Position
  last : Position
  message : String
  deriving DecidableEq, Repr

namespace Diagnostic

def ofSpan (span : Span) (message : String) : Diagnostic := ⟨span.first, span.last, message⟩

/-- The soft error for a name that no scope defines. -/
def nameNotFound (span : Span) (name : String) : Diagnostic :=
  ofSpan span ("Name '" ++ name ++ "' not found.")

end Diagnostic

/-- A fatal error in the shape of a soft one; without a place it points to the start of the text. -/
def Error.diagnostic (e : Error) : Diagnostic := .ofSpan (e.span?.getD .zero) e.message

end Linefold
