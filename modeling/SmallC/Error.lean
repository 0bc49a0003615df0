import SmallC.Allocation.Fault
import SmallC.Assembly.Reader
import SmallC.Program.Link
import SmallC.Source.Position
import SmallC.Source.Token

/-!
Errors of a compilation. An error is a cause, not a text: each stage has its own type of causes, and
one function per type gives the wording.
-/
namespace SmallC

/-- Why a token list is not a program. -/
inductive ParseFault where
  | strayClosingBrace
  | expectedToken (expected found : Token)
  | expectedTokenAtEnd (expected : Token)
  | expectedIdentifier (found : Token)
  | expectedIdentifierAtEnd
  | mismatchedBracket (found : Token)
  | unclosedBracket (opened : Token)
  | semicolonBefore (found : Token)
  | semicolonAtEnd
  | expectedExpression
  | operatorBefore (found : Token)
  | strayClosingParenthesis
  | integerTooLarge (value : Int)
  | notInExpression (found : Token)
  | mismatchedParentheses
  | operatorAfterValue (symbol : String)
  | noLeftOperand (symbol : String)
  | noRightOperand (symbol : String)
  | expectedArgument
  | unclosedBlock
  | inlineWithoutFunction
  | forClauses
  | forInitializer
  | asmContent (found : Token)
  | unclosedAsm
  | expectedType (found : Token)
  | expectedTypeAtEnd
  | definitionEnd (name : String)
  | arraySize (name : String)
  | unclosedInitializer
  | initializerSeparator
  | parameterSeparator
  deriving DecidableEq, Repr

/-- The wording of a parse fault. -/
def ParseFault.message : ParseFault → String
  | strayClosingBrace => "Unexpected '\x7d'"
  | expectedToken expected found => s!"Expected '{expected.text}' but found '{found.text}'"
  | expectedTokenAtEnd expected => s!"Expected '{expected.text}' but reached end of input"
  | expectedIdentifier found => s!"Expected identifier but found '{found.text}'"
  | expectedIdentifierAtEnd => "Expected identifier but reached end of input"
  | mismatchedBracket found => s!"Mismatched '{found.text}'"
  | unclosedBracket opened => s!"Unclosed '{opened.text}'"
  | semicolonBefore found => s!"Expected ';' before '{found.text}'"
  | semicolonAtEnd => "Expected ';' at end of statement"
  | expectedExpression => "Expected an expression"
  | operatorBefore found => s!"Expected operator before '{found.text}'"
  | strayClosingParenthesis => "Unexpected right parenthesis"
  | integerTooLarge value => s!"Integer literal {value} does not fit in 32 bits"
  | notInExpression found => s!"Unexpected '{found.text}' in expression"
  | mismatchedParentheses => "Mismatched parentheses"
  | operatorAfterValue symbol => s!"Operator {symbol} cannot follow a value"
  | noLeftOperand symbol => s!"Operator {symbol} expected value on left"
  | noRightOperand symbol => s!"Operator {symbol} expected value on right"
  | expectedArgument => "Expected an argument after ','"
  | unclosedBlock => "Expected '\x7d'"
  | inlineWithoutFunction => "inline expects a function"
  | forClauses => "for expects (init; condition; step)"
  | forInitializer => "Invalid for-loop initializer"
  | asmContent found => s!"__asm__ expects string literals, found '{found.text}'"
  | unclosedAsm => "Unterminated __asm__ block"
  | expectedType found => s!"Expected a type but found '{found.text}'"
  | expectedTypeAtEnd => "Expected a type"
  | definitionEnd name => s!"Expected '=' or ';' after {name}"
  | arraySize name => s!"Array {name} needs a positive constant size"
  | unclosedInitializer => "Unterminated initializer"
  | initializerSeparator => "Expected ',' or '\x7d' in initializer"
  | parameterSeparator => "Expected ',' or ')' in parameter list"

/-- The rules of the language that a program can break. -/
inductive Rule where
  | variableRedefinition | arrayRedefinition | functionRedefinition | parameterRedefinition
  | undefinedVariable | undefinedFunction | notAFunction | functionUsedAsVariable
  | variableUsedAsArray | signatureMismatch | argumentCountMismatch | tooManyParameters
  | nestedFunction | returnOutsideFunction | breakOutsideLoop | continueOutsideLoop
  | invalidOperand | invalidAssignment | voidValue | nonConstantShift | recursiveInline
  | invalidInitializer
  deriving DecidableEq, Repr

/-- The name of a rule in messages. -/
def Rule.text : Rule → String
  | variableRedefinition => "VariableRedefinition"
  | arrayRedefinition => "ArrayRedefinition"
  | functionRedefinition => "FunctionRedefinition"
  | parameterRedefinition => "ParameterRedefinition"
  | undefinedVariable => "UndefinedVariable"
  | undefinedFunction => "UndefinedFunction"
  | notAFunction => "NotAFunction"
  | functionUsedAsVariable => "FunctionUsedAsVariable"
  | variableUsedAsArray => "VariableUsedAsArray"
  | signatureMismatch => "SignatureMismatch"
  | argumentCountMismatch => "ArgumentCountMismatch"
  | tooManyParameters => "TooManyParameters"
  | nestedFunction => "NestedFunction"
  | returnOutsideFunction => "ReturnOutsideFunction"
  | breakOutsideLoop => "BreakOutsideLoop"
  | continueOutsideLoop => "ContinueOutsideLoop"
  | invalidOperand => "InvalidOperand"
  | invalidAssignment => "InvalidAssignment"
  | voidValue => "VoidValue"
  | nonConstantShift => "NonConstantShift"
  | recursiveInline => "RecursiveInline"
  | invalidInitializer => "InvalidInitializer"

/-- How a program breaks a rule. Where a cause names an expression it holds the expression's text. -/
inductive SemanticFault where
  /-- A variable, array or function is defined twice; the rule says which it was before. -/
  | redefined (rule : Rule) (name : String) (line : Nat)
  | repeatedParameter (name : String)
  | undefinedName (name : String)
  | undefinedFunction (name : String)
  | functionAsValue (name : String)
  | functionNotVariable (name : String)
  | calledOther (name : String)
  | calledUnknown (name : String)
  | notIndexable (name : String)
  | notElementwise (name : String)
  | indexCount (name : String) (expected found : Nat)
  | noIndex (name : String)
  | signatureMismatch (name : String)
  | argumentCount (name : String) (expected found : Nat)
  | argumentsGiven (name : String) (expected found : Nat)
  | tooManyParameters (name : String) (limit : Nat)
  | nestedFunction
  | returnOutsideFunction
  | breakOutsideLoop
  | continueOutsideLoop
  | addressOperandAt (line : Nat)
  | addressOperandIn (text : String)
  | notPointer (name : String)
  | shiftOutOfRange (amount : Int)
  | shiftNotConstant (text : String)
  | assignedExpression (text : String)
  | assignedArray (name : String)
  | declaredVoid (name : String)
  | noValue (text : String)
  | recursiveInline (name : String)
  | tooManyInitializers (name : String)
  | undefinedOperand (name : String)
  deriving DecidableEq, Repr

namespace SemanticFault

/-- The rule that is broken. -/
def rule : SemanticFault → Rule
  | redefined rule .. => rule
  | repeatedParameter _ => .parameterRedefinition
  | undefinedName _ => .undefinedVariable
  | undefinedFunction _ => .undefinedFunction
  | functionAsValue _ => .functionUsedAsVariable
  | functionNotVariable _ => .functionUsedAsVariable
  | calledOther _ => .notAFunction
  | calledUnknown _ => .undefinedFunction
  | notIndexable _ => .variableUsedAsArray
  | notElementwise _ => .variableUsedAsArray
  | indexCount .. => .variableUsedAsArray
  | noIndex _ => .invalidOperand
  | signatureMismatch _ => .signatureMismatch
  | argumentCount .. => .argumentCountMismatch
  | argumentsGiven .. => .argumentCountMismatch
  | tooManyParameters .. => .tooManyParameters
  | nestedFunction => .nestedFunction
  | returnOutsideFunction => .returnOutsideFunction
  | breakOutsideLoop => .breakOutsideLoop
  | continueOutsideLoop => .continueOutsideLoop
  | addressOperandAt _ => .invalidOperand
  | addressOperandIn _ => .invalidOperand
  | notPointer _ => .invalidOperand
  | shiftOutOfRange _ => .invalidOperand
  | shiftNotConstant _ => .nonConstantShift
  | assignedExpression _ => .invalidAssignment
  | assignedArray _ => .invalidAssignment
  | declaredVoid _ => .voidValue
  | noValue _ => .voidValue
  | recursiveInline _ => .recursiveInline
  | tooManyInitializers _ => .invalidInitializer
  | undefinedOperand _ => .undefinedVariable

/-- The wording of a semantic fault. -/
def message : SemanticFault → String
  | redefined _ name line => s!"{name} already defined on line {line}"
  | repeatedParameter name => s!"Parameter {name} declared twice"
  | undefinedName name => s!"{name} not defined"
  | undefinedFunction name => s!"{name} not defined"
  | functionAsValue name => s!"Function {name} used as a value"
  | functionNotVariable name => s!"{name} not defined"
  | calledOther name => s!"{name} is not a function"
  | calledUnknown name => s!"{name} is not a function"
  | notIndexable name => s!"{name} cannot be indexed"
  | notElementwise name => s!"{name} is not an array or pointer"
  | indexCount name expected found => s!"{name} takes {expected} indices but got {found}"
  | noIndex name => s!"{name} indexed without an index"
  | signatureMismatch name => s!"Function {name} already defined with different parameters"
  | argumentCount name expected found => s!"{name} expects {expected} arguments but got {found}"
  | argumentsGiven name expected found =>
    s!"{name} takes {expected} arguments but {found} were given"
  | tooManyParameters name limit => s!"{name} has more than {limit} parameters"
  | nestedFunction => "Cannot define function within a function"
  | returnOutsideFunction => "Return statement outside of function"
  | breakOutsideLoop => "Break statement outside of loop"
  | continueOutsideLoop => "Continue statement outside of loop"
  | addressOperandAt line => s!"Must use variable after ref or deref on line {line}"
  | addressOperandIn text => s!"Must use variable after ref or deref in {text}"
  | notPointer name => s!"{name} is not a pointer"
  | shiftOutOfRange amount => s!"Shift amount {amount} out of range"
  | shiftNotConstant text => s!"Shift amount in {text} must be a constant"
  | assignedExpression text => s!"Cannot assign to {text}"
  | assignedArray name => s!"Cannot assign to array {name}"
  | declaredVoid name => s!"Variable {name} declared void"
  | noValue text => s!"{text} does not produce a value"
  | recursiveInline name => s!"Inline function {name} expands into itself"
  | tooManyInitializers name => s!"Too many initializers for array {name}"
  | undefinedOperand name => s!"{name} used in __asm__ is not defined"

end SemanticFault

/-- Why a source does not compile. -/
inductive CompileError where
  | lexical (error : LexicalError)
  | parse (line : Nat) (fault : ParseFault)
  | semantic (line : Nat) (fault : SemanticFault)
  | allocator (fault : AllocatorFault)
  | asm (line : Nat) (fault : AsmFault)
  | link (error : LinkError)
  deriving DecidableEq, Repr

namespace CompileError

/-- The source line that the error points at, where it knows one. -/
def line? : CompileError → Option Nat
  | lexical error => some error.line
  | parse line _ => some line
  | semantic line _ => some line
  | asm line _ => some line
  | allocator _ => none
  | link _ => none

/-- The wording of an error. -/
def message : CompileError → String
  | lexical error => s!"Lexical error: {error.message}"
  | parse line fault => s!"Parse error on line {line}: {fault.message}"
  | semantic line fault => s!"SemanticError:{fault.rule.text} (line {line}) - {fault.message}"
  | allocator fault => s!"Register allocator invariant violated: {fault.message}"
  | asm line fault => s!"Inline assembly error on line {line}: {fault.message}"
  | link error => s!"Link error: {error.message}"

/-- The wording of what caused an error, where the cause has a wording of its own. -/
def cause? : CompileError → Option String
  | lexical error => some error.message
  | link error => some error.message
  | _ => none

end CompileError

end SmallC
