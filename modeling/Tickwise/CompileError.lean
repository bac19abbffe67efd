import Tickwise.Source.Span
set_option autoImplicit false

/-!
# Compile errors

What can be wrong with a source, the stable number and wording of each cause, and its place.
-/
namespace Tickwise

inductive CompileError.Cause where
  | badToken
  | openParen | closeParen | semicolon | openBrace | closeBrace | closeBracket | colon
  | expectedIdent | expectedType | expectedExpr | unexpected | unexpectedEnd
  | duplicateSymbol | undefinedSymbol | undefinedFunction | typeMismatch | notBoolean
  | badLeftHandSide | noMatchingOverload | ambiguousOverload | outsideLoop | unknownLabel
  | missingReturnValue | unexpectedReturnValue | unknownClass | unknownField | badDimension
  | notArray | notInstance | duplicateCase | notConstant | voidValue | tooDeep
  deriving DecidableEq, Inhabited

def CompileError.Cause.code : CompileError.Cause → Nat
  | badToken => 5000
  | openParen => 5001
  | closeParen => 5002
  | semicolon => 5003
  | openBrace => 5004
  | closeBrace => 5005
  | closeBracket => 5006
  | colon => 5007
  | expectedIdent => 5008
  | expectedType => 5009
  | expectedExpr => 5010
  | unexpected => 5011
  | unexpectedEnd => 5012
  | duplicateSymbol => 5020
  | undefinedSymbol => 5021
  | undefinedFunction => 5022
  | typeMismatch => 5023
  | notBoolean => 5024
  | badLeftHandSide => 5025
  | noMatchingOverload => 5026
  | ambiguousOverload => 5027
  | outsideLoop => 5028
  | unknownLabel => 5029
  | missingReturnValue => 5030
  | unexpectedReturnValue => 5031
  | unknownClass => 5032
  | unknownField => 5033
  | badDimension => 5034
  | notArray => 5035
  | notInstance => 5036
  | duplicateCase => 5037
  | notConstant => 5038
  | voidValue => 5039
  | tooDeep => 5040

def CompileError.Cause.description : CompileError.Cause → String
  | badToken => "invalid token"
  | openParen => "expected `(`"
  | closeParen => "expected `)`"
  | semicolon => "expected `;`"
  | openBrace => "expected `\x7b`"
  | closeBrace => "expected `\x7d`"
  | closeBracket => "expected `]`"
  | colon => "expected `:`"
  | expectedIdent => "expected an identifier"
  | expectedType => "expected a type name"
  | expectedExpr => "expected an expression"
  | unexpected => "unexpected symbol"
  | unexpectedEnd => "unexpected end of input"
  | duplicateSymbol => "symbol is already declared in this scope"
  | undefinedSymbol => "undefined symbol"
  | undefinedFunction => "undefined function"
  | typeMismatch => "type mismatch"
  | notBoolean => "boolean expression expected"
  | badLeftHandSide => "expression cannot be assigned to"
  | noMatchingOverload => "no overload matches these arguments"
  | ambiguousOverload => "call matches more than one overload"
  | outsideLoop => "`break` or `continue` outside of a loop"
  | unknownLabel => "unknown label"
  | missingReturnValue => "return value expected"
  | unexpectedReturnValue => "void function cannot return a value"
  | unknownClass => "unknown class"
  | unknownField => "unknown field"
  | badDimension => "invalid array dimension"
  | notArray => "value is not an array"
  | notInstance => "value is not a class instance"
  | duplicateCase => "duplicate case label"
  | notConstant => "constant expression expected"
  | voidValue => "void expression used as a value"
  | tooDeep => "constructs are nested too deeply"

structure CompileError where
  cause : CompileError.Cause
  span : Span
  deriving DecidableEq, Inhabited

def CompileError.message (e : CompileError) : String :=
  e.cause.description ++ " (code " ++ toString e.cause.code ++ ") at " ++ e.span.text

end Tickwise
