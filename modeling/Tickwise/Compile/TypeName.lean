import Tickwise.Compile.Cursor
set_option autoImplicit false

/-!
# Type names

Which identifiers name classes, where a declaration begins, and reading a type.
-/
namespace Tickwise.Compile

def Context.isClass (ctx : Context) (name : String) : Bool :=
  ctx.classNames.contains name || (ctx.env.findClass? name).isSome

/-- The layout of a class; a class of the unit goes before one of the host. -/
def Context.class? (ctx : Context) (name : String) : Option ClassLayout :=
  (ctx.classes.find? (·.name = name)).or (ctx.env.findClass? name)

/-- Do tokens begin with a declaration? A class name does when a name or empty brackets follow. -/
def Context.startsDeclaration (ctx : Context) : List Token → Bool
  | [] => false
  | token :: rest =>
    match token.kind with
    | .keyword word => word.isTypeName
    | .identifier => ctx.isClass token.text && match rest with
      | next :: more =>
        next.kind = .identifier ||
          (next.isOp .leftBracket && more.head?.any (·.isOp .rightBracket))
      | [] => false
    | _ => false

end Compile

namespace Compiler

def atDeclaration : Compiler Bool := return (← read).startsDeclaration (← get).rest

/-- The type of arrays of `ty`, unless it has too many dimensions. -/
def arrayOf (ty : Ty) (span : Span) : Compiler Ty := do
  if ty.dimensions ≥ Ty.maxDimensions then fail .badDimension span else return .array ty

def baseType (allowVoid : Bool) (token : Token) : Compiler Ty := do
  match token.kind with
  | .keyword .voidWord => if allowVoid then return .void else fail .expectedType token.span
  | .keyword .intWord => return .int
  | .keyword .floatWord => return .float
  | .keyword .boolWord => return .bool
  | .keyword .stringWord => return .string
  | .identifier =>
    if (← read).isClass token.text then return .named token.text
    else fail .unknownClass token.span
  | _ => fail .expectedType token.span

def typeName (allowVoid : Bool) : Compiler (Span × Ty) := do
  match ← peek? with
  | none => fail .unexpectedEnd (← read).endSpan
  | some token =>
    let base ← baseType allowVoid token
    let _ ← advance?
    let ty ← loop base fun ty => do
      if (← atOp .leftBracket) && (← peekSecond?).any (·.isOp .rightBracket) then
        if ty = .void then fail .expectedType token.span
        else
          let opening ← here
          let _ ← advance?
          let _ ← advance?
          return .inl (← arrayOf ty opening)
      else return .inr ty
    return (token.span, ty)

end Compiler
end Tickwise
