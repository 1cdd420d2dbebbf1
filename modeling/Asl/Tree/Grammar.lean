import Asl.Tree.Cursor

/-!
# The grammar

One parser for each construct of the language. Expressions are read in five levels of binary
operators, each level a chain of operands of the next level joined to the left, above prefix
operators and primary expressions. Constructs that contain themselves are given the parser of their
inner parts, and the recursion is closed by a bound, the tokens that are left: an inner part stands
behind a token, so each nesting can give up one token of the bound, and where no token is left there
is nothing to be read.
-/
namespace Asl.Parser

open Attempt (fail)

def ident : Parser Ident := do
  match ← peek? with
  | some (.ident name) => do
      let token ← peek
      advance
      return ⟨← mark token.start, name⟩
  | found => fail (.expectedIdent found)

def baseType : Parser BaseType := do
  let found ← peek?
  match found.bind BaseType.ofToken? with
  | some b => do
      advance
      return b
  | none => fail (.expectedType found)

/-- A size between brackets is a positive literal. -/
def arraySize : Parser Nat := do
  match ← peek? with
  | some (.int n) => do
      advance
      if n ≤ 0 then fail (.arraySize n) else return n.toNat
  | found => fail (.expectedToken (.int 0) found)

def typeSpec : Parser TypeSpec := do
  if (← peek?) = some (.keyword .array) then do
    advance
    expect (.symbol .lbracket)
    let size ← arraySize
    expect (.symbol .rbracket)
    expect (.keyword .of)
    return .array size (← baseType)
  else return .base (← baseType)

def typeNote : Parser TypeNote := do
  let token ← peek
  let spec ← typeSpec
  return ⟨← mark token.start, spec⟩

def index (expr : Parser Expr) : Parser Expr := do
  expect (.symbol .lbracket)
  let i ← expr
  expect (.symbol .rbracket)
  return i

def arguments (expr : Parser Expr) : Parser (List Expr) := do
  expect (.symbol .lparen)
  let args ← listed expr
  expect (.symbol .rparen)
  return args

def literalOf? : TokenKind → Option Literal
  | .int n => some (.int n)
  | .float x => some (.float x)
  | .bool b => some (.bool b)
  | .char raw => some (.char raw)
  | _ => none

/-- A primary expression without its mark, which comes last. -/
def unmarkedPrimary (expr : Parser Expr) (kind : TokenKind) : Parser (Mark → Expr) := do
  match literalOf? kind, kind with
  | some value, _ => do
      advance
      return (.literal · value)
  | none, .keyword .max => do
      advance
      let args ← arguments expr
      if args.isEmpty then fail (.expectedOperand (.symbol .rparen)) else return (.max · args)
  | none, .ident _ => do
      match ← peekSecond? with
      | some (.symbol .lparen) => do
          let callee ← ident
          let args ← arguments expr
          return (.call · callee args)
      | some (.symbol .lbracket) => do
          let base ← ident
          let i ← index expr
          return (.element · base i)
      | _ => do
          let name ← ident
          return (.name · name)
  | none, .symbol .lparen => do
      advance
      let inner ← expr
      expect (.symbol .rparen)
      return (.paren · inner)
  | none, found => fail (.expectedOperand found)

def primary (expr : Parser Expr) : Parser Expr := do
  let token ← peek
  let node ← unmarkedPrimary expr token.kind
  return node (← mark token.start)

def operator? : Nat → TokenKind → Option BinaryOp
  | 1, .keyword .or => some .or
  | 2, .keyword .and => some .and
  | 3, .symbol .equal => some .equal
  | 3, .symbol .notEqual => some .notEqual
  | 3, .symbol .less => some .less
  | 3, .symbol .lessEqual => some .lessEqual
  | 3, .symbol .greater => some .greater
  | 3, .symbol .greaterEqual => some .greaterEqual
  | 4, .symbol .plus => some .add
  | 4, .symbol .minus => some .sub
  | 5, .symbol .star => some .mul
  | 5, .symbol .slash => some .div
  | 5, .symbol .percent => some .mod
  | _, _ => none

/-- Operands of one level, joined to the left by its operators. -/
def chain (level : Nat) (operand : Parser Expr) : Parser Expr := do
  let first ← operand
  whileNext (operator? level)
    (fun op lhs => do
      advance
      let rhs ← operand
      return .binary (← mark lhs.mark.start) op lhs rhs)
    first

/-- The levels of binary operators above an operand, the loosest outermost. -/
def levels (operand : Parser Expr) : Parser Expr :=
  chain 1 (chain 2 (chain 3 (chain 4 (chain 5 operand))))

/-- An operand, where no more tokens are left than the bound has. -/
def operand : List Token → Parser Expr
  | [] => fail .unexpectedEnd
  | _ :: bound => do
      let token ← peek
      match UnaryOp.ofToken? token.kind with
      | some op => do
          advance
          let inner ← operand bound
          return .unary (← mark token.start) op inner
      | none => primary (levels (operand bound))

def expr : Parser Expr := fun c => levels (operand c.rest) c

def target : Parser Target := do
  let token ← peek
  let name ← ident
  if (← peek?) = some (.symbol .lbracket) then do
    let i ← index expr
    return .element (← mark token.start) name i
  else return .name (← mark token.start) name

/-- The keywords that end a list of statements. -/
def closes : TokenKind → Bool
  | .keyword .endfunc | .keyword .endif | .keyword .else | .keyword .endwhile
  | .keyword .endfor => true
  | _ => false

def statements (statement : Parser Stmt) : Parser (List Stmt) :=
  whileNext (fun k => if closes k then none else some ())
    (fun _ stmts => do
      let next ← statement
      return stmts ++ [next])
    []

/-- A statement without its mark, up to but without a closing semicolon. -/
def unmarkedStatement (body : Parser (List Stmt)) (kind : TokenKind) :
    Parser (Bool × (Mark → Stmt)) := do
  match kind with
  | .keyword .if => do
      advance
      let condition ← expr
      expect (.keyword .then)
      let yes ← body
      if (← peek?) = some (.keyword .else) then do
        advance
        let no ← body
        expect (.keyword .endif)
        return (false, (.ifElse · condition yes no))
      else do
        expect (.keyword .endif)
        return (false, (.ifThen · condition yes))
  | .keyword .while => do
      advance
      let condition ← expr
      expect (.keyword .do)
      let stmts ← body
      expect (.keyword .endwhile)
      return (false, (.while · condition stmts))
  | .keyword .for => do
      advance
      let control ← ident
      expect (.keyword .in)
      expect (.keyword .range)
      let range ← arguments expr
      expect (.keyword .do)
      let stmts ← body
      expect (.keyword .endfor)
      return (false, (.for · control range stmts))
  | .keyword .read => do
      advance
      let place ← target
      return (true, (.read · place))
  | .keyword .write => do
      advance
      match ← peek? with
      | some (.text raw) => do
          advance
          return (true, (.writeText · raw))
      | _ => do
          let value ← expr
          return (true, (.write · value))
  | .keyword .return => do
      advance
      if (← peek?) = some (.symbol .semicolon) then return (true, (.ret · none))
      else do
        let value ← expr
        return (true, (.ret · (some value)))
  | .ident name => do
      match ← peekSecond? with
      | some (.symbol .lparen) => do
          let callee ← ident
          let args ← arguments expr
          return (true, (.call · callee args))
      | some (.symbol .assign) | some (.symbol .lbracket) => do
          let place ← target
          expect (.symbol .assign)
          let value ← expr
          return (true, (.assign · place value))
      | _ => fail (.expectedAssignOrCall name)
  | found => fail (.expectedStatement found)

def statement : List Token → Parser Stmt
  | [] => fail .unexpectedEnd
  | _ :: bound => do
      let token ← peek
      let (simple, node) ← unmarkedStatement (statements (statement bound)) token.kind
      if simple then expect (.symbol .semicolon)
      return node (← mark token.start)

def body : Parser (List Stmt) := fun c => statements (statement c.rest) c

def parameter : Parser Parameter := do
  let name ← ident
  expect (.symbol .colon)
  return ⟨name, ← typeNote⟩

/-- A written result type is a base type. -/
def result : Parser (Option TypeNote) := do
  if (← peek?) = some (.symbol .colon) then do
    advance
    let token ← peek
    let b ← baseType
    return some ⟨← mark token.start, .base b⟩
  else return none

def declaration : Parser Declaration := do
  advance
  let names ← separated ident
  expect (.symbol .colon)
  return ⟨names, ← typeNote⟩

def declarations : Parser (List Declaration) :=
  whileNext (fun k => if k = .keyword .var then some () else none)
    (fun _ decls => do
      let next ← declaration
      return decls ++ [next])
    []

/-- A function gets its identity before its parts do. -/
def function : Parser Function := do
  let token ← peek
  let id ← freshId
  expect (.keyword .func)
  let name ← ident
  expect (.symbol .lparen)
  let params ← listed parameter
  expect (.symbol .rparen)
  let result ← result
  let decls ← declarations
  let stmts ← body
  expect (.keyword .endfunc)
  return ⟨⟨id, token.start, ← lastStop⟩, name, params, result, decls, stmts⟩

def atEnd : Parser Unit := do
  match ← peek? with
  | none => pure ()
  | found => fail (.notAtEnd found)

def program : Parser Program := do
  let id ← freshId
  let functions ← whileNext some
    (fun _ fs => do
      let next ← function
      return fs ++ [next])
    []
  atEnd
  if functions.isEmpty then fail .noFunction else return ⟨id, functions⟩

end Asl.Parser

namespace Asl

def Program.ofTokens (tokens : List Token) : Except ParseError Program :=
  (Parser.program.run (Cursor.start tokens)).1

end Asl
