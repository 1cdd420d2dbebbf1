import Asl.Tree.Basic

/-!
# Programs as text

A tree is laid out as pieces: tokens, and the spaces and line breaks between them. The text is the
pieces one after the other, so the tokens that a reader of the text should find are those among the
pieces. Parentheses are added only around an operand that binds too loosely for its place: a looser
left operand, a right operand that is not tighter, an operator under a prefix.
-/
namespace Asl

inductive Piece
  | token (kind : TokenKind)
  | space
  | newline
  | indent (depth : Nat)
deriving DecidableEq, Repr

namespace Piece

def chars : Piece → List Char
  | .token kind => kind.spelling.toList
  | .space => [' ']
  | .newline => ['\n']
  | .indent depth => List.replicate (2 * depth) ' '

def kind? : Piece → Option TokenKind
  | .token kind => some kind
  | _ => none

def keyword (k : Keyword) : Piece := .token (.keyword k)
def symbol (s : Symbol) : Piece := .token (.symbol s)
def ident (name : String) : Piece := .token (.ident name)

end Piece

def TypeSpec.pieces : TypeSpec → List Piece
  | .base b => [.keyword b.keyword]
  | .array size elem =>
      [.keyword .array, .symbol .lbracket, .token (.int size), .symbol .rbracket, .space,
        .keyword .of, .space, .keyword elem.keyword]

def BinaryOp.precedence (op : BinaryOp) : Nat :=
  if op = .or then 1
  else if op = .and then 2
  else if op.isRelational then 3
  else if op = .add || op = .sub then 4
  else 5

/-- How tightly an expression holds together: an operator by its precedence, a prefix more, all else
most. -/
def Expr.strength : Expr → Nat
  | .binary _ op _ _ => op.precedence
  | .unary _ _ _ => 6
  | _ => 7

def parenthesized (ps : List Piece) : List Piece := .symbol .lparen :: ps ++ [.symbol .rparen]

def parenthesizedIf (b : Bool) (ps : List Piece) : List Piece := if b then parenthesized ps else ps

def UnaryOp.pieces : UnaryOp → List Piece
  | .not => [.token UnaryOp.not.token, .space]
  | op => [.token op.token]

mutual

def Expr.pieces : Expr → List Piece
  | .literal _ value => [.token value.token]
  | .name _ x => [.ident x.name]
  | .element _ base index =>
      [.ident base.name, .symbol .lbracket] ++ index.pieces ++ [.symbol .rbracket]
  | .call _ callee args => .ident callee.name :: parenthesized (Expr.listPieces args)
  | .paren _ inner => parenthesized inner.pieces
  | .unary _ op operand => op.pieces ++ parenthesizedIf (operand.strength < 6) operand.pieces
  | .binary _ op lhs rhs =>
      parenthesizedIf (lhs.strength < op.precedence) lhs.pieces ++
        [.space, .token op.token, .space] ++
          parenthesizedIf (rhs.strength ≤ op.precedence) rhs.pieces
  | .max _ args => .keyword .max :: parenthesized (Expr.listPieces args)

def Expr.listPieces : List Expr → List Piece
  | [] => []
  | [e] => e.pieces
  | e :: es => e.pieces ++ [.symbol .comma, .space] ++ Expr.listPieces es

end

def Target.pieces : Target → List Piece
  | .name _ x => [.ident x.name]
  | .element _ base index =>
      [.ident base.name, .symbol .lbracket] ++ index.pieces ++ [.symbol .rbracket]

def line (depth : Nat) (ps : List Piece) : List Piece := .indent depth :: ps ++ [.newline]

def simpleLine (depth : Nat) (ps : List Piece) : List Piece :=
  line depth (ps ++ [.symbol .semicolon])

mutual

def Stmt.pieces (depth : Nat) : Stmt → List Piece
  | .assign _ target value =>
      simpleLine depth (target.pieces ++ [.space, .symbol .assign, .space] ++ value.pieces)
  | .ifThen _ condition body =>
      line depth ([.keyword .if, .space] ++ condition.pieces ++ [.space, .keyword .then]) ++
        Stmt.listPieces (depth + 1) body ++ line depth [.keyword .endif]
  | .ifElse _ condition body otherwise =>
      line depth ([.keyword .if, .space] ++ condition.pieces ++ [.space, .keyword .then]) ++
        Stmt.listPieces (depth + 1) body ++ line depth [.keyword .else] ++
        Stmt.listPieces (depth + 1) otherwise ++ line depth [.keyword .endif]
  | .while _ condition body =>
      line depth ([.keyword .while, .space] ++ condition.pieces ++ [.space, .keyword .do]) ++
        Stmt.listPieces (depth + 1) body ++ line depth [.keyword .endwhile]
  | .for _ control range body =>
      line depth ([.keyword .for, .space, .ident control.name, .space, .keyword .in, .space,
          .keyword .range] ++ parenthesized (Expr.listPieces range) ++ [.space, .keyword .do]) ++
        Stmt.listPieces (depth + 1) body ++ line depth [.keyword .endfor]
  | .call _ callee args =>
      simpleLine depth (.ident callee.name :: parenthesized (Expr.listPieces args))
  | .read _ target => simpleLine depth ([.keyword .read, .space] ++ target.pieces)
  | .write _ value => simpleLine depth ([.keyword .write, .space] ++ value.pieces)
  | .writeText _ raw => simpleLine depth [.keyword .write, .space, .token (.text raw)]
  | .ret _ none => simpleLine depth [.keyword .return]
  | .ret _ (some value) => simpleLine depth ([.keyword .return, .space] ++ value.pieces)

def Stmt.listPieces (depth : Nat) : List Stmt → List Piece
  | [] => []
  | s :: ss => s.pieces depth ++ Stmt.listPieces depth ss

end

def Ident.listPieces : List Ident → List Piece
  | [] => []
  | [x] => [.ident x.name]
  | x :: xs => [.ident x.name, .symbol .comma, .space] ++ Ident.listPieces xs

def TypeNote.pieces (t : TypeNote) : List Piece := [.symbol .colon, .space] ++ t.spec.pieces

def Parameter.pieces (p : Parameter) : List Piece := .ident p.name.name :: p.type.pieces

def Parameter.listPieces : List Parameter → List Piece
  | [] => []
  | [p] => p.pieces
  | p :: ps => p.pieces ++ [.symbol .comma, .space] ++ Parameter.listPieces ps

def Declaration.pieces (d : Declaration) : List Piece :=
  line 1 ([.keyword .var, .space] ++ Ident.listPieces d.names ++ d.type.pieces)

def Function.pieces (f : Function) : List Piece :=
  line 0 ([.keyword .func, .space, .ident f.name.name] ++
      parenthesized (Parameter.listPieces f.params) ++ (f.result.map TypeNote.pieces).getD []) ++
    f.declarations.flatMap Declaration.pieces ++ Stmt.listPieces 1 f.body ++
    line 0 [.keyword .endfunc]

def Function.listPieces : List Function → List Piece
  | [] => []
  | [f] => f.pieces
  | f :: fs => f.pieces ++ [.newline] ++ Function.listPieces fs

def Program.pieces (p : Program) : List Piece := Function.listPieces p.functions

def Piece.text (ps : List Piece) : String := String.ofList (ps.flatMap Piece.chars)

def Program.text (p : Program) : String := Piece.text p.pieces

end Asl
