import Asl.Token.Basic

/-!
# Program trees

The tree of a program keeps everything that its tokens say, parentheses included. Every node has a
mark: an identity, by which later passes attach what they find out, and the byte offsets of the
source text that it was built from. A tree that was not read from a text has blank marks.
-/
namespace Asl

abbrev NodeId := Nat

structure Mark where
  id : NodeId
  start : Nat
  stop : Nat
deriving DecidableEq, Repr, Inhabited

def Mark.blank : Mark := ⟨0, 0, 0⟩

structure Ident where
  mark : Mark
  name : String
deriving DecidableEq, Repr, Inhabited

inductive BaseType
  | int | float | bool | char
deriving DecidableEq, Repr

def BaseType.keyword : BaseType → Keyword
  | .int => .int | .float => .float | .bool => .bool | .char => .char

def BaseType.ofToken? : TokenKind → Option BaseType
  | .keyword .int => some .int
  | .keyword .float => some .float
  | .keyword .bool => some .bool
  | .keyword .char => some .char
  | _ => none

inductive TypeSpec
  | base (b : BaseType)
  | array (size : Nat) (elem : BaseType)
deriving DecidableEq, Repr

structure TypeNote where
  mark : Mark
  spec : TypeSpec
deriving DecidableEq, Repr

inductive UnaryOp
  | not | plus | minus
deriving DecidableEq, Repr

namespace UnaryOp

def token : UnaryOp → TokenKind
  | .not => .keyword .not | .plus => .symbol .plus | .minus => .symbol .minus

def ofToken? : TokenKind → Option UnaryOp
  | .keyword .not => some .not
  | .symbol .plus => some .plus
  | .symbol .minus => some .minus
  | _ => none

theorem ofToken?_token (op : UnaryOp) : ofToken? op.token = some op := by cases op <;> rfl

end UnaryOp

inductive BinaryOp
  | mul | div | mod
  | add | sub
  | equal | notEqual | less | lessEqual | greater | greaterEqual
  | and | or
deriving DecidableEq, Repr

namespace BinaryOp

def all : List BinaryOp :=
  [.mul, .div, .mod, .add, .sub, .equal, .notEqual, .less, .lessEqual, .greater, .greaterEqual,
    .and, .or]

def token : BinaryOp → TokenKind
  | .mul => .symbol .star | .div => .symbol .slash | .mod => .symbol .percent
  | .add => .symbol .plus | .sub => .symbol .minus
  | .equal => .symbol .equal | .notEqual => .symbol .notEqual
  | .less => .symbol .less | .lessEqual => .symbol .lessEqual
  | .greater => .symbol .greater | .greaterEqual => .symbol .greaterEqual
  | .and => .keyword .and | .or => .keyword .or

theorem mem_all (op : BinaryOp) : op ∈ all := by cases op <;> decide

def isArithmetic : BinaryOp → Bool
  | .mul | .div | .mod | .add | .sub => true
  | _ => false

def isEquality : BinaryOp → Bool
  | .equal | .notEqual => true
  | _ => false

def isRelational : BinaryOp → Bool
  | .equal | .notEqual | .less | .lessEqual | .greater | .greaterEqual => true
  | _ => false

end BinaryOp

inductive Literal
  | int (n : Int)
  | float (x : Binary64)
  | bool (b : Bool)
  | char (raw : String)
deriving DecidableEq, Repr

def Literal.token : Literal → TokenKind
  | .int n => .int n | .float x => .float x | .bool b => .bool b | .char raw => .char raw

inductive Expr
  | literal (mark : Mark) (value : Literal)
  | name (mark : Mark) (ident : Ident)
  | element (mark : Mark) (base : Ident) (index : Expr)
  | call (mark : Mark) (callee : Ident) (args : List Expr)
  | paren (mark : Mark) (inner : Expr)
  | unary (mark : Mark) (op : UnaryOp) (operand : Expr)
  | binary (mark : Mark) (op : BinaryOp) (lhs rhs : Expr)
  | max (mark : Mark) (args : List Expr)
deriving Repr, Inhabited

def Expr.mark : Expr → Mark
  | .literal m _ | .name m _ | .element m _ _ | .call m _ _ | .paren m _ | .unary m _ _
  | .binary m _ _ _ | .max m _ => m

inductive Target
  | name (mark : Mark) (ident : Ident)
  | element (mark : Mark) (base : Ident) (index : Expr)
deriving Repr, Inhabited

def Target.mark : Target → Mark
  | .name m _ | .element m _ _ => m

inductive Stmt
  | assign (mark : Mark) (target : Target) (value : Expr)
  | ifThen (mark : Mark) (condition : Expr) (body : List Stmt)
  | ifElse (mark : Mark) (condition : Expr) (body otherwise : List Stmt)
  | while (mark : Mark) (condition : Expr) (body : List Stmt)
  | for (mark : Mark) (control : Ident) (range : List Expr) (body : List Stmt)
  | call (mark : Mark) (callee : Ident) (args : List Expr)
  | read (mark : Mark) (target : Target)
  | write (mark : Mark) (value : Expr)
  | writeText (mark : Mark) (raw : String)
  | ret (mark : Mark) (value : Option Expr)
deriving Repr, Inhabited

def Stmt.mark : Stmt → Mark
  | .assign m _ _ | .ifThen m _ _ | .ifElse m _ _ _ | .while m _ _ | .for m _ _ _ | .call m _ _
  | .read m _ | .write m _ | .writeText m _ | .ret m _ => m

structure Parameter where
  name : Ident
  type : TypeNote
deriving Repr

structure Declaration where
  names : List Ident
  type : TypeNote
deriving Repr

structure Function where
  mark : Mark
  name : Ident
  params : List Parameter
  result : Option TypeNote
  declarations : List Declaration
  body : List Stmt
deriving Repr

structure Program where
  id : NodeId
  functions : List Function
deriving Repr

end Asl
