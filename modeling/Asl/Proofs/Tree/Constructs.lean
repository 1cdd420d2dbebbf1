import Asl.Tree.Grammar

/-!
# Parsers that call each other

Every construct of the language has its parser. Written down without any bound, a parser passes
tokens itself and calls the parsers of other constructs, and a loop calls itself for its next round.
These calls are kept open here: a set of readers stands for what is called, and one level of the
grammar is built on it.

A call either leaves fewer tokens to the one that is called, or it goes from a construct to one of
lower rank. So as many levels as there are ranks are enough for each token that is left and once
more.
-/
namespace Asl.Parser

open Attempt (fail)

variable {α β : Type}

/-- What stands between commas. -/
inductive Member : Type → Type
  | name : Member Ident
  | argument : Member Expr
  | parameter : Member Parameter

/-- What loops collect. -/
inductive Item : Type → Type 1
  | member {α : Type} (m : Member α) : Item α
  | declaration : Item Declaration
  | statement : Item Stmt
  | function : Item Function

/-- The levels of binary operators, the loosest first. -/
inductive Level
  | or | and | relation | sum | product

inductive Construct : Type → Type 1
  | token (kind : TokenKind) : Construct Unit
  | name : Construct Ident
  | baseType : Construct BaseType
  | arraySize : Construct Nat
  | typeSpec : Construct TypeSpec
  | typeNote : Construct TypeNote
  | index : Construct Expr
  | arguments : Construct (List Expr)
  | call : Construct (Ident × List Expr)
  | separated {α : Type} (m : Member α) : Construct (List α)
  | listed {α : Type} (m : Member α) : Construct (List α)
  /-- The items that follow those that have been read. -/
  | rest {α : Type} (item : Item α) (items : List α) : Construct (List α)
  | primary : Construct Expr
  | operand : Construct Expr
  | level (l : Level) : Construct Expr
  /-- The operands of a level that follow what has been read. -/
  | chain (l : Level) (lhs : Expr) : Construct Expr
  | expr : Construct Expr
  | target : Construct Target
  | statement : Construct Stmt
  /-- A statement, once it is known with which kind of token it begins. -/
  | statementOf (kind : TokenKind) : Construct Stmt
  | body : Construct (List Stmt)
  | parameter : Construct Parameter
  | result : Construct (Option TypeNote)
  /-- What stands behind the keyword of a declaration. -/
  | declaration : Construct Declaration
  | declarations : Construct (List Declaration)
  | function : Construct Function
  | program : Construct Program

def Member.construct : Member α → Construct α
  | .name => .name
  | .argument => .expr
  | .parameter => .parameter

namespace Item

def construct : Item α → Construct α
  | .member m => m.construct
  | .declaration => .declaration
  | .statement => .statement
  | .function => .function

def follows : Item α → TokenKind → Option Unit
  | .member _, k => if k = .symbol .comma then some () else none
  | .declaration, k => if k = .keyword .var then some () else none
  | .statement, k => if closes k then none else some ()
  | .function, _ => some ()

/-- Whether that token is passed before the item. -/
def isLed : Item α → Bool
  | .member _ | .declaration => true
  | .statement | .function => false

end Item

namespace Level

def number : Level → Nat
  | .or => 1
  | .and => 2
  | .relation => 3
  | .sum => 4
  | .product => 5

def tighter : Level → Construct Expr
  | .or => .level .and
  | .and => .level .relation
  | .relation => .level .sum
  | .sum => .level .product
  | .product => .operand

end Level

/-- What parsers call: the one that passes a token, and those of the constructs. -/
structure Readers where
  advance : Parser Unit
  parse : {α : Type} → Construct α → Parser α

namespace Readers

variable (k : Readers)

def unmarkedPrimary (kind : TokenKind) : Parser (Mark → Expr) := do
  match literalOf? kind, kind with
  | some value, _ => do
      k.advance
      return (.literal · value)
  | none, .keyword .max => do
      k.advance
      let args ← k.parse .arguments
      if args.isEmpty then fail (.expectedOperand (.symbol .rparen)) else return (.max · args)
  | none, .ident _ => do
      match ← peekSecond? with
      | some (.symbol .lparen) => do
          let (callee, args) ← k.parse .call
          return (.call · callee args)
      | some (.symbol .lbracket) => do
          let base ← k.parse .name
          let i ← k.parse .index
          return (.element · base i)
      | _ => do
          let name ← k.parse .name
          return (.name · name)
  | none, .symbol .lparen => do
      k.advance
      let inner ← k.parse .expr
      k.parse (.token (.symbol .rparen))
      return (.paren · inner)
  | none, found => fail (.expectedOperand found)

def unmarkedStatement (kind : TokenKind) : Parser (Bool × (Mark → Stmt)) := do
  match kind with
  | .keyword .if => do
      k.advance
      let condition ← k.parse .expr
      k.parse (.token (.keyword .then))
      let yes ← k.parse .body
      if (← peek?) = some (.keyword .else) then do
        k.advance
        let no ← k.parse .body
        k.parse (.token (.keyword .endif))
        return (false, (.ifElse · condition yes no))
      else do
        k.parse (.token (.keyword .endif))
        return (false, (.ifThen · condition yes))
  | .keyword .while => do
      k.advance
      let condition ← k.parse .expr
      k.parse (.token (.keyword .do))
      let stmts ← k.parse .body
      k.parse (.token (.keyword .endwhile))
      return (false, (.while · condition stmts))
  | .keyword .for => do
      k.advance
      let control ← k.parse .name
      k.parse (.token (.keyword .in))
      k.parse (.token (.keyword .range))
      let range ← k.parse .arguments
      k.parse (.token (.keyword .do))
      let stmts ← k.parse .body
      k.parse (.token (.keyword .endfor))
      return (false, (.for · control range stmts))
  | .keyword .read => do
      k.advance
      let place ← k.parse .target
      return (true, (.read · place))
  | .keyword .write => do
      k.advance
      match ← peek? with
      | some (.text raw) => do
          k.advance
          return (true, (.writeText · raw))
      | _ => do
          let value ← k.parse .expr
          return (true, (.write · value))
  | .keyword .return => do
      k.advance
      if (← peek?) = some (.symbol .semicolon) then return (true, (.ret · none))
      else do
        let value ← k.parse .expr
        return (true, (.ret · (some value)))
  | .ident name => do
      match ← peekSecond? with
      | some (.symbol .lparen) => do
          let (callee, args) ← k.parse .call
          return (true, (.call · callee args))
      | some (.symbol .assign) | some (.symbol .lbracket) => do
          let place ← k.parse .target
          k.parse (.token (.symbol .assign))
          let value ← k.parse .expr
          return (true, (.assign · place value))
      | _ => fail (.expectedAssignOrCall name)
  | found => fail (.expectedStatement found)

/-- The parser of a construct, which calls the given readers and nothing else. -/
def once : {α : Type} → Construct α → Parser α
  | _, .token kind => do
      let found ← peek?
      if found = some kind then k.advance else fail (.expectedToken kind found)
  | _, .name => do
      match ← peek? with
      | some (.ident name) => do
          let token ← peek
          k.advance
          return ⟨← mark token.start, name⟩
      | found => fail (.expectedIdent found)
  | _, .baseType => do
      let found ← peek?
      match found.bind BaseType.ofToken? with
      | some b => do
          k.advance
          return b
      | none => fail (.expectedType found)
  | _, .arraySize => do
      match ← peek? with
      | some (.int n) => do
          k.advance
          if n ≤ 0 then fail (.arraySize n) else return n.toNat
      | found => fail (.expectedToken (.int 0) found)
  | _, .typeSpec => do
      if (← peek?) = some (.keyword .array) then do
        k.advance
        k.parse (.token (.symbol .lbracket))
        let size ← k.parse .arraySize
        k.parse (.token (.symbol .rbracket))
        k.parse (.token (.keyword .of))
        return .array size (← k.parse .baseType)
      else return .base (← k.parse .baseType)
  | _, .typeNote => do
      let token ← peek
      let spec ← k.parse .typeSpec
      return ⟨← mark token.start, spec⟩
  | _, .index => do
      k.parse (.token (.symbol .lbracket))
      let i ← k.parse .expr
      k.parse (.token (.symbol .rbracket))
      return i
  | _, .arguments => do
      k.parse (.token (.symbol .lparen))
      let args ← k.parse (.listed .argument)
      k.parse (.token (.symbol .rparen))
      return args
  | _, .call => do
      let callee ← k.parse .name
      let args ← k.parse .arguments
      return (callee, args)
  | _, .separated m => do
      let first ← k.parse m.construct
      k.parse (.rest (.member m) [first])
  | _, .listed m => do
      if (← peek?) = some (.symbol .rparen) then return []
      else k.parse (.separated m)
  | _, .rest item items => do
      match (← peek?).bind item.follows with
      | none => return items
      | some _ => do
          if item.isLed then k.advance
          let next ← k.parse item.construct
          k.parse (.rest item (items ++ [next]))
  | _, .primary => do
      let token ← peek
      let node ← unmarkedPrimary k token.kind
      return node (← mark token.start)
  | _, .operand => do
      let token ← peek
      match UnaryOp.ofToken? token.kind with
      | some op => do
          k.advance
          let inner ← k.parse .operand
          return .unary (← mark token.start) op inner
      | none => k.parse .primary
  | _, .level l => do
      let first ← k.parse l.tighter
      k.parse (.chain l first)
  | _, .chain l lhs => do
      match (← peek?).bind (operator? l.number) with
      | none => return lhs
      | some op => do
          k.advance
          let rhs ← k.parse l.tighter
          k.parse (.chain l (.binary (← mark lhs.mark.start) op lhs rhs))
  | _, .expr => k.parse (.level .or)
  | _, .target => do
      let token ← peek
      let name ← k.parse .name
      if (← peek?) = some (.symbol .lbracket) then do
        let i ← k.parse .index
        return .element (← mark token.start) name i
      else return .name (← mark token.start) name
  | _, .statement => do
      let token ← peek
      k.parse (.statementOf token.kind)
  | _, .statementOf kind => do
      let token ← peek
      let (simple, node) ← unmarkedStatement k kind
      if simple then k.parse (.token (.symbol .semicolon))
      return node (← mark token.start)
  | _, .body => k.parse (.rest .statement [])
  | _, .parameter => do
      let name ← k.parse .name
      k.parse (.token (.symbol .colon))
      return ⟨name, ← k.parse .typeNote⟩
  | _, .result => do
      if (← peek?) = some (.symbol .colon) then do
        k.advance
        let token ← peek
        let b ← k.parse .baseType
        return some ⟨← mark token.start, .base b⟩
      else return none
  | _, .declaration => do
      let names ← k.parse (.separated .name)
      k.parse (.token (.symbol .colon))
      return ⟨names, ← k.parse .typeNote⟩
  | _, .declarations => k.parse (.rest .declaration [])
  | _, .function => do
      let token ← peek
      let id ← freshId
      k.parse (.token (.keyword .func))
      let name ← k.parse .name
      k.parse (.token (.symbol .lparen))
      let params ← k.parse (.listed .parameter)
      k.parse (.token (.symbol .rparen))
      let result ← k.parse .result
      let decls ← k.parse .declarations
      let stmts ← k.parse .body
      k.parse (.token (.keyword .endfunc))
      return ⟨⟨id, token.start, ← lastStop⟩, name, params, result, decls, stmts⟩
  | _, .program => do
      let id ← freshId
      let functions ← k.parse (.rest .function [])
      atEnd
      if functions.isEmpty then fail .noFunction else return ⟨id, functions⟩

end Readers

def tight : Parser Expr := fun c => operand c.rest c

def oneStatement : Parser Stmt := fun c => statement c.rest c

def declared : Parser Declaration := do
  let names ← separated ident
  expect (.symbol .colon)
  return ⟨names, ← typeNote⟩

/-- A statement, once it is known with which kind of token it begins. -/
def statementOf (kind : TokenKind) : Parser Stmt := do
  let token ← peek
  let (simple, node) ← unmarkedStatement body kind
  if simple then expect (.symbol .semicolon)
  return node (← mark token.start)

def Member.parser : Member α → Parser α
  | .name => ident
  | .argument => expr
  | .parameter => Parser.parameter

def Item.parser : Item α → Parser α
  | .member m => m.parser
  | .declaration => declared
  | .statement => oneStatement
  | .function => Parser.function

def Level.operand : Level → Parser Expr
  | .or => chain 2 (chain 3 (chain 4 (chain 5 tight)))
  | .and => chain 3 (chain 4 (chain 5 tight))
  | .relation => chain 4 (chain 5 tight)
  | .sum => chain 5 tight
  | .product => tight

def Item.step (i : Item α) (items : List α) : Parser (List α) := do
  if i.isLed then advance
  let next ← i.parser
  return items ++ [next]

def Level.step (l : Level) (op : BinaryOp) (lhs : Expr) : Parser Expr := do
  advance
  let rhs ← l.operand
  return .binary (← mark lhs.mark.start) op lhs rhs

def Construct.parser : {α : Type} → Construct α → Parser α
  | _, .token kind => expect kind
  | _, .name => ident
  | _, .baseType => Parser.baseType
  | _, .arraySize => Parser.arraySize
  | _, .typeSpec => Parser.typeSpec
  | _, .typeNote => Parser.typeNote
  | _, .index => Parser.index Parser.expr
  | _, .arguments => Parser.arguments Parser.expr
  | _, .call => do
      let callee ← ident
      let args ← Parser.arguments Parser.expr
      return (callee, args)
  | _, .separated m => Parser.separated m.parser
  | _, .listed m => Parser.listed m.parser
  | _, .rest item items => whileNext item.follows (fun _ => item.step) items
  | _, .primary => Parser.primary Parser.expr
  | _, .operand => tight
  | _, .level l => Parser.chain l.number l.operand
  | _, .chain l lhs => whileNext (operator? l.number) l.step lhs
  | _, .expr => Parser.expr
  | _, .target => Parser.target
  | _, .statement => oneStatement
  | _, .statementOf kind => Parser.statementOf kind
  | _, .body => Parser.body
  | _, .parameter => Parser.parameter
  | _, .result => Parser.result
  | _, .declaration => declared
  | _, .declarations => Parser.declarations
  | _, .function => Parser.function
  | _, .program => Parser.program

def grammar : Readers := ⟨advance, Construct.parser⟩

def Readers.next (k : Readers) : Readers := ⟨k.advance, k.once⟩

/-- So many levels of calls above given readers. -/
def Readers.unrolled (k : Readers) : Nat → Readers
  | 0 => k
  | n + 1 => (k.unrolled n).next

def Member.rank : Member α → Nat
  | .name => 1
  | .parameter => 2
  | .argument => 10

def Item.rank : Item α → Nat
  | .member m => m.rank
  | .function => 2
  | .declaration => 3
  | .statement => 4

def Level.rank : Level → Nat
  | .product => 5
  | .sum => 6
  | .relation => 7
  | .and => 8
  | .or => 9

/-- A construct calls only constructs of lower rank before it has passed a token. -/
def Construct.rank : {α : Type} → Construct α → Nat
  | _, .token _ | _, .name | _, .baseType | _, .arraySize | _, .result | _, .chain _ _ => 1
  | _, .typeSpec | _, .index | _, .arguments | _, .call | _, .target | _, .parameter
  | _, .function => 2
  | _, .typeNote | _, .primary | _, .statementOf _ | _, .declaration => 3
  | _, .operand | _, .statement | _, .program => 4
  | _, .declarations => 5
  | _, .body => 6
  | _, .level l => l.rank
  | _, .expr => 10
  | _, .rest item _ => item.rank + 1
  | _, .separated m => m.rank + 1
  | _, .listed m => m.rank + 2

theorem Construct.rank_pos (r : Construct α) : 0 < r.rank := by
  cases r with
  | level l => cases l <;> decide
  | _ => exact Nat.succ_pos _

theorem Member.rank_le (m : Member α) : m.rank ≤ 10 := by cases m <;> decide

theorem Item.rank_le (i : Item α) : i.rank ≤ 10 := by
  cases i with
  | member m => exact m.rank_le
  | declaration => decide
  | statement => decide
  | function => decide

theorem Level.rank_le (l : Level) : l.rank ≤ 9 := by cases l <;> decide

theorem Construct.rank_lt (r : Construct α) : r.rank < 13 := by
  cases r with
  | rest i items => exact Nat.lt_of_le_of_lt (Nat.succ_le_succ i.rank_le) (by decide)
  | separated m => exact Nat.lt_of_le_of_lt (Nat.succ_le_succ m.rank_le) (by decide)
  | listed m => exact Nat.lt_succ_of_le (Nat.add_le_add_right m.rank_le 2)
  | level l => exact Nat.lt_of_le_of_lt l.rank_le (by decide)
  | _ => exact Nat.lt_of_sub_pos (Nat.succ_pos _)

theorem Member.rank_construct_lt (m : Member α) : m.construct.rank < m.rank + 1 := by
  cases m <;> decide

theorem Item.rank_construct_lt (i : Item α) : i.construct.rank < i.rank + 1 := by
  cases i with
  | member m => exact m.rank_construct_lt
  | declaration => decide
  | statement => decide
  | function => decide

theorem Level.rank_tighter_lt (l : Level) : l.tighter.rank < l.rank := by cases l <;> decide

/-- How many levels of calls a construct takes at most: all ranks for each token that is left, and
its own rank. -/
def Construct.depth (r : Construct α) (c : Cursor) : Nat := 13 * c.rest.length + r.rank

/-- Whether a construct that is read has at least one token. -/
def Construct.moves : {α : Type} → Construct α → Bool
  | _, .listed _ | _, .rest _ _ | _, .chain _ _ | _, .body | _, .declarations | _, .result => false
  | _, _ => true

theorem Member.moves_construct (m : Member α) : m.construct.moves = true := by cases m <;> rfl

theorem Item.moves_construct (i : Item α) : i.construct.moves = true := by
  cases i with
  | member m => exact m.moves_construct
  | declaration => rfl
  | statement => rfl
  | function => rfl

theorem Level.moves_tighter (l : Level) : l.tighter.moves = true := by cases l <;> rfl

end Asl.Parser
