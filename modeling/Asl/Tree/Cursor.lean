import Asl.Attempt
import Asl.Tree.Basic

/-!
# Reading along a token list

A cursor stands somewhere in a token list. It knows the tokens that are left, where the last token
it passed ended, and the identity that the next node gets. A parser moves a cursor and either gives
a value or fails; after a failure the cursor stays where the failure happened, so that reading can
go on from there: a parser is an attempt on a cursor.

The only loop is `whileNext`. It runs a step as long as the next token passes a test, and at most as
often as there are tokens left; a step that succeeds passes a token, so the bound is never felt.
-/
namespace Asl

inductive ParseError
  | unexpectedEnd
  | expectedToken (expected : TokenKind) (found : Option TokenKind)
  | expectedIdent (found : Option TokenKind)
  | expectedType (found : Option TokenKind)
  | arraySize (size : Int)
  | expectedStatement (found : TokenKind)
  | expectedAssignOrCall (name : String)
  | expectedOperand (found : TokenKind)
  | noFunction
  | notAtEnd (found : Option TokenKind)
deriving DecidableEq, Repr

def ParseError.message : ParseError → String
  | .unexpectedEnd => "unexpected end of input"
  | .expectedToken expected found =>
      "expected token " ++ expected.description ++ ", found " ++ TokenKind.describe? found
  | .expectedIdent found => "expected identifier, found " ++ TokenKind.describe? found
  | .expectedType found => "expected a type, found " ++ TokenKind.describe? found
  | .arraySize size => "array size must be positive, found " ++ toString size
  | .expectedStatement found => "expected a statement, found " ++ found.description
  | .expectedAssignOrCall name =>
      "expected an assignment or call after identifier `" ++ name ++ "`"
  | .expectedOperand found => "expected primary expression, found " ++ found.description
  | .noFunction => "a program needs at least one function"
  | .notAtEnd found => "not at end of program (next token: " ++ TokenKind.describe? found ++ ")"

structure Cursor where
  rest : List Token
  lastStop : Nat
  nextId : NodeId
deriving DecidableEq, Repr

def Cursor.start (tokens : List Token) : Cursor := ⟨tokens, 0, 0⟩

abbrev Parser : Type → Type := Attempt ParseError Cursor

namespace Parser

open Attempt (fail)

variable {α β : Type}

/-- The next kind, if a token is left. -/
def peek? : Parser (Option TokenKind) := fun c => (.ok (c.rest.head?.map Token.kind), c)

def peekSecond? : Parser (Option TokenKind) :=
  fun c => (.ok ((c.rest.drop 1).head?.map Token.kind), c)

def peek : Parser Token := fun c =>
  match c.rest with
  | [] => (.error .unexpectedEnd, c)
  | t :: _ => (.ok t, c)

def advance : Parser Unit := fun c =>
  match c.rest with
  | [] => (.error .unexpectedEnd, c)
  | t :: rest => (.ok (), { c with rest := rest, lastStop := t.stop })

theorem peek_run_nil {c : Cursor} (h : c.rest = []) : peek.run c = (.error .unexpectedEnd, c) := by
  unfold Attempt.run peek
  rw [h]

theorem peek_run_cons {c : Cursor} {t : Token} {ts : List Token} (h : c.rest = t :: ts) :
    peek.run c = (.ok t, c) := by
  unfold Attempt.run peek
  rw [h]

theorem advance_run_nil {c : Cursor} (h : c.rest = []) :
    advance.run c = (.error .unexpectedEnd, c) := by
  unfold Attempt.run advance
  rw [h]

theorem advance_run_cons {c : Cursor} {t : Token} {ts : List Token} (h : c.rest = t :: ts) :
    advance.run c = (.ok (), { c with rest := ts, lastStop := t.stop }) := by
  unfold Attempt.run advance
  rw [h]

def expect (kind : TokenKind) : Parser Unit := do
  let found ← peek?
  if found = some kind then advance else fail (.expectedToken kind found)

def freshId : Parser NodeId := fun c => (.ok c.nextId, { c with nextId := c.nextId + 1 })

def lastStop : Parser Nat := fun c => (.ok c.lastStop, c)

/-- The mark of a node that started at an offset and has just been read to its end. -/
def mark (start : Nat) : Parser Mark := do
  let id ← freshId
  let stop ← lastStop
  return ⟨id, start, stop⟩

/-- Runs a step as long as a token is next that passes the test, at most once for every token of a
bound. -/
def boundedWhile (test : TokenKind → Option β) (step : β → α → Parser α) :
    List Token → α → Parser α
  | [], a => pure a
  | _ :: bound, a => do
      match (← peek?).bind test with
      | none => pure a
      | some b => do
          let a' ← step b a
          boundedWhile test step bound a'

def whileNext (test : TokenKind → Option β) (step : β → α → Parser α) (a : α) : Parser α :=
  fun c => boundedWhile test step c.rest a c

/-- One item, and one more for every comma that follows. -/
def separated (item : Parser α) : Parser (List α) := do
  let first ← item
  whileNext (fun k => if k = .symbol .comma then some () else none)
    (fun _ items => do
      advance
      let next ← item
      return items ++ [next])
    [first]

/-- Items between commas, or nothing before a closing parenthesis. -/
def listed (item : Parser α) : Parser (List α) := do
  if (← peek?) = some (.symbol .rparen) then return [] else separated item

end Parser

end Asl
