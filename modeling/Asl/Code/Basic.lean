import Asl.Binary64.Basic

/-!
# Three-address code

A program of code is a list of subroutines, each with parameters, variables and a list of
instructions over temporaries and names. Control goes through labels, whose kind says what they are
for; a call takes its arguments from a stack, below which a function with a value has a slot for it.
-/
namespace Asl

/-- Arithmetic and comparison come for whole numbers and for floats. -/
inductive Numbers
  | whole | float
deriving DecidableEq, Repr

inductive Channel
  | int | float | char
deriving DecidableEq, Repr

inductive Operand
  | temp (n : Nat)
  | name (x : String)
  /-- The slot for the value of a function. -/
  | result
deriving DecidableEq, Repr

inductive LabelKind
  | else | endif | endmax | while | endwhile | for | endfor | forDown | forTest
deriving DecidableEq, Repr

structure Label where
  kind : LabelKind
  number : Nat
deriving DecidableEq, Repr

inductive Constant
  | int (n : Int)
  | float (x : Binary64)
  | char (raw : String)
deriving DecidableEq, Repr

inductive BinaryInstr
  | add (ns : Numbers) | sub (ns : Numbers) | mul (ns : Numbers) | div (ns : Numbers)
  | equal (ns : Numbers) | less (ns : Numbers) | lessEqual (ns : Numbers)
  | and | or
deriving DecidableEq, Repr

inductive UnaryInstr
  | negate (ns : Numbers) | not | toFloat
deriving DecidableEq, Repr

inductive Instr
  | binary (op : BinaryInstr) (dst lhs rhs : Operand)
  | unary (op : UnaryInstr) (dst src : Operand)
  | constant (dst : Operand) (value : Constant)
  | copy (dst src : Operand)
  | loadElement (dst base index : Operand)
  | storeElement (base index src : Operand)
  | address (dst array : Operand)
  /-- Pushes a value, or reserves a slot. -/
  | push (src : Option Operand)
  /-- Pops a value into a place, or drops it. -/
  | pop (dst : Option Operand)
  | call (name : String)
  | ret
  | read (as : Channel) (dst : Operand)
  | write (as : Channel) (src : Operand)
  | writeLine
  | jump (target : Label)
  | jumpUnless (condition : Operand) (target : Label)
  | label (l : Label)
deriving DecidableEq, Repr

abbrev Code := List Instr

structure Variable where
  name : String
  cells : Nat
deriving DecidableEq, Repr

structure Subroutine where
  name : String
  params : List String
  locals : List Variable
  code : Code
deriving DecidableEq, Repr

structure Assembly where
  subroutines : List Subroutine
deriving DecidableEq, Repr

def Assembly.find? (a : Assembly) (name : String) : Option Subroutine :=
  a.subroutines.find? (·.name = name)

end Asl
