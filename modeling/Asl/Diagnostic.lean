import Asl.Tree.Basic

/-!
# Diagnostics

A diagnostic says which rule of the language a program breaks, and at which node. The rules fall
into five categories; each has its own wording.
-/
namespace Asl

inductive Category
  | declaration | reference | type | place | structural
deriving DecidableEq, Repr

namespace Category

def all : List Category := [.declaration, .reference, .type, .place, .structural]

def text : Category → String
  | .declaration => "declaration error"
  | .reference => "reference error"
  | .type => "type error"
  | .place => "lvalue error"
  | .structural => "structural error"

end Category

inductive Fault
  | redeclared (name : String)
  | undeclared (name : String)
  | notCallable (name : String)
  | notArray (name : String)
  | indexType
  | assignTypes (target value : String)
  | assignPlace
  | conditionType (instruction : String)
  | controlType
  | rangeType
  | rangeCount (found : Nat)
  | notPrimitive (instruction : String)
  | readPlace
  | returnType
  | argumentCount (name : String) (expected found : Nat)
  | argumentType (position : Nat) (name : String)
  | noValue (name : String)
  | operandTypes (operator : String)
  | maxCount (found : Nat)
  | maxTypes
  | noMain
deriving DecidableEq, Repr

namespace Fault

def category : Fault → Category
  | .redeclared _ => .declaration
  | .undeclared _ | .notCallable _ | .notArray _ => .reference
  | .assignPlace | .readPlace => .place
  | .noMain => .structural
  | _ => .type

def message : Fault → String
  | .redeclared name => "identifier `" ++ name ++ "` already declared"
  | .undeclared name => "identifier `" ++ name ++ "` is undeclared"
  | .notCallable name => "identifier `" ++ name ++ "` is not callable"
  | .notArray name => "array access to non-array operand `" ++ name ++ "`"
  | .indexType => "array access with non-integer index"
  | .assignTypes target value =>
      "assignment with incompatible types (" ++ target ++ " := " ++ value ++ ")"
  | .assignPlace => "left expression of assignment is not referenceable"
  | .conditionType instruction =>
      "instruction `" ++ instruction ++ "` requires a boolean condition"
  | .controlType => "control variable of `for` must be an integer"
  | .rangeType => "range expressions of `for` must be integers"
  | .rangeCount found => "`range` takes 1 to 3 expressions, found " ++ toString found
  | .notPrimitive instruction => "basic type required in `" ++ instruction ++ "`"
  | .readPlace => "expression in `read` is not referenceable"
  | .returnType => "return with incompatible type"
  | .argumentCount name expected found =>
      "`" ++ name ++ "` expects " ++ toString expected ++ " argument(s), found " ++ toString found
  | .argumentType position name =>
      "argument #" ++ toString position ++ " of `" ++ name ++ "` has an incompatible type"
  | .noValue name => "procedure `" ++ name ++ "` used where a value is required"
  | .operandTypes operator => "operator `" ++ operator ++ "` with incompatible types"
  | .maxCount found => "`max` takes at least 2 arguments, found " ++ toString found
  | .maxTypes => "`max` arguments must be all numeric or all char"
  | .noMain => "there is no `main` function properly declared"

end Fault

structure Diagnostic where
  mark : Mark
  fault : Fault
deriving DecidableEq, Repr

namespace Diagnostic

def category (d : Diagnostic) : Category := d.fault.category

def message (d : Diagnostic) : String := d.fault.message

def count (ds : List Diagnostic) (c : Category) : Nat := ds.countP (·.category = c)

end Diagnostic

end Asl
