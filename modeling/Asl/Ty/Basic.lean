import Asl.Tree.Basic

/-!
# Types

Besides the types of values there are the type of a procedure's missing result, the types of
functions, and an error type for expressions that have no type: every rule is silent about it.
A value fits where its own type is expected, and an integer also where a float is.
-/
namespace Asl

inductive Ty
  | error | void | int | float | bool | char
  | array (size : Nat) (elem : Ty)
  | function (params : List Ty) (result : Ty)
deriving Repr, Inhabited

namespace Ty

mutual

def same : Ty → Ty → Bool
  | .error, .error | .void, .void | .int, .int | .float, .float | .bool, .bool
  | .char, .char => true
  | .array n a, .array m b => n == m && same a b
  | .function ps r, .function qs q => listSame ps qs && same r q
  | _, _ => false

def listSame : List Ty → List Ty → Bool
  | [], [] => true
  | p :: ps, q :: qs => same p q && listSame ps qs
  | _, _ => false

end

mutual

theorem same_iff : (t u : Ty) → (same t u = true ↔ t = u)
  | .array n a, u => by cases u <;> simp [same, same_iff a]
  | .function ps r, u => by cases u <;> simp [same, listSame_iff ps, same_iff r]
  | .error, u => by cases u <;> simp [same]
  | .void, u => by cases u <;> simp [same]
  | .int, u => by cases u <;> simp [same]
  | .float, u => by cases u <;> simp [same]
  | .bool, u => by cases u <;> simp [same]
  | .char, u => by cases u <;> simp [same]

theorem listSame_iff : (ts us : List Ty) → (listSame ts us = true ↔ ts = us)
  | [], us => by cases us <;> simp [listSame]
  | t :: ts, us => by cases us <;> simp [listSame, same_iff t, listSame_iff ts]

end

instance : DecidableEq Ty := fun t u => decidable_of_iff _ (same_iff t u)

def ofBase : BaseType → Ty
  | .int => .int | .float => .float | .bool => .bool | .char => .char

def ofSpec : TypeSpec → Ty
  | .base b => ofBase b
  | .array size elem => .array size (ofBase elem)

def isNumeric : Ty → Bool
  | .int | .float => true
  | _ => false

def isPrimitive : Ty → Bool
  | .int | .float | .bool | .char => true
  | _ => false

def isArray : Ty → Bool
  | .array _ _ => true
  | _ => false

def isFunction : Ty → Bool
  | .function _ _ => true
  | _ => false

def isProcedure : Ty → Bool
  | .function _ .void => true
  | _ => false

def params : Ty → List Ty
  | .function ps _ => ps
  | _ => []

/-- What a function gives back; any other type stands for itself. -/
def result : Ty → Ty
  | .function _ r => r
  | t => t

/-- What an array holds; any other type stands for itself. -/
def elem : Ty → Ty
  | .array _ e => e
  | t => t

def length : Ty → Nat
  | .array n _ => n
  | _ => 0

def cells : Ty → Nat
  | .array n e => n * cells e
  | .int | .float | .bool | .char => 1
  | _ => 0

/-- Whether a value of type `src` may be stored where a value of type `dst` is expected. -/
def accepts (dst src : Ty) : Bool := dst = src || (dst = .float && src = .int)

def comparable (op : BinaryOp) (t u : Ty) : Bool :=
  (t.isNumeric && u.isNumeric) ||
    if op.isEquality then t = u && t.isPrimitive else t = .char && u = .char

mutual

def text : Ty → String
  | .error => "error"
  | .void => "void"
  | .int => "int"
  | .float => "float"
  | .bool => "bool"
  | .char => "char"
  | .array n e => "array<" ++ toString n ++ "," ++ text e ++ ">"
  | .function ps r => "function<(" ++ listText ps ++ "):" ++ text r ++ ">"

def listText : List Ty → String
  | [] => ""
  | [t] => text t
  | t :: ts => text t ++ "," ++ listText ts

end

end Ty

end Asl
