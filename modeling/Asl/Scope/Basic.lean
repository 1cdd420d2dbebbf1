import Asl.Ty.Table
import Std.Data.TreeMap

/-!
# Scopes

A scope binds names. Its bindings are found by name and listed in the order in which the names were
first declared; declaring a name again changes what it is bound to and not its place.
-/
namespace Asl

inductive Role
  | variable | parameter | function
deriving DecidableEq, Repr

structure Binding where
  role : Role
  type : TypeId
deriving DecidableEq, Repr

structure Scope where
  name : String
  bindings : Std.TreeMap String Binding
  /-- The declared names in the order of their first declarations. -/
  order : List String

namespace Scope

def empty (name : String) : Scope := ⟨name, {}, []⟩

def lookup? (s : Scope) (x : String) : Option Binding := s.bindings[x]?

def declares (s : Scope) (x : String) : Bool := (s.lookup? x).isSome

def declare (s : Scope) (x : String) (b : Binding) : Scope :=
  { s with
    bindings := s.bindings.insert x b
    order := if s.declares x then s.order else s.order ++ [x] }

/-- All bindings in the order of declaration. -/
def toList (s : Scope) : List (String × Binding) :=
  s.order.filterMap fun x => (s.lookup? x).map fun b => (x, b)

theorem lookup?_empty (name x : String) : (empty name).lookup? x = none := by
  simp [empty, lookup?]

theorem lookup?_declare (s : Scope) (x y : String) (b : Binding) :
    (s.declare x b).lookup? y = if x = y then some b else s.lookup? y := by
  simp [declare, lookup?, Std.TreeMap.getElem?_insert]

end Scope

end Asl
