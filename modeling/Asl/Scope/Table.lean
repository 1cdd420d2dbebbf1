import Asl.Attempt
import Asl.Scope.Basic

/-!
# The table of scopes

Scopes are opened once and can be entered again by their number. The scopes that are active form a
stack, in which a scope may stand more than once; a name means its binding in the innermost active
scope that declares it. An operation that can fail is an attempt on the table.
-/
namespace Asl

abbrev ScopeId := Nat

inductive ScopeError
  | underflow
  | unknown (id : ScopeId)
  | noFunction
deriving DecidableEq, Repr

def ScopeError.message : ScopeError → String
  | .underflow => "scope stack underflow"
  | .unknown id => "unknown scope ScopeId(" ++ toString id ++ ")"
  | .noFunction => "no enclosing function"

structure ScopeTable where
  scopes : List Scope
  /-- The active scopes, innermost first. -/
  stack : List ScopeId
  /-- The type of the function that is being worked on. -/
  function : Option TypeId

namespace ScopeTable

def empty : ScopeTable := ⟨[], [], none⟩

def scope? (t : ScopeTable) (id : ScopeId) : Option Scope := t.scopes[id]?

def openNew (t : ScopeTable) (name : String) : ScopeTable × ScopeId :=
  let id := t.scopes.length
  ({ t with scopes := t.scopes ++ [.empty name], stack := id :: t.stack }, id)

def declaresIn (t : ScopeTable) (id : ScopeId) (x : String) : Bool :=
  (t.scope? id).any (·.declares x)

def declaresHere (t : ScopeTable) (x : String) : Bool :=
  t.stack.head?.any (t.declaresIn · x)

def find? (t : ScopeTable) (x : String) : Option ScopeId := t.stack.find? (t.declaresIn · x)

def lookup? (t : ScopeTable) (x : String) : Option Binding := do
  let id ← t.find? x
  let scope ← t.scope? id
  scope.lookup? x

def hasRole (t : ScopeTable) (r : Role) (x : String) : Bool :=
  (t.lookup? x).any (·.role = r)

def enterFunction (t : ScopeTable) (type : TypeId) : ScopeTable := { t with function := some type }

def functionType (t : ScopeTable) : Except ScopeError TypeId :=
  match t.function with
  | some type => .ok type
  | none => .error .noFunction

/-- Whether the first scope has a function `main` that takes nothing and gives nothing back. -/
def hasMain (t : ScopeTable) (types : TypeTable) : Bool :=
  match (t.scope? 0).bind (·.lookup? "main") with
  | some ⟨.function, type⟩ =>
      (types.denote type).params.isEmpty && (types.denote type).isProcedure
  | _ => false

end ScopeTable

abbrev Scoping (α : Type) : Type := Attempt ScopeError ScopeTable α

namespace Scoping

open Attempt (fail get set)

def enter (id : ScopeId) : Scoping Unit := do
  let t ← get
  if id < t.scopes.length then set { t with stack := id :: t.stack } else fail (.unknown id)

def leave : Scoping ScopeId := do
  let t ← get
  match t.stack with
  | [] => fail .underflow
  | id :: stack => do
      set { t with stack := stack }
      return id

def declare (x : String) (b : Binding) : Scoping Unit := do
  let t ← get
  match t.stack with
  | [] => fail .underflow
  | id :: _ => set { t with scopes := t.scopes.modify id (·.declare x b) }

theorem run_enter (id : ScopeId) (t : ScopeTable) :
    (enter id).run t = if id < t.scopes.length then (.ok (), { t with stack := id :: t.stack })
      else (.error (.unknown id), t) := by
  rw [enter, Attempt.run_bind, Attempt.run_get]
  simp only
  split <;> rfl

theorem run_leave (t : ScopeTable) : leave.run t = match t.stack with
    | [] => (.error .underflow, t)
    | id :: stack => (.ok id, { t with stack := stack }) := by
  rw [leave, Attempt.run_bind, Attempt.run_get]
  simp only
  cases t.stack <;> rfl

theorem run_declare (x : String) (b : Binding) (t : ScopeTable) :
    (declare x b).run t = match t.stack with
      | [] => (.error .underflow, t)
      | id :: _ => (.ok (), { t with scopes := t.scopes.modify id (·.declare x b) }) := by
  rw [declare, Attempt.run_bind, Attempt.run_get]
  simp only
  cases t.stack <;> rfl

end Scoping

namespace ScopeTable

/-! The same for a caller that has no use for what a failed operation leaves. -/

def behind {α : Type} (t : ScopeTable) (p : Scoping α) : Except ScopeError (ScopeTable × α) :=
  match p.run t with
  | (.ok a, u) => .ok (u, a)
  | (.error e, _) => .error e

def enter (t : ScopeTable) (id : ScopeId) : Except ScopeError ScopeTable :=
  (t.behind (Scoping.enter id)).map Prod.fst

def leave (t : ScopeTable) : Except ScopeError (ScopeTable × ScopeId) := t.behind Scoping.leave

def declare (t : ScopeTable) (x : String) (b : Binding) : Except ScopeError ScopeTable :=
  (t.behind (Scoping.declare x b)).map Prod.fst

end ScopeTable

end Asl
