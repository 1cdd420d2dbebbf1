import Asl.Code.Lowering
import Asl.Typing

/-!
# Sessions

A session owns the tables that the passes over programs share: types, scopes, attributes and the
diagnostics so far. The first pass declares the names of a program, the second judges its bodies,
the third lowers them to code. Passes may be run in any order and on several programs in turn; a
pass that fails leaves the tables as they were when it failed.
-/
namespace Asl

structure Session where
  types : TypeTable
  scopes : ScopeTable
  attributes : AttributeTable
  diagnostics : List Diagnostic

def Session.fresh : Session := ⟨.empty, .empty, .empty, []⟩

/-- What makes an analysis fail, other than a mistake in the program. -/
inductive AnalysisError
  | attribute (e : AttributeError)
  | scope (e : ScopeError)
deriving DecidableEq, Repr

def AnalysisError.message : AnalysisError → String
  | .attribute e => e.message
  | .scope e => e.message

def globalName : String := "$global$"

namespace Session

def meaning (s : Session) (x : String) : Option (Role × Ty) :=
  (s.scopes.lookup? x).map fun b => (b.role, s.types.denote b.type)

def typeOf (s : Session) (node : NodeId) : Except AttributeError Ty :=
  (s.attributes.type node).map s.types.denote

end Session

/-- A pass over a program, or a part of one. -/
abbrev Pass (ε α : Type) : Type := Attempt ε Session α

namespace Pass

open Attempt (get set modify ofExcept run_bind)

variable {ε : Type}

def report (ds : List Diagnostic) : Pass ε Unit :=
  modify fun s => { s with diagnostics := s.diagnostics ++ ds }

def intern (t : Ty) : Pass ε TypeId := do
  let s ← get
  let (types, id) := s.types.intern t
  set { s with types := types }
  return id

def setType (node : NodeId) (type : TypeId) : Pass ε Unit :=
  modify fun s => { s with attributes := s.attributes.setType node type }

def setScope (node : NodeId) (scope : ScopeId) : Pass ε Unit :=
  modify fun s => { s with attributes := s.attributes.setScope node scope }

def setPlace (node : NodeId) (isPlace : Bool) : Pass ε Unit :=
  modify fun s => { s with attributes := s.attributes.setPlace node isPlace }

def record : List Note → Pass ε Unit
  | [] => return
  | n :: ns => do
      let type ← intern n.type
      setType n.node type
      setPlace n.node n.isPlace
      record ns

def openScope (name : String) : Pass ε ScopeId := do
  let s ← get
  let (scopes, id) := s.scopes.openNew name
  set { s with scopes := scopes }
  return id

def onScopes {α : Type} (ofScope : ScopeError → ε) (p : Scoping α) : Pass ε α := fun s =>
  let r := p.run s.scopes
  (r.1.mapError ofScope, { s with scopes := r.2 })

def enterScope (ofScope : ScopeError → ε) (id : ScopeId) : Pass ε Unit :=
  onScopes ofScope (.enter id)

def leaveScope (ofScope : ScopeError → ε) : Pass ε Unit := do
  let _ ← onScopes ofScope .leave

section

variable {s : Session} {f : ScopeError → ε} {id : ScopeId} {stack : List ScopeId}

theorem run_onScopes {α : Type} (p : Scoping α) :
    (onScopes f p).run s =
      ((p.run s.scopes).1.mapError f, { s with scopes := (p.run s.scopes).2 }) :=
  rfl

theorem run_enterScope (h : id < s.scopes.scopes.length) : (enterScope f id).run s =
    (.ok (), { s with scopes := { s.scopes with stack := id :: s.scopes.stack } }) := by
  rw [enterScope, run_onScopes, Scoping.run_enter, if_pos h]
  rfl

theorem run_leaveScope (h : s.scopes.stack = id :: stack) : (leaveScope f).run s =
    (.ok (), { s with scopes := { s.scopes with stack := stack } }) := by
  rw [leaveScope, run_bind, run_onScopes, Scoping.run_leave, h]
  rfl

theorem run_leaveScope_nil (h : s.scopes.stack = []) :
    (leaveScope f).run s = (.error (f .underflow), s) := by
  rw [leaveScope, run_bind, run_onScopes, Scoping.run_leave, h]
  rfl

end

/-- The type of an annotation, kept as its attribute. -/
def writtenType (t : TypeNote) : Pass ε TypeId := do
  let type ← intern (.ofSpec t.spec)
  setType t.mark.id type
  return type

/-- Declares a name in the innermost scope, where it must be new. -/
def declareName (role : Role) (x : Ident) (type : TypeId) : Pass AnalysisError Unit := do
  let s ← get
  if s.scopes.declaresHere x.name then report [⟨x.mark, .redeclared x.name⟩]
  else onScopes .scope (.declare x.name ⟨role, type⟩)

theorem run_declareName {s : Session} {role : Role} {x : Ident} {type : TypeId} {id : ScopeId}
    {stack : List ScopeId} (hnew : s.scopes.declaresHere x.name = false)
    (h : s.scopes.stack = id :: stack) : (declareName role x type).run s =
      (.ok (), { s with scopes := { s.scopes with
        scopes := s.scopes.scopes.modify id (·.declare x.name ⟨role, type⟩) } }) := by
  simp only [declareName, run_bind, Attempt.run_get, hnew, Bool.false_eq_true, if_false]
  rw [run_onScopes, Scoping.run_declare, h]
  rfl

/-- The parameters' places in the table of types; every one counts, also one of a name that is
declared already. -/
def declareParams : List Parameter → Pass AnalysisError (List TypeId)
  | [] => return []
  | p :: ps => do
      let type ← writtenType p.type
      declareName .parameter p.name type
      let types ← declareParams ps
      return type :: types

def declareNames (type : TypeId) : List Ident → Pass AnalysisError Unit
  | [] => return
  | x :: xs => do
      declareName .variable x type
      declareNames type xs

def declareVariables : List Declaration → Pass AnalysisError Unit
  | [] => return
  | d :: ds => do
      let type ← writtenType d.type
      declareNames type d.names
      declareVariables ds

def addNode (n : TypeNode) : Pass ε TypeId := do
  let s ← get
  let (types, id) := s.types.add n
  set { s with types := types }
  return id

/-- Declares what a function declares inside, and then the function itself outside of it. -/
def declareFunction (f : Function) : Pass AnalysisError Unit := do
  let scope ← openScope f.name.name
  setScope f.mark.id scope
  let params ← declareParams f.params
  declareVariables f.declarations
  let result ← match f.result with
    | some t => writtenType t
    | none => intern .void
  leaveScope .scope
  let type ← addNode (.function params result)
  setType f.mark.id type
  declareName .function f.name type

def declareFunctions : List Function → Pass AnalysisError Unit
  | [] => return
  | f :: fs => do
      declareFunction f
      declareFunctions fs

/-- The first pass: opens the scopes of a program and declares its names. -/
def declareProgram (p : Program) : Pass AnalysisError Unit := do
  let scope ← openScope globalName
  setScope p.id scope
  declareFunctions p.functions
  leaveScope .scope

def enterFunction (ofAttribute : AttributeError → ε) (ofScope : ScopeError → ε) (f : Function) :
    Pass ε Ty := do
  let s ← get
  let scope ← ofExcept ((s.attributes.scope f.mark.id).mapError ofAttribute)
  let type ← ofExcept ((s.attributes.type f.mark.id).mapError ofAttribute)
  enterScope ofScope scope
  modify fun s => { s with scopes := s.scopes.enterFunction type }
  return s.types.denote type

def enterProgram (ofAttribute : AttributeError → ε) (ofScope : ScopeError → ε) (p : Program) :
    Pass ε Unit := do
  let s ← get
  let scope ← ofExcept ((s.attributes.scope p.id).mapError ofAttribute)
  enterScope ofScope scope

def judgeFunction (f : Function) : Pass AnalysisError Unit := do
  let type ← enterFunction .attribute .scope f
  let s ← get
  let r := Stmt.judgeAll ⟨s.meaning, type.result⟩ f.body
  record r.notes
  report r.diagnostics
  leaveScope .scope

def judgeFunctions : List Function → Pass AnalysisError Unit
  | [] => return
  | f :: fs => do
      judgeFunction f
      judgeFunctions fs

/-- The second pass: judges the bodies of a program, and looks for its entry point. -/
def judgeProgram (p : Program) : Pass AnalysisError Unit := do
  enterProgram .attribute .scope p
  judgeFunctions p.functions
  let s ← get
  if !s.scopes.hasMain s.types then report [⟨⟨p.id, 0, 0⟩, .noMain⟩]
  leaveScope .scope

def analyze (p : Program) : Pass AnalysisError Unit := do
  declareProgram p
  judgeProgram p

def lowerFunction (f : Function) : Pass LowerError Subroutine := do
  let type ← enterFunction .attribute .scope f
  let s ← get
  let sub ← ofExcept (Lower.subroutine ⟨s.meaning, s.typeOf, type.result⟩ type f)
  leaveScope .scope
  return sub

def lowerFunctions : List Function → Pass LowerError (List Subroutine)
  | [] => return []
  | f :: fs => do
      let sub ← lowerFunction f
      let subs ← lowerFunctions fs
      return sub :: subs

/-- The third pass: the code of a program. -/
def lowerProgram (p : Program) : Pass LowerError Assembly := do
  enterProgram .attribute .scope p
  let subs ← lowerFunctions p.functions
  leaveScope .scope
  return ⟨subs⟩

end Pass

end Asl
