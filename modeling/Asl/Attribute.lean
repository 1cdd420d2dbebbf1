import Asl.Scope.Table

/-!
# Attributes of nodes

What a pass finds out about a node is kept under the identity of the node for the passes after it:
the scope that a program or function opens, the type of a node, and whether it is a place that can
be stored into. A later pass that misses an attribute fails.
-/
namespace Asl

structure Attributes where
  scope : Option ScopeId
  type : Option TypeId
  isPlace : Option Bool
deriving DecidableEq, Repr

inductive AttributeError
  | noScope (node : NodeId)
  | noType (node : NodeId)
  | noPlace (node : NodeId)
deriving DecidableEq, Repr

def AttributeError.message : AttributeError → String
  | .noScope node => "node #" ++ toString node ++ " has no scope attached"
  | .noType node => "node #" ++ toString node ++ " has no type attached"
  | .noPlace node => "node #" ++ toString node ++ " has no lvalue flag attached"

structure AttributeTable where
  nodes : Std.TreeMap NodeId Attributes

namespace AttributeTable

def empty : AttributeTable := ⟨{}⟩

/-- All attributes of a node; a node that was never heard of has none. -/
def get (t : AttributeTable) (node : NodeId) : Attributes :=
  t.nodes.getD node ⟨none, none, none⟩

def update (t : AttributeTable) (node : NodeId) (f : Attributes → Attributes) : AttributeTable :=
  ⟨t.nodes.insert node (f (t.get node))⟩

def setScope (t : AttributeTable) (node : NodeId) (scope : ScopeId) : AttributeTable :=
  t.update node fun a => { a with scope := some scope }

def setType (t : AttributeTable) (node : NodeId) (type : TypeId) : AttributeTable :=
  t.update node fun a => { a with type := some type }

def setPlace (t : AttributeTable) (node : NodeId) (isPlace : Bool) : AttributeTable :=
  t.update node fun a => { a with isPlace := some isPlace }

def scope (t : AttributeTable) (node : NodeId) : Except AttributeError ScopeId :=
  match (t.get node).scope with
  | some s => .ok s
  | none => .error (.noScope node)

def type (t : AttributeTable) (node : NodeId) : Except AttributeError TypeId :=
  match (t.get node).type with
  | some ty => .ok ty
  | none => .error (.noType node)

def isPlace (t : AttributeTable) (node : NodeId) : Except AttributeError Bool :=
  match (t.get node).isPlace with
  | some b => .ok b
  | none => .error (.noPlace node)

def toList (t : AttributeTable) : List (NodeId × Attributes) := t.nodes.toList

theorem get_update (t : AttributeTable) (n m : NodeId) (f : Attributes → Attributes) :
    (t.update n f).get m = if n = m then f (t.get n) else t.get m := by
  simp only [update, get, Std.TreeMap.getD_insert, Nat.compare_eq_eq]

end AttributeTable

end Asl
