import Asl.Ty.Basic
import Std.Data.TreeMap

/-!
# The table of types

Every type that a compilation speaks of is stored once, as a node whose parts are earlier entries
of a table, and is referred to by its place. Two places of a table are then equal exactly when the
types are. The entries stand newest first, so that the entries before a node are the tail of the
list behind it, and adding an entry leaves the meaning of all earlier places as it is. A map beside
the entries finds the place of a node.
-/
namespace Asl

abbrev TypeId := Nat

inductive TypeNode
  | error | void | int | float | bool | char
  | array (size : Nat) (elem : TypeId)
  | function (params : List TypeId) (result : TypeId)
deriving DecidableEq, Repr

/-- The type of a node whose parts are known. -/
def TypeNode.toTy (part : TypeId → Ty) : TypeNode → Ty
  | .error => .error
  | .void => .void
  | .int => .int
  | .float => .float
  | .bool => .bool
  | .char => .char
  | .array size elem => .array size (part elem)
  | .function params result => .function (params.map part) (part result)

/-- The type at a place of a list of entries; a place that is not there holds the error type. -/
def TypeNode.denote : List TypeNode → TypeId → Ty
  | [], _ => .error
  | node :: older, id =>
      if id = older.length then node.toTy (denote older) else denote older id

/-- What a node is found by. -/
def TypeNode.key : TypeNode → List Nat
  | .error => [0]
  | .void => [1]
  | .int => [2]
  | .float => [3]
  | .bool => [4]
  | .char => [5]
  | .array size elem => [6, size, elem]
  | .function params result => 7 :: result :: params

theorem TypeNode.key_injective {n n' : TypeNode} (h : n.key = n'.key) : n = n' := by
  cases n <;> cases n' <;> simp_all [key]

instance : Ord TypeNode := ⟨compareOn TypeNode.key⟩

instance : Std.TransOrd TypeNode := inferInstanceAs (Std.TransCmp (compareOn TypeNode.key))

instance : Std.LawfulEqOrd TypeNode where
  eq_of_compare h := TypeNode.key_injective (Std.LawfulEqOrd.eq_of_compare h)

structure TypeTable where
  /-- The entries, newest first. -/
  nodes : List TypeNode
  places : Std.TreeMap TypeNode TypeId

namespace TypeTable

def empty : TypeTable := ⟨[], {}⟩

def size (t : TypeTable) : Nat := t.nodes.length

/-- The type that a place stands for. -/
def denote (t : TypeTable) (id : TypeId) : Ty := TypeNode.denote t.nodes id

def node? (t : TypeTable) (id : TypeId) : Option TypeNode := t.nodes.reverse[id]?

/-- The place of a node, which is added unless it is there. -/
def add (t : TypeTable) (node : TypeNode) : TypeTable × TypeId :=
  match t.places[node]? with
  | some id => (t, id)
  | none => (⟨node :: t.nodes, t.places.insert node t.size⟩, t.size)

mutual

/-- The place of a type, which is added with its parts unless it is there. -/
def intern (t : TypeTable) : Ty → TypeTable × TypeId
  | .error => t.add .error
  | .void => t.add .void
  | .int => t.add .int
  | .float => t.add .float
  | .bool => t.add .bool
  | .char => t.add .char
  | .array size elem =>
      let e := intern t elem
      e.1.add (.array size e.2)
  | .function params result =>
      let ps := internAll t params
      let r := intern ps.1 result
      r.1.add (.function ps.2 r.2)

def internAll (t : TypeTable) : List Ty → TypeTable × List TypeId
  | [] => (t, [])
  | ty :: tys =>
      let first := intern t ty
      let others := internAll first.1 tys
      (others.1, first.2 :: others.2)

end

def result (t : TypeTable) (id : TypeId) : TypeId :=
  match t.node? id with
  | some (.function _ r) => r
  | _ => id

def elem (t : TypeTable) (id : TypeId) : TypeId :=
  match t.node? id with
  | some (.array _ e) => e
  | _ => id

def params (t : TypeTable) (id : TypeId) : List TypeId :=
  match t.node? id with
  | some (.function ps _) => ps
  | _ => []

end TypeTable

end Asl
