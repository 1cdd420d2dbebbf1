import Asl.Attempt
import Asl.Code.Basic
import Mathlib.Logic.Function.Basic

/-!
# Worlds and interpretations

Trees and code are given a meaning over one interpretation of what they are made of: values,
arithmetic, arrays in memory, input, and the calls of other functions. Nothing is assumed of an
interpretation, so whatever holds of all of them does not depend on how numbers are computed, how
memory is laid out, or what the functions that are called do.
-/
namespace Asl

structure Domain where
  Value : Type
  Memory : Type
  Input : Type

inductive Written (D : Domain)
  | value (as : Channel) (v : D.Value)
  | line

/-- Everything outside of a function that its body can change. -/
structure World (D : Domain) where
  memory : D.Memory
  input : D.Input
  output : List (Written D)

structure Interpretation (D : Domain) where
  constant : Constant → D.Value
  binary : BinaryInstr → D.Value → D.Value → Option D.Value
  unary : UnaryInstr → D.Value → Option D.Value
  holds : D.Value → Bool
  /-- The reference to an array that the function owns. -/
  owned : String → D.Value
  /-- An element, by the reference to its array and its index. -/
  load : D.Memory → D.Value → D.Value → Option D.Value
  store : D.Memory → D.Value → D.Value → D.Value → Option D.Memory
  read : Channel → D.Input → Option (D.Value × D.Input)
  /-- What a function does to the world, given its arguments, and the value that it gives back. -/
  call : String → List D.Value → World D → Option (Option D.Value × World D)

variable {D : Domain} {α : Type}

/-- Something that can be done to the world, if it can be done at all. -/
abbrev Effect (D : Domain) (α : Type) : Type := World D → Option (α × World D)

namespace Effect

def calculate (o : Option α) : Effect D α := fun w => o.map (·, w)

def load (I : Interpretation D) (array index : D.Value) : Effect D D.Value :=
  fun w => (I.load w.memory array index).map (·, w)

def store (I : Interpretation D) (array index v : D.Value) : Effect D Unit :=
  fun w => (I.store w.memory array index v).map fun m => ((), { w with memory := m })

def read (I : Interpretation D) (as : Channel) : Effect D D.Value :=
  fun w => (I.read as w.input).map fun r => (r.1, { w with input := r.2 })

def write (x : Written D) : Effect D Unit :=
  fun w => some ((), { w with output := w.output ++ [x] })

end Effect

/-- What a body changes: its scalars, which lie in a frame, and the world. A parameter that is an
array has a reference in the frame. -/
structure State (D : Domain) where
  frame : String → D.Value
  world : World D

inductive Stop
  | stuck
  /-- A loop has more rounds than were allowed. -/
  | outOfFuel

abbrev Act (D : Domain) (α : Type) : Type := Attempt Stop (State D) α

namespace Act

def perform (e : Effect D α) : Act D α := fun s =>
  match e s.world with
  | some (a, w) => (.ok a, { s with world := w })
  | none => (.error .stuck, s)

def fetch (x : String) : Act D D.Value := fun s => (.ok (s.frame x), s)

def assign (x : String) (v : D.Value) : Act D Unit :=
  .modify fun s => { s with frame := Function.update s.frame x v }

end Act

end Asl
