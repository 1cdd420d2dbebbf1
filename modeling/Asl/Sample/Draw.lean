/-!
# Drawing from a sequence of bytes

A random choice is a function of the bytes that it draws. The bytes are an endless sequence, so
drawing never fails, and what is said of a choice is said of every sequence.
-/
namespace Asl

/-- An endless sequence of bytes with the number of those that were drawn. -/
structure Bytes where
  byte : Nat → UInt8
  drawn : Nat

/-- The bytes of a tape, over and over; an empty tape is all zeros. -/
def Bytes.ofTape (tape : List UInt8) : Bytes := ⟨fun n => tape.getD (n % tape.length) 0, 0⟩

abbrev Draw (α : Type) : Type := StateM Bytes α

namespace Draw

def byte : Draw Nat := fun s => ((s.byte s.drawn).toNat, ⟨s.byte, s.drawn + 1⟩)

def below (n : Nat) : Draw Nat := do return (← byte) % n

def coin : Draw Bool := do return (← byte) % 2 = 1

def oneOf {α : Type} (first : α) (others : List α) : Draw α := do
  let k ← below (others.length + 1)
  return (first :: others).getD k first

/-- One of the items of a list; an empty list has none, and nothing is drawn. -/
def oneOf? {α : Type} : List α → Draw (Option α)
  | [] => return none
  | first :: others => do return some (← oneOf first others)

def replicate {α : Type} (item : Draw α) : Nat → Draw (List α)
  | 0 => return []
  | n + 1 => do
      let x ← item
      let xs ← replicate item n
      return x :: xs

/-- A property of every outcome of a draw. -/
def Always {α : Type} (d : Draw α) (p : α → Prop) : Prop := ∀ s, p (d.run s).1

theorem always_pure {α : Type} {p : α → Prop} {a : α} (h : p a) : Always (pure a) p := fun _ => h

theorem always_bind {α β : Type} {d : Draw α} {f : α → Draw β} {p : α → Prop} {q : β → Prop}
    (hd : Always d p) (hf : ∀ a, p a → Always (f a) q) : Always (d >>= f) q :=
  fun s => hf _ (hd s) (d.run s).2

theorem always_below {n : Nat} (hn : 0 < n) : Always (below n) (· < n) :=
  fun _ => Nat.mod_lt _ hn

end Draw

end Asl
