import Asl.Proofs.Lowering.Labels
import Mathlib.Data.Set.Basic

/-!
# Paths through code

Control starts at the first instruction. From an instruction it goes on to the one behind, unless
that is a jump or a return, and from a jump it may go to its label. A path lists the places that
control has passed on its way to a place. Along a path it can be said which temporaries have been
written, and which pushes still lie on the stack.
-/
namespace Asl

inductive Use
  | value
  | destination
  /-- What is indexed. -/
  | base
  /-- What is copied. -/
  | source
  /-- What has its address taken. -/
  | array
  /-- What is pushed. -/
  | argument
deriving DecidableEq

/-- Temporaries that are written can be read. -/
def Operand.Known (A : Set Nat) : Operand → Prop
  | .temp n => n ∈ A
  | _ => True

theorem Operand.Known.mono {A B : Set Nat} {o : Operand} (h : o.Known A) (hAB : A ⊆ B) :
    o.Known B := by
  cases o with
  | temp n => exact hAB h
  | _ => exact trivial

namespace Instr

def uses : Instr → List (Use × Operand)
  | .binary _ dst lhs rhs => [(.destination, dst), (.value, lhs), (.value, rhs)]
  | .unary _ dst src => [(.destination, dst), (.value, src)]
  | .constant dst _ => [(.destination, dst)]
  | .copy dst src => [(.destination, dst), (.source, src)]
  | .loadElement dst base index => [(.destination, dst), (.base, base), (.value, index)]
  | .storeElement base index src => [(.base, base), (.value, index), (.value, src)]
  | .address dst array => [(.destination, dst), (.array, array)]
  | .push src => src.toList.map (.argument, ·)
  | .pop dst => dst.toList.map (.destination, ·)
  | .read _ dst => [(.destination, dst)]
  | .write _ src => [(.value, src)]
  | .jumpUnless condition _ => [(.value, condition)]
  | _ => []

def sources (i : Instr) : List Operand := (i.uses.filter (·.1 ≠ .destination)).map Prod.snd

def written (i : Instr) : Set Nat := {n | (Use.destination, Operand.temp n) ∈ i.uses}

def target? : Instr → Option Label
  | .jump l => some l
  | .jumpUnless _ l => some l
  | _ => none

def passes : Instr → Bool
  | .jump _ | .ret => false
  | _ => true

/-- The stack of pushes behind an instruction, each push known by its place. A call takes nothing
off the stack. -/
def move (pc : Nat) (σ : List Nat) : Instr → Option (List Nat)
  | .push _ => some (pc :: σ)
  | .pop _ => σ.tail?
  | _ => some σ

end Instr

namespace Code

inductive Next (code : Code) (pc : Nat) : Nat → Prop
  | onward {i : Instr} : code[pc]? = some i → i.passes = true → Next code pc (pc + 1)
  | jump {i : Instr} {l : Label} {goal : Nat} : code[pc]? = some i → i.target? = some l →
      code[goal]? = some (.label l) → Next code pc goal

/-- A path to a place, with the places that were passed on it, the last one first. -/
inductive Path (code : Code) : List Nat → Nat → Prop
  | start : Path code [] 0
  | step {visited : List Nat} {pc goal : Nat} :
      Path code visited pc → Next code pc goal → Path code (pc :: visited) goal

theorem Path.le_length {code : Code} {visited : List Nat} {pc : Nat} (h : code.Path visited pc) :
    pc ≤ code.length := by
  cases h with
  | start => exact Nat.zero_le _
  | step _ hnext =>
    cases hnext with
    | onward hi _ => exact (List.getElem?_eq_some_iff.1 hi).1
    | jump _ _ hgoal => exact Nat.le_of_lt (List.getElem?_eq_some_iff.1 hgoal).1

def Written (code : Code) (visited : List Nat) (n : Nat) : Prop :=
  ∃ q ∈ visited, ∃ i, code[q]? = some i ∧ n ∈ i.written

/-- The pushes that have not been popped on a path, unless it popped from an empty stack. -/
def pending (code : Code) : List Nat → Option (List Nat)
  | [] => some []
  | pc :: visited => (pending code visited).bind fun σ => code[pc]?.bind fun i => i.move pc σ

/-- The same for instructions that are passed in the order in which they stand. -/
def scan : Nat → List Nat → Code → Option (List Nat)
  | _, σ, [] => some σ
  | pc, σ, i :: code => (i.move pc σ).bind fun ρ => scan (pc + 1) ρ code

theorem scan_append (pc : Nat) (σ : List Nat) (a b : Code) :
    scan pc σ (a ++ b) = (scan pc σ a).bind fun ρ => scan (pc + a.length) ρ b := by
  induction a generalizing pc σ with
  | nil => rfl
  | cons i a ih =>
    rw [List.cons_append, scan, scan, Option.bind_assoc]
    congr 1
    funext ρ
    rw [ih, List.length_cons, Nat.add_assoc, Nat.add_comm 1]

def isPush : Instr → Bool
  | .push _ => true
  | _ => false

def isPop : Instr → Bool
  | .pop _ => true
  | _ => false

def passed (code : Code) (p : Instr → Bool) (visited : List Nat) : Nat :=
  visited.countP fun pc => code[pc]?.any p

theorem length_pending {code : Code} {visited σ : List Nat}
    (h : code.pending visited = some σ) :
    σ.length + code.passed isPop visited = code.passed isPush visited := by
  induction visited generalizing σ with
  | nil =>
    cases h
    rfl
  | cons pc visited ih =>
    obtain ⟨ρ, hρ, hmove⟩ := Option.bind_eq_some_iff.1 h
    obtain ⟨i, hi, hmove⟩ := Option.bind_eq_some_iff.1 hmove
    have hheight := ih hρ
    simp only [passed, List.countP_cons, hi, Option.any_some] at hheight ⊢
    cases i with
    | push src =>
      cases hmove
      simp only [isPush, isPop, List.length_cons, if_true, Bool.false_eq_true, if_false]
      omega
    | pop dst =>
      cases ρ with
      | nil => cases hmove
      | cons top ρ =>
        cases hmove
        simp only [isPush, isPop, List.length_cons, if_true, Bool.false_eq_true, if_false]
          at hheight ⊢
        omega
    | _ =>
      cases hmove
      simpa only [isPush, isPop, Bool.false_eq_true, if_false, Nat.add_zero] using hheight

end Code

end Asl
