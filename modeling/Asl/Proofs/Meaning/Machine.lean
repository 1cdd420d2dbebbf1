import Asl.Code.Listing
import Asl.Proofs.Meaning.World

/-!
# The meaning of code

The code of a subroutine runs on a machine with a register for every text of an operand, a stack for
the arguments of calls, and the world. A base of an array that is a name is an array that the
function owns; one that is in a register is a reference. Jumps go to the first label of a text. The
machine halts at a return or behind the last instruction, and it is deterministic.
-/
namespace Asl

variable {D : Domain} {α : Type}

structure Config (D : Domain) where
  pc : Nat
  registers : String → D.Value
  /-- Arguments that were pushed, and slots with what is in them. -/
  stack : List (Option D.Value)
  world : World D

namespace Config

def next (c : Config D) : Config D := { c with pc := c.pc + 1 }

def get (c : Config D) (o : Operand) : D.Value := c.registers o.text

def set (c : Config D) (o : Operand) (v : D.Value) : Config D :=
  { c with registers := Function.update c.registers o.text v }

def base (I : Interpretation D) (c : Config D) : Operand → D.Value
  | .name x => I.owned x
  | o => c.get o

/-- The configuration behind an instruction that has an effect on the world. -/
def after (c : Config D) (e : Effect D α) (k : α → Config D → Config D) : Option (Config D) :=
  (e c.world).map fun r => (k r.1 { c with world := r.2 }).next

/-- The arguments on top of a stack, from the first to the last, and what is below them. -/
def arguments? : Nat → List (Option D.Value) → Option (List D.Value × List (Option D.Value))
  | 0, σ => some ([], σ)
  | n + 1, some v :: σ => (arguments? n σ).map fun r => (r.1 ++ [v], r.2)
  | _ + 1, _ => none

end Config

def Subroutine.hasSlot (sub : Subroutine) : Bool := sub.params.head? = some resultName

def Subroutine.arity (sub : Subroutine) : Nat := (sub.params.erase resultName).length

def Instr.isLabel (text : String) : Instr → Bool
  | .label l => l.text = text
  | _ => false

structure Machine (D : Domain) where
  interpretation : Interpretation D
  assembly : Assembly
  code : Code

namespace Machine

variable (M : Machine D)

def find? (l : Label) : Option Nat := M.code.findIdx? (·.isLabel l.text)

def jump (l : Label) (c : Config D) : Option (Config D) :=
  (M.find? l).map fun pc => { c with pc := pc }

/-- A call takes its arguments from the stack, and fills the slot below them if there is one. -/
def call (f : String) (c : Config D) : Option (Config D) := do
  let sub ← M.assembly.find? f
  let (vs, rest) ← Config.arguments? sub.arity c.stack
  match sub.hasSlot, rest with
  | false, _ => c.after (M.interpretation.call f vs) fun _ d => d
  | true, none :: below => c.after (M.interpretation.call f vs) fun v d =>
      { d with stack := (vs.map some).reverse ++ v :: below }
  | true, _ => none

def execute (i : Instr) (c : Config D) : Option (Config D) :=
  let I := M.interpretation
  match i with
  | .binary op dst lhs rhs =>
      c.after (.calculate (I.binary op (c.get lhs) (c.get rhs))) fun v d => d.set dst v
  | .unary op dst src => c.after (.calculate (I.unary op (c.get src))) fun v d => d.set dst v
  | .constant dst value => some (c.set dst (I.constant value)).next
  | .copy dst src => some (c.set dst (c.get src)).next
  | .loadElement dst base index =>
      c.after (.load I (c.base I base) (c.get index)) fun v d => d.set dst v
  | .storeElement base index src =>
      c.after (.store I (c.base I base) (c.get index) (c.get src)) fun _ d => d
  | .address dst array => some (c.set dst (I.owned array.text)).next
  | .push none => some { c with stack := none :: c.stack }.next
  | .push (some src) => some { c with stack := some (c.get src) :: c.stack }.next
  | .pop none =>
      match c.stack with
      | _ :: σ => some { c with stack := σ }.next
      | [] => none
  | .pop (some dst) =>
      match c.stack with
      | some v :: σ => some ({ c with stack := σ }.set dst v).next
      | _ => none
  | .call f => M.call f c
  | .ret => none
  | .read as dst => c.after (.read I as) fun v d => d.set dst v
  | .write as src => c.after (.write (.value as (c.get src))) fun _ d => d
  | .writeLine => c.after (.write .line) fun _ d => d
  | .jump l => M.jump l c
  | .jumpUnless condition l => if I.holds (c.get condition) then some c.next else M.jump l c
  | .label _ => some c.next

def step (c : Config D) : Option (Config D) := M.code[c.pc]?.bind fun i => M.execute i c

/-- The machine is at a return or behind the last instruction. -/
def Halted (c : Config D) : Prop := M.code[c.pc]? = none ∨ M.code[c.pc]? = some .ret

def run : Nat → Config D → Option (Config D)
  | 0, c => some c
  | n + 1, c => (M.step c).bind (run n)

def Reaches (c d : Config D) : Prop := ∃ n, M.run n c = some d

def Halts (c d : Config D) : Prop := M.Reaches c d ∧ M.Halted d

/-- The machine comes to an instruction that it cannot execute. -/
def Jams (c : Config D) : Prop := ∃ d, M.Reaches c d ∧ ¬ M.Halted d ∧ M.step d = none

variable {M} {c d e : Config D}

theorem run_add (m n : Nat) (c : Config D) : M.run (m + n) c = (M.run m c).bind (M.run n) := by
  induction m generalizing c with
  | zero => rw [Nat.zero_add, run, Option.bind_some]
  | succ m ih =>
    rw [Nat.succ_add, run, run, Option.bind_assoc]
    cases M.step c with
    | none => rfl
    | some d => exact ih d

theorem Reaches.refl (M : Machine D) (c : Config D) : M.Reaches c c := ⟨0, rfl⟩

theorem Reaches.trans (h : M.Reaches c d) (h' : M.Reaches d e) : M.Reaches c e := by
  obtain ⟨m, hm⟩ := h
  obtain ⟨n, hn⟩ := h'
  exact ⟨m + n, by rw [run_add, hm, Option.bind_some, hn]⟩

theorem run_one (c : Config D) : M.run 1 c = M.step c := by
  simp only [run]
  exact Option.bind_fun_some (M.step c)

theorem Reaches.one (h : M.step c = some d) : M.Reaches c d := ⟨1, by rw [run_one, h]⟩

theorem step_of_halted (h : M.Halted c) : M.step c = none := by
  rcases h with h | h
  · rw [step, h, Option.bind_none]
  · rw [step, h, Option.bind_some]
    rfl

theorem Reaches.last_unique (hd : M.Reaches c d) (he : M.Reaches c e) (hd' : M.step d = none)
    (he' : M.step e = none) : d = e := by
  have past : ∀ {a b : Config D} {m k : Nat}, M.run m c = some a → M.step a = none →
      M.run (m + k) c = some b → a = b := by
    intro a b m k ha hlast hb
    rw [run_add, ha, Option.bind_some] at hb
    cases k with
    | zero => exact Option.some.inj hb
    | succ k =>
      rw [run, hlast] at hb
      cases hb
  obtain ⟨m, hm⟩ := hd
  obtain ⟨n, hn⟩ := he
  rcases Nat.le_total m n with h | h
  · obtain ⟨k, rfl⟩ := Nat.exists_eq_add_of_le h
    exact past hm hd' hn
  · obtain ⟨k, rfl⟩ := Nat.exists_eq_add_of_le h
    exact (past hn he' hm).symm

theorem Halts.unique (h : M.Halts c d) (h' : M.Halts c e) : d = e :=
  h.1.last_unique h'.1 (step_of_halted h.2) (step_of_halted h'.2)

theorem Halts.not_jams (h : M.Halts c d) : ¬ M.Jams c := by
  rintro ⟨e, he, hnot, hstep⟩
  have hde := h.1.last_unique he (step_of_halted h.2) hstep
  rw [← hde] at hnot
  exact hnot h.2

theorem Reaches.exhausted (h : M.Reaches c d) (hd : M.step d = none) :
    ∃ n, M.run n c = none := by
  obtain ⟨n, hn⟩ := h
  refine ⟨n + 1, ?_⟩
  rw [run_add, hn, Option.bind_some, run_one, hd]

theorem run_eq_some_of_le {m n : Nat} (h : (M.run n c).isSome = true) (hle : m ≤ n) :
    (M.run m c).isSome = true := by
  obtain ⟨k, rfl⟩ := Nat.exists_eq_add_of_le hle
  rw [run_add] at h
  exact Option.isSome_of_isSome_bind h

end Machine

end Asl
