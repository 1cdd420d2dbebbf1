import Asl.Code.Basic
import Asl.Proofs.Typing.Rules

/-!
# Typed code

Code is typed against what is declared around it, one type for each temporary, and what each label
finds on the stack of calls. A temporary holds a value of a base type or a reference to an array,
whose type is then the array's. An array that a function owns is not a value: it is a base, or its
address is taken. A parameter that is an array holds a reference, which has to be loaded into a
temporary before it can be a base.

On the stack, arguments lie over the slot that is reserved for the value of the function; the call
fills the slot.
-/
namespace Asl

/-- What is declared around the code of a function. -/
structure Surroundings where
  meaning : String → Option (Role × Ty)
  signature : String → Option (List Ty × Ty)
  result : Ty

inductive Cell
  | reserved
  | value (t : Ty)

def Cell.arguments (ts : List Ty) : List Cell := (ts.map Cell.value).reverse

/-- The entry of a number; numbers count from one. -/
def numbered? {α : Type} (xs : List α) : Nat → Option α
  | 0 => none
  | n + 1 => xs[n]?

theorem numbered?_mono {α : Type} {xs ys : List α} (h : xs <+: ys) {n : Nat} {a : α}
    (hn : numbered? xs n = some a) : numbered? ys n = some a := by
  cases n with
  | zero => cases hn
  | succ n =>
    obtain ⟨hlt, hget⟩ := List.getElem?_eq_some_iff.1 hn
    rw [← hget]
    exact List.prefix_iff_getElem?.1 h n hlt

theorem numbered?_last {α : Type} (xs : List α) (a : α) :
    numbered? (xs ++ [a]) (xs.length + 1) = some a := by
  simp [numbered?]

/-- The types of the temporaries, in the order of their numbers, and the stacks at the labels. -/
structure Typing where
  temps : List Ty
  branches : List (List Cell)
  loops : List (List Cell)
  values : ∀ t ∈ temps, t.OfValue

namespace Typing

def empty : Typing := ⟨[], [], [], nofun⟩

/-- The stack at a label. Labels of branches are numbered apart from those of loops. -/
def stackAt? (T : Typing) (l : Label) : Option (List Cell) :=
  match l.kind with
  | .else | .endif | .endmax => numbered? T.branches l.number
  | _ => numbered? T.loops l.number

structure Extends (T T' : Typing) : Prop where
  temps : T.temps <+: T'.temps
  branches : T.branches <+: T'.branches
  loops : T.loops <+: T'.loops

theorem Extends.refl (T : Typing) : T.Extends T :=
  ⟨List.prefix_rfl, List.prefix_rfl, List.prefix_rfl⟩

theorem Extends.trans {T T' T'' : Typing} (h : T.Extends T') (h' : T'.Extends T'') :
    T.Extends T'' :=
  ⟨h.temps.trans h'.temps, h.branches.trans h'.branches, h.loops.trans h'.loops⟩

theorem Extends.stackAt? {T T' : Typing} (h : T.Extends T') {l : Label} {σ : List Cell}
    (hl : T.stackAt? l = some σ) : T'.stackAt? l = some σ := by
  obtain ⟨kind, n⟩ := l
  cases kind with
  | «else» => exact numbered?_mono h.branches hl
  | endif => exact numbered?_mono h.branches hl
  | endmax => exact numbered?_mono h.branches hl
  | _ => exact numbered?_mono h.loops hl

end Typing

inductive Operand.HasType (E : Surroundings) (T : Typing) : Operand → Ty → Prop
  | temp {n : Nat} {t : Ty} : numbered? T.temps n = some t → HasType E T (.temp n) t
  | scalar {x : String} {role : Role} {t : Ty} :
      E.meaning x = some (role, t) → Primitive t → HasType E T (.name x) t
  | reference {x : String} {n : Nat} {t : Ty} :
      E.meaning x = some (.parameter, .array n t) → HasType E T (.name x) (.array n t)
  | result : Primitive E.result → HasType E T .result E.result

/-- What can be indexed: a reference in a temporary, or an array that the function owns. -/
inductive Operand.IsBase (E : Surroundings) (T : Typing) : Operand → Ty → Prop
  | temp {n : Nat} {t : Ty} : numbered? T.temps n = some t → IsBase E T (.temp n) t
  | owned {x : String} {t : Ty} :
      E.meaning x = some (.variable, t) → IsBase E T (.name x) t

inductive BinaryInstr.HasType : BinaryInstr → Ty → Ty → Ty → Prop
  | whole {op : BinaryInstr} :
      op ∈ [.add .whole, .sub .whole, .mul .whole, .div .whole] → HasType op .int .int .int
  | float {op : BinaryInstr} :
      op ∈ [.add .float, .sub .float, .mul .float, .div .float] → HasType op .float .float .float
  | equal {t : Ty} : Primitive t → t ≠ .float → HasType (.equal .whole) t t .bool
  | order {op : BinaryInstr} {t : Ty} :
      op ∈ [.less .whole, .lessEqual .whole] → t ∈ [.int, .char] → HasType op t t .bool
  | compare {op : BinaryInstr} :
      op ∈ [.equal .float, .less .float, .lessEqual .float] → HasType op .float .float .bool
  | logic {op : BinaryInstr} : op ∈ [.and, .or] → HasType op .bool .bool .bool

inductive UnaryInstr.HasType : UnaryInstr → Ty → Ty → Prop
  | whole : HasType (.negate .whole) .int .int
  | float : HasType (.negate .float) .float .float
  | not : HasType .not .bool .bool
  | toFloat : HasType .toFloat .int .float

/-- The booleans are the integers zero and one. -/
inductive Constant.HasType : Constant → Ty → Prop
  | int (n : Int) : HasType (.int n) .int
  | bool (b : Bool) : HasType (.int (if b then 1 else 0)) .bool
  | float (x : Binary64) : HasType (.float x) .float
  | char (raw : String) : HasType (.char raw) .char

inductive Channel.Carries : Channel → Ty → Prop
  | int : Carries .int .int
  | bool : Carries .int .bool
  | float : Carries .float .float
  | char : Carries .char .char

/-- An instruction is well typed where the stack is of some shape, and leaves one of another. -/
inductive Instr.Typed (E : Surroundings) (T : Typing) : List Cell → Instr → List Cell → Prop
  | binary {op : BinaryInstr} {dst lhs rhs : Operand} {t u r : Ty} {σ : List Cell} :
      op.HasType t u r → lhs.HasType E T t → rhs.HasType E T u → dst.HasType E T r →
        Typed E T σ (.binary op dst lhs rhs) σ
  | unary {op : UnaryInstr} {dst src : Operand} {t r : Ty} {σ : List Cell} :
      op.HasType t r → src.HasType E T t → dst.HasType E T r → Typed E T σ (.unary op dst src) σ
  | constant {dst : Operand} {value : Constant} {t : Ty} {σ : List Cell} :
      value.HasType t → dst.HasType E T t → Typed E T σ (.constant dst value) σ
  | copy {dst src : Operand} {t : Ty} {σ : List Cell} :
      Primitive t → src.HasType E T t → dst.HasType E T t → Typed E T σ (.copy dst src) σ
  | load {k n : Nat} {x : String} {t : Ty} {σ : List Cell} :
      E.meaning x = some (.parameter, .array n t) → numbered? T.temps k = some (.array n t) →
        Typed E T σ (.copy (.temp k) (.name x)) σ
  | loadElement {dst base index : Operand} {n : Nat} {t : Ty} {σ : List Cell} :
      base.IsBase E T (.array n t) → index.HasType E T .int → dst.HasType E T t →
        Typed E T σ (.loadElement dst base index) σ
  | storeElement {base index src : Operand} {n : Nat} {t : Ty} {σ : List Cell} :
      base.IsBase E T (.array n t) → index.HasType E T .int → src.HasType E T t →
        Typed E T σ (.storeElement base index src) σ
  | address {k n : Nat} {x : String} {t : Ty} {σ : List Cell} :
      E.meaning x = some (.variable, .array n t) → numbered? T.temps k = some (.array n t) →
        Typed E T σ (.address (.temp k) (.name x)) σ
  | reserve {σ : List Cell} : Typed E T σ (.push none) (.reserved :: σ)
  | push {src : Operand} {t : Ty} {σ : List Cell} :
      src.HasType E T t → Typed E T σ (.push (some src)) (.value t :: σ)
  | drop {cell : Cell} {σ : List Cell} : Typed E T (cell :: σ) (.pop none) σ
  | pop {dst : Operand} {t : Ty} {σ : List Cell} :
      Primitive t → dst.HasType E T t → Typed E T (.value t :: σ) (.pop (some dst)) σ
  | callProcedure {name : String} {params : List Ty} {σ : List Cell} :
      E.signature name = some (params, .void) →
        Typed E T (Cell.arguments params ++ σ) (.call name) (Cell.arguments params ++ σ)
  | callFunction {name : String} {params : List Ty} {t : Ty} {σ : List Cell} :
      E.signature name = some (params, t) → t ≠ .void →
        Typed E T (Cell.arguments params ++ .reserved :: σ) (.call name)
          (Cell.arguments params ++ .value t :: σ)
  | ret : Typed E T [] .ret []
  | read {as : Channel} {dst : Operand} {t : Ty} {σ : List Cell} :
      as.Carries t → dst.HasType E T t → Typed E T σ (.read as dst) σ
  | write {as : Channel} {src : Operand} {t : Ty} {σ : List Cell} :
      as.Carries t → src.HasType E T t → Typed E T σ (.write as src) σ
  | writeLine {σ : List Cell} : Typed E T σ .writeLine σ
  | jump {l : Label} {σ : List Cell} : T.stackAt? l = some σ → Typed E T σ (.jump l) σ
  | jumpUnless {condition : Operand} {l : Label} {σ : List Cell} :
      condition.HasType E T .bool → T.stackAt? l = some σ →
        Typed E T σ (.jumpUnless condition l) σ
  | label {l : Label} {σ : List Cell} : T.stackAt? l = some σ → Typed E T σ (.label l) σ

/-- Code is well typed if each instruction is, where the one before it leaves the stack. -/
inductive Code.Typed (E : Surroundings) (T : Typing) : List Cell → Code → List Cell → Prop
  | nil {σ : List Cell} : Typed E T σ [] σ
  | cons {i : Instr} {code : Code} {σ σ' σ'' : List Cell} :
      Instr.Typed E T σ i σ' → Typed E T σ' code σ'' → Typed E T σ (i :: code) σ''

section

variable {E : Surroundings} {T T' : Typing}

theorem Operand.HasType.mono {o : Operand} {t : Ty} (h : o.HasType E T t) (hT : T.Extends T') :
    o.HasType E T' t := by
  cases h with
  | temp h => exact .temp (numbered?_mono hT.temps h)
  | scalar h hp => exact .scalar h hp
  | reference h => exact .reference h
  | result h => exact .result h

theorem Operand.IsBase.mono {o : Operand} {t : Ty} (h : o.IsBase E T t) (hT : T.Extends T') :
    o.IsBase E T' t := by
  cases h with
  | temp h => exact .temp (numbered?_mono hT.temps h)
  | owned h => exact .owned h

theorem Instr.Typed.mono {i : Instr} {σ σ' : List Cell} (h : i.Typed E T σ σ')
    (hT : T.Extends T') : i.Typed E T' σ σ' := by
  cases h with
  | binary hop hl hr hd => exact .binary hop (hl.mono hT) (hr.mono hT) (hd.mono hT)
  | unary hop hs hd => exact .unary hop (hs.mono hT) (hd.mono hT)
  | constant hc hd => exact .constant hc (hd.mono hT)
  | copy ht hs hd => exact .copy ht (hs.mono hT) (hd.mono hT)
  | load hx hk => exact .load hx (numbered?_mono hT.temps hk)
  | loadElement hb hi hd => exact .loadElement (hb.mono hT) (hi.mono hT) (hd.mono hT)
  | storeElement hb hi hs => exact .storeElement (hb.mono hT) (hi.mono hT) (hs.mono hT)
  | address hx hk => exact .address hx (numbered?_mono hT.temps hk)
  | reserve => exact .reserve
  | push hs => exact .push (hs.mono hT)
  | drop => exact .drop
  | pop ht hd => exact .pop ht (hd.mono hT)
  | callProcedure hf => exact .callProcedure hf
  | callFunction hf ht => exact .callFunction hf ht
  | ret => exact .ret
  | read ha hd => exact .read ha (hd.mono hT)
  | write ha hs => exact .write ha (hs.mono hT)
  | writeLine => exact .writeLine
  | jump hl => exact .jump (hT.stackAt? hl)
  | jumpUnless hc hl => exact .jumpUnless (hc.mono hT) (hT.stackAt? hl)
  | label hl => exact .label (hT.stackAt? hl)

theorem Code.Typed.mono {code : Code} {σ σ' : List Cell} (h : Code.Typed E T σ code σ')
    (hT : T.Extends T') : Code.Typed E T' σ code σ' := by
  induction h with
  | nil => exact .nil
  | cons hi _ ih => exact .cons (hi.mono hT) ih

theorem Code.Typed.append {code code' : Code} {σ σ' σ'' : List Cell}
    (h : Code.Typed E T σ code σ') (h' : Code.Typed E T σ' code' σ'') :
    Code.Typed E T σ (code ++ code') σ'' := by
  induction h with
  | nil => exact h'
  | cons hi _ ih => exact .cons hi (ih h')

theorem Code.Typed.single {i : Instr} {σ σ' : List Cell} (h : i.Typed E T σ σ') :
    Code.Typed E T σ [i] σ' := .cons h .nil

end

end Asl
