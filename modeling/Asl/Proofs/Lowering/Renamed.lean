import Asl.Proofs.Code.Texts
import Asl.Proofs.Typing.Renamed

/-!
# Lowering renamed trees

Code names what the program names, and what lowering makes up: temporaries, labels and the slot for
the value of a function. A renaming of code changes the names of the program alone. Lowering decides
by the text of an operand whether it is a temporary and whether it is a parameter; since no
identifier has the text of a temporary, these decisions come out alike for a tree and its renaming,
and the code of the renamed tree is the renamed code.
-/
namespace Asl

namespace Operand

def rename (ρ : String → String) : Operand → Operand
  | .temp n => .temp n
  | .name x => .name (ρ x)
  | .result => .result

def Within (names : List String) : Operand → Prop
  | .temp _ => True
  | .name x => x ∈ names
  | .result => False

end Operand

def Instr.rename (ρ : String → String) : Instr → Instr
  | .binary op dst lhs rhs => .binary op (dst.rename ρ) (lhs.rename ρ) (rhs.rename ρ)
  | .unary op dst src => .unary op (dst.rename ρ) (src.rename ρ)
  | .constant dst value => .constant (dst.rename ρ) value
  | .copy dst src => .copy (dst.rename ρ) (src.rename ρ)
  | .loadElement dst base index => .loadElement (dst.rename ρ) (base.rename ρ) (index.rename ρ)
  | .storeElement base index src => .storeElement (base.rename ρ) (index.rename ρ) (src.rename ρ)
  | .address dst array => .address (dst.rename ρ) (array.rename ρ)
  | .push src => .push (src.map (Operand.rename ρ))
  | .pop dst => .pop (dst.map (Operand.rename ρ))
  | .call name => .call (ρ name)
  | .ret => .ret
  | .read as dst => .read as (dst.rename ρ)
  | .write as src => .write as (src.rename ρ)
  | .writeLine => .writeLine
  | .jump target => .jump target
  | .jumpUnless condition target => .jumpUnless (condition.rename ρ) target
  | .label l => .label l

def Code.rename (ρ : String → String) (code : Code) : Code := code.map (Instr.rename ρ)

def Variable.rename (ρ : String → String) (v : Variable) : Variable := ⟨ρ v.name, v.cells⟩

/-- The slot for the value of a function keeps its name. -/
def Subroutine.rename (ρ : String → String) (sub : Subroutine) : Subroutine where
  name := ρ sub.name
  params := sub.params.map fun x => if x = resultName then x else ρ x
  locals := sub.locals.map (Variable.rename ρ)
  code := Code.rename ρ sub.code

def Assembly.rename (ρ : String → String) (a : Assembly) : Assembly :=
  ⟨a.subroutines.map (Subroutine.rename ρ)⟩

def LowerError.rename (ρ : String → String) : LowerError → LowerError
  | .unknownName name => .unknownName (ρ name)
  | .notFunction name => .notFunction (ρ name)
  | .tooManyArguments name => .tooManyArguments (ρ name)
  | .noValue name => .noValue (ρ name)
  | .attribute e => .attribute e
  | .scope e => .scope e
  | .arrayOperand found => .arrayOperand found
  | .emptyMax => .emptyMax

variable {ρ : String → String}

namespace Code

@[simp] theorem rename_nil : rename ρ [] = [] := rfl

@[simp] theorem rename_cons (i : Instr) (code : Code) :
    rename ρ (i :: code) = i.rename ρ :: rename ρ code := rfl

@[simp] theorem rename_append (code code' : Code) :
    rename ρ (code ++ code') = rename ρ code ++ rename ρ code' := List.map_append

end Code

/-! ## Ways of lowering that differ in names -/

/-- The new names mean in the second way of lowering what the old names mean in the first, all of
them are identifiers, and no temporary means anything. -/
structure Lowering.Renames (ρ : String → String) (Λ Λ' : Lowering) (names : List String) :
    Prop where
  meaning : ∀ x ∈ names, Λ'.meaning (ρ x) = Λ.meaning x
  identifier : ∀ x ∈ names, isIdentifier x = true ∧ isIdentifier (ρ x) = true
  temp : ∀ n, Λ.meaning (Operand.temp n).text = none ∧ Λ'.meaning (Operand.temp n).text = none
  typeOf : Λ'.typeOf = Λ.typeOf
  result : Λ'.result = Λ.result

variable {Λ Λ' : Lowering} {names names' : List String}

namespace Lowering.Renames

theorem mono (h : Λ.Renames ρ Λ' names) (hsub : names' ⊆ names) : Λ.Renames ρ Λ' names' :=
  { h with
    meaning := fun x hx => h.meaning x (hsub hx)
    identifier := fun x hx => h.identifier x (hsub hx) }

theorem append (h : Λ.Renames ρ Λ' (names ++ names')) :
    Λ.Renames ρ Λ' names ∧ Λ.Renames ρ Λ' names' :=
  ⟨h.mono (List.subset_append_left _ _), h.mono (List.subset_append_right _ _)⟩

theorem tail {x : String} (h : Λ.Renames ρ Λ' (x :: names)) : Λ.Renames ρ Λ' names :=
  h.mono (List.subset_cons_self _ _)

theorem isParameter (h : Λ.Renames ρ Λ' names) {o : Operand} (ho : o.Within names) :
    Lower.isParameter Λ' (o.rename ρ).text = Lower.isParameter Λ o.text := by
  rw [Lower.isParameter, Lower.isParameter]
  cases o with
  | temp n => rw [Operand.rename, (h.temp n).1, (h.temp n).2]
  | name x => exact congrArg (Option.any _) (h.meaning x ho)
  | result => exact absurd ho id

theorem isTemp (h : Λ.Renames ρ Λ' names) {o : Operand} (ho : o.Within names) :
    (o.rename ρ).text.toList.head? = some '%' ↔ o.text.toList.head? = some '%' := by
  cases o with
  | temp n => rfl
  | name x =>
    obtain ⟨hx, hx'⟩ := h.identifier x ho
    exact iff_of_false (Operand.head?_of_isIdentifier hx') (Operand.head?_of_isIdentifier hx)
  | result => exact absurd ho id

end Lowering.Renames

namespace Lower

open Attempt (fail)

variable {α β γ δ : Type}

/-- Two runs end with the same counters and with values that are related, or both fail, with an
error and its renaming. -/
inductive Ends (ρ : String → String) (R : α → β → Prop) :
    Except LowerError α × Counters → Except LowerError β × Counters → Prop
  | ok {a : α} {b : β} (c : Counters) (h : R a b) : Ends ρ R (.ok a, c) (.ok b, c)
  | error (e : LowerError) (c : Counters) : Ends ρ R (.error e, c) (.error (e.rename ρ), c)

def Matches (ρ : String → String) (m : Lower α) (m' : Lower β) (R : α → β → Prop) : Prop :=
  ∀ c, Ends ρ R (m.run c) (m'.run c)

section

variable {m : Lower α} {m' : Lower β} {f : α → Lower γ} {f' : β → Lower δ} {R : α → β → Prop}
  {S : γ → δ → Prop}

theorem Matches.bind (hm : Matches ρ m m' R) (hf : ∀ a b, R a b → Matches ρ (f a) (f' b) S) :
    Matches ρ (m >>= f) (m' >>= f') S := by
  intro c
  have hends := hm c
  rw [Attempt.run_bind, Attempt.run_bind]
  generalize m.run c = r at hends
  generalize m'.run c = r' at hends
  cases hends with
  | ok c' h => exact hf _ _ h c'
  | error e c' => exact .error e c'

theorem matches_pure {a : α} {b : β} (h : R a b) : Matches ρ (pure a) (pure b) R :=
  fun c => .ok c h

theorem matches_fail (e : LowerError) : Matches ρ (fail e) (fail (e.rename ρ)) R :=
  fun c => .error e c

theorem matches_freshTemp {f : Operand → Lower γ} {f' : Operand → Lower δ}
    (hf : ∀ n, Matches ρ (f (.temp n)) (f' (.temp n)) S) :
    Matches ρ (freshTemp >>= f) (freshTemp >>= f') S :=
  fun c => hf (c.temps + 1) { c with temps := c.temps + 1 }

theorem matches_freshBranch {f : Nat → Lower γ} {f' : Nat → Lower δ}
    (hf : ∀ n, Matches ρ (f n) (f' n) S) :
    Matches ρ (freshBranch >>= f) (freshBranch >>= f') S :=
  fun c => hf (c.branches + 1) { c with branches := c.branches + 1 }

theorem matches_freshLoop {f : Nat → Lower γ} {f' : Nat → Lower δ}
    (hf : ∀ n, Matches ρ (f n) (f' n) S) :
    Matches ρ (freshLoop >>= f) (freshLoop >>= f') S :=
  fun c => hf (c.loops + 1) { c with loops := c.loops + 1 }

theorem matches_typeOf (h : Λ.Renames ρ Λ' names) (n : NodeId) {f : Ty → Lower γ}
    {f' : Ty → Lower δ} (hf : ∀ t, Matches ρ (f t) (f' t) S) :
    Matches ρ (typeOf Λ n >>= f) (typeOf Λ' n >>= f') S := by
  rw [typeOf, typeOf, h.typeOf]
  cases Λ.typeOf n with
  | error e => exact fun c => .error (.attribute e) c
  | ok t => exact fun c => hf t c

end

def Coded (ρ : String → String) (code code' : Code) : Prop := code' = Code.rename ρ code

/-- Code for a value and the operand that holds it, with their renamings. The operand is a temporary
or one of some names. -/
structure Valued (ρ : String → String) (names : List String) (r r' : Code × Operand) : Prop where
  code : r'.1 = Code.rename ρ r.1
  operand : r'.2 = r.2.rename ρ
  within : r.2.Within names

/-! ## Values -/

theorem immediate_matches (n : Int) :
    Matches ρ (immediate n) (immediate n) (Valued ρ names) :=
  matches_freshTemp fun _ => matches_pure ⟨rfl, rfl, trivial⟩

theorem toFloat_matches {value : Operand} (hv : value.Within names) (type : Ty) :
    Matches ρ (toFloat value type) (toFloat (value.rename ρ) type) (Valued ρ names) := by
  unfold toFloat
  split
  · exact matches_freshTemp fun _ => matches_pure ⟨rfl, rfl, trivial⟩
  · exact matches_pure ⟨rfl, rfl, hv⟩

theorem coerce_matches {value : Operand} (hv : value.Within names) (type expected : Ty) :
    Matches ρ (coerce value type expected) (coerce (value.rename ρ) type expected)
      (Valued ρ names) := by
  unfold coerce
  split
  · exact toFloat_matches hv type
  · exact matches_pure ⟨rfl, rfl, hv⟩

theorem materialize_matches (h : Λ.Renames ρ Λ' names) {value : Operand}
    (hv : value.Within names) :
    Matches ρ (materialize value) (materialize (value.rename ρ)) (Valued ρ names) := by
  rw [materialize, materialize, if_congr (h.isTemp hv) rfl rfl]
  split
  · exact matches_pure ⟨rfl, rfl, hv⟩
  · exact matches_freshTemp fun _ => matches_pure ⟨rfl, rfl, trivial⟩

theorem arrayBase_matches (h : Λ.Renames ρ Λ' names) {array : Operand}
    (ha : array.Within names) :
    Matches ρ (arrayBase Λ array) (arrayBase Λ' (array.rename ρ)) (Valued ρ names) := by
  rw [arrayBase, arrayBase, h.isParameter ha]
  split
  · exact matches_freshTemp fun _ => matches_pure ⟨rfl, rfl, trivial⟩
  · exact matches_pure ⟨rfl, rfl, ha⟩

theorem reference_matches (h : Λ.Renames ρ Λ' names) {array : Operand}
    (ha : array.Within names) :
    Matches ρ (reference Λ array) (reference Λ' (array.rename ρ)) (Valued ρ names) := by
  rw [reference, reference, h.isParameter ha]
  split
  · exact matches_pure ⟨rfl, rfl, ha⟩
  · exact matches_freshTemp fun _ => matches_pure ⟨rfl, rfl, trivial⟩

theorem operation_matches (op : BinaryOp) (ns : Numbers) (dst a b : Operand) :
    Matches ρ (operation op ns dst a b) (operation op ns (dst.rename ρ) (a.rename ρ) (b.rename ρ))
      (Coded ρ) := by
  cases op with
  | mod => exact matches_freshTemp fun _ => matches_freshTemp fun _ => matches_pure rfl
  | _ => exact matches_pure rfl

theorem calleeType_matches (h : Λ.Renames ρ Λ' names) {x : String} (hx : x ∈ names) :
    Matches ρ (calleeType Λ x) (calleeType Λ' (ρ x)) Eq := by
  rw [calleeType, calleeType, h.meaning x hx]
  split
  · exact matches_fail (.unknownName x)
  · split
    · exact matches_pure rfl
    · exact matches_fail (.notFunction x)

theorem rename_callCode (returnsValue : Bool) (pushes : Code) (x : String) (count : Nat) :
    Code.rename ρ (callCode returnsValue pushes x count) =
      callCode returnsValue (Code.rename ρ pushes) (ρ x) count := by
  have hpops : Code.rename ρ (List.replicate count (.pop none)) =
      List.replicate count (.pop none) :=
    List.map_replicate
  rw [callCode, Code.rename_append, Code.rename_append, Code.rename_cons, hpops, callCode]
  cases returnsValue <;> rfl

/-! ## Expressions -/

def ExprMatches (ρ : String → String) (Λ Λ' : Lowering) (e : Expr) : Prop :=
  Λ.Renames ρ Λ' e.names →
    Matches ρ (expr Λ e) (expr Λ' (e.rename ρ)) (Valued ρ e.names)

theorem maxRest_matches {type : Ty} {best : Operand} {es : List Expr}
    (ih : ∀ e ∈ es, ExprMatches ρ Λ Λ' e) (h : Λ.Renames ρ Λ' (Expr.namesAll es)) :
    Matches ρ (maxRest Λ type best es) (maxRest Λ' type (best.rename ρ) (Expr.renameAll ρ es))
      (Coded ρ) := by
  induction es with
  | nil => exact matches_pure rfl
  | cons e es ihes =>
    obtain ⟨ihe, ihall⟩ := List.forall_mem_cons.1 ih
    obtain ⟨he, hes⟩ := h.append
    rw [Expr.renameAll, maxRest, maxRest, Expr.mark_rename]
    refine matches_typeOf h _ fun t => (ihe he).bind ?_
    rintro ⟨code, value⟩ ⟨_, _⟩ ⟨rfl, rfl, hv⟩
    refine (coerce_matches hv t type).bind ?_
    rintro ⟨conv, value'⟩ ⟨_, _⟩ ⟨rfl, rfl, -⟩
    refine matches_freshTemp fun condition => matches_freshBranch fun n => ?_
    refine (ihes ihall hes).bind ?_
    rintro more _ rfl
    exact matches_pure (by simp [Coded, Instr.rename, Operand.rename])

theorem arguments_matches {callee : String} {ps : List Ty} {es : List Expr}
    (ih : ∀ e ∈ es, ExprMatches ρ Λ Λ' e) (h : Λ.Renames ρ Λ' (Expr.namesAll es)) :
    Matches ρ (arguments Λ callee ps es) (arguments Λ' (ρ callee) ps (Expr.renameAll ρ es))
      (Coded ρ) := by
  induction es generalizing ps with
  | nil => cases ps <;> exact matches_pure rfl
  | cons e es ihes =>
    obtain ⟨ihe, ihall⟩ := List.forall_mem_cons.1 ih
    obtain ⟨he, hes⟩ := h.append
    cases ps with
    | nil => exact matches_fail (.tooManyArguments callee)
    | cons p ps =>
      rw [Expr.renameAll, arguments, arguments, Expr.mark_rename]
      refine matches_typeOf h _ fun t => (ihe he).bind ?_
      rintro ⟨code, value⟩ ⟨_, _⟩ ⟨rfl, rfl, hv⟩
      have hrest : ∀ (r r' : Code × Operand), Valued ρ e.names r r' → Matches ρ
          (do
            let more ← arguments Λ callee ps es
            return code ++ r.1 ++ .push (some r.2) :: more)
          (do
            let more ← arguments Λ' (ρ callee) ps (Expr.renameAll ρ es)
            return Code.rename ρ code ++ r'.1 ++ .push (some r'.2) :: more)
          (Coded ρ) := by
        rintro ⟨conv, value'⟩ ⟨_, _⟩ ⟨rfl, rfl, -⟩
        refine (ihes ihall hes).bind ?_
        rintro more _ rfl
        exact matches_pure (by simp [Coded, Instr.rename])
      dsimp only
      split
      · exact (reference_matches he hv).bind hrest
      · exact (coerce_matches hv t p).bind hrest

theorem element_matches {m : Mark} {base : Ident} {index : Expr} (ih : ExprMatches ρ Λ Λ' index) :
    ExprMatches ρ Λ Λ' (.element m base index) := by
  intro h
  have hbase : (Operand.name base.name).Within (base.name :: index.names) := List.mem_cons_self
  refine (ih h.tail).bind ?_
  rintro ⟨code, i⟩ ⟨_, _⟩ ⟨rfl, rfl, -⟩
  refine (arrayBase_matches h hbase).bind ?_
  rintro ⟨load, array⟩ ⟨_, _⟩ ⟨rfl, rfl, -⟩
  refine matches_freshTemp fun n => matches_pure ⟨?_, rfl, trivial⟩
  simp [Instr.rename, Operand.rename]

theorem call_matches {m : Mark} {callee : Ident} {args : List Expr}
    (ih : ∀ e ∈ args, ExprMatches ρ Λ Λ' e) : ExprMatches ρ Λ Λ' (.call m callee args) := by
  intro h
  rw [Expr.rename, expr, expr, Expr.length_renameAll]
  refine (calleeType_matches h List.mem_cons_self).bind ?_
  rintro f _ rfl
  split
  · exact matches_fail (.noValue callee.name)
  · refine (arguments_matches ih h.tail).bind ?_
    rintro pushes _ rfl
    refine matches_freshTemp fun n => matches_pure ⟨?_, rfl, trivial⟩
    rw [Code.rename_append, rename_callCode]
    rfl

theorem unary_matches {m : Mark} {op : UnaryOp} {operand : Expr}
    (ih : ExprMatches ρ Λ Λ' operand) : ExprMatches ρ Λ Λ' (.unary m op operand) := by
  intro h
  refine (ih h).bind ?_
  rintro ⟨code, value⟩ ⟨_, _⟩ ⟨rfl, rfl, hv⟩
  cases op with
  | plus => exact matches_pure ⟨rfl, rfl, hv⟩
  | not =>
    refine matches_freshTemp fun n => matches_pure ⟨?_, rfl, trivial⟩
    simp [Instr.rename, Operand.rename]
  | minus =>
    refine matches_typeOf h _ fun t => matches_freshTemp fun n => matches_pure ⟨?_, rfl, trivial⟩
    simp [Instr.rename, Operand.rename]

theorem binary_matches {m : Mark} {op : BinaryOp} {lhs rhs : Expr}
    (ihl : ExprMatches ρ Λ Λ' lhs) (ihr : ExprMatches ρ Λ Λ' rhs) :
    ExprMatches ρ Λ Λ' (.binary m op lhs rhs) := by
  intro h
  obtain ⟨hl, hr⟩ := h.append
  rw [Expr.rename, expr, expr, Expr.mark_rename, Expr.mark_rename]
  refine (ihl hl).bind ?_
  rintro ⟨codeA, a⟩ ⟨_, _⟩ ⟨rfl, rfl, ha⟩
  refine (ihr hr).bind ?_
  rintro ⟨codeB, b⟩ ⟨_, _⟩ ⟨rfl, rfl, hb⟩
  refine matches_typeOf h _ fun typeA => matches_typeOf h _ fun typeB => ?_
  refine (coerce_matches ha typeA _).bind ?_
  rintro ⟨convA, a'⟩ ⟨_, _⟩ ⟨rfl, rfl, -⟩
  refine (coerce_matches hb typeB _).bind ?_
  rintro ⟨convB, b'⟩ ⟨_, _⟩ ⟨rfl, rfl, -⟩
  refine matches_freshTemp fun n => (operation_matches op _ (.temp n) a' b').bind ?_
  rintro code _ rfl
  exact matches_pure ⟨by simp, rfl, trivial⟩

theorem max_matches {m : Mark} {args : List Expr} (ih : ∀ e ∈ args, ExprMatches ρ Λ Λ' e) :
    ExprMatches ρ Λ Λ' (.max m args) := by
  intro h
  cases args with
  | nil => exact matches_typeOf h _ fun t => matches_fail .emptyMax
  | cons e es =>
    obtain ⟨ihe, ihes⟩ := List.forall_mem_cons.1 ih
    obtain ⟨he, hes⟩ : Λ.Renames ρ Λ' e.names ∧ Λ.Renames ρ Λ' (Expr.namesAll es) := h.append
    rw [Expr.rename, Expr.renameAll, expr, expr]
    refine matches_typeOf h _ fun t => matches_freshTemp fun best => ?_
    rw [Expr.mark_rename]
    refine matches_typeOf h _ fun first => (ihe he).bind ?_
    rintro ⟨code, value⟩ ⟨_, _⟩ ⟨rfl, rfl, hv⟩
    refine (coerce_matches hv first t).bind ?_
    rintro ⟨conv, value'⟩ ⟨_, _⟩ ⟨rfl, rfl, -⟩
    refine (maxRest_matches ihes hes).bind ?_
    rintro more _ rfl
    refine matches_pure ⟨?_, rfl, trivial⟩
    simp [Instr.rename, Operand.rename]

theorem expr_matches (e : Expr) : ExprMatches ρ Λ Λ' e := by
  induction e using Expr.ind with
  | literal m v =>
    intro _
    exact matches_freshTemp fun _ => matches_pure ⟨rfl, rfl, trivial⟩
  | name m x =>
    intro _
    exact matches_pure ⟨rfl, rfl, List.mem_cons_self⟩
  | element m base index ih => exact element_matches ih
  | call m callee args ih => exact call_matches ih
  | paren m inner ih => exact ih
  | unary m op operand ih => exact unary_matches ih
  | binary m op lhs rhs ihl ihr => exact binary_matches ihl ihr
  | max m args ih => exact max_matches ih

/-! ## Statements -/

def Place.rename (ρ : String → String) : Place → Place
  | .scalar x => .scalar (x.rename ρ)
  | .element base index => .element (base.rename ρ) (index.rename ρ)

theorem rename_store (p : Place) (value : Operand) :
    (p.store value).rename ρ = (p.rename ρ).store (value.rename ρ) := by
  cases p <;> rfl

theorem place_matches (x : Target) (h : Λ.Renames ρ Λ' x.names) :
    Matches ρ (place Λ x) (place Λ' (x.rename ρ)) fun r r' =>
      r' = (Code.rename ρ r.1, r.2.rename ρ) := by
  cases x with
  | name m x => exact matches_pure rfl
  | element m base index =>
    have hbase : (Operand.name base.name).Within (base.name :: index.names) := List.mem_cons_self
    refine (expr_matches index h.tail).bind ?_
    rintro ⟨code, i⟩ ⟨_, _⟩ ⟨rfl, rfl, -⟩
    refine (arrayBase_matches h hbase).bind ?_
    rintro ⟨load, array⟩ ⟨_, _⟩ ⟨rfl, rfl, -⟩
    exact matches_pure (by simp [Place.rename])

theorem rename_copyElements (dst src index elem : Operand) (size : Nat) :
    Code.rename ρ (copyElements dst src index elem size) =
      copyElements (dst.rename ρ) (src.rename ρ) (index.rename ρ) (elem.rename ρ) size := by
  rw [Code.rename, copyElements, List.map_flatMap]
  rfl

theorem copyArray_matches {dst : String} (size : Nat) (value : Expr)
    (h : Λ.Renames ρ Λ' (dst :: value.names)) :
    Matches ρ (copyArray Λ dst size value) (copyArray Λ' (ρ dst) size (value.rename ρ))
      (Coded ρ) := by
  have hdst : (Operand.name dst).Within (dst :: value.names) := List.mem_cons_self
  -- what is done with the operand that has been found to hold the array
  have hcopy : ∀ (r r' : Code × Operand), Valued ρ value.names r r' → Matches ρ
      (do
        let a ← arrayBase Λ r.2
        let b ← arrayBase Λ (.name dst)
        let index ← freshTemp
        let elem ← freshTemp
        return r.1 ++ a.1 ++ b.1 ++ copyElements b.2 a.2 index elem size)
      (do
        let a ← arrayBase Λ' r'.2
        let b ← arrayBase Λ' (.name (ρ dst))
        let index ← freshTemp
        let elem ← freshTemp
        return r'.1 ++ a.1 ++ b.1 ++ copyElements b.2 a.2 index elem size)
      (Coded ρ) := by
    rintro ⟨code, src⟩ ⟨_, _⟩ ⟨rfl, rfl, hs⟩
    refine (arrayBase_matches h.tail hs).bind ?_
    rintro ⟨loadSrc, srcBase⟩ ⟨_, _⟩ ⟨rfl, rfl, -⟩
    refine (arrayBase_matches h hdst).bind ?_
    rintro ⟨loadDst, dstBase⟩ ⟨_, _⟩ ⟨rfl, rfl, -⟩
    refine matches_freshTemp fun index => matches_freshTemp fun elem => matches_pure ?_
    simp [Coded, rename_copyElements, Operand.rename]
  cases value with
  | name m x => exact (expr_matches (.name m x) h.tail).bind hcopy
  | paren m inner => exact (expr_matches (.paren m inner) h.tail).bind hcopy
  | _ => exact matches_fail (.arrayOperand "a computed value")

theorem assign_matches (x : Target) (e : Expr) (h : Λ.Renames ρ Λ' (x.names ++ e.names)) :
    Matches ρ (assign Λ x e) (assign Λ' (x.rename ρ) (e.rename ρ)) (Coded ρ) := by
  obtain ⟨hx, he⟩ := h.append
  rw [assign, assign, Target.mark_rename]
  refine matches_typeOf h _ fun t => ?_
  split
  · cases x with
    | name m x => exact copyArray_matches t.length e h
    | element m base index => exact matches_fail (.arrayOperand "an indexed target")
  · rw [Expr.mark_rename]
    refine matches_typeOf h _ fun u => (place_matches x hx).bind ?_
    rintro ⟨before, p⟩ _ rfl
    refine (expr_matches e he).bind ?_
    rintro ⟨code, src⟩ ⟨_, _⟩ ⟨rfl, rfl, hs⟩
    refine (coerce_matches hs u t).bind ?_
    rintro ⟨conv, src'⟩ ⟨_, _⟩ ⟨rfl, rfl, -⟩
    exact matches_pure (by simp [Coded, rename_store])

theorem rename_writeChars (t : Operand) (cs : List Char) :
    Code.rename ρ (writeChars t cs) = writeChars (t.rename ρ) cs := by
  fun_induction writeChars t cs <;> simp_all [writeChars, Instr.rename]

theorem constantInt_rename (e : Expr) : constantInt (e.rename ρ) = constantInt e := by
  induction e using Expr.ind with
  | literal m v => rfl
  | name m x => rfl
  | element m base index ih => rfl
  | call m callee args ih => rfl
  | paren m inner ih => exact ih
  | unary m op operand ih =>
    cases op with
    | not => rfl
    | plus => exact ih
    | minus => rw [Expr.rename, constantInt, constantInt, ih]
  | binary m op lhs rhs ihl ihr => rfl
  | max m args ih => rfl

theorem bounds_matches (es : List Expr) (h : Λ.Renames ρ Λ' (Expr.namesAll es)) :
    Matches ρ (bounds Λ es) (bounds Λ' (Expr.renameAll ρ es)) fun r r' =>
      r' = (Code.rename ρ r.1, r.2.map (Operand.rename ρ)) := by
  induction es with
  | nil => exact matches_pure rfl
  | cons e es ih =>
    obtain ⟨he, hes⟩ := h.append
    refine (expr_matches e he).bind ?_
    rintro ⟨code, value⟩ ⟨_, _⟩ ⟨rfl, rfl, hv⟩
    refine (materialize_matches he hv).bind ?_
    rintro ⟨keep, value'⟩ ⟨_, _⟩ ⟨rfl, rfl, -⟩
    refine (ih hes).bind ?_
    rintro ⟨more, values⟩ _ rfl
    exact matches_pure (by simp)

theorem loopBounds_matches (values : List Operand) :
    Matches ρ (loopBounds values) (loopBounds (values.map (Operand.rename ρ))) fun r r' =>
      r' = r.map fun b =>
        (Code.rename ρ b.1, b.2.1.rename ρ, b.2.2.1.rename ρ, b.2.2.2.rename ρ) := by
  have hone (n : Int) : Matches ρ (immediate n) (immediate n) (Valued ρ []) := immediate_matches n
  match values with
  | [] => exact matches_pure rfl
  | [stop] =>
    refine (hone 0).bind ?_
    rintro ⟨zero, start⟩ ⟨_, _⟩ ⟨rfl, rfl, -⟩
    refine (hone 1).bind ?_
    rintro ⟨one, step⟩ ⟨_, _⟩ ⟨rfl, rfl, -⟩
    exact matches_pure (by simp)
  | [start, stop] =>
    refine (hone 1).bind ?_
    rintro ⟨one, step⟩ ⟨_, _⟩ ⟨rfl, rfl, -⟩
    exact matches_pure rfl
  | start :: stop :: step :: rest => exact matches_pure rfl

def Direction.rename (ρ : String → String) : Direction → Direction
  | .up => .up
  | .down => .down
  | .tested isUp => .tested (isUp.rename ρ)

theorem rename_loopTest (n : Nat) (condition control stop : Operand) (dir : Direction) :
    Code.rename ρ (loopTest n condition control stop dir) =
      loopTest n (condition.rename ρ) (control.rename ρ) (stop.rename ρ) (dir.rename ρ) := by
  cases dir <;> rfl

theorem direction_matches (step : Operand) (written : Option Expr) :
    Matches ρ (direction step written) (direction (step.rename ρ) (written.map (Expr.rename ρ)))
      fun r r' => r' = (Code.rename ρ r.1, r.2.rename ρ) := by
  have htest : Matches ρ (direction.test step) (direction.test (step.rename ρ)) fun r r' =>
      r' = (Code.rename ρ r.1, r.2.rename ρ) := by
    have hzero : Matches ρ (immediate 0) (immediate 0) (Valued ρ []) := immediate_matches 0
    refine hzero.bind ?_
    rintro ⟨code, zero⟩ ⟨_, _⟩ ⟨rfl, rfl, -⟩
    refine matches_freshTemp fun isUp => matches_pure ?_
    simp [Instr.rename, Direction.rename, Operand.rename]
  have hwritten : (written.map (Expr.rename ρ)).elim (some 1) constantInt =
      written.elim (some 1) constantInt := by
    cases written with
    | none => rfl
    | some e => exact constantInt_rename e
  rw [direction, direction, hwritten]
  split
  · split
    · exact matches_pure rfl
    · split
      · exact matches_pure rfl
      · exact htest
  · exact htest

def StmtMatches (ρ : String → String) (Λ Λ' : Lowering) (s : Stmt) : Prop :=
  Λ.Renames ρ Λ' s.names → Matches ρ (stmt Λ s) (stmt Λ' (s.rename ρ)) (Coded ρ)

theorem stmts_matches {ss : List Stmt} (ih : ∀ s ∈ ss, StmtMatches ρ Λ Λ' s)
    (h : Λ.Renames ρ Λ' (Stmt.namesAll ss)) :
    Matches ρ (stmts Λ ss) (stmts Λ' (Stmt.renameAll ρ ss)) (Coded ρ) := by
  induction ss with
  | nil => exact matches_pure rfl
  | cons s ss ihss =>
    obtain ⟨ihs, ihall⟩ := List.forall_mem_cons.1 ih
    obtain ⟨hs, hss⟩ := h.append
    refine (ihs hs).bind ?_
    rintro code _ rfl
    refine (ihss ihall hss).bind ?_
    rintro more _ rfl
    exact matches_pure (by simp [Coded])

theorem getElem?_renameAll (es : List Expr) (i : Nat) :
    (Expr.renameAll ρ es)[i]? = es[i]?.map (Expr.rename ρ) := by
  induction es generalizing i with
  | nil => rfl
  | cons e es ih =>
    cases i with
    | zero => rfl
    | succ i => exact ih i

theorem ifThen_matches {m : Mark} {condition : Expr} {body : List Stmt}
    (ih : ∀ s ∈ body, StmtMatches ρ Λ Λ' s) : StmtMatches ρ Λ Λ' (.ifThen m condition body) := by
  intro h
  obtain ⟨hc, hb⟩ := h.append
  refine (expr_matches condition hc).bind ?_
  rintro ⟨test, c⟩ ⟨_, _⟩ ⟨rfl, rfl, -⟩
  refine matches_freshBranch fun n => (stmts_matches ih hb).bind ?_
  rintro yes _ rfl
  exact matches_pure (by simp [Coded, Instr.rename])

theorem ifElse_matches {m : Mark} {condition : Expr} {body otherwise : List Stmt}
    (ihb : ∀ s ∈ body, StmtMatches ρ Λ Λ' s) (iho : ∀ s ∈ otherwise, StmtMatches ρ Λ Λ' s) :
    StmtMatches ρ Λ Λ' (.ifElse m condition body otherwise) := by
  intro h
  obtain ⟨hc, hbo⟩ := h.append
  obtain ⟨hb, ho⟩ := hbo.append
  refine (expr_matches condition hc).bind ?_
  rintro ⟨test, c⟩ ⟨_, _⟩ ⟨rfl, rfl, -⟩
  refine matches_freshBranch fun n => (stmts_matches ihb hb).bind ?_
  rintro yes _ rfl
  refine (stmts_matches iho ho).bind ?_
  rintro no _ rfl
  exact matches_pure (by simp [Coded, Instr.rename])

theorem while_matches {m : Mark} {condition : Expr} {body : List Stmt}
    (ih : ∀ s ∈ body, StmtMatches ρ Λ Λ' s) : StmtMatches ρ Λ Λ' (.while m condition body) := by
  intro h
  obtain ⟨hc, hb⟩ := h.append
  refine matches_freshLoop fun n => (expr_matches condition hc).bind ?_
  rintro ⟨test, c⟩ ⟨_, _⟩ ⟨rfl, rfl, -⟩
  refine (stmts_matches ih hb).bind ?_
  rintro inner _ rfl
  exact matches_pure (by simp [Coded, Instr.rename])

theorem for_matches {m : Mark} {control : Ident} {range : List Expr} {body : List Stmt}
    (ih : ∀ s ∈ body, StmtMatches ρ Λ Λ' s) : StmtMatches ρ Λ Λ' (.for m control range body) := by
  intro h
  obtain ⟨hr, hb⟩ := h.tail.append
  refine (bounds_matches range hr).bind ?_
  rintro ⟨evaluate, values⟩ _ rfl
  refine (loopBounds_matches values).bind ?_
  rintro (_ | ⟨defaults, start, stop, step⟩) _ rfl
  · exact matches_pure rfl
  · rw [getElem?_renameAll]
    refine (direction_matches step range[2]?).bind ?_
    rintro ⟨sign, dir⟩ _ rfl
    refine matches_freshLoop fun n => matches_freshTemp fun condition => ?_
    refine (stmts_matches ih hb).bind ?_
    rintro inner _ rfl
    refine matches_pure ?_
    simp [Coded, rename_loopTest, Instr.rename, Operand.rename, Ident.rename]

theorem callStmt_matches {m : Mark} {callee : Ident} {args : List Expr} :
    StmtMatches ρ Λ Λ' (.call m callee args) := by
  intro h
  rw [Stmt.rename, stmt, stmt, Expr.length_renameAll]
  refine (calleeType_matches h List.mem_cons_self).bind ?_
  rintro f _ rfl
  refine (arguments_matches (fun e _ => expr_matches e) h.tail).bind ?_
  rintro pushes _ rfl
  refine matches_pure ?_
  rw [Coded, Code.rename_append, rename_callCode]
  split <;> rfl

theorem read_matches {m : Mark} {target : Target} : StmtMatches ρ Λ Λ' (.read m target) := by
  intro h
  rw [Stmt.rename, stmt, stmt, Target.mark_rename]
  refine matches_typeOf h _ fun t => (place_matches target h).bind ?_
  rintro ⟨before, p⟩ _ rfl
  cases p with
  | scalar x => exact matches_pure (by simp [Coded, Instr.rename])
  | element base index =>
    exact matches_freshTemp fun n => matches_pure (by simp [Coded, Instr.rename, Operand.rename])

theorem ret_matches {m : Mark} {value : Option Expr} : StmtMatches ρ Λ Λ' (.ret m value) := by
  intro h
  cases value with
  | none => exact matches_pure rfl
  | some value =>
    rw [Stmt.rename, Option.map_some, stmt, stmt, Expr.mark_rename, h.result]
    refine matches_typeOf h _ fun t => (expr_matches value h).bind ?_
    rintro ⟨code, v⟩ ⟨_, _⟩ ⟨rfl, rfl, hv⟩
    refine (coerce_matches hv t Λ.result).bind ?_
    rintro ⟨conv, v'⟩ ⟨_, _⟩ ⟨rfl, rfl, -⟩
    exact matches_pure (by simp [Coded, Instr.rename, Operand.rename])

theorem stmt_matches (s : Stmt) : StmtMatches ρ Λ Λ' s := by
  induction s using Stmt.ind with
  | assign m target value => exact assign_matches target value
  | ifThen m condition body ih => exact ifThen_matches ih
  | ifElse m condition body otherwise ihb iho => exact ifElse_matches ihb iho
  | while_ m condition body ih => exact while_matches ih
  | for_ m control range body ih => exact for_matches ih
  | call m callee args => exact callStmt_matches
  | read m target => exact read_matches
  | write m value =>
    intro h
    rw [Stmt.rename, stmt, stmt, Expr.mark_rename]
    refine matches_typeOf h _ fun t => (expr_matches value h).bind ?_
    rintro ⟨code, v⟩ ⟨_, _⟩ ⟨rfl, rfl, -⟩
    exact matches_pure (by simp [Coded, Instr.rename])
  | writeText m raw =>
    intro _
    refine matches_freshTemp fun n => matches_pure ?_
    rw [Coded, rename_writeChars]
    rfl
  | ret m value => exact ret_matches

/-! ## Functions -/

theorem locals_matches (ds : List Declaration) (h : Λ.Renames ρ Λ' names) :
    Matches ρ (locals Λ ds) (locals Λ' (ds.map (Declaration.rename ρ))) fun vs vs' =>
      vs' = vs.map (Variable.rename ρ) := by
  induction ds with
  | nil => exact matches_pure rfl
  | cons d ds ih =>
    refine matches_typeOf h _ fun t => ih.bind ?_
    rintro more _ rfl
    refine matches_pure ?_
    rw [Declaration.rename, List.map_map, List.map_append, List.map_map]
    rfl

theorem rename_closed (isProcedure : Bool) (code : Code) :
    Code.rename ρ (closed isProcedure code) = closed isProcedure (Code.rename ρ code) := by
  have hret : ∀ i : Instr, i.rename ρ = .ret ↔ i = .ret := by
    intro i
    cases i <;> simp [Instr.rename]
  have hlast : (Code.rename ρ code).getLast? = some .ret ↔ code.getLast? = some .ret := by
    rw [Code.rename, List.getLast?_map, Option.map_eq_some_iff]
    constructor
    · rintro ⟨i, hi, heq⟩
      rw [hi, (hret i).1 heq]
    · exact fun hi => ⟨.ret, hi, rfl⟩
  simp only [closed, ne_eq, hlast]
  split
  · exact Code.rename_append code [.ret]
  · rfl

theorem function_matches {type : Ty} {f : Function} (h : Λ.Renames ρ Λ' f.names) :
    Matches ρ (function Λ type f) (function Λ' type (f.rename ρ)) fun sub sub' =>
      sub' = sub.rename ρ := by
  have hbody : Λ.Renames ρ Λ' (Stmt.namesAll f.body) := h.tail.append.2
  have hparams : ∀ q ∈ f.params, q.name.name ≠ resultName := by
    intro q hq
    have hmem : q.name.name ∈ f.names :=
      Function.entry_mem_names (List.mem_append_left _ (List.mem_map_of_mem hq))
    exact ne_resultName_of_isIdentifier (h.identifier _ hmem).1
  refine (locals_matches f.declarations h).bind ?_
  rintro vars _ rfl
  refine (stmts_matches (fun s _ => stmt_matches s) hbody).bind ?_
  rintro code _ rfl
  refine matches_pure ?_
  have hnames : (f.rename ρ).params.map (·.name.name) =
      (f.params.map (·.name.name)).map fun x => if x = resultName then x else ρ x := by
    rw [Function.rename, List.map_map, List.map_map]
    refine List.map_congr_left fun q hq => ?_
    exact (if_neg (hparams q hq)).symm
  rw [Subroutine.rename, hnames, rename_closed, List.map_append]
  congr 2
  split <;> simp

theorem subroutine_rename {type : Ty} {f : Function} (h : Λ.Renames ρ Λ' f.names) :
    subroutine Λ' type (f.rename ρ) =
      ((subroutine Λ type f).map (Subroutine.rename ρ)).mapError (LowerError.rename ρ) := by
  have hends : Ends ρ (fun sub sub' => sub' = sub.rename ρ) ((function Λ type f).run ⟨0, 0, 0⟩)
      ((function Λ' type (f.rename ρ)).run ⟨0, 0, 0⟩) := function_matches h _
  rw [subroutine, subroutine]
  generalize (function Λ type f).run ⟨0, 0, 0⟩ = r at hends
  generalize (function Λ' type (f.rename ρ)).run ⟨0, 0, 0⟩ = r' at hends
  cases hends with
  | ok c h =>
    rw [h]
    rfl
  | error e c => rfl

end Lower

end Asl
