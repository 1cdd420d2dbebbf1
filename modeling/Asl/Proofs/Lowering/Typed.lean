import Asl.Proofs.Code.Typing
import Asl.Proofs.Lowering.Notes
import Asl.Proofs.Typing.Program

/-!
# Lowering gives typed code

Lowering numbers temporaries and labels as it goes, and the typing of the code grows with the
numbers: a temporary gets its type, and a label its stack, when its number is taken. Code that was
typed stays typed as the typing grows, so the code of the whole is typed because the codes of its
parts are. An expression of a type is lowered to code that leaves the stack as it was, and to an
operand of that type.
-/
namespace Asl

/-- How many numbers have been taken when a typing has been reached. -/
def Typing.counters (T : Typing) : Counters :=
  ⟨T.temps.length, T.branches.length, T.loops.length⟩

namespace Lower

/-- A piece of lowering succeeds while the typing grows, and its value satisfies `Q`. -/
def Grows {α : Type} (m : Lower α) (T : Typing) (Q : α → Typing → Prop) : Prop :=
  ∃ a T', m.run T.counters = (.ok a, T'.counters) ∧ T.Extends T' ∧ Q a T'

section

variable {α β : Type} {T : Typing}

theorem Grows.bind {m : Lower α} {f : α → Lower β} {Q : α → Typing → Prop}
    {R : β → Typing → Prop} (hm : Grows m T Q)
    (hf : ∀ a T', T.Extends T' → Q a T' → Grows (f a) T' R) : Grows (m >>= f) T R := by
  obtain ⟨a, T', hrun, hT, hq⟩ := hm
  obtain ⟨b, T'', hrun', hT', hr⟩ := hf a T' hT hq
  refine ⟨b, T'', ?_, hT.trans hT', hr⟩
  rw [Attempt.run_bind, hrun]
  exact hrun'

theorem grows_pure {a : α} {Q : α → Typing → Prop} (h : Q a T) : Grows (pure a) T Q :=
  ⟨a, T, rfl, Typing.Extends.refl T, h⟩

theorem Grows.branch {c : Prop} [Decidable c] {m m' : Lower α} {rest : α → Lower β}
    {R : β → Typing → Prop} (h : Grows ((if c then m else m') >>= rest) T R) :
    Grows (if c then m >>= rest else m' >>= rest) T R := by
  by_cases hc : c
  · rw [if_pos hc] at h ⊢
    exact h
  · rw [if_neg hc] at h ⊢
    exact h

theorem grows_freshTemp (T : Typing) {t : Ty} (ht : t.OfValue) :
    Grows freshTemp T fun o T' =>
      ∃ n, o = .temp n ∧ numbered? T'.temps n = some t := by
  let T' : Typing := { T with
    temps := T.temps ++ [t]
    values := List.forall_mem_append.2 ⟨T.values, by simpa using ht⟩ }
  refine ⟨.temp (T.temps.length + 1), T', ?_, ?_, T.temps.length + 1, rfl, ?_⟩
  · simp only [T', Attempt.run, freshTemp, Typing.counters, List.length_append, List.length_cons,
      List.length_nil]
  · exact ⟨List.prefix_append _ _, List.prefix_rfl, List.prefix_rfl⟩
  · exact numbered?_last T.temps t

theorem grows_freshBranch (T : Typing) (σ : List Cell) :
    Grows freshBranch T fun n T' => T'.stackAt? ⟨.else, n⟩ = some σ ∧
      T'.stackAt? ⟨.endif, n⟩ = some σ ∧ T'.stackAt? ⟨.endmax, n⟩ = some σ := by
  let T' : Typing := { T with branches := T.branches ++ [σ] }
  have hlast : numbered? T'.branches (T.branches.length + 1) = some σ :=
    numbered?_last T.branches σ
  refine ⟨T.branches.length + 1, T', ?_, ?_, hlast, hlast, hlast⟩
  · simp only [T', Attempt.run, freshBranch, Typing.counters, List.length_append,
      List.length_cons, List.length_nil]
  · exact ⟨List.prefix_rfl, List.prefix_append _ _, List.prefix_rfl⟩

theorem grows_freshLoop (T : Typing) (σ : List Cell) :
    Grows freshLoop T fun n T' =>
      ∀ kind ∈ [LabelKind.while, .endwhile, .for, .endfor, .forDown, .forTest],
        T'.stackAt? ⟨kind, n⟩ = some σ := by
  let T' : Typing := { T with loops := T.loops ++ [σ] }
  have hlast : numbered? T'.loops (T.loops.length + 1) = some σ := numbered?_last T.loops σ
  refine ⟨T.loops.length + 1, T', ?_, ?_, ?_⟩
  · simp only [T', Attempt.run, freshLoop, Typing.counters, List.length_append,
      List.length_cons, List.length_nil]
  · exact ⟨List.prefix_rfl, List.prefix_rfl, List.prefix_append _ _⟩
  · intro kind hkind
    simp only [List.mem_cons, List.not_mem_nil, or_false] at hkind
    rcases hkind with rfl | rfl | rfl | rfl | rfl | rfl <;> exact hlast

theorem grows_typeOf {Λ : Lowering} {n : NodeId} {t : Ty} (T : Typing)
    (h : Λ.typeOf n = .ok t) : Grows (typeOf Λ n) T fun a T' => t = a ∧ T = T' := by
  refine ⟨t, T, ?_, Typing.Extends.refl T, rfl, rfl⟩
  rw [typeOf, h]
  rfl

end

end Lower

/-! ## What surrounds a body -/

/-- A body that is checked in one context is lowered and run in surroundings that agree with it. -/
structure Surroundings.Agrees (E : Surroundings) (Γ : Context) (Λ : Lowering) : Prop where
  proper : Γ.Proper
  meaning : Λ.meaning = Γ.meaning
  result : Λ.result = Γ.result
  given : E.result = Γ.result
  own : ∀ x role t, Γ.meaning x = some (role, t) → t.isFunction = false →
    E.meaning x = some (role, t) ∧ role ≠ .function
  wins : ∀ x m, E.meaning x = some m → Γ.meaning x = some m
  function : ∀ x role params t, Γ.meaning x = some (role, .function params t) →
    role = .function ∧ E.signature x = some (params, t) ∧ (t = .void ∨ Primitive t)
  plain : Γ.result = .void ∨ Primitive Γ.result

/-- What an expression of a type is lowered to. An array is held by its name. -/
inductive Operand.Carries (E : Surroundings) (T : Typing) : Operand → Ty → Prop
  | value {o : Operand} {t : Ty} : Primitive t → o.HasType E T t → Carries E T o t
  | array {x : String} {role : Role} {n : Nat} {t : Ty} : role ≠ .function →
      E.meaning x = some (role, .array n t) → Carries E T (.name x) (.array n t)
  | function {x : String} {params : List Ty} {t : Ty} :
      Carries E T (.name x) (.function params t)

section

variable {E : Surroundings} {Γ : Context} {Λ : Lowering} {T T' : Typing}

theorem Operand.Carries.hasType {o : Operand} {t : Ty} (h : o.Carries E T t) (ht : Primitive t) :
    o.HasType E T t := by
  cases h with
  | value _ h => exact h
  | array => cases ht
  | function => cases ht

theorem Operand.Carries.name (hE : E.Agrees Γ Λ) {x : String} {role : Role} {t : Ty}
    (hx : Γ.meaning x = some (role, t)) : (Operand.name x).Carries E T t := by
  have hdeclared := hE.proper _ _ _ hx
  cases hdeclared with
  | value hv =>
    obtain ⟨b | ⟨n, b⟩⟩ := hv
    · have ht := Primitive.ofBase b
      have hown := hE.own _ _ _ hx (by cases b <;> rfl)
      exact .value ht (.scalar hown.1 ht)
    · have hown := hE.own _ _ _ hx rfl
      exact .array hown.2 hown.1
  | function => exact .function

end

/-! ## Conversions and operators -/

theorem Fits.primitive {t u : Ty} (h : Fits t u) (hu : Primitive u) : Primitive t := by
  cases h with
  | same => exact hu
  | widen => exact .int

def Ty.coerced (t expected : Ty) : Ty := if expected = .float ∧ t = .int then .float else t

theorem Ty.coerced_of_fits {t u : Ty} (h : Fits t u) : t.coerced u = u := by
  cases h with
  | same =>
    by_cases hf : t = .float
    · subst hf
      rfl
    · rw [coerced, if_neg fun h => hf h.1]
  | widen => rfl

/-- An operator on operands that have been brought to one type. -/
inductive BinaryOp.Prepared : BinaryOp → Numbers → Ty → Ty → Prop
  | whole {op : BinaryOp} : op ∈ [.mul, .div, .mod, .add, .sub] → Prepared op .whole .int .int
  | float {op : BinaryOp} : op ∈ [.mul, .div, .add, .sub] → Prepared op .float .float .float
  | equality {op : BinaryOp} {t : Ty} : op ∈ [.equal, .notEqual] → Primitive t → t ≠ .float →
      Prepared op .whole t .bool
  | ordering {op : BinaryOp} {t : Ty} : op ∈ [.less, .lessEqual, .greater, .greaterEqual] →
      t ∈ [Ty.int, .char] → Prepared op .whole t .bool
  | compare {op : BinaryOp} :
      op ∈ [.equal, .notEqual, .less, .lessEqual, .greater, .greaterEqual] →
        Prepared op .float .float .bool
  | logic {op : BinaryOp} : op ∈ [.and, .or] → Prepared op .whole .bool .bool

def Ty.common (t u : Ty) : Ty := if t = .float || u = .float then .float else .int

theorem Combine.prepared {t u r : Ty} (h : Combine t u r) :
    (t.common u = .int ∧ t = .int ∧ u = .int ∧ r = .int) ∨
      (t.common u = .float ∧ t.coerced .float = .float ∧ u.coerced .float = .float ∧
        r = .float) := by
  cases h with
  | whole => exact Or.inl ⟨rfl, rfl, rfl, rfl⟩
  | left hu => cases hu <;> exact Or.inr ⟨rfl, rfl, rfl, rfl⟩
  | right ht => cases ht <;> exact Or.inr ⟨rfl, rfl, rfl, rfl⟩

theorem Numeric.combine {t u : Ty} (ht : Numeric t) (hu : Numeric u) : ∃ r, Combine t u r := by
  cases ht with
  | int =>
    cases hu with
    | int => exact ⟨_, .whole⟩
    | float => exact ⟨_, .right .int⟩
  | float => exact ⟨_, .left hu⟩

theorem BinaryOp.HasType.prepared {op : BinaryOp} {t u r : Ty} (h : op.HasType t u r) :
    ∃ w, t.coerced (t.common u) = w ∧ u.coerced (t.common u) = w ∧
      op.Prepared (Lower.numbers (t.common u)) w r := by
  cases h with
  | arithmetic hop hc =>
    rcases hc.prepared with ⟨hcommon, rfl, rfl, rfl⟩ | ⟨hcommon, ht, hu, rfl⟩
    · refine ⟨.int, rfl, rfl, .whole ?_⟩
      simp only [List.mem_cons, List.not_mem_nil, or_false] at hop ⊢
      tauto
    · rw [hcommon]
      exact ⟨.float, ht, hu, .float hop⟩
  | mod => exact ⟨.int, rfl, rfl, .whole (by simp)⟩
  | numbers hop ht hu =>
    obtain ⟨r, hc⟩ := ht.combine hu
    rcases hc.prepared with ⟨-, rfl, rfl, -⟩ | ⟨hcommon, ht, hu, -⟩
    · refine ⟨.int, rfl, rfl, ?_⟩
      simp only [List.mem_cons, List.not_mem_nil, or_false] at hop
      rcases hop with rfl | rfl | rfl | rfl | rfl | rfl
      · exact .equality (by simp) .int (by rintro ⟨⟩)
      · exact .equality (by simp) .int (by rintro ⟨⟩)
      · exact .ordering (by simp) (by simp)
      · exact .ordering (by simp) (by simp)
      · exact .ordering (by simp) (by simp)
      · exact .ordering (by simp) (by simp)
    · rw [hcommon]
      exact ⟨.float, ht, hu, .compare hop⟩
  | equality hop ht =>
    cases ht with
    | float =>
      refine ⟨.float, rfl, rfl, .compare ?_⟩
      simp only [List.mem_cons, List.not_mem_nil, or_false] at hop ⊢
      tauto
    | int => exact ⟨.int, rfl, rfl, .equality hop .int (by rintro ⟨⟩)⟩
    | bool => exact ⟨.bool, rfl, rfl, .equality hop .bool (by rintro ⟨⟩)⟩
    | char => exact ⟨.char, rfl, rfl, .equality hop .char (by rintro ⟨⟩)⟩
  | ordering hop => exact ⟨.char, rfl, rfl, .ordering hop (by simp)⟩
  | logic hop => exact ⟨.bool, rfl, rfl, .logic hop⟩

namespace Lower

section

variable {E : Surroundings} {Γ : Context} {Λ : Lowering}

theorem toFloat_typed {v : Operand} {t : Ty} {T : Typing} (hv : v.HasType E T t)
    (σ : List Cell) : Grows (toFloat v t) T fun r T' =>
      Code.Typed E T' σ r.1 σ ∧ r.2.HasType E T' (t.coerced .float) := by
  by_cases ht : t = .int
  · subst ht
    refine (grows_freshTemp T Primitive.float.ofValue).bind fun o T' hT hres => ?_
    obtain ⟨n, ho, hn⟩ := hres
    subst ho
    have hdst : (Operand.temp n).HasType E T' .float := .temp hn
    exact grows_pure ⟨.single (.unary .toFloat (hv.mono hT) hdst), hdst⟩
  · rw [toFloat, if_neg ht, Ty.coerced, if_neg fun h => ht h.2]
    exact grows_pure ⟨.nil, hv⟩

theorem coerce_typed {v : Operand} {t : Ty} {T : Typing} (hv : v.HasType E T t)
    (expected : Ty) (σ : List Cell) : Grows (coerce v t expected) T fun r T' =>
      Code.Typed E T' σ r.1 σ ∧ r.2.HasType E T' (t.coerced expected) := by
  by_cases hf : expected = .float
  · subst hf
    exact toFloat_typed hv σ
  · rw [coerce, if_neg hf, Ty.coerced, if_neg fun h => hf h.1]
    exact grows_pure ⟨.nil, hv⟩

theorem operation_typed {op : BinaryOp} {ns : Numbers} {w r : Ty} (hop : op.Prepared ns w r)
    {T : Typing} {a b : Operand} (ha : a.HasType E T w) (hb : b.HasType E T w) {n : Nat}
    (hn : numbered? T.temps n = some r) (σ : List Cell) :
    Grows (operation op ns (.temp n) a b) T fun code T' => Code.Typed E T' σ code σ := by
  have hdst : (Operand.temp n).HasType E T r := .temp hn
  have plain : ∀ i : BinaryInstr, i.HasType w w r →
      Grows (pure [Instr.binary i (.temp n) a b]) T fun code T' => Code.Typed E T' σ code σ :=
    fun i hi => grows_pure (.single (.binary hi ha hb hdst))
  have negated : ∀ i : BinaryInstr, r = .bool → i.HasType w w .bool →
      Grows (pure [Instr.binary i (.temp n) a b, .unary .not (.temp n) (.temp n)]) T
        fun code T' => Code.Typed E T' σ code σ := by
    intro i hr hi
    subst hr
    exact grows_pure (.cons (.binary hi ha hb hdst) (.single (.unary .not hdst hdst)))
  cases hop with
  | whole hop =>
    simp only [List.mem_cons, List.not_mem_nil, or_false] at hop
    rcases hop with rfl | rfl | rfl | rfl | rfl
    · exact plain _ (.whole (by simp))
    · exact plain _ (.whole (by simp))
    · refine (grows_freshTemp T Primitive.int.ofValue).bind fun q T₁ hT₁ hres => ?_
      obtain ⟨k, hq, hk⟩ := hres
      subst hq
      refine (grows_freshTemp T₁ Primitive.int.ofValue).bind fun s T₂ hT₂ hres => ?_
      obtain ⟨l, hs, hl⟩ := hres
      subst hs
      have hT := hT₁.trans hT₂
      have hquotient : (Operand.temp k).HasType E T₂ .int :=
        .temp (numbered?_mono hT₂.temps hk)
      have hproduct : (Operand.temp l).HasType E T₂ .int := .temp hl
      refine grows_pure (.cons (.binary (.whole (by simp)) (ha.mono hT) (hb.mono hT) hquotient) ?_)
      refine .cons (.binary (.whole (by simp)) hquotient (hb.mono hT) hproduct) ?_
      exact .single (.binary (.whole (by simp)) (ha.mono hT) hproduct (hdst.mono hT))
    · exact plain _ (.whole (by simp))
    · exact plain _ (.whole (by simp))
  | float hop =>
    simp only [List.mem_cons, List.not_mem_nil, or_false] at hop
    rcases hop with rfl | rfl | rfl | rfl
    · exact plain _ (.float (by simp))
    · exact plain _ (.float (by simp))
    · exact plain _ (.float (by simp))
    · exact plain _ (.float (by simp))
  | equality hop hw hne =>
    simp only [List.mem_cons, List.not_mem_nil, or_false] at hop
    rcases hop with rfl | rfl
    · exact plain _ (.equal hw hne)
    · exact negated _ rfl (.equal hw hne)
  | ordering hop hw =>
    simp only [List.mem_cons, List.not_mem_nil, or_false] at hop
    rcases hop with rfl | rfl | rfl | rfl
    · exact plain _ (.order (by simp) hw)
    · exact plain _ (.order (by simp) hw)
    · exact negated _ rfl (.order (by simp) hw)
    · exact negated _ rfl (.order (by simp) hw)
  | compare hop =>
    simp only [List.mem_cons, List.not_mem_nil, or_false] at hop
    rcases hop with rfl | rfl | rfl | rfl | rfl | rfl
    · exact plain _ (.compare (by simp))
    · exact negated _ rfl (.compare (by simp))
    · exact plain _ (.compare (by simp))
    · exact plain _ (.compare (by simp))
    · exact negated _ rfl (.compare (by simp))
    · exact negated _ rfl (.compare (by simp))
  | logic hop =>
    simp only [List.mem_cons, List.not_mem_nil, or_false] at hop
    rcases hop with rfl | rfl
    · exact plain _ (.logic (by simp))
    · exact plain _ (.logic (by simp))

/-! ## Arrays -/

theorem isParameter_iff (hE : E.Agrees Γ Λ) {x : String} {role : Role} {t : Ty}
    (hx : Γ.meaning x = some (role, t)) : isParameter Λ x = true ↔ role = .parameter := by
  rw [isParameter, hE.meaning, hx]
  exact decide_eq_true_iff

theorem arrayBase_typed (hE : E.Agrees Γ Λ) {x : String} {role : Role} {k : Nat} {t : Ty}
    (hx : Γ.meaning x = some (role, .array k t)) (T : Typing) (σ : List Cell) :
    Grows (arrayBase Λ (.name x)) T fun r T' =>
      Code.Typed E T' σ r.1 σ ∧ r.2.IsBase E T' (.array k t) := by
  obtain ⟨hown, hrole⟩ := hE.own _ _ _ hx rfl
  have htext : (Operand.name x).text = x := rfl
  rw [arrayBase, htext]
  by_cases hp : role = .parameter
  · rw [if_pos ((isParameter_iff hE hx).2 hp)]
    subst hp
    have hvalue : (Ty.array k t).OfValue := by
      cases hE.proper _ _ _ hx with
      | value hv => exact hv
    refine (grows_freshTemp T hvalue).bind fun o T' hT hres => ?_
    obtain ⟨n, ho, hn⟩ := hres
    subst ho
    exact grows_pure ⟨.single (.load hown hn), .temp hn⟩
  · rw [if_neg fun h => hp ((isParameter_iff hE hx).1 h)]
    cases role with
    | parameter => exact absurd rfl hp
    | function => exact absurd rfl hrole
    | «variable» => exact grows_pure ⟨.nil, .owned hown⟩

theorem reference_typed (hE : E.Agrees Γ Λ) {x : String} {role : Role} {k : Nat} {t : Ty}
    (hx : Γ.meaning x = some (role, .array k t)) (T : Typing) (σ : List Cell) :
    Grows (reference Λ (.name x)) T fun r T' =>
      Code.Typed E T' σ r.1 σ ∧ r.2.HasType E T' (.array k t) := by
  obtain ⟨hown, hrole⟩ := hE.own _ _ _ hx rfl
  have htext : (Operand.name x).text = x := rfl
  rw [reference, htext]
  by_cases hp : role = .parameter
  · rw [if_pos ((isParameter_iff hE hx).2 hp)]
    subst hp
    exact grows_pure ⟨.nil, .reference hown⟩
  · rw [if_neg fun h => hp ((isParameter_iff hE hx).1 h)]
    cases role with
    | parameter => exact absurd rfl hp
    | function => exact absurd rfl hrole
    | «variable» =>
      have hvalue : (Ty.array k t).OfValue := by
        cases hE.proper _ _ _ hx with
        | value hv => exact hv
      refine (grows_freshTemp T hvalue).bind fun o T' hT hres => ?_
      obtain ⟨n, ho, hn⟩ := hres
      subst ho
      exact grows_pure ⟨.single (.address hown hn), .temp hn⟩

/-! ## Expressions -/

/-- Lowering an expression of a type succeeds, with code that leaves the stack as it was and an
operand that carries the type. -/
def Lowers (E : Surroundings) (Γ : Context) (Λ : Lowering) (e : Expr) : Prop :=
  ∀ t, e.HasType Γ t → e.Noted Λ Γ → ∀ T σ, Grows (expr Λ e) T fun r T' =>
    Code.Typed E T' σ r.1 σ ∧ r.2.Carries E T' t

theorem typeOf_noted (hE : E.Agrees Γ Λ) {e : Expr} {t : Ty} (ht : e.HasType Γ t)
    (hn : e.Noted Λ Γ) : Λ.typeOf e.mark.id = .ok t := by
  rw [hn.typeOf, ((Expr.clean_judge hE.proper e t).2 ht).2]

theorem drops_typed {T : Typing} (cells σ : List Cell) :
    Code.Typed E T (cells ++ σ) (List.replicate cells.length (.pop none)) σ := by
  induction cells with
  | nil => exact .nil
  | cons cell cells ih => exact .cons .drop ih

theorem arguments_typed (hE : E.Agrees Γ Λ) (callee : String) {es : List Expr} {ts params : List Ty}
    (ih : ∀ e ∈ es, Lowers E Γ Λ e) (htypes : List.Forall₂ (Expr.HasType Γ) es ts)
    (hfits : List.Forall₂ Fits ts params) (hparams : ∀ p ∈ params, p.OfValue)
    (hn : ∀ e ∈ es, e.Noted Λ Γ) (T : Typing) (σ : List Cell) :
    Grows (arguments Λ callee params es) T fun code T' =>
      Code.Typed E T' σ code (Cell.arguments params ++ σ) := by
  induction htypes generalizing params T σ with
  | nil =>
    cases hfits
    exact grows_pure .nil
  | @cons e t es ts ht htypes ihs =>
    cases hfits with
    | @cons _ p _ ps hfit hfits =>
      obtain ⟨ihe, ihes⟩ := List.forall_mem_cons.1 ih
      obtain ⟨hp, hps⟩ := List.forall_mem_cons.1 hparams
      obtain ⟨hne, hnes⟩ := List.forall_mem_cons.1 hn
      have hcells : Cell.arguments (p :: ps) ++ σ = Cell.arguments ps ++ (.value p :: σ) := by
        simp [Cell.arguments]
      rw [hcells]
      refine (grows_typeOf T (typeOf_noted hE ht hne)).bind fun _ _ _ hres => ?_
      obtain ⟨h, h'⟩ := hres
      subst h h'
      refine (ihe t ht hne T σ).bind fun hres T₁ _ hres2 => ?_
      obtain ⟨code, v⟩ := hres
      obtain ⟨hcode, hv⟩ := hres2
      have hpassed : Grows (if p.isArray then reference Λ v else coerce v t p) T₁
          fun r' T' => Code.Typed E T' σ r'.1 σ ∧ r'.2.HasType E T' p := by
        obtain ⟨b | ⟨n, b⟩⟩ := hp
        · have hprim := Primitive.ofBase b
          have hnot : (Ty.ofBase b).isArray = false := by cases b <;> rfl
          have h := coerce_typed (hv.hasType (hfit.primitive hprim)) (.ofBase b) σ
          have hcoerced : t.coerced (.ofBase b) = .ofBase b := Ty.coerced_of_fits hfit
          rw [hcoerced] at h
          rw [Ty.ofSpec, hnot]
          exact h
        · cases hfit
          cases hv with
          | value hprim => cases hprim
          | array hrole hx => exact reference_typed hE (hE.wins _ _ hx) T₁ σ
      refine Grows.branch (hpassed.bind fun r' T₂ hT₂ hres => ?_)
      obtain ⟨hconv, hv'⟩ := hres
      refine (ihs ihes hfits hps hnes T₂ (.value p :: σ)).bind fun more T₃ hT₃ hmore => ?_
      refine grows_pure ?_
      refine ((hcode.mono (hT₂.trans hT₃)).append (hconv.mono hT₃)).append ?_
      exact .cons (.push (hv'.mono hT₃)) hmore

theorem callCode_typed {T : Typing} {name : String} {params : List Ty} {t : Ty} {σ : List Cell}
    {pushes : Code} {count : Nat} (hs : E.signature name = some (params, t)) (ht : t ≠ .void)
    (hpushes : Code.Typed E T (.reserved :: σ) pushes (Cell.arguments params ++ .reserved :: σ))
    (hcount : count = params.length) :
    Code.Typed E T σ (callCode true pushes name count) (.value t :: σ) := by
  have hdrops := drops_typed (E := E) (T := T) (Cell.arguments params) (.value t :: σ)
  have hlength : (Cell.arguments params).length = count := by
    simp [Cell.arguments, hcount]
  rw [hlength] at hdrops
  exact .cons .reserve (hpushes.append (.cons (.callFunction hs ht) hdrops))

theorem call_typed (hE : E.Agrees Γ Λ) {m : Mark} {callee : Ident} {args : List Expr}
    (ih : ∀ a ∈ args, Lowers E Γ Λ a) : Lowers E Γ Λ (.call m callee args) := by
  intro t ht hn T σ
  cases ht with
  | @call _ _ _ role params ts _ hcallee htypes hfits hvoid =>
    obtain ⟨-, hsignature, hplain⟩ := hE.function _ _ _ _ hcallee
    have ht := hplain.resolve_left hvoid
    have hf : calleeType Λ callee.name = pure (.function params t) := by
      rw [calleeType, hE.meaning, hcallee]
      rfl
    have hvalue : (Ty.function params t).isProcedure = false := by
      cases t with
      | void => exact absurd rfl hvoid
      | _ => rfl
    have hcount : args.length = params.length := htypes.length_eq.trans hfits.length_eq
    simp only [expr, hf, pure_bind, hvalue, Bool.false_eq_true, if_false]
    have hparams := (hE.proper _ _ _ hcallee).params
    refine (arguments_typed hE callee.name ih htypes hfits hparams hn.callArgs T
      (.reserved :: σ)).bind fun pushes T₁ _ hpushes => ?_
    refine (grows_freshTemp T₁ ht.ofValue).bind fun o T₂ hT₂ hres => ?_
    obtain ⟨k, ho, hk⟩ := hres
    subst ho
    have hdst : (Operand.temp k).HasType E T₂ t := .temp hk
    have hcode := callCode_typed hsignature hvoid (hpushes.mono hT₂) hcount
    exact grows_pure ⟨hcode.append (.single (.pop ht hdst)), .value ht hdst⟩

theorem HasMaximum.fits {ts : List Ty} {t : Ty} (h : HasMaximum ts t) : ∀ u ∈ ts, Fits u t := by
  cases h with
  | whole h =>
    intro u hu
    rw [h u hu]
    exact .same _
  | float h _ =>
    intro u hu
    cases h u hu with
    | int => exact .widen
    | float => exact .same _
  | char h =>
    intro u hu
    rw [h u hu]
    exact .same _

theorem HasMaximum.less {ts : List Ty} {t : Ty} (h : HasMaximum ts t) :
    (BinaryInstr.less (numbers t)).HasType t t .bool := by
  cases h with
  | whole => exact .order (by simp [numbers]) (by simp)
  | float => exact .compare (by simp [numbers])
  | char => exact .order (by simp [numbers]) (by simp)

theorem maxRest_typed (hE : E.Agrees Γ Λ) {t : Ty} (ht : Primitive t)
    (hless : (BinaryInstr.less (numbers t)).HasType t t .bool) {es : List Expr} {ts : List Ty}
    (ih : ∀ e ∈ es, Lowers E Γ Λ e) (htypes : List.Forall₂ (Expr.HasType Γ) es ts)
    (hfits : ∀ u ∈ ts, Fits u t) (hn : ∀ e ∈ es, e.Noted Λ Γ) {T : Typing} {k : Nat}
    (hk : numbered? T.temps k = some t) (σ : List Cell) :
    Grows (maxRest Λ t (.temp k) es) T fun code T' => Code.Typed E T' σ code σ := by
  induction htypes generalizing T with
  | nil => exact grows_pure .nil
  | @cons e u es ts hu htypes ihs =>
    obtain ⟨ihe, ihes⟩ := List.forall_mem_cons.1 ih
    obtain ⟨hfit, hfits⟩ := List.forall_mem_cons.1 hfits
    obtain ⟨hne, hnes⟩ := List.forall_mem_cons.1 hn
    refine (grows_typeOf T (typeOf_noted hE hu hne)).bind fun _ _ _ hres => ?_
    obtain ⟨h, h'⟩ := hres
    subst h h'
    refine (ihe u hu hne T σ).bind fun r T₁ hT₁ hres => ?_
    obtain ⟨hcode, hv⟩ := hres
    refine (coerce_typed (hv.hasType (hfit.primitive ht)) t σ).bind
      fun r' T₂ hT₂ hres => ?_
    obtain ⟨hconv, hv'⟩ := hres
    rw [Ty.coerced_of_fits hfit] at hv'
    refine (grows_freshTemp T₂ Primitive.bool.ofValue).bind fun c T₃ hT₃ hres => ?_
    obtain ⟨n, hc, hcn⟩ := hres
    subst hc
    refine (grows_freshBranch T₃ σ).bind fun l T₄ hT₄ hres => ?_
    obtain ⟨_, _, hl⟩ := hres
    have hk₄ : numbered? T₄.temps k = some t :=
      numbered?_mono (hT₁.trans (hT₂.trans (hT₃.trans hT₄))).temps hk
    refine (ihs ihes hfits hnes hk₄).bind fun more T₅ hT₅ hmore => ?_
    have hbest : (Operand.temp k).HasType E T₅ t := .temp (numbered?_mono hT₅.temps hk₄)
    have hcond : (Operand.temp n).HasType E T₅ .bool :=
      .temp (numbered?_mono (hT₄.trans hT₅).temps hcn)
    have hvalue := hv'.mono (hT₃.trans (hT₄.trans hT₅))
    have hlabel := hT₅.stackAt? hl
    have hstep : Code.Typed E T₅ σ [.binary (.less (numbers t)) (.temp n) (.temp k) r'.2,
        .jumpUnless (.temp n) ⟨.endmax, l⟩, .copy (.temp k) r'.2, .label ⟨.endmax, l⟩] σ :=
      .cons (.binary hless hbest hvalue hcond) (.cons (.jumpUnless hcond hlabel)
        (.cons (.copy ht hvalue hbest) (.single (.label hlabel))))
    have hcode' := hcode.mono (hT₂.trans (hT₃.trans (hT₄.trans hT₅)))
    have hconv' := hconv.mono (hT₃.trans (hT₄.trans hT₅))
    exact grows_pure (((hcode'.append hconv').append hstep).append hmore)

theorem max_typed (hE : E.Agrees Γ Λ) {m : Mark} {args : List Expr}
    (ih : ∀ a ∈ args, Lowers E Γ Λ a) : Lowers E Γ Λ (.max m args) := by
  intro t ht hn T σ
  have hnode := typeOf_noted hE ht hn
  have hargs := hn.maxArgs
  cases ht with
  | max hcount htypes hmax =>
    have hp := hmax.primitive
    have hless := HasMaximum.less hmax
    have hfits := HasMaximum.fits hmax
    cases htypes with
    | nil => exact absurd hcount (by simp)
    | @cons first u rest ts hu htypes =>
      obtain ⟨ihe, ihes⟩ := List.forall_mem_cons.1 ih
      obtain ⟨hne, hnes⟩ := List.forall_mem_cons.1 hargs
      obtain ⟨hfit, hfits⟩ := List.forall_mem_cons.1 hfits
      rw [expr]
      refine (grows_typeOf T hnode).bind fun _ _ _ hres => ?_
      obtain ⟨h, h'⟩ := hres
      subst h h'
      refine (grows_freshTemp T hp.ofValue).bind fun best T₁ hT₁ hres => ?_
      obtain ⟨k, hbest, hk⟩ := hres
      subst hbest
      refine (grows_typeOf T₁ (typeOf_noted hE hu hne)).bind fun _ _ _ hres => ?_
      obtain ⟨h, h'⟩ := hres
      subst h h'
      refine (ihe u hu hne T₁ σ).bind fun r T₂ hT₂ hres => ?_
      obtain ⟨hcode, hv⟩ := hres
      refine (coerce_typed (hv.hasType (hfit.primitive hp)) t σ).bind
        fun r' T₃ hT₃ hres => ?_
      obtain ⟨hconv, hv'⟩ := hres
      rw [Ty.coerced_of_fits hfit] at hv'
      have hk₃ := numbered?_mono (hT₂.trans hT₃).temps hk
      refine (maxRest_typed hE hp hless ihes htypes hfits hnes hk₃ σ).bind
        fun more T₄ hT₄ hmore => ?_
      have hdst : (Operand.temp k).HasType E T₄ t := .temp (numbered?_mono hT₄.temps hk₃)
      refine grows_pure ⟨?_, .value hp hdst⟩
      refine Code.Typed.append (.append (hcode.mono (hT₃.trans hT₄)) (hconv.mono hT₄)) ?_
      exact .cons (.copy hp (hv'.mono hT₄) hdst) hmore

theorem unary_typed (hE : E.Agrees Γ Λ) {m : Mark} {op : UnaryOp} {operand : Expr}
    (ih : Lowers E Γ Λ operand) : Lowers E Γ Λ (.unary m op operand) := by
  intro t ht hn T σ
  have hnode := typeOf_noted hE ht hn
  cases ht with
  | unary hoperand hop =>
    have hp := hop.primitive
    refine (ih _ hoperand hn.operand T σ).bind fun r T₁ _ hres => ?_
    obtain ⟨hcode, hv⟩ := hres
    cases hop with
    | plus hnum => exact grows_pure ⟨hcode, hv⟩
    | minus hnum =>
      refine (grows_typeOf T₁ hnode).bind fun _ _ _ hres => ?_
      obtain ⟨h, h'⟩ := hres
      subst h h'
      refine (grows_freshTemp T₁ hp.ofValue).bind fun o T₂ hT₂ hres => ?_
      obtain ⟨k, ho, hk⟩ := hres
      subst ho
      have hdst : (Operand.temp k).HasType E T₂ t := .temp hk
      have hinstr : (UnaryInstr.negate (numbers t)).HasType t t := by
        cases hnum with
        | int => exact .whole
        | float => exact .float
      have hsrc := (hv.hasType hp).mono hT₂
      exact grows_pure ⟨(hcode.mono hT₂).append (.single (.unary hinstr hsrc hdst)),
        .value hp hdst⟩
    | not =>
      refine (grows_freshTemp T₁ hp.ofValue).bind fun o T₂ hT₂ hres => ?_
      obtain ⟨k, ho, hk⟩ := hres
      subst ho
      have hdst : (Operand.temp k).HasType E T₂ .bool := .temp hk
      have hsrc := (hv.hasType hp).mono hT₂
      exact grows_pure ⟨(hcode.mono hT₂).append (.single (.unary .not hsrc hdst)),
        .value hp hdst⟩

theorem BinaryOp.HasType.primitives {op : BinaryOp} {t u r : Ty} (h : op.HasType t u r) :
    Primitive t ∧ Primitive u := by
  cases h with
  | arithmetic _ hc =>
    cases hc with
    | whole => exact ⟨.int, .int⟩
    | left hu => exact ⟨.float, hu.primitive⟩
    | right ht => exact ⟨ht.primitive, .float⟩
  | mod => exact ⟨.int, .int⟩
  | numbers _ ht hu => exact ⟨ht.primitive, hu.primitive⟩
  | equality _ ht => exact ⟨ht, ht⟩
  | ordering => exact ⟨.char, .char⟩
  | logic => exact ⟨.bool, .bool⟩

theorem binary_typed (hE : E.Agrees Γ Λ) {m : Mark} {op : BinaryOp} {lhs rhs : Expr}
    (ihl : Lowers E Γ Λ lhs) (ihr : Lowers E Γ Λ rhs) : Lowers E Γ Λ (.binary m op lhs rhs) := by
  intro r hr hn T σ
  cases hr with
  | @binary _ _ _ _ t u _ ht hu hop =>
    obtain ⟨hnl, hnr⟩ := hn.operands
    obtain ⟨hpt, hpu⟩ := BinaryOp.HasType.primitives hop
    obtain ⟨w, hwt, hwu, hprepared⟩ := hop.prepared
    have hp := hop.primitive
    refine (ihl t ht hnl T σ).bind fun a T₁ _ hres => ?_
    obtain ⟨hcodeA, ha⟩ := hres
    refine (ihr u hu hnr T₁ σ).bind fun b T₂ hT₂ hres => ?_
    obtain ⟨hcodeB, hb⟩ := hres
    refine (grows_typeOf T₂ (typeOf_noted hE ht hnl)).bind fun _ _ _ hres => ?_
    obtain ⟨h, h'⟩ := hres
    subst h h'
    refine (grows_typeOf T₂ (typeOf_noted hE hu hnr)).bind fun _ _ _ hres => ?_
    obtain ⟨h, h'⟩ := hres
    subst h h'
    change Grows (do
      let a' ← coerce a.2 t (t.common u)
      let b' ← coerce b.2 u (t.common u)
      let dst ← freshTemp
      let code ← operation op (numbers (t.common u)) dst a'.2 b'.2
      return (a.1 ++ b.1 ++ a'.1 ++ b'.1 ++ code, dst)) T₂ _
    refine (coerce_typed ((ha.hasType hpt).mono hT₂) (t.common u) σ).bind
      fun a' T₃ hT₃ hres => ?_
    obtain ⟨hconvA, ha'⟩ := hres
    refine (coerce_typed ((hb.hasType hpu).mono hT₃) (t.common u) σ).bind
      fun b' T₄ hT₄ hres => ?_
    obtain ⟨hconvB, hb'⟩ := hres
    refine (grows_freshTemp T₄ hp.ofValue).bind fun o T₅ hT₅ hres => ?_
    obtain ⟨k, ho, hk⟩ := hres
    subst ho
    rw [hwt] at ha'
    rw [hwu] at hb'
    refine (operation_typed hprepared (ha'.mono (hT₄.trans hT₅)) (hb'.mono hT₅) hk σ).bind
      fun code T₆ hT₆ hcode => ?_
    have hdst : (Operand.temp k).HasType E T₆ r := .temp (numbered?_mono hT₆.temps hk)
    have hcodeA' := hcodeA.mono (hT₂.trans (hT₃.trans (hT₄.trans (hT₅.trans hT₆))))
    have hcodeB' := hcodeB.mono (hT₃.trans (hT₄.trans (hT₅.trans hT₆)))
    have hconvA' := hconvA.mono (hT₄.trans (hT₅.trans hT₆))
    have hconvB' := hconvB.mono (hT₅.trans hT₆)
    exact grows_pure ⟨(((hcodeA'.append hcodeB').append hconvA').append hconvB').append hcode,
      .value hp hdst⟩

theorem element_typed (hE : E.Agrees Γ Λ) {m : Mark} {base : Ident} {index : Expr}
    (ih : Lowers E Γ Λ index) : Lowers E Γ Λ (.element m base index) := by
  intro t ht hn T σ
  cases ht with
  | element hbase hindex =>
    have hp := (hE.proper _ _ _ hbase).elem
    refine (ih .int hindex hn.index T σ).bind fun i T₁ _ hres => ?_
    obtain ⟨hcode, hi⟩ := hres
    refine (arrayBase_typed hE hbase T₁ σ).bind fun b T₂ hT₂ hres => ?_
    obtain ⟨hload, hb⟩ := hres
    refine (grows_freshTemp T₂ hp.ofValue).bind fun o T₃ hT₃ hres => ?_
    obtain ⟨k, ho, hk⟩ := hres
    subst ho
    have hdst : (Operand.temp k).HasType E T₃ t := .temp hk
    have hindex := (hi.hasType .int).mono (hT₂.trans hT₃)
    refine grows_pure ⟨?_, .value hp hdst⟩
    refine Code.Typed.append (.append (hcode.mono (hT₂.trans hT₃)) (hload.mono hT₃)) ?_
    exact .single (.loadElement (hb.mono hT₃) hindex hdst)

theorem literal_typed (v : Literal) : (constantOf v).HasType v.type := by
  cases v with
  | int n => exact .int n
  | float x => exact .float x
  | bool b => exact .bool b
  | char raw => exact .char raw

theorem expr_typed (hE : E.Agrees Γ Λ) (e : Expr) : Lowers E Γ Λ e := by
  induction e using Expr.ind with
  | literal m v =>
    intro t ht _ T σ
    cases ht
    refine (grows_freshTemp T v.primitive_type.ofValue).bind fun o T₁ _ hres => ?_
    obtain ⟨k, ho, hk⟩ := hres
    subst ho
    have hdst : (Operand.temp k).HasType E T₁ v.type := .temp hk
    exact grows_pure ⟨.single (.constant (literal_typed v) hdst), .value v.primitive_type hdst⟩
  | name m x =>
    intro t ht _ T σ
    cases ht with
    | name hx => exact grows_pure ⟨.nil, Operand.Carries.name hE hx⟩
  | element m base index ih => exact element_typed hE ih
  | call m callee args ih => exact call_typed hE ih
  | paren m inner ih =>
    intro t ht hn T σ
    cases ht with
    | paren hinner => exact ih t hinner hn.inner T σ
  | unary m op operand ih => exact unary_typed hE ih
  | binary m op lhs rhs ihl ihr => exact binary_typed hE ihl ihr
  | max m args ih => exact max_typed hE ih

end

end Lower

end Asl
