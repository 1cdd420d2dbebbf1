import Asl.Proofs.Lowering.Text
import Asl.Proofs.Lowering.Typed

/-!
# Typed bodies

A statement that is in order is lowered to code that starts and ends with an empty stack. So is the
body of a function, and with it the whole subroutine: lowering succeeds, and its code is well typed.
-/
namespace Asl

variable {E : Surroundings} {Γ : Context} {Λ : Lowering}

inductive Lower.Place.Takes (E : Surroundings) (T : Typing) : Lower.Place → Ty → Prop
  | scalar {x : Operand} {t : Ty} : Primitive t → x.HasType E T t → Takes E T (.scalar x) t
  | element {base index : Operand} {n : Nat} {t : Ty} :
      base.IsBase E T (.array n t) → index.HasType E T .int → Takes E T (.element base index) t

/-- A subroutine has the name, the parameters and the variables of its function; one with a value
has the slot for it as its first parameter. -/
structure Subroutine.Heads (sub : Subroutine) (f : Function) : Prop where
  name : sub.name = f.name.name
  params : sub.params =
    (if f.type.isProcedure then [] else [resultName]) ++ f.params.map (·.name.name)
  locals : sub.locals = f.declarations.flatMap fun d =>
    d.names.map fun x => ⟨x.name, (Ty.ofSpec d.type.spec).cells⟩

namespace Lower

theorem Place.Takes.mono {p : Place} {t : Ty} {T T' : Typing} (h : p.Takes E T t)
    (hT : T.Extends T') : p.Takes E T' t := by
  cases h with
  | scalar ht hx => exact .scalar ht (hx.mono hT)
  | element hb hi => exact .element (hb.mono hT) (hi.mono hT)

theorem Place.Takes.store {p : Place} {t : Ty} {T : Typing} (h : p.Takes E T t) {v : Operand}
    (hv : v.HasType E T t) (σ : List Cell) : (p.store v).Typed E T σ σ := by
  cases h with
  | scalar ht hx => exact .copy ht hv hx
  | element hb hi => exact .storeElement hb hi hv

theorem place_typed (hE : E.Agrees Γ Λ) {x : Target} {t : Ty} (hx : x.HasType Γ t)
    (ht : Primitive t) (hn : Λ.Reads (x.judge Γ).report) (T : Typing) (σ : List Cell) :
    Grows (place Λ x) T fun r T' => Code.Typed E T' σ r.1 σ ∧ r.2.Takes E T' t := by
  cases hx with
  | name hmeaning _ =>
    have hcarries : (Operand.name _).Carries E T t := .name hE hmeaning
    exact grows_pure ⟨.nil, .scalar ht (hcarries.hasType ht)⟩
  | element hbase hindex =>
    refine (expr_typed hE _ .int hindex (Target.noted_index hn) T σ).bind
      fun i T₁ _ hres => ?_
    obtain ⟨hcode, hi⟩ := hres
    refine (arrayBase_typed hE hbase T₁ σ).bind fun b T₂ hT₂ hres => ?_
    obtain ⟨hload, hb⟩ := hres
    have hindex := (hi.hasType .int).mono hT₂
    exact grows_pure ⟨(hcode.mono hT₂).append hload, .element hb hindex⟩

theorem typeOf_target (hE : E.Agrees Γ Λ) {x : Target} {t : Ty} (hx : x.HasType Γ t)
    (hn : Λ.Reads (x.judge Γ).report) : Λ.typeOf x.mark.id = .ok t := by
  rw [Target.typeOf_of_reads hn, ((Target.clean_judge hE.proper x t).2 hx).1.2]

/-! ## Assignments -/

theorem expr_of_array (hE : E.Agrees Γ Λ) {e : Expr} {n : Nat} {t : Ty}
    (h : e.HasType Γ (.array n t)) :
    (∃ m x, e = .name m x) ∨ ∃ m inner, e = .paren m inner := by
  generalize hu : Ty.array n t = u at h
  cases h with
  | literal m v => cases v <;> cases hu
  | name => exact Or.inl ⟨_, _, rfl⟩
  | element hbase =>
    subst hu
    cases (hE.proper _ _ _ hbase).elem
  | call hcallee _ _ hvoid =>
    subst hu
    rcases (hE.function _ _ _ _ hcallee).2.2 with h | h
    · cases h
    · cases h
  | paren => exact Or.inr ⟨_, _, rfl⟩
  | unary _ hop =>
    subst hu
    cases hop.primitive
  | binary _ _ hop =>
    subst hu
    cases hop.primitive
  | max _ _ hmax =>
    subst hu
    cases hmax.primitive

theorem copyArray_eq (hE : E.Agrees Γ Λ) {value : Expr} {n : Nat} {t : Ty}
    (hv : value.HasType Γ (.array n t)) (x : String) (size : Nat) :
    copyArray Λ x size value = do
      let (code, src) ← expr Λ value
      let (loadSrc, srcBase) ← arrayBase Λ src
      let (loadDst, dstBase) ← arrayBase Λ (.name x)
      let index ← freshTemp
      let elem ← freshTemp
      return code ++ loadSrc ++ loadDst ++ copyElements dstBase srcBase index elem size := by
  rcases expr_of_array hE hv with ⟨m, y, rfl⟩ | ⟨m, inner, rfl⟩
  · rfl
  · rfl

theorem copyElements_typed {T : Typing} {dst src : Operand} {n m i j : Nat} {t : Ty}
    (hdst : dst.IsBase E T (.array m t)) (hsrc : src.IsBase E T (.array m t))
    (hi : numbered? T.temps i = some .int) (hj : numbered? T.temps j = some t) (σ : List Cell) :
    Code.Typed E T σ (copyElements dst src (.temp i) (.temp j) n) σ := by
  have hindex : (Operand.temp i).HasType E T .int := .temp hi
  have helem : (Operand.temp j).HasType E T t := .temp hj
  unfold copyElements
  induction List.range n with
  | nil => exact .nil
  | cons k ks ih =>
    rw [List.flatMap_cons]
    have hload : Instr.Typed E T σ (.loadElement (.temp j) src (.temp i)) σ :=
      .loadElement hsrc hindex helem
    have hstore : Instr.Typed E T σ (.storeElement dst (.temp i) (.temp j)) σ :=
      .storeElement hdst hindex helem
    exact .append (.cons (.constant (.int k) hindex) (.cons hload (.single hstore))) ih

theorem copyArray_typed (hE : E.Agrees Γ Λ) {x : String} {role : Role} {n : Nat} {t : Ty}
    (hx : Γ.meaning x = some (role, .array n t)) {value : Expr}
    (hv : value.HasType Γ (.array n t)) (hn : value.Noted Λ Γ) (size : Nat) (T : Typing)
    (σ : List Cell) :
    Grows (copyArray Λ x size value) T fun code T' => Code.Typed E T' σ code σ := by
  have ht := (hE.proper _ _ _ hx).elem
  rw [copyArray_eq hE hv]
  refine (expr_typed hE value _ hv hn T σ).bind fun hres T₁ _ hres2 => ?_
  obtain ⟨code, src⟩ := hres
  obtain ⟨hcode, hsrc⟩ := hres2
  cases hsrc with
  | value hp => cases hp
  | array _ hy =>
    refine (arrayBase_typed hE (hE.wins _ _ hy) T₁ σ).bind fun s T₂ hT₂ hres => ?_
    obtain ⟨hloadS, hs⟩ := hres
    refine (arrayBase_typed hE hx T₂ σ).bind fun d T₃ hT₃ hres => ?_
    obtain ⟨hloadD, hd⟩ := hres
    refine (grows_freshTemp T₃ Primitive.int.ofValue).bind fun o T₄ hT₄ hres => ?_
    obtain ⟨i, ho, hi⟩ := hres
    subst ho
    refine (grows_freshTemp T₄ ht.ofValue).bind fun o T₅ hT₅ hres => ?_
    obtain ⟨j, ho, hj⟩ := hres
    subst ho
    have hcells : Code.Typed E T₅ σ (copyElements d.2 s.2 (.temp i) (.temp j) size) σ :=
      copyElements_typed (hd.mono (hT₄.trans hT₅)) (hs.mono (hT₃.trans (hT₄.trans hT₅)))
        (numbered?_mono hT₅.temps hi) hj σ
    have hcode' := hcode.mono (hT₂.trans (hT₃.trans (hT₄.trans hT₅)))
    have hloadS' := hloadS.mono (hT₃.trans (hT₄.trans hT₅))
    have hloadD' := hloadD.mono (hT₄.trans hT₅)
    exact grows_pure (((hcode'.append hloadS').append hloadD').append hcells)

theorem assign_typed (hE : E.Agrees Γ Λ) {target : Target} {value : Expr} {t u : Ty}
    (hx : target.HasType Γ t) (hv : value.HasType Γ u) (hfits : Fits u t)
    (hnx : Λ.Reads (target.judge Γ).report) (hnv : value.Noted Λ Γ) (T : Typing)
    (σ : List Cell) :
    Grows (assign Λ target value) T fun code T' => Code.Typed E T' σ code σ := by
  refine (grows_typeOf T (typeOf_target hE hx hnx)).bind fun _ _ _ hres => ?_
  obtain ⟨h, h'⟩ := hres
  subst h h'
  have hdeclared := hx.declared hE.proper
  have hscalar : Primitive t → Grows (do
      let valueType ← typeOf Λ value.mark.id
      let p ← place Λ target
      let v ← expr Λ value
      let w ← coerce v.2 valueType t
      return p.1 ++ v.1 ++ w.1 ++ [p.2.store w.2]) T fun code T' => Code.Typed E T' σ code σ := by
    intro ht
    refine (grows_typeOf T (typeOf_noted hE hv hnv)).bind fun _ _ _ hres => ?_
    obtain ⟨h, h'⟩ := hres
    subst h h'
    refine (place_typed hE hx ht hnx T σ).bind fun p T₁ _ hres => ?_
    obtain ⟨hbefore, hp⟩ := hres
    refine (expr_typed hE value u hv hnv T₁ σ).bind fun r T₂ hT₂ hres => ?_
    obtain ⟨hcode, hr⟩ := hres
    refine (coerce_typed (hr.hasType (hfits.primitive ht)) t σ).bind
      fun r' T₃ hT₃ hres => ?_
    obtain ⟨hconv, hr'⟩ := hres
    rw [Ty.coerced_of_fits hfits] at hr'
    have hbefore' := hbefore.mono (hT₂.trans hT₃)
    have hstore := (hp.mono (hT₂.trans hT₃)).store hr' σ
    exact grows_pure (((hbefore'.append (hcode.mono hT₃)).append hconv).append (.single hstore))
  cases hx with
  | element hbase hindex =>
    have ht := (hE.proper _ _ _ hbase).elem
    have hnot : t.isArray = false := by cases ht <;> rfl
    simp only [hnot, Bool.false_eq_true, if_false]
    exact hscalar ht
  | name hmeaning hrole =>
    cases hdeclared with
    | function => exact absurd (hE.function _ _ _ _ hmeaning).1 hrole
    | value hof =>
      obtain ⟨b | ⟨n, b⟩⟩ := hof
      · have ht := Primitive.ofBase b
        have hnot : (Ty.ofSpec (.base b)).isArray = false := by cases b <;> rfl
        simp only [hnot, Bool.false_eq_true, if_false]
        exact hscalar ht
      · cases hfits
        exact copyArray_typed hE hmeaning hv hnv _ T σ

/-! ## Loops -/

theorem materialize_typed {v : Operand} {t : Ty} (ht : Primitive t) {T : Typing}
    (hv : v.HasType E T t) (σ : List Cell) : Grows (materialize v) T fun r T' =>
      Code.Typed E T' σ r.1 σ ∧ r.2.HasType E T' t := by
  unfold materialize
  by_cases htemp : v.text.toList.head? = some '%'
  · rw [if_pos htemp]
    exact grows_pure ⟨.nil, hv⟩
  · rw [if_neg htemp]
    refine (grows_freshTemp T ht.ofValue).bind fun o T₁ hT hres => ?_
    obtain ⟨k, ho, hk⟩ := hres
    subst ho
    have hdst : (Operand.temp k).HasType E T₁ t := .temp hk
    exact grows_pure ⟨.single (.copy ht (hv.mono hT) hdst), hdst⟩

theorem immediate_typed (E : Surroundings) (n : Int) (T : Typing) (σ : List Cell) :
    Grows (immediate n) T fun r T' =>
      Code.Typed E T' σ r.1 σ ∧ r.2.HasType E T' .int := by
  refine (grows_freshTemp T Primitive.int.ofValue).bind fun o T₁ _ hres => ?_
  obtain ⟨k, ho, hk⟩ := hres
  subst ho
  exact grows_pure ⟨.single (.constant (.int n) (.temp hk)), .temp hk⟩

theorem bounds_typed (hE : E.Agrees Γ Λ) {es : List Expr} (hes : ∀ e ∈ es, e.HasType Γ .int)
    (hn : ∀ e ∈ es, e.Noted Λ Γ) (T : Typing) (σ : List Cell) :
    Grows (bounds Λ es) T fun r T' => Code.Typed E T' σ r.1 σ ∧ r.2.length = es.length ∧
      ∀ v ∈ r.2, v.HasType E T' .int := by
  induction es generalizing T with
  | nil => exact grows_pure ⟨.nil, rfl, by rintro _ ⟨⟩⟩
  | cons e es ih =>
    obtain ⟨he, hes⟩ := List.forall_mem_cons.1 hes
    obtain ⟨hne, hnes⟩ := List.forall_mem_cons.1 hn
    refine (expr_typed hE e .int he hne T σ).bind fun r T₁ _ hres => ?_
    obtain ⟨hcode, hv⟩ := hres
    refine (materialize_typed .int (hv.hasType .int) σ).bind fun r' T₂ hT₂ hres => ?_
    obtain ⟨hkeep, hv'⟩ := hres
    refine (ih hes hnes T₂).bind fun more T₃ hT₃ hres => ?_
    obtain ⟨hmore, hlength, hvs⟩ := hres
    refine grows_pure ⟨?_, ?_, List.forall_mem_cons.2 ⟨hv'.mono hT₃, hvs⟩⟩
    · exact ((hcode.mono (hT₂.trans hT₃)).append (hkeep.mono hT₃)).append hmore
    · rw [List.length_cons, List.length_cons, hlength]

theorem loopBounds_typed {vs : List Operand} {T : Typing} (hne : vs ≠ [])
    (hvs : ∀ v ∈ vs, v.HasType E T .int) (σ : List Cell) :
    Grows (loopBounds vs) T fun r T' => ∃ code start stop step,
      r = some (code, start, stop, step) ∧ Code.Typed E T' σ code σ ∧
        start.HasType E T' .int ∧ stop.HasType E T' .int ∧ step.HasType E T' .int := by
  rcases vs with _ | ⟨a, _ | ⟨b, _ | ⟨c, rest⟩⟩⟩
  · exact absurd rfl hne
  · have ha := hvs a (by simp)
    refine (immediate_typed E 0 T σ).bind fun zero T₁ hT₁ hres => ?_
    obtain ⟨hzero, hstart⟩ := hres
    refine (immediate_typed E 1 T₁ σ).bind fun one T₂ hT₂ hres => ?_
    obtain ⟨hone, hstep⟩ := hres
    exact grows_pure ⟨_, _, _, _, rfl, (hzero.mono hT₂).append hone, hstart.mono hT₂,
      ha.mono (hT₁.trans hT₂), hstep⟩
  · have ha := hvs a (by simp)
    have hb := hvs b (by simp)
    refine (immediate_typed E 1 T σ).bind fun one T₁ hT₁ hres => ?_
    obtain ⟨hone, hstep⟩ := hres
    exact grows_pure ⟨_, _, _, _, rfl, hone, ha.mono hT₁, hb.mono hT₁, hstep⟩
  · exact grows_pure ⟨_, _, _, _, rfl, .nil, hvs a (by simp), hvs b (by simp), hvs c (by simp)⟩

inductive Direction.Fits (E : Surroundings) (T : Typing) : Direction → Prop
  | up : Fits E T .up
  | down : Fits E T .down
  | tested {isUp : Operand} : isUp.HasType E T .bool → Fits E T (.tested isUp)

theorem Direction.Fits.mono {d : Direction} {T T' : Typing} (h : Direction.Fits E T d)
    (hT : T.Extends T') : Direction.Fits E T' d := by
  cases h with
  | up => exact .up
  | down => exact .down
  | tested h => exact .tested (h.mono hT)

theorem direction_typed {step : Operand} {T : Typing} (hstep : step.HasType E T .int)
    (written : Option Expr) (σ : List Cell) : Grows (direction step written) T fun r T' =>
      Code.Typed E T' σ r.1 σ ∧ Direction.Fits E T' r.2 := by
  have htested : Grows (direction.test step) T fun r T' =>
      Code.Typed E T' σ r.1 σ ∧ Direction.Fits E T' r.2 := by
    refine (immediate_typed E 0 T σ).bind fun zero T₁ hT₁ hres => ?_
    obtain ⟨hcode, hzero⟩ := hres
    refine (grows_freshTemp T₁ Primitive.bool.ofValue).bind fun o T₂ hT₂ hres => ?_
    obtain ⟨k, ho, hk⟩ := hres
    subst ho
    have hless : (BinaryInstr.less .whole).HasType .int .int .bool := .order (by simp) (by simp)
    have hisUp : (Operand.temp k).HasType E T₂ .bool := .temp hk
    have hstep' := hstep.mono (hT₁.trans hT₂)
    exact grows_pure ⟨(hcode.mono hT₂).append
      (.single (.binary hless (hzero.mono hT₂) hstep' hisUp)), .tested hisUp⟩
  unfold direction
  cases written.elim (some 1) constantInt with
  | none => exact htested
  | some k =>
    simp only
    split
    · exact grows_pure ⟨.nil, .up⟩
    · split
      · exact grows_pure ⟨.nil, .down⟩
      · exact htested

theorem loopTest_typed {T : Typing} {n : Nat} {condition control stop : Operand} {d : Direction}
    {σ : List Cell} (hcondition : condition.HasType E T .bool) (hcontrol : control.HasType E T .int)
    (hstop : stop.HasType E T .int) (hd : Direction.Fits E T d)
    (hdown : T.stackAt? ⟨.forDown, n⟩ = some σ) (htest : T.stackAt? ⟨.forTest, n⟩ = some σ) :
    Code.Typed E T σ (loopTest n condition control stop d) σ := by
  have hless : (BinaryInstr.less .whole).HasType .int .int .bool := .order (by simp) (by simp)
  have hup : Instr.Typed E T σ (.binary (.less .whole) condition control stop) σ :=
    .binary hless hcontrol hstop hcondition
  have hdescending : Instr.Typed E T σ (.binary (.less .whole) condition stop control) σ :=
    .binary hless hstop hcontrol hcondition
  cases hd with
  | up => exact .single hup
  | down => exact .single hdescending
  | tested hisUp =>
    refine .cons (.jumpUnless hisUp hdown) (.cons hup (.cons (.jump htest) ?_))
    exact .cons (.label hdown) (.cons hdescending (.single (.label htest)))

/-! ## Statements -/

def LowersStmt (E : Surroundings) (Γ : Context) (Λ : Lowering) (s : Stmt) : Prop :=
  s.Ok Γ → s.Noted Λ Γ → ∀ T, Grows (stmt Λ s) T fun code T' => Code.Typed E T' [] code []

theorem stmts_typed_of {ss : List Stmt} (h : ∀ s ∈ ss, LowersStmt E Γ Λ s)
    (hok : ∀ s ∈ ss, s.Ok Γ) (hn : ∀ s ∈ ss, s.Noted Λ Γ) (T : Typing) :
    Grows (stmts Λ ss) T fun code T' => Code.Typed E T' [] code [] := by
  induction ss generalizing T with
  | nil => exact grows_pure .nil
  | cons s ss ih =>
    obtain ⟨hs, hss⟩ := List.forall_mem_cons.1 h
    obtain ⟨hoks, hokss⟩ := List.forall_mem_cons.1 hok
    obtain ⟨hns, hnss⟩ := List.forall_mem_cons.1 hn
    refine (hs hoks hns T).bind fun code T₁ _ hcode => ?_
    refine (ih hss hokss hnss T₁).bind fun more T₂ hT₂ hmore => ?_
    exact grows_pure ((hcode.mono hT₂).append hmore)

theorem ifThen_typed (hE : E.Agrees Γ Λ) {m : Mark} {condition : Expr} {body : List Stmt}
    (ih : ∀ s ∈ body, LowersStmt E Γ Λ s) : LowersStmt E Γ Λ (.ifThen m condition body) := by
  intro hok hn T
  obtain ⟨hnc, hnb⟩ := hn.ifThen
  cases hok with
  | ifThen hc hb =>
    refine (expr_typed hE condition .bool hc hnc T []).bind fun r T₁ _ hres => ?_
    obtain ⟨htest, hv⟩ := hres
    refine (grows_freshBranch T₁ []).bind fun n T₂ hT₂ hres => ?_
    obtain ⟨_, hendif, _⟩ := hres
    refine (stmts_typed_of ih hb hnb T₂).bind fun yes T₃ hT₃ hyes => ?_
    have hcond := (hv.hasType .bool).mono (hT₂.trans hT₃)
    have hl := hT₃.stackAt? hendif
    refine grows_pure ?_
    refine Code.Typed.append (.append (htest.mono (hT₂.trans hT₃)) ?_) (.single (.label hl))
    exact .cons (.jumpUnless hcond hl) hyes

theorem ifElse_typed (hE : E.Agrees Γ Λ) {m : Mark} {condition : Expr} {body otherwise : List Stmt}
    (ihb : ∀ s ∈ body, LowersStmt E Γ Λ s) (iho : ∀ s ∈ otherwise, LowersStmt E Γ Λ s) :
    LowersStmt E Γ Λ (.ifElse m condition body otherwise) := by
  intro hok hn T
  obtain ⟨hnc, hnb, hno⟩ := hn.ifElse
  cases hok with
  | ifElse hc hb ho =>
    refine (expr_typed hE condition .bool hc hnc T []).bind fun r T₁ _ hres => ?_
    obtain ⟨htest, hv⟩ := hres
    refine (grows_freshBranch T₁ []).bind fun n T₂ hT₂ hres => ?_
    obtain ⟨helse, hendif, _⟩ := hres
    refine (stmts_typed_of ihb hb hnb T₂).bind fun yes T₃ hT₃ hyes => ?_
    refine (stmts_typed_of iho ho hno T₃).bind fun no T₄ hT₄ hno => ?_
    have hcond := (hv.hasType .bool).mono (hT₂.trans (hT₃.trans hT₄))
    have hle := (hT₃.trans hT₄).stackAt? helse
    have hl := (hT₃.trans hT₄).stackAt? hendif
    have htest' := htest.mono (hT₂.trans (hT₃.trans hT₄))
    have hyes' : Code.Typed E T₄ [] (.jumpUnless r.2 ⟨.else, n⟩ :: yes) [] :=
      .cons (.jumpUnless hcond hle) (hyes.mono hT₄)
    have hno' : Code.Typed E T₄ [] (.jump ⟨.endif, n⟩ :: .label ⟨.else, n⟩ :: no) [] :=
      .cons (.jump hl) (.cons (.label hle) hno)
    exact grows_pure (((htest'.append hyes').append hno').append (.single (.label hl)))

theorem while_typed (hE : E.Agrees Γ Λ) {m : Mark} {condition : Expr} {body : List Stmt}
    (ih : ∀ s ∈ body, LowersStmt E Γ Λ s) : LowersStmt E Γ Λ (.while m condition body) := by
  intro hok hn T
  obtain ⟨hnc, hnb⟩ := hn.while_
  cases hok with
  | while_ hc hb =>
    refine (grows_freshLoop T []).bind fun n T₁ _ hlabels => ?_
    refine (expr_typed hE condition .bool hc hnc T₁ []).bind fun r T₂ hT₂ hres => ?_
    obtain ⟨htest, hv⟩ := hres
    refine (stmts_typed_of ih hb hnb T₂).bind fun inner T₃ hT₃ hinner => ?_
    have hcond := (hv.hasType .bool).mono hT₃
    have hstart := (hT₂.trans hT₃).stackAt? (hlabels .while (by simp))
    have hend := (hT₂.trans hT₃).stackAt? (hlabels .endwhile (by simp))
    have htest' : Code.Typed E T₃ [] (.label ⟨.while, n⟩ :: r.1) [] :=
      .cons (.label hstart) (htest.mono hT₃)
    have hinner' : Code.Typed E T₃ [] (.jumpUnless r.2 ⟨.endwhile, n⟩ :: inner) [] :=
      .cons (.jumpUnless hcond hend) hinner
    exact grows_pure ((htest'.append hinner').append
      (.cons (.jump hstart) (.single (.label hend))))

theorem for_typed (hE : E.Agrees Γ Λ) {m : Mark} {control : Ident} {range : List Expr}
    {body : List Stmt} (ih : ∀ s ∈ body, LowersStmt E Γ Λ s) :
    LowersStmt E Γ Λ (.for m control range body) := by
  intro hok hn T
  obtain ⟨hnr, hnb⟩ := hn.for_
  cases hok with
  | for_ hcontrol hone _ hrange hb =>
    refine (bounds_typed hE hrange hnr T []).bind fun r T₁ _ hres => ?_
    obtain ⟨hevaluate, hlength, hvs⟩ := hres
    have hne : r.2 ≠ [] := by
      intro h
      rw [h, List.length_nil] at hlength
      omega
    refine (loopBounds_typed hne hvs []).bind
      fun q T₂ hT₂ hres => ?_
    obtain ⟨defaults, start, stop, step, hq, hdefaults, hstart, hstop, hstep⟩ := hres
    subst hq
    refine (direction_typed hstep range[2]? []).bind fun d T₃ hT₃ hres => ?_
    obtain ⟨hsign, hd⟩ := hres
    refine (grows_freshLoop T₃ []).bind fun n T₄ hT₄ hlabels => ?_
    refine (grows_freshTemp T₄ Primitive.bool.ofValue).bind fun o T₅ hT₅ hres => ?_
    obtain ⟨k, ho, hk⟩ := hres
    subst ho
    refine (stmts_typed_of ih hb hnb T₅).bind fun inner T₆ hT₆ hinner => ?_
    have h₄ := hT₄.trans (hT₅.trans hT₆)
    have h₃ := hT₃.trans h₄
    have hcondition : (Operand.temp k).HasType E T₆ .bool :=
      .temp (numbered?_mono hT₆.temps hk)
    have hcarries : (Operand.name control.name).Carries E T₆ .int := .name hE hcontrol
    have hi := hcarries.hasType .int
    have hlabel : ∀ kind ∈ [LabelKind.while, .endwhile, .for, .endfor, .forDown, .forTest],
        T₆.stackAt? ⟨kind, n⟩ = some [] :=
      fun kind hkind => (hT₅.trans hT₆).stackAt? (hlabels kind hkind)
    have hfor := hlabel .for (by simp)
    have hend := hlabel .endfor (by simp)
    have hadd : (BinaryInstr.add .whole).HasType .int .int .int := .whole (by simp)
    have hbefore := ((hevaluate.mono (hT₂.trans h₃)).append (hdefaults.mono h₃)).append
      (hsign.mono h₄)
    have hhead : Code.Typed E T₆ [] (.copy (.name control.name) start :: .label ⟨.for, n⟩ ::
        loopTest n (.temp k) (.name control.name) stop d.2) [] :=
      .cons (.copy .int (hstart.mono h₃) hi) (.cons (.label hfor)
        (loopTest_typed hcondition hi (hstop.mono h₃) (hd.mono h₄)
          (hlabel .forDown (by simp)) (hlabel .forTest (by simp))))
    have hinner' : Code.Typed E T₆ [] (.jumpUnless (.temp k) ⟨.endfor, n⟩ :: inner) [] :=
      .cons (.jumpUnless hcondition hend) hinner
    have hnext : Code.Typed E T₆ [] [.binary (.add .whole) (.name control.name)
        (.name control.name) step, .jump ⟨.for, n⟩, .label ⟨.endfor, n⟩] [] :=
      .cons (.binary hadd hi (hstep.mono h₃) hi) (.cons (.jump hfor) (.single (.label hend)))
    exact grows_pure (((hbefore.append hhead).append hinner').append hnext)

theorem callStmt_typed (hE : E.Agrees Γ Λ) {m : Mark} {callee : Ident} {args : List Expr} :
    LowersStmt E Γ Λ (.call m callee args) := by
  intro hok hn T
  cases hok with
  | @call _ _ _ role params ts t hcallee htypes hfits =>
    obtain ⟨-, hsignature, -⟩ := hE.function _ _ _ _ hcallee
    have hf : calleeType Λ callee.name = pure (.function params t) := by
      rw [calleeType, hE.meaning, hcallee]
      rfl
    have hcount : args.length = params.length := htypes.length_eq.trans hfits.length_eq
    have hparams := (hE.proper _ _ _ hcallee).params
    have ih : ∀ a ∈ args, Lowers E Γ Λ a := fun a _ => expr_typed hE a
    simp only [stmt, hf, pure_bind]
    by_cases hvoid : t = .void
    · subst hvoid
      have hproc : (Ty.function params .void).isProcedure = true := rfl
      refine (arguments_typed hE callee.name ih htypes hfits hparams hn.callArgs T []).bind
        fun pushes T₁ _ hpushes => ?_
      have hdrops := drops_typed (E := E) (T := T₁) (Cell.arguments params) []
      have hlength : (Cell.arguments params).length = args.length := by
        simp [Cell.arguments, hcount]
      rw [hlength] at hdrops
      simp only [hproc, Bool.not_true, if_true, List.append_nil]
      exact grows_pure (hpushes.append (.cons (.callProcedure hsignature) hdrops))
    · have hproc : (Ty.function params t).isProcedure = false := by
        cases t with
        | void => exact absurd rfl hvoid
        | _ => rfl
      refine (arguments_typed hE callee.name ih htypes hfits hparams hn.callArgs T
        [.reserved]).bind fun pushes T₁ _ hpushes => ?_
      have hcode := callCode_typed hsignature hvoid hpushes hcount
      simp only [hproc, Bool.not_false, Bool.false_eq_true, if_false]
      exact grows_pure (hcode.append (.single .drop))

theorem channel_carries {t : Ty} (ht : Primitive t) : (channel t).Carries t := by
  cases ht with
  | int => exact .int
  | float => exact .float
  | bool => exact .bool
  | char => exact .char

theorem read_typed (hE : E.Agrees Γ Λ) {m : Mark} {target : Target} :
    LowersStmt E Γ Λ (.read m target) := by
  intro hok hn T
  cases hok with
  | read hx ht =>
    have hchannel := channel_carries ht
    refine (grows_typeOf T (typeOf_target hE hx hn.read)).bind fun _ _ _ hres => ?_
    obtain ⟨h, h'⟩ := hres
    subst h h'
    refine (place_typed hE hx ht hn.read T []).bind fun hres T₁ _ hres2 => ?_
    obtain ⟨before, p⟩ := hres
    obtain ⟨hbefore, hp⟩ := hres2
    cases hp with
    | scalar _ hx => exact grows_pure (hbefore.append (.single (.read hchannel hx)))
    | element hb hi =>
      refine (grows_freshTemp T₁ ht.ofValue).bind fun o T₂ hT₂ hres => ?_
      obtain ⟨k, ho, hk⟩ := hres
      subst ho
      have hdst : (Operand.temp k).HasType E T₂ _ := .temp hk
      exact grows_pure ((hbefore.mono hT₂).append (.cons (.read hchannel hdst)
        (.single (.storeElement (hb.mono hT₂) (hi.mono hT₂) hdst))))

theorem writeChars_typed {T : Typing} {n : Nat} (hn : numbered? T.temps n = some .char)
    (cs : List Char) (σ : List Cell) : Code.Typed E T σ (writeChars (.temp n) cs) σ := by
  have ht : (Operand.temp n).HasType E T .char := .temp hn
  rw [writeChars_eq]
  induction Glyph.ofText cs with
  | nil => exact .nil
  | cons glyph glyphs ih =>
    rw [List.flatMap_cons]
    refine .append ?_ ih
    cases glyph with
    | char raw => exact .cons (.constant (.char raw) ht) (.single (.write .char ht))
    | line => exact .single .writeLine

theorem primitive_result (hE : E.Agrees Γ Λ) {value : Expr} {t : Ty} (hv : value.HasType Γ t)
    (hfits : Fits t Γ.result) : Primitive Γ.result := by
  rcases hE.plain with h | h
  · rw [h] at hfits
    cases hfits
    exact absurd rfl (hv.declared hE.proper).ne_void
  · exact h

theorem ret_typed (hE : E.Agrees Γ Λ) {m : Mark} {value : Expr} :
    LowersStmt E Γ Λ (.ret m (some value)) := by
  intro hok hn T
  cases hok with
  | ret hv hfits =>
    have ht := primitive_result hE hv hfits
    refine (grows_typeOf T (typeOf_noted hE hv hn.ret)).bind fun _ _ _ hres => ?_
    obtain ⟨h, h'⟩ := hres
    subst h h'
    refine (expr_typed hE value _ hv hn.ret T []).bind fun r T₁ _ hres => ?_
    obtain ⟨hcode, hr⟩ := hres
    rw [hE.result]
    refine (coerce_typed (hr.hasType (hfits.primitive ht)) Γ.result []).bind
      fun r' T₂ hT₂ hres => ?_
    obtain ⟨hconv, hr'⟩ := hres
    rw [Ty.coerced_of_fits hfits] at hr'
    have hdst : Operand.result.HasType E T₂ Γ.result := by
      rw [← hE.given] at ht ⊢
      exact .result ht
    exact grows_pure (((hcode.mono hT₂).append hconv).append
      (.cons (.copy ht hr' hdst) (.single .ret)))

theorem stmt_typed (hE : E.Agrees Γ Λ) (s : Stmt) : LowersStmt E Γ Λ s := by
  induction s using Stmt.ind with
  | assign m target value =>
    intro hok hn T
    obtain ⟨hnx, hnv⟩ := hn.assign
    cases hok with
    | assign hx hv hfits => exact assign_typed hE hx hv hfits hnx hnv T []
  | ifThen m condition body ih => exact ifThen_typed hE ih
  | ifElse m condition body otherwise ihb iho => exact ifElse_typed hE ihb iho
  | while_ m condition body ih => exact while_typed hE ih
  | for_ m control range body ih => exact for_typed hE ih
  | call m callee args => exact callStmt_typed hE
  | read m target => exact read_typed hE
  | write m value =>
    intro hok hn T
    cases hok with
    | write hv ht =>
      refine (grows_typeOf T (typeOf_noted hE hv hn.write)).bind fun _ _ _ hres => ?_
      obtain ⟨h, h'⟩ := hres
      subst h h'
      refine (expr_typed hE value _ hv hn.write T []).bind fun r T₁ _ hres => ?_
      obtain ⟨hcode, hr⟩ := hres
      exact grows_pure (hcode.append (.single (.write (channel_carries ht) (hr.hasType ht))))
  | writeText m raw =>
    intro _ _ T
    refine (grows_freshTemp T Primitive.char.ofValue).bind fun o T₁ _ hres => ?_
    obtain ⟨k, ho, hk⟩ := hres
    subst ho
    exact grows_pure (writeChars_typed hk raw.toList [])
  | ret m value =>
    cases value with
    | none =>
      intro _ _ T
      exact grows_pure (.single .ret)
    | some value => exact ret_typed hE

/-! ## Subroutines -/

theorem locals_typed {ds : List Declaration}
    (h : ∀ d ∈ ds, Λ.typeOf d.type.mark.id = .ok (.ofSpec d.type.spec)) (T : Typing) :
    Grows (locals Λ ds) T fun vars _ =>
      vars = ds.flatMap fun d => d.names.map fun x => ⟨x.name, (Ty.ofSpec d.type.spec).cells⟩ := by
  induction ds generalizing T with
  | nil => exact grows_pure rfl
  | cons d ds ih =>
    obtain ⟨hd, hds⟩ := List.forall_mem_cons.1 h
    refine (grows_typeOf T hd).bind fun _ _ _ hres => ?_
    obtain ⟨h, h'⟩ := hres
    subst h h'
    refine (ih hds T).bind fun more T₁ _ hmore => ?_
    subst hmore
    exact grows_pure rfl

theorem closed_typed {T : Typing} {code : Code} (h : Code.Typed E T [] code [])
    (isProcedure : Bool) : Code.Typed E T [] (closed isProcedure code) [] := by
  unfold closed
  split
  · exact h.append (.single .ret)
  · exact h

theorem subroutine_typed (hE : E.Agrees Γ Λ) {f : Function} (hbody : ∀ s ∈ f.body, s.Ok Γ)
    (hn : ∀ s ∈ f.body, s.Noted Λ Γ)
    (hd : ∀ d ∈ f.declarations, Λ.typeOf d.type.mark.id = .ok (.ofSpec d.type.spec)) :
    ∃ sub T, subroutine Λ f.type f = .ok sub ∧ sub.Heads f ∧ Code.Typed E T [] sub.code [] := by
  have hstmts : ∀ s ∈ f.body, LowersStmt E Γ Λ s := fun s _ => stmt_typed hE s
  have hfunction : Grows (function Λ f.type f) .empty fun sub T =>
      sub.Heads f ∧ Code.Typed E T [] sub.code [] := by
    refine (locals_typed hd .empty).bind fun vars T _ hvars => ?_
    refine (stmts_typed_of hstmts hbody hn T).bind fun code T₁ _ hcode => ?_
    exact grows_pure ⟨⟨rfl, rfl, hvars⟩, closed_typed hcode _⟩
  obtain ⟨sub, T, hrun, -, hheads, hcode⟩ := hfunction
  refine ⟨sub, T, ?_, hheads, hcode⟩
  exact congrArg Prod.fst hrun

end Lower

/-! ## Programs -/

def Program.surroundings (p : Program) (f : Function) : Surroundings where
  meaning := Entry.meaning? f.entries
  signature x := (p.functions.find? (·.name.name = x)).map fun g =>
    (g.params.map fun q => .ofSpec q.type.spec, g.resultType)
  result := f.resultType

def Program.Plain (p : Program) : Prop :=
  ∀ f ∈ p.functions, ∀ t, f.result = some t → ∃ b, t.spec = .base b

theorem Program.Plain.resultType {p : Program} (h : p.Plain) {f : Function}
    (hf : f ∈ p.functions) : f.resultType = .void ∨ Primitive f.resultType := by
  unfold Function.resultType
  cases hr : f.result with
  | none => exact Or.inl rfl
  | some t =>
    obtain ⟨b, hb⟩ := h f hf t hr
    right
    simp only [Option.elim_some, hb]
    exact Primitive.ofBase b

theorem Entry.role_of_meaning? {f : Function} {x : String} {role : Role} {t : Ty}
    (h : Entry.meaning? f.entries x = some (role, t)) : role ≠ .function ∧ t.OfValue := by
  obtain ⟨e, he, -, hrole, htype⟩ := Entry.exists_of_meaning? h
  subst hrole htype
  rcases List.mem_append.1 he with h | h
  · obtain ⟨q, -, rfl⟩ := List.mem_map.1 h
    exact ⟨by rintro ⟨⟩, .spec q.type.spec⟩
  · obtain ⟨d, -, hd⟩ := List.mem_flatMap.1 h
    obtain ⟨y, -, rfl⟩ := List.mem_map.1 hd
    exact ⟨by rintro ⟨⟩, .spec d.type.spec⟩

theorem Ty.OfValue.isFunction {t : Ty} (h : t.OfValue) : t.isFunction = false := by
  rcases h with ⟨b | ⟨n, b⟩⟩
  · cases b <;> rfl
  · rfl

theorem Program.meaning_cases {p : Program} {f : Function} {x : String} {role : Role} {t : Ty}
    (h : p.meaning f x = some (role, t)) :
    (Entry.meaning? f.entries x = some (role, t) ∧ role ≠ .function ∧ t.OfValue) ∨
      ∃ g ∈ p.functions, p.functions.find? (·.name.name = x) = some g ∧ role = .function ∧
        t = g.type := by
  rcases Option.or_eq_some_iff.1 h with hown | ⟨-, hglobal⟩
  · exact Or.inl ⟨hown, Entry.role_of_meaning? hown⟩
  · right
    rw [Program.entries, Entry.meaning?_entry] at hglobal
    obtain ⟨g, hg, hm⟩ := Option.map_eq_some_iff.1 hglobal
    cases hm
    exact ⟨g, List.mem_of_find?_eq_some hg, hg, rfl, rfl⟩

theorem Program.agrees {p : Program} (hp : p.Plain) {f : Function} (hf : f ∈ p.functions)
    (s : Session) : (p.surroundings f).Agrees (p.context f) (p.lowering s f) where
  proper := p.proper_context f
  meaning := rfl
  result := rfl
  given := rfl
  own x role t hx ht := by
    rcases Program.meaning_cases hx with ⟨hown, hrole, -⟩ | ⟨g, -, -, -, rfl⟩
    · exact ⟨hown, hrole⟩
    · cases ht
  wins x m hx := by
    change (Entry.meaning? f.entries x).or _ = some m
    have hown : Entry.meaning? f.entries x = some m := hx
    rw [hown, Option.some_or]
  function x role params t hx := by
    rcases Program.meaning_cases hx with ⟨-, -, hv⟩ | ⟨g, hg, hfind, rfl, ht⟩
    · have hnot := hv.isFunction
      cases hnot
    · cases ht
      refine ⟨rfl, ?_, hp.resultType hg⟩
      simp only [surroundings, hfind, Option.map_some]
  plain := hp.resultType hf

theorem Program.Analyzed.noted {p : Program} {s : Session} (hs : p.Analyzed s) {f : Function}
    (hf : f ∈ p.functions) : ∀ st ∈ f.body, st.Noted (p.lowering s f) (p.context f) :=
  Stmt.noted_all fun n hn => hs.note f hf n hn

theorem mapM_eq_ok {ε α β : Type} {f : α → Except ε β} {P : α → β → Prop} {as : List α}
    (h : ∀ a ∈ as, ∃ b, f a = .ok b ∧ P a b) :
    ∃ bs, as.mapM f = .ok bs ∧ List.Forall₂ P as bs := by
  induction as with
  | nil => exact ⟨[], rfl, .nil⟩
  | cons a as ih =>
    obtain ⟨⟨b, hb, hp⟩, tail⟩ := List.forall_mem_cons.1 h
    obtain ⟨bs, hbs, hps⟩ := ih tail
    refine ⟨b :: bs, ?_, .cons hp hps⟩
    rw [List.mapM_cons, hb, hbs]
    rfl

theorem Program.lowered_typed {p : Program} (hplain : p.Plain) (hp : p.WellTyped) {s : Session}
    (hs : p.Analyzed s) : ∃ a, p.lowered s = .ok a ∧ List.Forall₂ (fun f sub =>
      Lower.subroutine (p.lowering s f) f.type f = .ok sub ∧ sub.Heads f ∧
        ∃ T, Code.Typed (p.surroundings f) T [] sub.code []) p.functions a.subroutines := by
  have hfunctions : ∀ f ∈ p.functions, ∃ sub, Lower.subroutine (p.lowering s f) f.type f = .ok sub ∧
      Lower.subroutine (p.lowering s f) f.type f = .ok sub ∧ sub.Heads f ∧
        ∃ T, Code.Typed (p.surroundings f) T [] sub.code [] := by
    intro f hf
    have hsizes : ∀ d ∈ f.declarations,
        (p.lowering s f).typeOf d.type.mark.id = .ok (.ofSpec d.type.spec) :=
      fun d hd => hs.typeOf_declaration hf hd
    obtain ⟨sub, T, hsub, hheads, hcode⟩ := Lower.subroutine_typed
      (Program.agrees hplain hf s) (hp.body f hf) (hs.noted hf) hsizes
    exact ⟨sub, hsub, hsub, hheads, T, hcode⟩
  obtain ⟨subs, hsubs, htyped⟩ := mapM_eq_ok hfunctions
  refine ⟨⟨subs⟩, ?_, htyped⟩
  rw [Program.lowered, hsubs]
  rfl

end Asl
