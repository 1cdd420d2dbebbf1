import Asl.Proofs.Typing.Program

/-!
# What a body asks of its context

A body that is in order uses the functions of its program only to call them: no rule admits the type
of a function for a value. So its judgement depends on what its own names mean, on its function's
result and on the functions that it calls. In a context that differs in other functions, the body
gets the same types and is in order, too.
-/
namespace Asl

mutual

def Expr.callees : Expr → List String
  | .literal _ _ | .name _ _ => []
  | .element _ _ index => index.callees
  | .call _ callee args => callee.name :: Expr.calleesAll args
  | .paren _ inner => inner.callees
  | .unary _ _ operand => operand.callees
  | .binary _ _ lhs rhs => lhs.callees ++ rhs.callees
  | .max _ args => Expr.calleesAll args

def Expr.calleesAll : List Expr → List String
  | [] => []
  | e :: es => e.callees ++ Expr.calleesAll es

end

def Target.callees : Target → List String
  | .name _ _ => []
  | .element _ _ index => index.callees

mutual

def Stmt.callees : Stmt → List String
  | .assign _ target value => target.callees ++ value.callees
  | .ifThen _ condition body => condition.callees ++ Stmt.calleesAll body
  | .ifElse _ condition body otherwise =>
      condition.callees ++ (Stmt.calleesAll body ++ Stmt.calleesAll otherwise)
  | .while _ condition body => condition.callees ++ Stmt.calleesAll body
  | .for _ _ range body => Expr.calleesAll range ++ Stmt.calleesAll body
  | .call _ callee args => callee.name :: Expr.calleesAll args
  | .read _ target => target.callees
  | .write _ value => value.callees
  | .writeText _ _ | .ret _ none => []
  | .ret _ (some value) => value.callees

def Stmt.calleesAll : List Stmt → List String
  | [] => []
  | s :: ss => s.callees ++ Stmt.calleesAll ss

end

def Function.callees (f : Function) : List String := Stmt.calleesAll f.body

theorem Ty.OfValue.not_function {t : Ty} (h : t.OfValue) : t.isFunction = false := by
  rcases h with ⟨(b | ⟨n, b⟩)⟩
  · cases b <;> rfl
  · rfl

theorem Primitive.not_function {t : Ty} (h : Primitive t) : t.isFunction = false :=
  h.ofValue.not_function

theorem Fits.not_function {t u : Ty} (h : Fits t u) (hu : u.isFunction = false) :
    t.isFunction = false := by
  cases h with
  | same => exact hu
  | widen => rfl

theorem UnaryOp.HasType.operand_primitive {op : UnaryOp} {t u : Ty} (h : op.HasType t u) :
    Primitive t := by
  cases h with
  | plus h => exact h.primitive
  | minus h => exact h.primitive
  | not => exact .bool

theorem BinaryOp.HasType.operands_primitive {op : BinaryOp} {t u r : Ty} (h : op.HasType t u r) :
    Primitive t ∧ Primitive u := by
  cases h with
  | arithmetic _ h =>
    cases h with
    | whole => exact ⟨.int, .int⟩
    | left hu => exact ⟨.float, hu.primitive⟩
    | right ht => exact ⟨ht.primitive, .float⟩
  | mod => exact ⟨.int, .int⟩
  | numbers _ ht hu => exact ⟨ht.primitive, hu.primitive⟩
  | equality _ h => exact ⟨h, h⟩
  | ordering => exact ⟨.char, .char⟩
  | logic => exact ⟨.bool, .bool⟩

theorem HasMaximum.operands_primitive {ts : List Ty} {t : Ty} (h : HasMaximum ts t) :
    ∀ u ∈ ts, Primitive u := by
  cases h with
  | whole h => exact fun u hu => h u hu ▸ .int
  | float h => exact fun u hu => (h u hu).primitive
  | char h => exact fun u hu => h u hu ▸ .char

theorem Ty.not_function_of_fits {ts params : List Ty} (h : List.Forall₂ Fits ts params)
    (hparams : ∀ p ∈ params, p.OfValue) : ∀ t ∈ ts, t.isFunction = false := by
  induction h with
  | nil => exact fun _ h => absurd h List.not_mem_nil
  | cons hfits _ ih =>
    obtain ⟨hhead, htail⟩ := List.forall_mem_cons.1 hparams
    exact List.forall_mem_cons.2 ⟨hfits.not_function hhead.not_function, ih htail⟩

/-- A second context that is like the first but for functions with other names than these. -/
structure Context.SameCalls (Γ Γ' : Context) (names : List String) : Prop where
  proper : Γ.Proper
  role : ∀ x role t, Γ.meaning x = some (role, t) → (role = .function ↔ t.isFunction = true)
  value : ∀ x role t, Γ.meaning x = some (role, t) → role ≠ .function →
    Γ'.meaning x = Γ.meaning x
  callee : ∀ x ∈ names, Γ'.meaning x = Γ.meaning x
  result : Γ'.result = Γ.result
  given : Γ.result.isFunction = false

variable {Γ Γ' : Context}

namespace Context.SameCalls

variable {names names' : List String}

theorem mono (h : Γ.SameCalls Γ' names) (hsub : names' ⊆ names) : Γ.SameCalls Γ' names' :=
  { h with callee := fun x hx => h.callee x (hsub hx) }

theorem append (h : Γ.SameCalls Γ' (names ++ names')) :
    Γ.SameCalls Γ' names ∧ Γ.SameCalls Γ' names' :=
  ⟨h.mono (List.subset_append_left _ _), h.mono (List.subset_append_right _ _)⟩

theorem tail {x : String} (h : Γ.SameCalls Γ' (x :: names)) : Γ.SameCalls Γ' names :=
  h.mono (List.subset_cons_self _ _)

theorem judgeName_callee {x : Ident} (h : Γ.SameCalls Γ' (x.name :: names)) :
    Γ'.judgeName x = Γ.judgeName x := by
  rw [Context.judgeName, Context.judgeName, h.callee x.name List.mem_cons_self]

theorem judgeName_value (h : Γ.SameCalls Γ' names) {x : Ident} {role : Role} {t : Ty}
    (hx : Γ.meaning x.name = some (role, t)) (ht : t.isFunction = false) :
    Γ'.judgeName x = Γ.judgeName x := by
  have hrole : role ≠ .function := by
    intro hrole
    rw [(h.role _ _ _ hx).1 hrole] at ht
    cases ht
  rw [Context.judgeName, Context.judgeName, h.value _ _ _ hx hrole]

end Context.SameCalls

theorem Expr.judgeAll_eq {es : List Expr} {ts : List Ty}
    (htypes : List.Forall₂ (HasType Γ) es ts) (hts : ∀ t ∈ ts, t.isFunction = false)
    (hes : Γ.SameCalls Γ' (Expr.calleesAll es))
    (ih : ∀ e ∈ es, ∀ {t : Ty}, e.HasType Γ t → t.isFunction = false → Γ.SameCalls Γ' e.callees →
      e.judge Γ' = e.judge Γ) : judgeAll Γ' es = judgeAll Γ es := by
  induction htypes with
  | nil => rfl
  | cons htype _ ihs =>
    obtain ⟨hhead, htail⟩ := List.forall_mem_cons.1 hts
    obtain ⟨ih, ihes⟩ := List.forall_mem_cons.1 ih
    obtain ⟨he, hes⟩ := hes.append
    rw [judgeAll, judgeAll, ih htype hhead he, ihs htail hes ihes]

theorem Expr.HasType.judge_eq {e : Expr} {t : Ty} (h : e.HasType Γ t) (ht : t.isFunction = false)
    (he : Γ.SameCalls Γ' e.callees) : e.judge Γ' = e.judge Γ := by
  induction e using Expr.ind generalizing t with
  | literal m v => rfl
  | name m x =>
    cases h with
    | name hx => rw [judge, judge, he.judgeName_value hx ht]
  | element m base index ih =>
    cases h with
    | element hbase hindex =>
      rw [judge, judge, he.judgeName_value hbase rfl, ih hindex rfl he]
  | call m callee args ih =>
    cases h with
    | call hcallee hargs hfits _ =>
      have hts := Ty.not_function_of_fits hfits (he.proper _ _ _ hcallee).params
      simp only [judge, he.judgeName_callee, judgeAll_eq hargs hts he.tail ih]
  | paren m inner ih =>
    cases h with
    | paren hinner => rw [judge, judge, ih hinner ht he]
  | unary m op operand ih =>
    cases h with
    | unary hoperand hop =>
      rw [judge, judge, ih hoperand hop.operand_primitive.not_function he]
  | binary m op lhs rhs ihl ihr =>
    cases h with
    | binary hl hr hop =>
      obtain ⟨hpl, hpr⟩ := hop.operands_primitive
      obtain ⟨hel, her⟩ := he.append
      rw [judge, judge, ihl hl hpl.not_function hel, ihr hr hpr.not_function her]
  | max m args ih =>
    cases h with
    | max _ hargs hmax =>
      have hts := fun u hu => (hmax.operands_primitive u hu).not_function
      simp only [judge, judgeAll_eq hargs hts he ih]

theorem Expr.judgeAll_eq_of_fits {es : List Expr} {ts params : List Ty}
    (htypes : List.Forall₂ (HasType Γ) es ts) (hfits : List.Forall₂ Fits ts params)
    (hparams : ∀ p ∈ params, p.OfValue) (hes : Γ.SameCalls Γ' (Expr.calleesAll es)) :
    judgeAll Γ' es = judgeAll Γ es :=
  judgeAll_eq htypes (Ty.not_function_of_fits hfits hparams) hes fun _ _ _ => HasType.judge_eq

theorem Expr.HasType.judgeCondition_eq {e : Expr} (h : e.HasType Γ .bool)
    (he : Γ.SameCalls Γ' e.callees) (instruction : String) :
    e.judgeCondition Γ' instruction = e.judgeCondition Γ instruction := by
  rw [judgeCondition, judgeCondition, h.judge_eq rfl he]

theorem Expr.judgeRange_eq {es : List Expr} (h : ∀ e ∈ es, e.HasType Γ .int)
    (hes : Γ.SameCalls Γ' (Expr.calleesAll es)) : judgeRange Γ' es = judgeRange Γ es := by
  induction es with
  | nil => rfl
  | cons e es ih =>
    obtain ⟨hhead, htail⟩ := List.forall_mem_cons.1 h
    obtain ⟨he, hes⟩ := hes.append
    rw [judgeRange, judgeRange, hhead.judge_eq rfl he, ih htail hes]

/-- What is stored into is a variable or an element, so it has no function for its value. -/
theorem Target.HasType.not_function {x : Target} {t : Ty} (h : x.HasType Γ t) {names : List String}
    (hx : Γ.SameCalls Γ' names) : t.isFunction = false := by
  cases h with
  | name hmeaning hrole =>
    rw [← Bool.not_eq_true, ← hx.role _ _ _ hmeaning]
    exact hrole
  | element hmeaning _ => exact (hx.proper _ _ _ hmeaning).elem.not_function

theorem Target.HasType.judge_eq {x : Target} {t : Ty} (h : x.HasType Γ t)
    (hx : Γ.SameCalls Γ' x.callees) : x.judge Γ' = x.judge Γ := by
  have ht := h.not_function hx
  cases h with
  | name hmeaning _ => rw [judge, judge, hx.judgeName_value hmeaning ht]
  | element hbase hindex =>
    rw [judge, judge, hx.judgeName_value hbase rfl, hindex.judge_eq rfl hx]

theorem Stmt.judgeAll_eq {ss : List Stmt} (h : ∀ s ∈ ss, s.Ok Γ)
    (hss : Γ.SameCalls Γ' (Stmt.calleesAll ss))
    (ih : ∀ s ∈ ss, s.Ok Γ → Γ.SameCalls Γ' s.callees → s.judge Γ' = s.judge Γ) :
    judgeAll Γ' ss = judgeAll Γ ss := by
  induction ss with
  | nil => rfl
  | cons s ss ihs =>
    obtain ⟨hhead, htail⟩ := List.forall_mem_cons.1 h
    obtain ⟨ih, ihss⟩ := List.forall_mem_cons.1 ih
    obtain ⟨hs, hss⟩ := hss.append
    rw [judgeAll, judgeAll, ih hhead hs, ihs htail hss ihss]

theorem Stmt.Ok.judge_eq {s : Stmt} (h : s.Ok Γ) (hs : Γ.SameCalls Γ' s.callees) :
    s.judge Γ' = s.judge Γ := by
  induction s using Stmt.ind with
  | assign m target value =>
    cases h with
    | assign ht hv hfits =>
      obtain ⟨htarget, hvalue⟩ := hs.append
      have hfunction := hfits.not_function (ht.not_function htarget)
      rw [judge, judge, ht.judge_eq htarget, hv.judge_eq hfunction hvalue]
  | ifThen m condition body ih =>
    cases h with
    | ifThen hc hb =>
      obtain ⟨hcondition, hbody⟩ := hs.append
      rw [judge, judge, hc.judgeCondition_eq hcondition, judgeAll_eq hb hbody ih]
  | ifElse m condition body otherwise ihb iho =>
    cases h with
    | ifElse hc hb ho =>
      obtain ⟨hcondition, hbodies⟩ := hs.append
      obtain ⟨hbody, hotherwise⟩ := hbodies.append
      rw [judge, judge, hc.judgeCondition_eq hcondition, judgeAll_eq hb hbody ihb,
        judgeAll_eq ho hotherwise iho]
  | while_ m condition body ih =>
    cases h with
    | while_ hc hb =>
      obtain ⟨hcondition, hbody⟩ := hs.append
      rw [judge, judge, hc.judgeCondition_eq hcondition, judgeAll_eq hb hbody ih]
  | for_ m control range body ih =>
    cases h with
    | for_ hcontrol _ _ hr hb =>
      obtain ⟨hrange, hbody⟩ := hs.append
      simp only [judge, hs.judgeName_value hcontrol rfl, Expr.judgeRange_eq hr hrange,
        judgeAll_eq hb hbody ih]
  | call m callee args =>
    cases h with
    | call hcallee hargs hfits =>
      have hparams := (hs.proper _ _ _ hcallee).params
      simp only [judge, hs.judgeName_callee, Expr.judgeAll_eq_of_fits hargs hfits hparams hs.tail]
  | read m target =>
    cases h with
    | read ht _ => rw [judge, judge, ht.judge_eq hs]
  | write m value =>
    cases h with
    | write hv hp => rw [judge, judge, hv.judge_eq hp.not_function hs]
  | writeText m raw => rfl
  | ret m value =>
    cases h with
    | leave _ => rw [judge, judge, hs.result]
    | ret hv hfits =>
      rw [judge, judge, hs.result, hv.judge_eq (hfits.not_function hs.given) hs]

theorem Stmt.judgeAll_eq_of_ok {ss : List Stmt} (h : ∀ s ∈ ss, s.Ok Γ)
    (hss : Γ.SameCalls Γ' (Stmt.calleesAll ss)) : judgeAll Γ' ss = judgeAll Γ ss :=
  judgeAll_eq h hss fun _ _ => Stmt.Ok.judge_eq

end Asl
