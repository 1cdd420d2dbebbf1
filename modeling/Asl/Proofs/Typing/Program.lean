import Asl.Proofs.Session.Analysis
import Asl.Proofs.Typing.Checker
import Mathlib.Data.List.Nodup

/-!
# Well typed programs

The induction over expressions and statements that lifts the rules for single nodes to whole trees,
and its consequence for programs: in a fresh session an analysis reports nothing exactly when the
program is well typed.
-/
namespace Asl

open Report Judgement Context

section

variable {Γ : Context}

theorem Expr.honest_judge (hΓ : Γ.Proper) {e : Expr}
    (h : ∀ t, (e.judge Γ).Clean t → e.HasType Γ t) : (e.judge Γ).Honest := by
  intro hclean
  have htype := h (e.judge Γ).type ⟨hclean, rfl⟩
  exact (htype.declared hΓ).ne_error

theorem Expr.clean_judgeAll {es : List Expr}
    (h : ∀ e ∈ es, ∀ t, (e.judge Γ).Clean t ↔ e.HasType Γ t) (ts : List Ty) :
    (Expr.judgeAll Γ es).report.diagnostics = [] ∧
        (Expr.judgeAll Γ es).types.map Prod.snd = ts ↔ List.Forall₂ (Expr.HasType Γ) es ts := by
  induction es generalizing ts with
  | nil =>
    cases ts with
    | nil => exact iff_of_true ⟨rfl, rfl⟩ .nil
    | cons t ts => exact iff_of_false (fun h => List.cons_ne_nil _ _ h.2.symm) (by rintro ⟨⟩)
  | cons e es ih =>
    obtain ⟨head, tail⟩ := List.forall_mem_cons.1 h
    cases ts with
    | nil => exact iff_of_false (fun h => List.cons_ne_nil _ _ h.2) (by rintro ⟨⟩)
    | cons t ts =>
      rw [List.forall₂_cons, ← head t, ← ih tail ts]
      simp only [Expr.judgeAll, diagnostics_append_eq_nil, List.map_cons, List.cons.injEq, Clean]
      constructor
      · rintro ⟨⟨hd, hds⟩, ht, hts⟩
        exact ⟨⟨hd, ht⟩, hds, hts⟩
      · rintro ⟨⟨hd, ht⟩, hds, hts⟩
        exact ⟨⟨hd, hds⟩, ht, hts⟩

theorem Expr.types_ne_error (hΓ : Γ.Proper) {es : List Expr} {ts : List Ty}
    (h : List.Forall₂ (Expr.HasType Γ) es ts) : ∀ t ∈ ts, t ≠ .error := by
  induction h with
  | nil => exact fun _ h => absurd h List.not_mem_nil
  | cons head _ ih => exact List.forall_mem_cons.2 ⟨(head.declared hΓ).ne_error, ih⟩

theorem Expr.clean_call (hΓ : Γ.Proper) {es : List Expr} (callee : Ident) (asValue : Bool)
    (h : ∀ e ∈ es, ∀ t, (e.judge Γ).Clean t ↔ e.HasType Γ t) (t : Ty) :
    ((Γ.judgeName callee).report ++ (Expr.judgeAll Γ es).report ++
        (judgeCall callee asValue (Γ.judgeName callee).type
          (Expr.judgeAll Γ es).types).2).diagnostics
          = [] ∧
        (judgeCall callee asValue (Γ.judgeName callee).type (Expr.judgeAll Γ es).types).1 = t ↔
      ∃ role params ts, Γ.meaning callee.name = some (role, .function params t) ∧
        List.Forall₂ (Expr.HasType Γ) es ts ∧ List.Forall₂ Fits ts params ∧
          (asValue = true → t ≠ .void) := by
  have hall := Expr.clean_judgeAll h
  have hargs : (Expr.judgeAll Γ es).report.diagnostics = [] →
      ∀ a ∈ (Expr.judgeAll Γ es).types, a.2 ≠ .error := by
    intro hd a ha
    exact Expr.types_ne_error hΓ ((hall _).1 ⟨hd, rfl⟩) _ (List.mem_map_of_mem ha)
  simp only [diagnostics_append_eq_nil]
  constructor
  · rintro ⟨⟨⟨hname, hes⟩, hcall⟩, ht⟩
    have hf := honest_judgeName hΓ callee hname
    obtain ⟨params, hparams, hfits, hvoid⟩ :=
      (clean_judgeCall hf (hargs hes)).1 ⟨hcall, ht⟩
    obtain ⟨role, hmeaning⟩ := clean_judgeName.1 ⟨hname, hparams⟩
    exact ⟨role, params, _, hmeaning, (hall _).1 ⟨hes, rfl⟩, hfits, hvoid⟩
  · rintro ⟨role, params, ts, hmeaning, htypes, hfits, hvoid⟩
    obtain ⟨hname, hf⟩ := clean_judgeName.2 ⟨role, hmeaning⟩
    obtain ⟨hes, hts⟩ := (hall ts).2 htypes
    subst hts
    obtain ⟨hcall, ht⟩ := (clean_judgeCall (honest_judgeName hΓ callee hname) (hargs hes)).2
      ⟨params, hf, hfits, hvoid⟩
    exact ⟨⟨⟨hname, hes⟩, hcall⟩, ht⟩

/-- The checker reports nothing about an expression exactly when the expression has a type, which
is then the one that the checker finds. -/
theorem Expr.clean_judge (hΓ : Γ.Proper) (e : Expr) (t : Ty) :
    (e.judge Γ).Clean t ↔ e.HasType Γ t := by
  induction e using Expr.ind generalizing t with
  | literal m v =>
    refine clean_of.trans ⟨?_, ?_⟩
    · rintro ⟨_, ht⟩
      subst ht
      exact .literal m v
    · intro h
      cases h
      exact ⟨rfl, rfl⟩
  | name m x =>
    refine clean_of.trans (clean_judgeName.trans ⟨?_, ?_⟩)
    · rintro ⟨role, hx⟩
      exact .name hx
    · intro h
      cases h with
      | name hx => exact ⟨_, hx⟩
  | element m base index ih =>
    have hi : (index.judge Γ).Honest := Expr.honest_judge hΓ fun u => (ih u).1
    refine (clean_judgeElement (honest_judgeName hΓ base) hi).trans ⟨?_, ?_⟩
    · rintro ⟨⟨n, hbase⟩, hindex⟩
      obtain ⟨role, hmeaning⟩ := clean_judgeName.1 hbase
      exact .element hmeaning ((ih .int).1 hindex)
    · intro h
      cases h with
      | element hmeaning hindex =>
        exact ⟨⟨_, clean_judgeName.2 ⟨_, hmeaning⟩⟩, (ih .int).2 hindex⟩
  | call m callee args ih =>
    refine clean_of.trans ((Expr.clean_call hΓ callee true ih t).trans ⟨?_, ?_⟩)
    · rintro ⟨role, params, ts, hmeaning, htypes, hfits, hvoid⟩
      exact .call hmeaning htypes hfits (hvoid rfl)
    · intro h
      cases h with
      | call hmeaning htypes hfits hvoid =>
        exact ⟨_, _, _, hmeaning, htypes, hfits, fun _ => hvoid⟩
  | paren m inner ih =>
    refine clean_of.trans ((ih t).trans ⟨.paren, ?_⟩)
    intro h
    cases h with
    | paren hinner => exact hinner
  | unary m op operand ih =>
    have ho : (operand.judge Γ).Honest := Expr.honest_judge hΓ fun u => (ih u).1
    refine (clean_judgeUnary ho).trans ⟨?_, ?_⟩
    · rintro ⟨u, hoperand, hop⟩
      exact .unary ((ih u).1 hoperand) hop
    · intro h
      cases h with
      | unary hoperand hop => exact ⟨_, (ih _).2 hoperand, hop⟩
  | binary m op lhs rhs ihl ihr =>
    have hl : (lhs.judge Γ).Honest := Expr.honest_judge hΓ fun u => (ihl u).1
    have hr : (rhs.judge Γ).Honest := Expr.honest_judge hΓ fun u => (ihr u).1
    refine (clean_judgeBinary hl hr).trans ⟨?_, ?_⟩
    · rintro ⟨u, v, hlhs, hrhs, hop⟩
      exact .binary ((ihl u).1 hlhs) ((ihr v).1 hrhs) hop
    · intro h
      cases h with
      | binary hlhs hrhs hop => exact ⟨_, _, (ihl _).2 hlhs, (ihr _).2 hrhs, hop⟩
  | max m args ih =>
    have hall := Expr.clean_judgeAll ih
    have hparts : (Expr.judgeAll Γ args).report.diagnostics = [] →
        ∀ u ∈ (Expr.judgeAll Γ args).types.map Prod.snd, u ≠ .error := by
      intro hd
      exact Expr.types_ne_error hΓ ((hall _).1 ⟨hd, rfl⟩)
    refine (clean_judgeMax hparts).trans ⟨?_, ?_⟩
    · rintro ⟨hd, hcount, hmax⟩
      have htypes := (hall _).1 ⟨hd, rfl⟩
      rw [← htypes.length_eq] at hcount
      exact .max hcount htypes hmax
    · intro h
      cases h with
      | max hcount htypes hmax =>
        obtain ⟨hd, hts⟩ := (hall _).2 htypes
        rw [hts, ← htypes.length_eq]
        exact ⟨hd, hcount, hmax⟩

theorem Expr.honest (hΓ : Γ.Proper) (e : Expr) : (e.judge Γ).Honest :=
  Expr.honest_judge hΓ fun t => (Expr.clean_judge hΓ e t).1

theorem Expr.HasType.unique (hΓ : Γ.Proper) {e : Expr} {t u : Ty} (h : e.HasType Γ t)
    (h' : e.HasType Γ u) : t = u := by
  have ht := ((Expr.clean_judge hΓ e t).2 h).2
  have hu := ((Expr.clean_judge hΓ e u).2 h').2
  exact ht.symm.trans hu

theorem Target.clean_judge (hΓ : Γ.Proper) (x : Target) (t : Ty) :
    (x.judge Γ).Clean t ∧ (x.judge Γ).isPlace = true ↔ x.HasType Γ t := by
  cases x with
  | name m x =>
    constructor
    · rintro ⟨hclean, hplace⟩
      obtain ⟨role, hx⟩ := clean_judgeName.1 (clean_of.1 hclean)
      refine .name hx ?_
      simpa [Target.judge, Judgement.of, judgeName, hx] using hplace
    · intro h
      cases h with
      | name hx hrole =>
        refine ⟨clean_of.2 (clean_judgeName.2 ⟨_, hx⟩), ?_⟩
        simpa [Target.judge, Judgement.of, judgeName, hx] using hrole
  | element m base index =>
    have hiff : (judgeElement m base (Γ.judgeName base) (index.judge Γ) index.mark).Clean t ↔
        (∃ n, (Γ.judgeName base).Clean (.array n t)) ∧ (index.judge Γ).Clean .int :=
      clean_judgeElement (honest_judgeName hΓ base) (Expr.honest hΓ index)
    constructor
    · rintro ⟨hclean, _⟩
      obtain ⟨⟨n, hbase⟩, hindex⟩ := hiff.1 hclean
      obtain ⟨role, hmeaning⟩ := clean_judgeName.1 hbase
      exact .element hmeaning ((Expr.clean_judge hΓ index .int).1 hindex)
    · intro h
      cases h with
      | element hmeaning hindex =>
        have hbase := clean_judgeName.2 ⟨_, hmeaning⟩
        have hi := (Expr.clean_judge hΓ index .int).2 hindex
        refine ⟨hiff.2 ⟨⟨_, hbase⟩, hi⟩, ?_⟩
        simp only [Target.judge, judgeElement, hbase.2, hi.2]
        rfl

theorem Target.honest (hΓ : Γ.Proper) (x : Target) : (x.judge Γ).Honest := by
  cases x with
  | name m x =>
    intro h
    obtain ⟨role, hx⟩ := clean_judgeName.1 (clean_of.1 ⟨h, rfl⟩)
    exact (hΓ _ _ _ hx).ne_error
  | element m base index => exact Expr.honest hΓ (.element m base index)

theorem Expr.admitted_iff (hΓ : Γ.Proper) (e : Expr) (admits : Ty → Bool) :
    (e.judge Γ).report.diagnostics = [] ∧ (e.judge Γ).type.violates admits = false ↔
      ∃ t, e.HasType Γ t ∧ admits t = true := by
  constructor
  · rintro ⟨hd, hv⟩
    refine ⟨_, (Expr.clean_judge hΓ e _).1 ⟨hd, rfl⟩, ?_⟩
    exact (Ty.violates_eq_false_iff (Expr.honest hΓ e hd)).1 hv
  · rintro ⟨t, ht, ha⟩
    obtain ⟨hd, hte⟩ := (Expr.clean_judge hΓ e t).2 ht
    refine ⟨hd, (Ty.violates_eq_false_iff (Expr.honest hΓ e hd)).2 ?_⟩
    rw [hte]
    exact ha

theorem Expr.admitted_only_iff (hΓ : Γ.Proper) (e : Expr) (t : Ty) :
    (e.judge Γ).report.diagnostics = [] ∧ (e.judge Γ).type.violates (· = t) = false ↔
      e.HasType Γ t := by
  rw [Expr.admitted_iff hΓ]
  constructor
  · rintro ⟨u, hu, ht⟩
    rw [← of_decide_eq_true ht]
    exact hu
  · intro h
    exact ⟨t, h, decide_eq_true rfl⟩

theorem Expr.diagnostics_judgeCondition (hΓ : Γ.Proper) (instruction : String) (e : Expr) :
    (e.judgeCondition Γ instruction).diagnostics = [] ↔ e.HasType Γ .bool := by
  rw [Expr.judgeCondition, diagnostics_append_eq_nil, diagnostics_faultIf]
  exact Expr.admitted_only_iff hΓ e .bool

theorem Expr.diagnostics_judgeRange (hΓ : Γ.Proper) (es : List Expr) :
    (Expr.judgeRange Γ es).diagnostics = [] ↔ ∀ e ∈ es, e.HasType Γ .int := by
  induction es with
  | nil => exact iff_of_true rfl fun _ h => absurd h List.not_mem_nil
  | cons e es ih =>
    rw [Expr.judgeRange, diagnostics_append_eq_nil, diagnostics_append_eq_nil, diagnostics_faultIf,
      List.forall_mem_cons, ih]
    exact and_congr_left fun _ => Expr.admitted_only_iff hΓ e .int

theorem Stmt.diagnostics_judgeAll {ss : List Stmt}
    (h : ∀ s ∈ ss, (s.judge Γ).diagnostics = [] ↔ s.Ok Γ) :
    (Stmt.judgeAll Γ ss).diagnostics = [] ↔ ∀ s ∈ ss, s.Ok Γ := by
  induction ss with
  | nil => exact iff_of_true rfl fun _ h => absurd h List.not_mem_nil
  | cons s ss ih =>
    obtain ⟨head, tail⟩ := List.forall_mem_cons.1 h
    rw [Stmt.judgeAll, diagnostics_append_eq_nil, List.forall_mem_cons, head, ih tail]

theorem Stmt.diagnostics_assign (hΓ : Γ.Proper) (m : Mark) (target : Target) (value : Expr) :
    ((Stmt.assign m target value).judge Γ).diagnostics = [] ↔
      (Stmt.assign m target value).Ok Γ := by
  simp only [Stmt.judge, diagnostics_append_eq_nil, diagnostics_faultIf]
  constructor
  · rintro ⟨⟨⟨htarget, hvalue⟩, hfits⟩, hplace⟩
    have herror := Target.honest hΓ target htarget
    simp only [herror, ne_eq, not_false_eq_true, decide_true, Bool.true_and,
      Bool.not_eq_eq_eq_not, Bool.not_false] at hfits hplace
    rw [Ty.violates_eq_false_iff (Expr.honest hΓ value hvalue), Ty.accepts_iff] at hfits
    exact .assign ((Target.clean_judge hΓ target _).1 ⟨⟨htarget, rfl⟩, hplace⟩)
      ((Expr.clean_judge hΓ value _).1 ⟨hvalue, rfl⟩) hfits
  · intro h
    cases h with
    | assign ht hv hfits =>
      obtain ⟨⟨htarget, htt⟩, hplace⟩ := (Target.clean_judge hΓ target _).2 ht
      obtain ⟨hvalue, hvt⟩ := (Expr.clean_judge hΓ value _).2 hv
      rw [← hvt, ← htt, ← Ty.accepts_iff,
        ← Ty.violates_eq_false_iff (Expr.honest hΓ value hvalue)] at hfits
      simp [htarget, hvalue, hfits, hplace]

theorem Stmt.diagnostics_for (hΓ : Γ.Proper) (m : Mark) (control : Ident) (range : List Expr)
    {body : List Stmt} (hbody : ∀ s ∈ body, (s.judge Γ).diagnostics = [] ↔ s.Ok Γ) :
    ((Stmt.for m control range body).judge Γ).diagnostics = [] ↔
      (Stmt.for m control range body).Ok Γ := by
  have hcount : (range.isEmpty || decide (3 < range.length)) = false ↔
      1 ≤ range.length ∧ range.length ≤ 3 := by
    rcases range with _ | ⟨e, es⟩
    · simp
    · simp
  have hcontrol : (Γ.judgeName control).report.diagnostics = [] ∧
      (Γ.judgeName control).type.violates (· = .int) = false ↔
        ∃ role, Γ.meaning control.name = some (role, .int) := by
    rw [← clean_judgeName]
    refine and_congr_right fun hd => ?_
    rw [Ty.violates_eq_false_iff (honest_judgeName hΓ control hd), decide_eq_true_eq]
  simp only [Stmt.judge, diagnostics_append_eq_nil, diagnostics_faultIf, hcount, hcontrol,
    Expr.diagnostics_judgeRange hΓ, Stmt.diagnostics_judgeAll hbody]
  constructor
  · rintro ⟨⟨⟨⟨role, hc⟩, hone, hthree⟩, hrange⟩, hb⟩
    exact .for_ hc hone hthree hrange hb
  · intro h
    cases h with
    | for_ hc hone hthree hrange hb => exact ⟨⟨⟨⟨_, hc⟩, hone, hthree⟩, hrange⟩, hb⟩

theorem Stmt.diagnostics_read (hΓ : Γ.Proper) (m : Mark) (target : Target) :
    ((Stmt.read m target).judge Γ).diagnostics = [] ↔ (Stmt.read m target).Ok Γ := by
  simp only [Stmt.judge, diagnostics_append_eq_nil, diagnostics_faultIf]
  constructor
  · rintro ⟨⟨htarget, hprimitive⟩, hplace⟩
    have herror := Target.honest hΓ target htarget
    simp only [herror, ne_eq, not_false_eq_true, decide_true, Bool.true_and,
      Bool.not_eq_eq_eq_not, Bool.not_false] at hplace
    rw [Ty.violates_eq_false_iff herror, Ty.isPrimitive_iff] at hprimitive
    exact .read ((Target.clean_judge hΓ target _).1 ⟨⟨htarget, rfl⟩, hplace⟩) hprimitive
  · intro h
    cases h with
    | read ht hp =>
      obtain ⟨⟨htarget, htt⟩, hplace⟩ := (Target.clean_judge hΓ target _).2 ht
      rw [← htt, ← Ty.isPrimitive_iff,
        ← Ty.violates_eq_false_iff (Target.honest hΓ target htarget)] at hp
      simp [htarget, hp, hplace]

theorem Stmt.diagnostics_ret (hΓ : Γ.Proper) (m : Mark) (value : Option Expr) :
    ((Stmt.ret m value).judge Γ).diagnostics = [] ↔ (Stmt.ret m value).Ok Γ := by
  cases value with
  | none =>
    rw [Stmt.judge, diagnostics_faultIf, decide_eq_false_iff_not, not_not]
    refine ⟨.leave, fun h => ?_⟩
    cases h with
    | leave hr => exact hr
  | some value =>
    rw [Stmt.judge, diagnostics_append_eq_nil, diagnostics_faultIf, Expr.admitted_iff hΓ]
    constructor
    · rintro ⟨t, ht, hfits⟩
      exact .ret ht (Ty.accepts_iff.1 hfits)
    · intro h
      cases h with
      | ret ht hfits => exact ⟨_, ht, Ty.accepts_iff.2 hfits⟩

theorem Stmt.diagnostics_judge (hΓ : Γ.Proper) (s : Stmt) :
    (s.judge Γ).diagnostics = [] ↔ s.Ok Γ := by
  induction s using Stmt.ind with
  | assign m target value => exact Stmt.diagnostics_assign hΓ m target value
  | ifThen m condition body ih =>
    rw [Stmt.judge, diagnostics_append_eq_nil, Expr.diagnostics_judgeCondition hΓ,
      Stmt.diagnostics_judgeAll ih]
    refine ⟨fun h => .ifThen h.1 h.2, fun h => ?_⟩
    cases h with
    | ifThen hc hb => exact ⟨hc, hb⟩
  | ifElse m condition body otherwise ihb iho =>
    rw [Stmt.judge, diagnostics_append_eq_nil, diagnostics_append_eq_nil,
      Expr.diagnostics_judgeCondition hΓ, Stmt.diagnostics_judgeAll ihb,
      Stmt.diagnostics_judgeAll iho]
    refine ⟨fun h => .ifElse h.1.1 h.1.2 h.2, fun h => ?_⟩
    cases h with
    | ifElse hc hb ho => exact ⟨⟨hc, hb⟩, ho⟩
  | while_ m condition body ih =>
    rw [Stmt.judge, diagnostics_append_eq_nil, Expr.diagnostics_judgeCondition hΓ,
      Stmt.diagnostics_judgeAll ih]
    refine ⟨fun h => .while_ h.1 h.2, fun h => ?_⟩
    cases h with
    | while_ hc hb => exact ⟨hc, hb⟩
  | for_ m control range body ih => exact Stmt.diagnostics_for hΓ m control range ih
  | call m callee args =>
    have hargs : ∀ e ∈ args, ∀ t, (e.judge Γ).Clean t ↔ e.HasType Γ t :=
      fun e _ => Expr.clean_judge hΓ e
    have hcall := fun t => Expr.clean_call hΓ callee false hargs t
    constructor
    · intro h
      obtain ⟨role, params, ts, hmeaning, htypes, hfits, -⟩ := (hcall _).1 ⟨h, rfl⟩
      exact .call hmeaning htypes hfits
    · intro h
      cases h with
      | call hmeaning htypes hfits =>
        exact ((hcall _).2 ⟨_, _, _, hmeaning, htypes, hfits, Bool.noConfusion⟩).1
  | read m target => exact Stmt.diagnostics_read hΓ m target
  | write m value =>
    rw [Stmt.judge, diagnostics_append_eq_nil, diagnostics_faultIf, Expr.admitted_iff hΓ]
    constructor
    · rintro ⟨t, ht, hp⟩
      exact .write ht (Ty.isPrimitive_iff.1 hp)
    · intro h
      cases h with
      | write ht hp => exact ⟨_, ht, Ty.isPrimitive_iff.2 hp⟩
  | writeText m raw => exact iff_of_true rfl (.writeText m raw)
  | ret m value => exact Stmt.diagnostics_ret hΓ m value

end

theorem Function.allRedeclared_eq_nil_iff (taken : List String) (fs : List Function) :
    Function.allRedeclared taken fs = [] ↔ (∀ f ∈ fs, (f.entries.map Entry.name).Nodup) ∧
      (fs.map (·.name.name)).Nodup ∧ ∀ f ∈ fs, f.name.name ∉ taken := by
  induction fs generalizing taken with
  | nil => simp [allRedeclared]
  | cons f fs ih =>
    have hinside : Entry.redeclared [] f.entries = [] ↔ (f.entries.map Entry.name).Nodup := by
      simp [Entry.redeclared_eq_nil_iff]
    have hname : (if f.name.name ∈ taken then
        [(⟨f.name.mark, .redeclared f.name.name⟩ : Diagnostic)] else []) = [] ↔
          f.name.name ∉ taken := by
      by_cases h : f.name.name ∈ taken <;> simp [h]
    rw [allRedeclared, redeclared, List.append_eq_nil_iff, List.append_eq_nil_iff, ih, hinside,
      hname, List.forall_mem_cons, List.forall_mem_cons, List.map_cons, List.nodup_cons]
    simp only [List.mem_cons, not_or, List.mem_map, not_exists, not_and]
    constructor
    · rintro ⟨⟨hf, htaken⟩, hfs, hnodup, hnew⟩
      exact ⟨⟨hf, hfs⟩, ⟨fun g hg => (hnew g hg).1, hnodup⟩, htaken, fun g hg => (hnew g hg).2⟩
    · rintro ⟨⟨hf, hfs⟩, ⟨hfirst, hnodup⟩, htaken, hnew⟩
      exact ⟨⟨hf, htaken⟩, hfs, hnodup, fun g hg => ⟨hfirst g hg, hnew g hg⟩⟩

theorem Function.resultType_eq_void_iff (f : Function) :
    f.resultType = .void ↔ f.result = none := by
  unfold resultType
  cases f.result with
  | none => exact iff_of_true rfl rfl
  | some t => exact iff_of_false (Ty.OfValue.spec t.spec).ne_void (by rintro ⟨⟩)

theorem Program.hasMain_iff {p : Program} (h : (p.functions.map (·.name.name)).Nodup) :
    p.hasMain = true ↔
      ∃ f ∈ p.functions, f.name.name = "main" ∧ f.params = [] ∧ f.result = none := by
  have hcheck : ∀ f : Function, (f.params.isEmpty && decide (f.resultType = .void)) = true ↔
      f.params = [] ∧ f.result = none := by
    intro f
    rw [Bool.and_eq_true, List.isEmpty_iff, decide_eq_true_eq, f.resultType_eq_void_iff]
  unfold hasMain
  cases hfind : p.functions.find? (·.name.name = "main") with
  | none =>
    refine iff_of_false Bool.false_ne_true ?_
    rintro ⟨f, hf, hname, _⟩
    have hnot := List.find?_eq_none.1 hfind f hf
    simp [hname] at hnot
  | some f =>
    have hmem := List.mem_of_find?_eq_some hfind
    have hname : f.name.name = "main" := by simpa using List.find?_some hfind
    refine (hcheck f).trans ⟨fun h' => ⟨f, hmem, hname, h'⟩, ?_⟩
    rintro ⟨g, hg, hgname, hmain⟩
    have hsame : g = f := List.inj_on_of_nodup_map h hg hmem (hgname.trans hname.symm)
    rw [← hsame]
    exact hmain

theorem Program.diagnostics_eq_nil_iff (p : Program) : p.diagnostics = [] ↔ p.WellTyped := by
  have hbodies : p.functions.flatMap (fun f => (Stmt.judgeAll (p.context f) f.body).diagnostics)
      = [] ↔ ∀ f ∈ p.functions, ∀ s ∈ f.body, s.Ok (p.context f) := by
    rw [List.flatMap_eq_nil_iff]
    refine forall₂_congr fun f _ => ?_
    exact Stmt.diagnostics_judgeAll fun s _ => Stmt.diagnostics_judge (p.proper_context f) s
  have hmain : (if p.hasMain then [] else [(⟨⟨p.id, 0, 0⟩, .noMain⟩ : Diagnostic)]) = [] ↔
      p.hasMain = true := by
    cases p.hasMain <;> simp
  rw [diagnostics, List.append_eq_nil_iff, List.append_eq_nil_iff, hbodies, hmain,
    Function.allRedeclared_eq_nil_iff]
  constructor
  · rintro ⟨⟨⟨hinside, hnames, _⟩, hbody⟩, hm⟩
    exact ⟨hinside, hnames, (Program.hasMain_iff hnames).1 hm, hbody⟩
  · intro h
    refine ⟨⟨⟨h.inside, h.functions, fun _ _ => List.not_mem_nil⟩, h.body⟩, ?_⟩
    exact (Program.hasMain_iff h.functions).2 h.main

/-- In a fresh session, analysing a program whose nodes have distinct identities succeeds, and it
reports nothing exactly when the program is well typed. -/
theorem Program.analyze_reports_nothing_iff {p : Program} (h : p.ids.Nodup) :
    ∃ s, (Pass.analyze p).run .fresh = (.ok (), s) ∧ (s.diagnostics = [] ↔ p.WellTyped) := by
  obtain ⟨s, hrun, hs⟩ := Program.analyze_fresh h
  refine ⟨s, hrun, ?_⟩
  rw [hs.diagnostics]
  exact p.diagnostics_eq_nil_iff

/-- A function that scales an element of an array, and a procedure that calls it with an integer
where it expects a float. -/
def Program.scaling : Program :=
  let mark (n : Nat) : Mark := ⟨n, 0, 0⟩
  { id := 0
    functions := [
      { mark := mark 1
        name := ⟨mark 2, "scale"⟩
        params := [⟨⟨mark 3, "a"⟩, ⟨mark 4, .array 2 .int⟩⟩,
          ⟨⟨mark 5, "k"⟩, ⟨mark 6, .base .float⟩⟩]
        result := some ⟨mark 7, .base .float⟩
        declarations := []
        body := [.ret (mark 14) (some (.binary (mark 13) .mul
          (.element (mark 10) ⟨mark 8, "a"⟩ (.literal (mark 9) (.int 0)))
          (.name (mark 12) ⟨mark 11, "k"⟩)))] },
      { mark := mark 15
        name := ⟨mark 16, "main"⟩
        params := []
        result := none
        declarations := [⟨[⟨mark 17, "v"⟩], ⟨mark 18, .array 2 .int⟩⟩,
          ⟨[⟨mark 19, "s"⟩], ⟨mark 20, .base .float⟩⟩]
        body := [
          .assign (mark 25) (.element (mark 23) ⟨mark 21, "v"⟩ (.literal (mark 22) (.int 0)))
            (.literal (mark 24) (.int 3)),
          .assign (mark 33) (.name (mark 27) ⟨mark 26, "s"⟩)
            (.call (mark 32) ⟨mark 28, "scale"⟩
              [.name (mark 30) ⟨mark 29, "v"⟩, .literal (mark 31) (.int 2)]),
          .write (mark 36) (.name (mark 35) ⟨mark 34, "s"⟩)] }] }

theorem Program.analyze_scaling : Program.scaling.ids.Nodup ∧
    ∃ s, (Pass.analyze Program.scaling).run .fresh = (.ok (), s) ∧ s.diagnostics = [] ∧
      Program.scaling.WellTyped := by
  have hids : Program.scaling.ids.Nodup := by decide
  have htyped : Program.scaling.WellTyped :=
    (Program.diagnostics_eq_nil_iff Program.scaling).1 (by decide)
  obtain ⟨s, hrun, hiff⟩ := Program.analyze_reports_nothing_iff hids
  exact ⟨hids, s, hrun, hiff.2 htyped, htyped⟩

end Asl
