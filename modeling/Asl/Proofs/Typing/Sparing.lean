import Asl.Proofs.Tree.Declared
import Asl.Proofs.Tree.Marks
import Mathlib.Data.List.Nodup

/-!
# No mistake is reported twice

A diagnostic stands in a report at most as often as its mark stands in what is judged. Some faults
are reported at a part by what surrounds it: that an index is no integer is said at the index. These
are faults that judging the part itself never reports at the part's own node, so there is room for
them in the count, and for each of them once.
-/
open scoped List

namespace Asl

/-- A fault that is reported at an expression or a target by what it is a part of. -/
def Fault.fromOutside : Fault → Bool
  | .indexType | .argumentType _ _ | .conditionType _ | .rangeType | .notPrimitive _
  | .assignPlace | .readPlace => true
  | _ => false

namespace Diagnostic

/-- Counts a diagnostic if it is at a mark and its fault is from outside, or is not. -/
def tally (d : Diagnostic) (outside : Bool) (k : Mark) : Nat :=
  if d.mark = k ∧ d.fault.fromOutside = outside then 1 else 0

theorem count_cons (d : Diagnostic) (k : Mark) (ks : List Mark) :
    (k :: ks).count d.mark = d.tally false k + d.tally true k + ks.count d.mark := by
  have htally : [k].count d.mark = d.tally false k + d.tally true k := by
    by_cases hk : d.mark = k
    · cases hf : d.fault.fromOutside <;> simp [tally, hk, hf]
    · simp [tally, hk, Ne.symm hk]
  rw [← List.singleton_append, List.count_append, htally]

end Diagnostic

namespace Report

def count (r : Report) (d : Diagnostic) : Nat := r.diagnostics.count d

@[simp] theorem count_append (r s : Report) (d : Diagnostic) :
    (r ++ s).count d = r.count d + s.count d := List.count_append

@[simp] theorem count_empty (d : Diagnostic) : empty.count d = 0 := rfl

@[simp] theorem count_note (m : Mark) (t : Ty) (b : Bool) (d : Diagnostic) :
    (note m t b).count d = 0 := rfl

/-- A report of some faults at one mark, of each of them once at most. -/
def At (m : Mark) (fs : List Fault) (r : Report) : Prop :=
  r.diagnostics <+ fs.map (Diagnostic.mk m)

theorem At.append {m : Mark} {fs gs : List Fault} {r s : Report} (hr : r.At m fs)
    (hs : s.At m gs) : (r ++ s).At m (fs ++ gs) := by
  rw [At, List.map_append]
  exact List.Sublist.append hr hs

theorem at_faultIf (b : Bool) (m : Mark) (f : Fault) : (faultIf b m f).At m [f] := by
  cases b
  · exact List.nil_sublist _
  · exact List.Sublist.refl _

theorem At.count_le {outside : Bool} {r : Report} {m : Mark} {fs : List Fault} (h : r.At m fs)
    (hn : fs.Nodup) (hf : ∀ f ∈ fs, f.fromOutside = outside) (d : Diagnostic) :
    r.count d ≤ d.tally outside m := by
  refine Nat.le_trans (List.Sublist.count_le d h) ?_
  by_cases hd : d ∈ fs.map (Diagnostic.mk m)
  · have hnodup : (fs.map (Diagnostic.mk m)).Nodup :=
      List.Nodup.map (fun f g h => (Diagnostic.mk.inj h).2) hn
    obtain ⟨f, hmem, rfl⟩ := List.mem_map.1 hd
    rw [Diagnostic.tally, if_pos ⟨rfl, hf f hmem⟩]
    exact List.nodup_iff_count_le_one.1 hnodup _
  · rw [List.count_eq_zero_of_not_mem hd]
    exact Nat.zero_le _

theorem count_faultIf_le {outside : Bool} (b : Bool) (m : Mark) {f : Fault}
    (hf : f.fromOutside = outside) (d : Diagnostic) :
    (faultIf b m f).count d ≤ d.tally outside m :=
  (at_faultIf b m f).count_le (List.nodup_singleton f) (fun _ h => List.mem_singleton.1 h ▸ hf) d

end Report

open Report Diagnostic

@[simp] theorem Judgement.count_of (m : Mark) (t : Ty) (b : Bool) (parts : Report)
    (d : Diagnostic) : (Judgement.of m t b parts).report.count d = parts.count d := by
  simp [Judgement.of]

namespace Context

variable {Γ : Context} (d : Diagnostic)

theorem at_judgeName (x : Ident) : (Γ.judgeName x).report.At x.mark [.undeclared x.name] := by
  unfold judgeName
  split
  · exact List.nil_sublist _
  · exact List.Sublist.refl _

theorem count_judgeName_le (x : Ident) :
    (Γ.judgeName x).report.count d ≤ d.tally false x.mark :=
  (at_judgeName x).count_le (List.nodup_singleton _) (fun _ h => List.mem_singleton.1 h ▸ rfl) d

theorem count_judgeElement (m im : Mark) (base : Ident) (array index : Judgement) :
    (judgeElement m base array index im).report.count d =
      array.report.count d + index.report.count d +
        (faultIf (array.type.violates Ty.isArray) base.mark (.notArray base.name)).count d +
        (faultIf (index.type.violates (· = .int)) im .indexType).count d := by
  simp only [judgeElement]
  split <;> simp only [Judgement.count_of, count_append]

/-- How often a diagnostic is at one of some marks and from outside. -/
def tallies : List Mark → Nat
  | [] => 0
  | k :: ks => d.tally true k + tallies ks

theorem count_argumentFaults_le (callee : String) (position : Nat) (args : List (Mark × Ty))
    (ps : List Ty) : (argumentFaults callee position args ps).count d ≤
      tallies d (args.map Prod.fst) := by
  induction args generalizing position ps with
  | nil => exact Nat.zero_le _
  | cons a args ih =>
    obtain ⟨k, t⟩ := a
    cases ps with
    | nil => exact Nat.zero_le _
    | cons p ps =>
      rw [argumentFaults, count_append]
      exact Nat.add_le_add (count_faultIf_le _ _ rfl d) (ih _ _)

theorem count_call_le (callee : Ident) (asValue : Bool) (f : Ty) (args : List (Mark × Ty)) :
    (Γ.judgeName callee).report.count d + (judgeCall callee asValue f args).2.count d ≤
      d.tally false callee.mark + tallies d (args.map Prod.fst) := by
  have hname := at_judgeName (Γ := Γ) callee
  have hnotCallable : ((Γ.judgeName callee).report ++
      fault callee.mark (.notCallable callee.name)).count d ≤ d.tally false callee.mark :=
    (hname.append (at_faultIf true _ _)).count_le (by simp) (by simp [Fault.fromOutside]) d
  have hfaults : ∀ b c : Bool, ((Γ.judgeName callee).report ++ faultIf b callee.mark
      (.argumentCount callee.name f.params.length args.length) ++
        faultIf c callee.mark (.noValue callee.name)).count d ≤ d.tally false callee.mark :=
    fun b c => ((hname.append (at_faultIf b _ _)).append (at_faultIf c _ _)).count_le (by simp)
      (by simp [Fault.fromOutside]) d
  have hargs := count_argumentFaults_le d callee.name 1 args f.params
  simp only [count_append] at hnotCallable hfaults
  simp only [judgeCall]
  split
  · have h := count_judgeName_le (Γ := Γ) d callee
    simp only [count_empty]
    omega
  · split
    · exact Nat.le_trans hnotCallable (Nat.le_add_right _ _)
    · split
      · have h := hfaults (f.params.length ≠ args.length) true
        change _ + _ + (fault _ _).count d ≤ _ at h
        simp only [count_append]
        omega
      · have h := hfaults (f.params.length ≠ args.length) false
        simp only [count_append]
        omega

theorem count_judgeUnary_le (m : Mark) (op : UnaryOp) (operand : Judgement) :
    (judgeUnary m op operand).report.count d ≤ operand.report.count d + d.tally false m := by
  have h : (fault m (.operandTypes op.token.spelling)).count d ≤ d.tally false m :=
    count_faultIf_le true m rfl d
  simp only [judgeUnary]
  split
  · simp only [Judgement.count_of]
    omega
  · simp only [Judgement.count_of, count_append]
    omega
  · simp only [Judgement.count_of, count_append]
    omega

theorem count_judgeBinary_le (m : Mark) (op : BinaryOp) (lhs rhs : Judgement) :
    (judgeBinary m op lhs rhs).report.count d ≤
      lhs.report.count d + rhs.report.count d + d.tally false m := by
  have h : ∀ b, (faultIf b m (.operandTypes op.token.spelling)).count d ≤ d.tally false m :=
    fun b => count_faultIf_le b m rfl d
  simp only [judgeBinary]
  split_ifs
  · simp only [Judgement.count_of, count_append]
    exact Nat.add_le_add_left (h _) _
  · simp only [Judgement.count_of, count_append]
    exact Nat.add_le_add_left (h _) _
  · simp only [Judgement.count_of, count_append]
    exact Nat.add_le_add_left (h _) _

theorem count_judgeMax_le (m : Mark) (ts : List Ty) (parts : Report) :
    (judgeMax m ts parts).report.count d ≤ parts.count d + d.tally false m := by
  have hcount : (fault m (.maxCount ts.length)).count d ≤ d.tally false m :=
    count_faultIf_le true m rfl d
  have htypes : (fault m .maxTypes).count d ≤ d.tally false m := count_faultIf_le true m rfl d
  unfold judgeMax
  split_ifs
  · simp only [Judgement.count_of, count_append]
    omega
  · simp only [Judgement.count_of]
    omega
  · simp only [Judgement.count_of]
    omega
  · simp only [Judgement.count_of]
    omega
  · simp only [Judgement.count_of, count_append]
    omega

end Context

open Context

variable {Γ : Context} (d : Diagnostic)

/-- A diagnostic is reported at most as often as its mark stands in an expression, also if a fault
from outside is reported at the expression besides. -/
def Expr.Spared (Γ : Context) (d : Diagnostic) (e : Expr) : Prop :=
  (e.judge Γ).report.count d + d.tally true e.mark ≤ e.marks.count d.mark

theorem Expr.map_fst_judgeAll (Γ : Context) (es : List Expr) :
    (Expr.judgeAll Γ es).types.map Prod.fst = es.map Expr.mark := by
  induction es with
  | nil => rfl
  | cons e es ih => exact congrArg (e.mark :: ·) ih

theorem Expr.spared_all {es : List Expr} (h : ∀ e ∈ es, e.Spared Γ d) :
    (Expr.judgeAll Γ es).report.count d + tallies d (es.map Expr.mark) ≤
      (Expr.marksAll es).count d.mark := by
  induction es with
  | nil => exact Nat.zero_le _
  | cons e es ih =>
    obtain ⟨he, hes⟩ := List.forall_mem_cons.1 h
    have htail := ih hes
    rw [Spared] at he
    simp only [Expr.judgeAll, Expr.marksAll, count_append, List.count_append, List.map_cons,
      tallies]
    omega

theorem count_element_le (m : Mark) (base : Ident) {index : Expr} (hi : index.Spared Γ d) :
    (judgeElement m base (Γ.judgeName base) (index.judge Γ) index.mark).report.count d +
      d.tally true m ≤ (base.mark :: index.marks ++ [m]).count d.mark := by
  have hbase : ∀ b, ((Γ.judgeName base).report ++
      faultIf b base.mark (.notArray base.name)).count d ≤ d.tally false base.mark :=
    fun b => ((at_judgeName base).append (at_faultIf b _ _)).count_le (by simp)
      (by simp [Fault.fromOutside]) d
  have hindex : ∀ b, (faultIf b index.mark .indexType).count d ≤ d.tally true index.mark :=
    fun b => count_faultIf_le b _ rfl d
  have h₁ := hbase ((Γ.judgeName base).type.violates Ty.isArray)
  have h₂ := hindex ((index.judge Γ).type.violates (· = .int))
  rw [Expr.Spared] at hi
  rw [count_append] at h₁
  simp only [count_judgeElement, List.count_append, Diagnostic.count_cons, List.count_nil]
  omega

theorem Expr.spared_judge (e : Expr) : e.Spared Γ d := by
  induction e using Expr.ind with
  | literal m v =>
    simp only [Spared, Expr.judge, Expr.marks, Expr.mark, Judgement.count_of, count_empty,
      Diagnostic.count_cons]
    omega
  | name m x =>
    have hname := count_judgeName_le (Γ := Γ) d x
    simp only [Spared, Expr.judge, Expr.marks, Expr.mark, Judgement.count_of,
      Diagnostic.count_cons]
    omega
  | element m base index ih => exact count_element_le d m base ih
  | call m callee args ih =>
    have hargs := Expr.spared_all d ih
    have hcall := count_call_le (Γ := Γ) d callee true (Γ.judgeName callee).type
      (Expr.judgeAll Γ args).types
    rw [Expr.map_fst_judgeAll] at hcall
    simp only [Spared, Expr.judge, Expr.marks, Expr.mark, Judgement.count_of, count_append,
      List.count_append, Diagnostic.count_cons, List.count_nil]
    omega
  | paren m inner ih =>
    simp only [Spared, Expr.judge, Expr.marks, Expr.mark, Judgement.count_of, List.count_append,
      Diagnostic.count_cons, List.count_nil] at ih ⊢
    omega
  | unary m op operand ih =>
    have hown := count_judgeUnary_le d m op (operand.judge Γ)
    simp only [Spared, Expr.judge, Expr.marks, Expr.mark, List.count_append,
      Diagnostic.count_cons, List.count_nil] at ih ⊢
    omega
  | binary m op lhs rhs ihl ihr =>
    have hown := count_judgeBinary_le d m op (lhs.judge Γ) (rhs.judge Γ)
    simp only [Spared, Expr.judge, Expr.marks, Expr.mark, List.count_append,
      Diagnostic.count_cons, List.count_nil] at ihl ihr ⊢
    omega
  | max m args ih =>
    have hargs := Expr.spared_all d ih
    have hown := count_judgeMax_le d m ((Expr.judgeAll Γ args).types.map Prod.snd)
      (Expr.judgeAll Γ args).report
    simp only [Spared, Expr.judge, Expr.marks, Expr.mark, List.count_append,
      Diagnostic.count_cons, List.count_nil]
    omega

theorem Target.spared_judge (x : Target) :
    (x.judge Γ).report.count d + d.tally true x.mark ≤ x.marks.count d.mark := by
  cases x with
  | name m x =>
    have hname := count_judgeName_le (Γ := Γ) d x
    simp only [Target.judge, Target.marks, Target.mark, Judgement.count_of, Diagnostic.count_cons]
    omega
  | element m base index => exact count_element_le d m base (index.spared_judge d)

theorem Expr.count_judgeCondition_le (instruction : String) (e : Expr) :
    (e.judgeCondition Γ instruction).count d ≤ e.marks.count d.mark := by
  have he := e.spared_judge (Γ := Γ) d
  have hfault : ∀ b, (faultIf b e.mark (.conditionType instruction)).count d ≤
      d.tally true e.mark :=
    fun b => count_faultIf_le b _ rfl d
  have h := hfault ((e.judge Γ).type.violates (· = .bool))
  rw [Spared] at he
  rw [judgeCondition, count_append]
  omega

theorem Expr.count_judgeRange_le (es : List Expr) :
    (Expr.judgeRange Γ es).count d ≤ (Expr.marksAll es).count d.mark := by
  induction es with
  | nil => exact Nat.zero_le _
  | cons e es ih =>
    have he := e.spared_judge (Γ := Γ) d
    have hfault : ∀ b, (faultIf b e.mark .rangeType).count d ≤ d.tally true e.mark :=
      fun b => count_faultIf_le b _ rfl d
    have h := hfault ((e.judge Γ).type.violates (· = .int))
    rw [Spared] at he
    simp only [judgeRange, marksAll, count_append, List.count_append]
    omega

theorem Stmt.spared_judgeAll {ss : List Stmt}
    (h : ∀ s ∈ ss, (s.judge Γ).count d ≤ s.marks.count d.mark) :
    (Stmt.judgeAll Γ ss).count d ≤ (Stmt.marksAll ss).count d.mark := by
  induction ss with
  | nil => exact Nat.zero_le _
  | cons s ss ih =>
    obtain ⟨hs, hss⟩ := List.forall_mem_cons.1 h
    have htail := ih hss
    simp only [judgeAll, marksAll, count_append, List.count_append]
    omega

theorem Stmt.spared_judge (s : Stmt) : (s.judge Γ).count d ≤ s.marks.count d.mark := by
  induction s using Stmt.ind with
  | assign m target value =>
    have ht := target.spared_judge (Γ := Γ) d
    have hv := value.spared_judge (Γ := Γ) d
    have htypes : ∀ b t u, (faultIf b m (.assignTypes t u)).count d ≤ d.tally false m :=
      fun b t u => count_faultIf_le b m rfl d
    have hplace : ∀ b, (faultIf b target.mark .assignPlace).count d ≤ d.tally true target.mark :=
      fun b => count_faultIf_le b _ rfl d
    simp only [Stmt.judge, Stmt.marks, count_append, List.count_append, Diagnostic.count_cons,
      List.count_nil, Expr.Spared] at hv ⊢
    have h₁ := htypes ((target.judge Γ).type ≠ .error &&
      (value.judge Γ).type.violates (target.judge Γ).type.accepts) (target.judge Γ).type.text
        (value.judge Γ).type.text
    have h₂ := hplace ((target.judge Γ).type ≠ .error && !(target.judge Γ).isPlace)
    omega
  | ifThen m condition body ih =>
    have hc := condition.count_judgeCondition_le (Γ := Γ) d "if"
    have hb := Stmt.spared_judgeAll d ih
    simp only [Stmt.judge, Stmt.marks, count_append, List.count_append]
    omega
  | ifElse m condition body otherwise ihb iho =>
    have hc := condition.count_judgeCondition_le (Γ := Γ) d "if"
    have hb := Stmt.spared_judgeAll d ihb
    have ho := Stmt.spared_judgeAll d iho
    simp only [Stmt.judge, Stmt.marks, count_append, List.count_append]
    omega
  | while_ m condition body ih =>
    have hc := condition.count_judgeCondition_le (Γ := Γ) d "while"
    have hb := Stmt.spared_judgeAll d ih
    simp only [Stmt.judge, Stmt.marks, count_append, List.count_append]
    omega
  | for_ m control range body ih =>
    have hcontrol : ∀ b, ((Γ.judgeName control).report ++
        faultIf b control.mark .controlType).count d ≤ d.tally false control.mark :=
      fun b => ((at_judgeName control).append (at_faultIf b _ _)).count_le (by simp)
        (by simp [Fault.fromOutside]) d
    have hcount : ∀ b n, (faultIf b m (.rangeCount n)).count d ≤ d.tally false m :=
      fun b n => count_faultIf_le b m rfl d
    have hr := Expr.count_judgeRange_le (Γ := Γ) d range
    have hb := Stmt.spared_judgeAll d ih
    have h₁ := hcontrol ((Γ.judgeName control).type.violates (· = .int))
    have h₂ := hcount (range.isEmpty || 3 < range.length) range.length
    rw [count_append] at h₁
    simp only [Stmt.judge, Stmt.marks, count_append, List.count_append, Diagnostic.count_cons,
      List.count_nil]
    omega
  | call m callee args =>
    have hargs := Expr.spared_all (Γ := Γ) d fun a (_ : a ∈ args) => a.spared_judge d
    have hcall := count_call_le (Γ := Γ) d callee false (Γ.judgeName callee).type
      (Expr.judgeAll Γ args).types
    rw [Expr.map_fst_judgeAll] at hcall
    simp only [Stmt.judge, Stmt.marks, count_append, List.count_append, Diagnostic.count_cons,
      List.count_nil]
    omega
  | read m target =>
    have ht := target.spared_judge (Γ := Γ) d
    have hfaults : ∀ b c, (faultIf b target.mark (.notPrimitive "read") ++
        faultIf c target.mark .readPlace).count d ≤ d.tally true target.mark :=
      fun b c => ((at_faultIf b _ _).append (at_faultIf c _ _)).count_le (by simp)
        (by simp [Fault.fromOutside]) d
    have h := hfaults ((target.judge Γ).type.violates Ty.isPrimitive)
      ((target.judge Γ).type ≠ .error && !(target.judge Γ).isPlace)
    rw [count_append] at h
    simp only [Stmt.judge, Stmt.marks, count_append, List.count_append]
    omega
  | write m value =>
    have hv := value.spared_judge (Γ := Γ) d
    have hfault : ∀ b, (faultIf b value.mark (.notPrimitive "write")).count d ≤
        d.tally true value.mark := fun b => count_faultIf_le b _ rfl d
    have h := hfault ((value.judge Γ).type.violates Ty.isPrimitive)
    simp only [Stmt.judge, Stmt.marks, count_append, List.count_append, Expr.Spared] at hv ⊢
    omega
  | writeText m raw => exact Nat.zero_le _
  | ret m value =>
    have hret : ∀ b, (faultIf b m .returnType).count d ≤ d.tally false m :=
      fun b => count_faultIf_le b m rfl d
    cases value with
    | none =>
      have h := hret (Γ.result ≠ .void)
      simp only [Stmt.judge, Stmt.marks, Diagnostic.count_cons]
      omega
    | some value =>
      have hv := value.spared_judge (Γ := Γ) d
      have h := hret ((value.judge Γ).type.violates Γ.result.accepts)
      simp only [Stmt.judge, Stmt.marks, count_append, List.count_append, Diagnostic.count_cons,
        List.count_nil, Expr.Spared] at hv ⊢
      omega

theorem Stmt.spared_all (Γ : Context) (ss : List Stmt) :
    (Stmt.judgeAll Γ ss).count d ≤ (Stmt.marksAll ss).count d.mark :=
  Stmt.spared_judgeAll d fun s _ => s.spared_judge d

end Asl
