import Asl.Proofs.Typing.Silence

/-!
# Bodies with a swapped expression

The rules for single nodes are lifted to trees with a hole. The induction is on the hole, so it
follows the way from the expression that is swapped up to the body that it stands in.
-/
namespace Asl

open Report Swap

variable {σ : Swap} {Γ : Context} {ds : List Diagnostic}

/-- An index of an array that has a wrong type still has one when `e'` stands in place of `e`. -/
def Context.KeepsIndex (Γ : Context) (e e' : Expr) (i : Ident × Expr.Hole) : Prop :=
  (Γ.judgeName i.1).type.isArray = true →
    ((i.2.fill e).judge Γ).type.violates (· = .int) = true →
      ((i.2.fill e').judge Γ).type.violates (· = .int) = true

def Expr.Swapped (σ : Swap) (Γ : Context) (ds : List Diagnostic) (e e' : Expr) : Prop :=
  σ.Judges ds e.mark (e.judge Γ) e'.mark (e'.judge Γ)

theorem Expr.fits_all {es : List Expr} (hes : ∀ n ∈ Expr.idsAll es, σ.Apart n) :
    List.Forall₂ σ.Fits (Expr.judgeAll Γ es).types (Expr.judgeAll Γ es).types :=
  List.forall₂_same.2 fun a ha => fits_of_apart (hes _ (Expr.marks_judgeAll es a ha))

theorem Expr.swapped_of_apart (e : Expr) (he : ∀ n ∈ e.ids, σ.Apart n) : e.Swapped σ Γ [] e where
  report := reports_of_inside e.inside_judge he
  fits := fits_of_apart (he _ e.mark_mem_ids)
  place _ := Or.inr rfl

theorem Expr.Swapped.all {e e' : Expr} (h : e.Swapped σ Γ ds e') {before after : List Expr}
    (hb : ∀ n ∈ Expr.idsAll before, σ.Apart n) (ha : ∀ n ∈ Expr.idsAll after, σ.Apart n) :
    σ.Reports ds (Expr.judgeAll Γ (before ++ e :: after)).report
        (Expr.judgeAll Γ (before ++ e' :: after)).report ∧
      List.Forall₂ σ.Fits (Expr.judgeAll Γ (before ++ e :: after)).types
        (Expr.judgeAll Γ (before ++ e' :: after)).types := by
  induction before with
  | nil =>
    exact ⟨h.report.behind (reports_of_inside (Expr.inside_all after) ha),
      .cons h.fits (Expr.fits_all ha)⟩
  | cons b before ih =>
    obtain ⟨hhead, htail⟩ := List.forall_mem_append.1 hb
    obtain ⟨hreports, hfits⟩ := ih htail
    exact ⟨(reports_of_inside b.inside_judge hhead).before hreports,
      .cons (fits_of_apart (hhead _ b.mark_mem_ids)) hfits⟩

theorem Expr.Hole.swapped (c : Expr.Hole) {e e' : Expr} (h : e.Swapped σ Γ ds e')
    (hpath : ∀ n ∈ c.path, σ.Around n) (haside : ∀ n ∈ c.aside, σ.Apart n)
    (hi : σ.keepsIndices → ∀ i ∈ c.indices, Γ.KeepsIndex e e' i) :
    (c.fill e).Swapped σ Γ ds (c.fill e') := by
  induction c with
  | here => exact h
  | element m base index ih =>
    obtain ⟨hm, hinner⟩ := List.forall_mem_cons.1 hpath
    obtain ⟨hbase, hindex⟩ := List.forall_mem_cons.1 haside
    refine judges_element hm hbase (ih hinner hindex fun hσ => ?_) fun hσ => ?_
    · exact (List.forall_mem_cons.1 (hi hσ)).2
    · exact (List.forall_mem_cons.1 (hi hσ)).1
  | call m callee before argument after ih =>
    obtain ⟨hm, hinner⟩ := List.forall_mem_cons.1 hpath
    obtain ⟨hcallee, hbefore, hafter, hargument⟩ : σ.Apart callee.mark.id ∧
        (∀ n ∈ Expr.idsAll before, σ.Apart n) ∧ (∀ n ∈ Expr.idsAll after, σ.Apart n) ∧
        ∀ n ∈ argument.aside, σ.Apart n := by
      simpa [aside, or_imp, forall_and] using haside
    obtain ⟨hreports, hfits⟩ := (ih hinner hargument hi).all hbefore hafter
    obtain ⟨hcall, htype⟩ := reports_call hcallee true (Γ.judgeName callee).type hfits
    exact judges_of hm (((reports_name hcallee).before hreports).behind hcall)
      fun _ => Or.inr ⟨htype, rfl⟩
  | paren m inner ih =>
    obtain ⟨hm, hinner⟩ := List.forall_mem_cons.1 hpath
    have hj := ih hinner haside hi
    refine judges_of hm hj.report fun hσ => ?_
    rcases hj.fits.type hσ with he | he
    · exact Or.inl he
    · exact (hj.place hσ).imp_right fun hp => ⟨he, hp⟩
  | unary m op operand ih =>
    obtain ⟨hm, hoperand⟩ := List.forall_mem_cons.1 hpath
    exact judges_unary op hm (ih hoperand haside hi)
  | left m op lhs rhs ih =>
    obtain ⟨hm, hinner⟩ := List.forall_mem_cons.1 hpath
    obtain ⟨hrhs, hlhs⟩ := List.forall_mem_append.1 haside
    have hbinary := judges_binary op hm (ih hinner hlhs hi) (swapped_of_apart (Γ := Γ) rhs hrhs)
    rwa [List.append_nil] at hbinary
  | right m op lhs rhs ih =>
    obtain ⟨hm, hinner⟩ := List.forall_mem_cons.1 hpath
    obtain ⟨hlhs, hrhs⟩ := List.forall_mem_append.1 haside
    exact judges_binary op hm (swapped_of_apart lhs hlhs) (ih hinner hrhs hi)
  | max m before argument after ih =>
    obtain ⟨hm, hinner⟩ := List.forall_mem_cons.1 hpath
    obtain ⟨hbefore, hafter, hargument⟩ : (∀ n ∈ Expr.idsAll before, σ.Apart n) ∧
        (∀ n ∈ Expr.idsAll after, σ.Apart n) ∧ ∀ n ∈ argument.aside, σ.Apart n := by
      simpa [aside, or_imp, forall_and] using haside
    obtain ⟨hreports, hfits⟩ := (ih hinner hargument hi).all hbefore hafter
    exact judges_max hm hfits hreports

theorem Expr.Swapped.condition {e e' : Expr} (h : e.Swapped σ Γ ds e') (instruction : String) :
    σ.Reports ds (e.judgeCondition Γ instruction) (e'.judgeCondition Γ instruction) :=
  h.report.behind (h.fits.faultIf (· = .bool) _)

theorem Expr.Swapped.range {e e' : Expr} (h : e.Swapped σ Γ ds e') {before after : List Expr}
    (hb : ∀ n ∈ Expr.idsAll before, σ.Apart n) (ha : ∀ n ∈ Expr.idsAll after, σ.Apart n) :
    σ.Reports ds (Expr.judgeRange Γ (before ++ e :: after))
      (Expr.judgeRange Γ (before ++ e' :: after)) := by
  induction before with
  | nil =>
    exact (h.report.behind (h.fits.faultIf (· = .int) .rangeType)).behind
      (reports_of_inside (Expr.inside_judgeRange after) ha)
  | cons b before ih =>
    obtain ⟨hhead, htail⟩ := List.forall_mem_append.1 hb
    have hswapped := b.swapped_of_apart (Γ := Γ) hhead
    exact (hswapped.report.before (hswapped.fits.faultIf (· = .int) .rangeType)).before (ih htail)

theorem Stmt.reports_all {s s' : Stmt} (h : σ.Reports ds (s.judge Γ) (s'.judge Γ))
    {before after : List Stmt} (hb : ∀ n ∈ Stmt.idsAll before, σ.Apart n)
    (ha : ∀ n ∈ Stmt.idsAll after, σ.Apart n) :
    σ.Reports ds (Stmt.judgeAll Γ (before ++ s :: after))
      (Stmt.judgeAll Γ (before ++ s' :: after)) := by
  induction before with
  | nil => exact h.behind (reports_of_inside (Stmt.inside_all Γ after) ha)
  | cons b before ih =>
    obtain ⟨hhead, htail⟩ := List.forall_mem_append.1 hb
    exact (reports_of_inside b.inside_judge hhead).before (ih htail)

theorem Swap.Judges.notPlace {m : Mark} {j j' : Judgement} (h : σ.Judges ds m j m j')
    (hm : σ.Around m.id) (f : Fault) :
    σ.Reports [] (faultIf (j.type ≠ .error && !j.isPlace) m f)
      (faultIf (j'.type ≠ .error && !j'.isPlace) m f) := by
  refine reports_faultIf hm fun hσ hb => ⟨?_, rfl⟩
  rcases h.fits.type hσ with he | he
  · simp [show j'.type = .error from he] at hb
  · rcases h.place hσ with hp | hp
    · simp [hp] at hb
    · rwa [show j'.type = j.type from he, hp] at hb

theorem Swap.reports_assign {ds' : List Diagnostic} {m tm vm vm' : Mark} {t t' v v' : Judgement}
    (hm : σ.Around m.id) (ht : σ.Judges ds tm t tm t') (hv : σ.Judges ds' vm v vm' v')
    (hplace : σ.Reports [] (faultIf (t.type ≠ .error && !t.isPlace) tm .assignPlace)
      (faultIf (t'.type ≠ .error && !t'.isPlace) tm .assignPlace)) :
    σ.Reports (ds ++ ds')
      (t.report ++ v.report ++ faultIf (t.type ≠ .error && v.type.violates t.type.accepts) m
        (.assignTypes t.type.text v.type.text) ++ faultIf (t.type ≠ .error && !t.isPlace) tm
          .assignPlace)
      (t'.report ++ v'.report ++ faultIf (t'.type ≠ .error && v'.type.violates t'.type.accepts) m
        (.assignTypes t'.type.text v'.type.text) ++ faultIf (t'.type ≠ .error && !t'.isPlace) tm
          .assignPlace) := by
  refine ((ht.report.append hv.report).behind (reports_faultIf hm fun hσ hb => ?_)).behind hplace
  rcases ht.fits.type hσ with hte | hte
  · simp [show t'.type = .error from hte] at hb
  · rcases hv.fits.type hσ with hve | hve
    · simp [show v'.type = .error from hve, Ty.violates] at hb
    · rw [show t'.type = t.type from hte, show v'.type = v.type from hve] at hb ⊢
      exact ⟨hb, rfl⟩

theorem Swap.reports_control {x : Ident} (hx : σ.Apart x.mark.id) :
    σ.Reports []
      ((Γ.judgeName x).report ++
        faultIf ((Γ.judgeName x).type.violates (· = .int)) x.mark .controlType)
      ((Γ.judgeName x).report ++
        faultIf ((Γ.judgeName x).type.violates (· = .int)) x.mark .controlType) :=
  (reports_name hx).before (reports_rule hx _ _)

theorem Target.judges_of_apart (x : Target) (hx : ∀ n ∈ x.ids, σ.Apart n) :
    σ.Judges [] x.mark (x.judge Γ) x.mark (x.judge Γ) where
  report := reports_of_inside x.inside_judge hx
  fits := fits_of_apart (hx _ x.mark_mem_ids)
  place _ := Or.inr rfl

theorem Stmt.Hole.reports (c : Stmt.Hole) {e e' : Expr} (h : e.Swapped σ Γ ds e')
    (hpath : ∀ n ∈ c.path, σ.Around n) (haside : ∀ n ∈ c.aside, σ.Apart n)
    (hi : σ.keepsIndices → ∀ i ∈ c.indices, Γ.KeepsIndex e e' i) :
    σ.Reports ds ((c.fill e).judge Γ) ((c.fill e').judge Γ) := by
  induction c with
  | assignIndex m place base index value =>
    obtain ⟨hm, hplace, hinner⟩ : σ.Around m.id ∧ σ.Around place.id ∧
        ∀ n ∈ index.path, σ.Around n := by
      simpa [path] using hpath
    obtain ⟨hbase, hvalue, hindex⟩ : σ.Apart base.mark.id ∧ (∀ n ∈ value.ids, σ.Apart n) ∧
        ∀ n ∈ index.aside, σ.Apart n := by
      simpa [aside, or_imp, forall_and] using haside
    have htarget := judges_element (Γ := Γ) hplace hbase
      (index.swapped h hinner hindex fun hσ => (List.forall_mem_cons.1 (hi hσ)).2)
      fun hσ => (List.forall_mem_cons.1 (hi hσ)).1
    have hassign := reports_assign hm htarget (value.swapped_of_apart (Γ := Γ) hvalue)
      (htarget.notPlace hplace .assignPlace)
    rw [List.append_nil] at hassign
    simp only [fill, Stmt.judge]
    exact hassign
  | assignValue m target value =>
    obtain ⟨hm, hinner⟩ := List.forall_mem_cons.1 hpath
    obtain ⟨htarget, hvalue⟩ := List.forall_mem_append.1 haside
    have hassign := reports_assign hm (target.judges_of_apart (Γ := Γ) htarget)
      (value.swapped h hinner hvalue hi) (reports_rule (htarget _ target.mark_mem_ids) _ _)
    simp only [fill, Stmt.judge]
    exact hassign
  | ifCondition m condition body =>
    obtain ⟨-, hinner⟩ := List.forall_mem_cons.1 hpath
    obtain ⟨hbody, hcondition⟩ := List.forall_mem_append.1 haside
    simp only [fill, Stmt.judge]
    exact ((condition.swapped h hinner hcondition hi).condition "if").behind
      (reports_of_inside (Stmt.inside_all Γ body) hbody)
  | ifBody m condition before inner after ih =>
    obtain ⟨-, hpath⟩ := List.forall_mem_cons.1 hpath
    obtain ⟨hcondition, hbefore, hafter, hinner⟩ : (∀ n ∈ condition.ids, σ.Apart n) ∧
        (∀ n ∈ Stmt.idsAll before, σ.Apart n) ∧ (∀ n ∈ Stmt.idsAll after, σ.Apart n) ∧
        ∀ n ∈ inner.aside, σ.Apart n := by
      simpa [aside, or_imp, forall_and] using haside
    simp only [fill, Stmt.judge]
    exact (reports_of_inside (condition.inside_judgeCondition "if") hcondition).before
      (Stmt.reports_all (ih hpath hinner hi) hbefore hafter)
  | elseCondition m condition body otherwise =>
    obtain ⟨-, hinner⟩ := List.forall_mem_cons.1 hpath
    obtain ⟨hbody, hotherwise, hcondition⟩ : (∀ n ∈ Stmt.idsAll body, σ.Apart n) ∧
        (∀ n ∈ Stmt.idsAll otherwise, σ.Apart n) ∧ ∀ n ∈ condition.aside, σ.Apart n := by
      simpa [aside, or_imp, forall_and] using haside
    simp only [fill, Stmt.judge]
    exact (((condition.swapped h hinner hcondition hi).condition "if").behind
      (reports_of_inside (Stmt.inside_all Γ body) hbody)).behind
        (reports_of_inside (Stmt.inside_all Γ otherwise) hotherwise)
  | elseBody m condition before inner after otherwise ih =>
    obtain ⟨-, hpath⟩ := List.forall_mem_cons.1 hpath
    obtain ⟨hcondition, hbefore, hafter, hotherwise, hinner⟩ : (∀ n ∈ condition.ids, σ.Apart n) ∧
        (∀ n ∈ Stmt.idsAll before, σ.Apart n) ∧ (∀ n ∈ Stmt.idsAll after, σ.Apart n) ∧
        (∀ n ∈ Stmt.idsAll otherwise, σ.Apart n) ∧ ∀ n ∈ inner.aside, σ.Apart n := by
      simpa [aside, or_imp, forall_and] using haside
    simp only [fill, Stmt.judge]
    exact ((reports_of_inside (condition.inside_judgeCondition "if") hcondition).before
      (Stmt.reports_all (ih hpath hinner hi) hbefore hafter)).behind
        (reports_of_inside (Stmt.inside_all Γ otherwise) hotherwise)
  | elseOtherwise m condition body before inner after ih =>
    obtain ⟨-, hpath⟩ := List.forall_mem_cons.1 hpath
    obtain ⟨hcondition, hbody, hbefore, hafter, hinner⟩ : (∀ n ∈ condition.ids, σ.Apart n) ∧
        (∀ n ∈ Stmt.idsAll body, σ.Apart n) ∧ (∀ n ∈ Stmt.idsAll before, σ.Apart n) ∧
        (∀ n ∈ Stmt.idsAll after, σ.Apart n) ∧ ∀ n ∈ inner.aside, σ.Apart n := by
      simpa [aside, or_imp, forall_and] using haside
    simp only [fill, Stmt.judge]
    exact ((reports_of_inside (condition.inside_judgeCondition "if") hcondition).before
      (reports_of_inside (Stmt.inside_all Γ body) hbody)).before
        (Stmt.reports_all (ih hpath hinner hi) hbefore hafter)
  | whileCondition m condition body =>
    obtain ⟨-, hinner⟩ := List.forall_mem_cons.1 hpath
    obtain ⟨hbody, hcondition⟩ := List.forall_mem_append.1 haside
    simp only [fill, Stmt.judge]
    exact ((condition.swapped h hinner hcondition hi).condition "while").behind
      (reports_of_inside (Stmt.inside_all Γ body) hbody)
  | whileBody m condition before inner after ih =>
    obtain ⟨-, hpath⟩ := List.forall_mem_cons.1 hpath
    obtain ⟨hcondition, hbefore, hafter, hinner⟩ : (∀ n ∈ condition.ids, σ.Apart n) ∧
        (∀ n ∈ Stmt.idsAll before, σ.Apart n) ∧ (∀ n ∈ Stmt.idsAll after, σ.Apart n) ∧
        ∀ n ∈ inner.aside, σ.Apart n := by
      simpa [aside, or_imp, forall_and] using haside
    simp only [fill, Stmt.judge]
    exact (reports_of_inside (condition.inside_judgeCondition "while") hcondition).before
      (Stmt.reports_all (ih hpath hinner hi) hbefore hafter)
  | forRange m control before bound after body =>
    obtain ⟨hm, hinner⟩ := List.forall_mem_cons.1 hpath
    obtain ⟨hcontrol, hbefore, hafter, hbody, hbound⟩ : σ.Apart control.mark.id ∧
        (∀ n ∈ Expr.idsAll before, σ.Apart n) ∧ (∀ n ∈ Expr.idsAll after, σ.Apart n) ∧
        (∀ n ∈ Stmt.idsAll body, σ.Apart n) ∧ ∀ n ∈ bound.aside, σ.Apart n := by
      simpa [aside, or_imp, forall_and] using haside
    have hrange := (bound.swapped h hinner hbound hi).range hbefore hafter
    have hbodies := reports_of_inside (Stmt.inside_all Γ body) hbody
    simp only [fill, Stmt.judge]
    exact (((reports_control hcontrol).before (reports_faultIf hm fun _ hb =>
      by simpa using hb)).before hrange).behind hbodies
  | forBody m control range before inner after ih =>
    obtain ⟨⟨-, hm⟩, hpath⟩ := List.forall_mem_cons.1 hpath
    obtain ⟨hcontrol, hrange, hbefore, hafter, hinner⟩ : σ.Apart control.mark.id ∧
        (∀ n ∈ Expr.idsAll range, σ.Apart n) ∧ (∀ n ∈ Stmt.idsAll before, σ.Apart n) ∧
        (∀ n ∈ Stmt.idsAll after, σ.Apart n) ∧ ∀ n ∈ inner.aside, σ.Apart n := by
      simpa [aside, or_imp, forall_and] using haside
    have hbody := Stmt.reports_all (ih hpath hinner hi) hbefore hafter
    simp only [fill, Stmt.judge]
    exact (((reports_control hcontrol).before (reports_rule hm _ _)).before
      (reports_of_inside (Expr.inside_judgeRange range) hrange)).before hbody
  | callArgument m callee before argument after =>
    obtain ⟨-, hinner⟩ := List.forall_mem_cons.1 hpath
    obtain ⟨hcallee, hbefore, hafter, hargument⟩ : σ.Apart callee.mark.id ∧
        (∀ n ∈ Expr.idsAll before, σ.Apart n) ∧ (∀ n ∈ Expr.idsAll after, σ.Apart n) ∧
        ∀ n ∈ argument.aside, σ.Apart n := by
      simpa [aside, or_imp, forall_and] using haside
    obtain ⟨hreports, hfits⟩ := (argument.swapped h hinner hargument hi).all hbefore hafter
    obtain ⟨hcall, -⟩ := reports_call hcallee false (Γ.judgeName callee).type hfits
    simp only [fill, Stmt.judge]
    exact ((reports_name hcallee).before hreports).behind hcall
  | readIndex m place base index =>
    obtain ⟨-, hplace, hinner⟩ : σ.Around m.id ∧ σ.Around place.id ∧
        ∀ n ∈ index.path, σ.Around n := by
      simpa [path] using hpath
    obtain ⟨hbase, hindex⟩ := List.forall_mem_cons.1 haside
    have htarget := judges_element (Γ := Γ) hplace hbase
      (index.swapped h hinner hindex fun hσ => (List.forall_mem_cons.1 (hi hσ)).2)
      fun hσ => (List.forall_mem_cons.1 (hi hσ)).1
    simp only [fill, Stmt.judge]
    exact (htarget.report.behind (htarget.fits.faultIf Ty.isPrimitive _)).behind
      (htarget.notPlace hplace _)
  | writeValue m value =>
    have hvalue := value.swapped h (List.forall_mem_cons.1 hpath).2 haside hi
    simp only [fill, Stmt.judge]
    exact hvalue.report.behind (hvalue.fits.faultIf Ty.isPrimitive _)
  | retValue m value =>
    obtain ⟨hm, hinner⟩ := List.forall_mem_cons.1 hpath
    have hvalue := value.swapped h hinner haside hi
    simp only [fill, Stmt.judge]
    refine hvalue.report.behind (reports_faultIf hm fun hσ hb => ?_)
    rcases hvalue.fits.type hσ with he | he
    · simp [show ((value.fill e').judge Γ).type = .error from he, Ty.violates] at hb
    · rw [show ((value.fill e').judge Γ).type = ((value.fill e).judge Γ).type from he] at hb
      exact ⟨hb, rfl⟩

end Asl
