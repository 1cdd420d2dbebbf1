import Asl.Proofs.Tree.Declared

/-!
# Where mistakes are reported

Every mistake that judging finds is reported at a node of what is judged. Judging never looks for
the entry point of a program, so a report of a body is silent about it.
-/
namespace Asl

/-- Every diagnostic is about one of some nodes, and none about a missing entry point. -/
def Report.Inside (ns : List NodeId) (r : Report) : Prop :=
  ∀ d ∈ r.diagnostics, d.mark.id ∈ ns ∧ d.fault ≠ .noMain

namespace Report

variable {ns ms : List NodeId} {r r' : Report}

theorem append_empty (r : Report) : r ++ empty = r := by
  obtain ⟨notes, diagnostics⟩ := r
  change Report.mk (notes ++ []) (diagnostics ++ []) = _
  rw [List.append_nil, List.append_nil]

theorem inside_empty : empty.Inside ns := fun _ h => absurd h List.not_mem_nil

theorem Inside.mono (h : r.Inside ns) (hsub : ns ⊆ ms) : r.Inside ms :=
  fun d hd => ⟨hsub (h d hd).1, (h d hd).2⟩

theorem Inside.append (h : r.Inside ns) (h' : r'.Inside ns) : (r ++ r').Inside ns := by
  intro d hd
  rcases List.mem_append.1 hd with hd | hd
  · exact h d hd
  · exact h' d hd

theorem inside_fault {m : Mark} {f : Fault} (hm : m.id ∈ ns)
    (hf : f ≠ .noMain) : (fault m f).Inside ns := by
  intro d hd
  rw [List.mem_singleton.1 hd]
  exact ⟨hm, hf⟩

theorem inside_faultIf {b : Bool} {m : Mark} {f : Fault} (hm : m.id ∈ ns)
    (hf : f ≠ .noMain) : (faultIf b m f).Inside ns := by
  cases b
  · exact inside_empty
  · exact inside_fault hm hf

theorem inside_of {m : Mark} {t : Ty} {b : Bool} (h : r.Inside ns) :
    (Judgement.of m t b r).report.Inside ns := h.append inside_empty

end Report

open Report

namespace Context

variable {Γ : Context} {ns : List NodeId}

theorem inside_judgeName {x : Ident} (hx : x.mark.id ∈ ns) : (Γ.judgeName x).report.Inside ns := by
  unfold judgeName
  split
  · exact inside_of inside_empty
  · exact inside_of (inside_fault hx (by simp))

theorem inside_judgeElement {m im : Mark} {base : Ident} {array index : Judgement}
    (hb : base.mark.id ∈ ns) (hi : im.id ∈ ns) (harray : array.report.Inside ns)
    (hindex : index.report.Inside ns) : (judgeElement m base array index im).report.Inside ns := by
  have hparts : (array.report ++ index.report ++
      faultIf (array.type.violates Ty.isArray) base.mark (.notArray base.name) ++
      faultIf (index.type.violates (· = .int)) im .indexType).Inside ns :=
    ((harray.append hindex).append (inside_faultIf hb (by simp))).append
      (inside_faultIf hi (by simp))
  simp only [judgeElement]
  split
  · exact inside_of hparts
  · exact inside_of hparts

theorem inside_argumentFaults (callee : String) (k : Nat) {args : List (Mark × Ty)} (ps : List Ty)
    (h : ∀ a ∈ args, a.1.id ∈ ns) : (argumentFaults callee k args ps).Inside ns := by
  induction args generalizing k ps with
  | nil => exact inside_empty
  | cons a args ih =>
    obtain ⟨ha, hargs⟩ := List.forall_mem_cons.1 h
    cases ps with
    | nil => exact inside_empty
    | cons p ps => exact (inside_faultIf ha (by simp)).append (ih (k + 1) ps hargs)

theorem inside_judgeCall {callee : Ident} (asValue : Bool) (f : Ty) {args : List (Mark × Ty)}
    (hc : callee.mark.id ∈ ns) (h : ∀ a ∈ args, a.1.id ∈ ns) :
    (judgeCall callee asValue f args).2.Inside ns := by
  have hfaults : (faultIf (f.params.length ≠ args.length) callee.mark
      (.argumentCount callee.name f.params.length args.length) ++
      argumentFaults callee.name 1 args f.params).Inside ns :=
    (inside_faultIf hc (by simp)).append (inside_argumentFaults callee.name 1 f.params h)
  simp only [judgeCall]
  split
  · exact inside_empty
  · split
    · exact inside_fault hc (by simp)
    · split
      · exact hfaults.append (inside_fault hc (by simp))
      · exact hfaults

theorem inside_judgeUnary {m : Mark} (op : UnaryOp) {operand : Judgement} (hm : m.id ∈ ns)
    (h : operand.report.Inside ns) : (judgeUnary m op operand).report.Inside ns := by
  simp only [judgeUnary]
  split
  · exact inside_of h
  · exact inside_of (h.append (inside_fault hm (by simp)))
  · exact inside_of (h.append (inside_fault hm (by simp)))

theorem inside_judgeBinary {m : Mark} (op : BinaryOp) {lhs rhs : Judgement} (hm : m.id ∈ ns)
    (hl : lhs.report.Inside ns) (hr : rhs.report.Inside ns) :
    (judgeBinary m op lhs rhs).report.Inside ns := by
  simp only [judgeBinary]
  split
  · exact inside_of ((hl.append hr).append (inside_faultIf hm (by simp)))
  · split
    · exact inside_of ((hl.append hr).append (inside_faultIf hm (by simp)))
    · exact inside_of ((hl.append hr).append (inside_faultIf hm (by simp)))

theorem inside_judgeMax {m : Mark} (ts : List Ty) {parts : Report} (hm : m.id ∈ ns)
    (h : parts.Inside ns) : (judgeMax m ts parts).report.Inside ns := by
  unfold judgeMax
  split_ifs
  · exact inside_of (h.append (inside_fault hm (by simp)))
  · exact inside_of h
  · exact inside_of h
  · exact inside_of h
  · exact inside_of (h.append (inside_fault hm (by simp)))

end Context

open Context

variable {Γ : Context} {ns : List NodeId}

theorem Expr.inside_judgeAll {es : List Expr} (h : ∀ e ∈ es, (e.judge Γ).report.Inside e.ids) :
    (Expr.judgeAll Γ es).report.Inside (Expr.idsAll es) := by
  induction es with
  | nil => exact inside_empty
  | cons e es ih =>
    obtain ⟨he, hes⟩ := List.forall_mem_cons.1 h
    exact (he.mono (List.subset_append_left _ _)).append
      ((ih hes).mono (List.subset_append_right _ _))

theorem Expr.marks_judgeAll (es : List Expr) :
    ∀ a ∈ (Expr.judgeAll Γ es).types, a.1.id ∈ Expr.idsAll es := by
  induction es with
  | nil => exact fun a h => absurd h List.not_mem_nil
  | cons e es ih =>
    refine List.forall_mem_cons.2 ⟨List.mem_append_left _ e.mark_mem_ids, fun a ha => ?_⟩
    exact List.mem_append_right _ (ih a ha)

theorem Expr.inside_judge (e : Expr) : (e.judge Γ).report.Inside e.ids := by
  induction e using Expr.ind with
  | literal m v => exact inside_of inside_empty
  | name m x => exact inside_of (inside_judgeName List.mem_cons_self)
  | element m base index ih =>
    have hindex : index.ids ⊆ (Expr.element m base index).ids := fun n hn => by
      simp [Expr.ids, hn]
    exact inside_judgeElement List.mem_cons_self (hindex index.mark_mem_ids)
      (inside_judgeName List.mem_cons_self) (ih.mono hindex)
  | call m callee args ih =>
    have hargs : Expr.idsAll args ⊆ (Expr.call m callee args).ids := fun n hn => by
      simp [Expr.ids, hn]
    have hcall := inside_judgeCall true (Γ.judgeName callee).type
      (List.mem_cons_self (a := callee.mark.id))
      fun a ha => hargs (Expr.marks_judgeAll (Γ := Γ) args a ha)
    exact inside_of (((inside_judgeName List.mem_cons_self).append
      ((Expr.inside_judgeAll ih).mono hargs)).append hcall)
  | paren m inner ih => exact inside_of (ih.mono (List.subset_append_left _ _))
  | unary m op operand ih =>
    exact inside_judgeUnary op (by simp [Expr.ids]) (ih.mono (List.subset_append_left _ _))
  | binary m op lhs rhs ihl ihr =>
    exact inside_judgeBinary op (by simp [Expr.ids]) (ihl.mono fun n hn => by simp [Expr.ids, hn])
      (ihr.mono fun n hn => by simp [Expr.ids, hn])
  | max m args ih =>
    exact inside_judgeMax _ (by simp [Expr.ids])
      ((Expr.inside_judgeAll ih).mono (List.subset_append_left _ _))

theorem Expr.inside_all (es : List Expr) : (Expr.judgeAll Γ es).report.Inside (Expr.idsAll es) :=
  Expr.inside_judgeAll fun e _ => e.inside_judge

theorem Target.inside_judge (x : Target) : (x.judge Γ).report.Inside x.ids := by
  cases x with
  | name m x => exact inside_of (inside_judgeName List.mem_cons_self)
  | element m base index =>
    have hindex : index.ids ⊆ (Target.element m base index).ids := fun n hn => by
      simp [Target.ids, hn]
    exact inside_judgeElement List.mem_cons_self (hindex index.mark_mem_ids)
      (inside_judgeName List.mem_cons_self) (index.inside_judge.mono hindex)

theorem Expr.inside_judgeCondition (instruction : String) (e : Expr) :
    (e.judgeCondition Γ instruction).Inside e.ids :=
  e.inside_judge.append (inside_faultIf e.mark_mem_ids (by simp))

theorem Expr.inside_judgeRange (es : List Expr) :
    (Expr.judgeRange Γ es).Inside (Expr.idsAll es) := by
  induction es with
  | nil => exact inside_empty
  | cons e es ih =>
    have he := (e.inside_judge (Γ := Γ)).append
      (inside_faultIf (b := (e.judge Γ).type.violates (· = .int)) (f := .rangeType) e.mark_mem_ids
        (by simp))
    exact (he.mono (List.subset_append_left _ _)).append (ih.mono (List.subset_append_right _ _))

theorem Stmt.inside_judgeAll {ss : List Stmt} (h : ∀ s ∈ ss, (s.judge Γ).Inside s.ids) :
    (Stmt.judgeAll Γ ss).Inside (Stmt.idsAll ss) := by
  induction ss with
  | nil => exact inside_empty
  | cons s ss ih =>
    obtain ⟨hs, hss⟩ := List.forall_mem_cons.1 h
    exact (hs.mono (List.subset_append_left _ _)).append
      ((ih hss).mono (List.subset_append_right _ _))

theorem Stmt.inside_judge (s : Stmt) : (s.judge Γ).Inside s.ids := by
  induction s using Stmt.ind with
  | assign m target value =>
    simp only [Stmt.judge]
    have hm : m.id ∈ (Stmt.assign m target value).ids := by simp [Stmt.ids]
    have htarget : target.ids ⊆ (Stmt.assign m target value).ids := fun n hn => by
      simp [Stmt.ids, hn]
    have hvalue : value.ids ⊆ (Stmt.assign m target value).ids := fun n hn => by
      simp [Stmt.ids, hn]
    exact (((target.inside_judge.mono htarget).append (value.inside_judge.mono hvalue)).append
      (inside_faultIf hm (by simp))).append
        (inside_faultIf (htarget target.mark_mem_ids) (by simp))
  | ifThen m condition body ih =>
    simp only [Stmt.judge]
    have hc : condition.ids ⊆ (Stmt.ifThen m condition body).ids := fun n hn => by
      simp [Stmt.ids, hn]
    have hb : Stmt.idsAll body ⊆ (Stmt.ifThen m condition body).ids := fun n hn => by
      simp [Stmt.ids, hn]
    exact ((condition.inside_judgeCondition "if").mono hc).append
      ((Stmt.inside_judgeAll ih).mono hb)
  | ifElse m condition body otherwise ihb iho =>
    simp only [Stmt.judge]
    have hc : condition.ids ⊆ (Stmt.ifElse m condition body otherwise).ids := fun n hn => by
      simp [Stmt.ids, hn]
    have hb : Stmt.idsAll body ⊆ (Stmt.ifElse m condition body otherwise).ids := fun n hn => by
      simp [Stmt.ids, hn]
    have ho : Stmt.idsAll otherwise ⊆ (Stmt.ifElse m condition body otherwise).ids :=
      fun n hn => by simp [Stmt.ids, hn]
    exact (((condition.inside_judgeCondition "if").mono hc).append
      ((Stmt.inside_judgeAll ihb).mono hb)).append ((Stmt.inside_judgeAll iho).mono ho)
  | while_ m condition body ih =>
    simp only [Stmt.judge]
    have hc : condition.ids ⊆ (Stmt.while m condition body).ids := fun n hn => by
      simp [Stmt.ids, hn]
    have hb : Stmt.idsAll body ⊆ (Stmt.while m condition body).ids := fun n hn => by
      simp [Stmt.ids, hn]
    exact ((condition.inside_judgeCondition "while").mono hc).append
      ((Stmt.inside_judgeAll ih).mono hb)
  | for_ m control range body ih =>
    simp only [Stmt.judge]
    have hm : m.id ∈ (Stmt.for m control range body).ids := by simp [Stmt.ids]
    have hcontrol : control.mark.id ∈ (Stmt.for m control range body).ids := by simp [Stmt.ids]
    have hr : Expr.idsAll range ⊆ (Stmt.for m control range body).ids := fun n hn => by
      simp [Stmt.ids, hn]
    have hb : Stmt.idsAll body ⊆ (Stmt.for m control range body).ids := fun n hn => by
      simp [Stmt.ids, hn]
    exact ((((inside_judgeName hcontrol).append (inside_faultIf hcontrol (by simp))).append
      (inside_faultIf hm (by simp))).append ((Expr.inside_judgeRange range).mono hr)).append
        ((Stmt.inside_judgeAll ih).mono hb)
  | call m callee args =>
    simp only [Stmt.judge]
    have hcallee : callee.mark.id ∈ (Stmt.call m callee args).ids := by simp [Stmt.ids]
    have hargs : Expr.idsAll args ⊆ (Stmt.call m callee args).ids := fun n hn => by
      simp [Stmt.ids, hn]
    have hcall := inside_judgeCall false (Γ.judgeName callee).type hcallee
      fun a ha => hargs (Expr.marks_judgeAll (Γ := Γ) args a ha)
    exact ((inside_judgeName hcallee).append
      ((Expr.inside_all args).mono hargs)).append hcall
  | read m target =>
    simp only [Stmt.judge]
    have htarget : target.ids ⊆ (Stmt.read m target).ids := List.subset_append_left _ _
    exact ((target.inside_judge.mono htarget).append
      (inside_faultIf (htarget target.mark_mem_ids) (by simp))).append
        (inside_faultIf (htarget target.mark_mem_ids) (by simp))
  | write m value =>
    simp only [Stmt.judge]
    have hvalue : value.ids ⊆ (Stmt.write m value).ids := List.subset_append_left _ _
    exact (value.inside_judge.mono hvalue).append
      (inside_faultIf (hvalue value.mark_mem_ids) (by simp))
  | writeText m raw => exact inside_empty
  | ret m value =>
    cases value with
    | none => exact inside_faultIf (by simp [Stmt.ids]) (by simp)
    | some value =>
      simp only [Stmt.judge]
      have hvalue : value.ids ⊆ (Stmt.ret m (some value)).ids := List.subset_append_left _ _
      exact (value.inside_judge.mono hvalue).append (inside_faultIf (by simp [Stmt.ids]) (by simp))

theorem Stmt.inside_all (Γ : Context) (ss : List Stmt) :
    (Stmt.judgeAll Γ ss).Inside (Stmt.idsAll ss) :=
  Stmt.inside_judgeAll fun s _ => s.inside_judge

theorem Entry.mem_redeclared {taken : List String} {es : List Entry} {d : Diagnostic}
    (hd : d ∈ redeclared taken es) : ∃ e ∈ es, d = ⟨e.ident.mark, .redeclared e.name⟩ := by
  induction es generalizing taken with
  | nil => cases hd
  | cons e es ih =>
    rcases List.mem_append.1 hd with hd | hd
    · split at hd
      · exact ⟨e, List.mem_cons_self, List.mem_singleton.1 hd⟩
      · cases hd
    · obtain ⟨e', he', h⟩ := ih hd
      exact ⟨e', List.mem_cons_of_mem _ he', h⟩

theorem Function.ident_mem_ids {f : Function} {e : Entry} (he : e ∈ f.entries) :
    e.ident.mark.id ∈ f.ids := by
  rcases List.mem_append.1 he with he | he
  · obtain ⟨p, hp, rfl⟩ := List.mem_map.1 he
    have hmem : p.name.mark.id ∈ f.params.flatMap Parameter.ids :=
      List.mem_flatMap.2 ⟨p, hp, List.mem_cons_self⟩
    simp [ids, Parameter.entry, hmem]
  · obtain ⟨d, hd, he⟩ := List.mem_flatMap.1 he
    obtain ⟨x, hx, rfl⟩ := List.mem_map.1 he
    have hmem : x.mark.id ∈ f.declarations.flatMap Declaration.ids :=
      List.mem_flatMap.2 ⟨d, hd, List.mem_append_left _ (List.mem_map.2 ⟨x, hx, rfl⟩)⟩
    simp [ids, hmem]

theorem Function.located_redeclared {taken : List String} {f : Function} {d : Diagnostic}
    (hd : d ∈ f.redeclared taken) : d.mark.id ∈ f.ids ∧ d.fault ≠ .noMain := by
  rcases List.mem_append.1 hd with hd | hd
  · obtain ⟨e, he, rfl⟩ := Entry.mem_redeclared hd
    exact ⟨f.ident_mem_ids he, nofun⟩
  · split at hd
    · rw [List.mem_singleton.1 hd]
      exact ⟨List.mem_cons_of_mem _ List.mem_cons_self, nofun⟩
    · cases hd

theorem Function.located_allRedeclared {taken : List String} {fs : List Function} {d : Diagnostic}
    (hd : d ∈ allRedeclared taken fs) :
    (∃ f ∈ fs, d.mark.id ∈ f.header.ids) ∧ d.fault ≠ .noMain := by
  induction fs generalizing taken with
  | nil => cases hd
  | cons f fs ih =>
    rcases List.mem_append.1 hd with hd | hd
    · obtain ⟨hmem, hfault⟩ := f.header.located_redeclared hd
      exact ⟨⟨f, List.mem_cons_self, hmem⟩, hfault⟩
    · obtain ⟨⟨g, hg, hmem⟩, hfault⟩ := ih hd
      exact ⟨⟨g, List.mem_cons_of_mem _ hg, hmem⟩, hfault⟩

theorem Function.header_ids_subset (f : Function) : f.header.ids ⊆ f.ids := by
  intro n hn
  simp only [header, ids, Stmt.idsAll] at hn ⊢
  simp only [List.mem_cons, List.mem_append] at hn ⊢
  tauto

end Asl
