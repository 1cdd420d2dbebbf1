import Asl.Proofs.Tree.Declared
import Asl.Proofs.Tree.Wrapped

/-!
# Judging printed trees

The rules of types look through parentheses and not at marks. A tree with the parentheses of its
text and with other marks has the same types and places, and the same diagnostics at the nodes that
its marks name.
-/
namespace Asl

def Diagnostic.mapMark (f : Mark → Mark) (d : Diagnostic) : Diagnostic := ⟨f d.mark, d.fault⟩

variable {f : Mark → Mark}

/-- The second report has the diagnostics of the first, at other marks. -/
def Report.Same (f : Mark → Mark) (r r' : Report) : Prop :=
  r'.diagnostics = r.diagnostics.map (Diagnostic.mapMark f)

namespace Report

theorem same_empty : empty.Same f empty := rfl

theorem Same.append {r r' s s' : Report} (h : r.Same f r') (h' : s.Same f s') :
    (r ++ s).Same f (r' ++ s') := by
  unfold Same
  rw [diagnostics_append, diagnostics_append, h, h', List.map_append]

theorem same_fault (m : Mark) (fault : Fault) :
    (Report.fault m fault).Same f (.fault (f m) fault) := rfl

theorem same_faultIf (b : Bool) (m : Mark) (fault : Fault) :
    (faultIf b m fault).Same f (faultIf b (f m) fault) := by
  cases b <;> rfl

end Report

open Report

structure Judgement.Same (f : Mark → Mark) (j j' : Judgement) : Prop where
  type : j'.type = j.type
  isPlace : j'.isPlace = j.isPlace
  report : j.report.Same f j'.report

theorem Judgement.same_of (m m' : Mark) (t : Ty) (b : Bool) {parts parts' : Report}
    (h : parts.Same f parts') : (Judgement.of m t b parts).Same f (.of m' t b parts') :=
  ⟨rfl, rfl, h.append rfl⟩

theorem Judgement.Same.of {j j' : Judgement} (h : j.Same f j') (m m' : Mark) :
    (Judgement.of m j.type j.isPlace j.report).Same f
      (.of m' j'.type j'.isPlace j'.report) := by
  rw [h.type, h.isPlace]
  exact Judgement.same_of m m' _ _ h.report

structure Judgements.Same (f : Mark → Mark) (js js' : Judgements) : Prop where
  types : js'.types = js.types.map (Prod.map f id)
  report : js.report.Same f js'.report

namespace Context

variable {Γ : Context}

theorem same_judgeName (x : Ident) : (Γ.judgeName x).Same f (Γ.judgeName (x.mapMark f)) := by
  have hname : (x.mapMark f).name = x.name := rfl
  unfold judgeName
  rw [hname]
  cases Γ.meaning x.name with
  | none => exact Judgement.same_of _ _ _ _ (same_fault _ _)
  | some found => exact Judgement.same_of _ _ _ _ same_empty

theorem same_judgeElement (m : Mark) (base : Ident) {array array' index index' : Judgement}
    (im : Mark) (harray : array.Same f array') (hindex : index.Same f index') :
    (judgeElement m base array index im).Same f
      (judgeElement (f m) (base.mapMark f) array' index' (f im)) := by
  simp only [judgeElement, harray.type, hindex.type]
  have hparts := ((harray.report.append hindex.report).append
    (same_faultIf (array.type.violates Ty.isArray) base.mark (.notArray base.name))).append
      (same_faultIf (index.type.violates (· = .int)) im .indexType)
  split
  · exact Judgement.same_of _ _ _ _ hparts
  · exact Judgement.same_of _ _ _ _ hparts

theorem same_argumentFaults (callee : String) (position : Nat) (args : List (Mark × Ty))
    (ps : List Ty) : (argumentFaults callee position args ps).Same f
      (argumentFaults callee position (args.map (Prod.map f id)) ps) := by
  induction args generalizing position ps with
  | nil => cases ps <;> exact same_empty
  | cons arg args ih =>
    cases ps with
    | nil => exact same_empty
    | cons p ps => exact (same_faultIf _ _ _).append (ih (position + 1) ps)

theorem same_judgeCall (callee : Ident) (asValue : Bool) (t : Ty) {args args' : List (Mark × Ty)}
    (h : args' = args.map (Prod.map f id)) :
    (judgeCall (callee.mapMark f) asValue t args').1 = (judgeCall callee asValue t args).1 ∧
      (judgeCall callee asValue t args).2.Same f
        (judgeCall (callee.mapMark f) asValue t args').2 := by
  subst h
  simp only [judgeCall, List.length_map]
  split
  · exact ⟨rfl, same_empty⟩
  split
  · exact ⟨rfl, same_fault _ _⟩
  have hfaults := (same_faultIf (f := f) (t.params.length ≠ args.length) callee.mark
    (.argumentCount callee.name t.params.length args.length)).append
      (same_argumentFaults (f := f) callee.name 1 args t.params)
  split
  · exact ⟨rfl, hfaults.append (same_fault _ _)⟩
  · exact ⟨rfl, hfaults⟩

theorem same_judgeUnary (m : Mark) (op : UnaryOp) {operand operand' : Judgement}
    (h : operand.Same f operand') :
    (judgeUnary m op operand).Same f (judgeUnary (f m) op operand') := by
  simp only [judgeUnary, h.type]
  split
  · exact Judgement.same_of _ _ _ _ h.report
  · exact Judgement.same_of _ _ _ _ (h.report.append (same_fault _ _))
  · exact Judgement.same_of _ _ _ _ (h.report.append (same_fault _ _))

theorem same_judgeBinary (m : Mark) (op : BinaryOp) {lhs lhs' rhs rhs' : Judgement}
    (hl : lhs.Same f lhs') (hr : rhs.Same f rhs') :
    (judgeBinary m op lhs rhs).Same f (judgeBinary (f m) op lhs' rhs') := by
  simp only [judgeBinary, hl.type, hr.type]
  have hparts := fun (b : Bool) => (hl.report.append hr.report).append
    (same_faultIf b m (.operandTypes op.token.spelling))
  split
  · exact Judgement.same_of _ _ _ _ (hparts _)
  · split
    · exact Judgement.same_of _ _ _ _ (hparts _)
    · exact Judgement.same_of _ _ _ _ (hparts _)

theorem same_judgeMax (m : Mark) (ts : List Ty) {parts parts' : Report}
    (h : parts.Same f parts') : (judgeMax m ts parts).Same f (judgeMax (f m) ts parts') := by
  unfold judgeMax
  split
  · exact Judgement.same_of _ _ _ _ (h.append (same_fault _ _))
  split
  · exact Judgement.same_of _ _ _ _ h
  split
  · exact Judgement.same_of _ _ _ _ h
  split
  · exact Judgement.same_of _ _ _ _ h
  · exact Judgement.same_of _ _ _ _ (h.append (same_fault _ _))

end Context

open Context

variable {Γ : Context}

namespace Expr

theorem mark_wrapped (e : Expr) : (e.wrapped.mapMark f).mark = f e.mark := by
  cases e <;> rfl

theorem same_judgeAll {es : List Expr}
    (h : ∀ e ∈ es, (e.judge Γ).Same f ((e.wrapped.mapMark f).judge Γ)) :
    (judgeAll Γ es).Same f (judgeAll Γ (mapMarkAll f (wrappedAll es))) := by
  induction es with
  | nil => exact ⟨rfl, same_empty⟩
  | cons e es ih =>
    obtain ⟨he, hes⟩ := List.forall_mem_cons.1 h
    obtain ⟨htypes, hreport⟩ := ih hes
    refine ⟨?_, he.report.append hreport⟩
    simp only [wrappedAll, mapMarkAll, judgeAll, List.map_cons, htypes, mark_wrapped, he.type]
    rfl

theorem same_wrapIf {b : Bool} {j : Judgement} {e : Expr}
    (h : j.Same f ((e.mapMark f).judge Γ)) : j.Same f (((wrapIf b e).mapMark f).judge Γ) := by
  cases b with
  | true =>
    refine ⟨h.type, h.isPlace, ?_⟩
    exact Eq.trans (List.append_nil _) h.report
  | false => exact h

theorem same_judge (e : Expr) : (e.judge Γ).Same f ((e.wrapped.mapMark f).judge Γ) := by
  induction e using Expr.ind with
  | literal m v => exact Judgement.same_of _ _ _ _ same_empty
  | name m x => exact (same_judgeName x).of _ _
  | element m base index ih =>
    rw [wrapped, mapMark, judge, judge, mark_wrapped]
    exact same_judgeElement m base _ (same_judgeName base) ih
  | call m callee args ih =>
    have hcallee := same_judgeName (f := f) (Γ := Γ) callee
    have hargs := same_judgeAll ih
    obtain ⟨htype, hcall⟩ :=
      same_judgeCall (f := f) callee true (Γ.judgeName callee).type hargs.types
    simp only [wrapped, mapMark, judge, hcallee.type, htype]
    exact Judgement.same_of _ _ _ _ ((hcallee.report.append hargs.report).append hcall)
  | paren m inner ih => exact ih.of _ _
  | unary m op operand ih => exact same_judgeUnary m op (same_wrapIf ih)
  | binary m op lhs rhs ihl ihr => exact same_judgeBinary m op (same_wrapIf ihl) (same_wrapIf ihr)
  | max m args ih =>
    have hargs := same_judgeAll ih
    have htypes : (judgeAll Γ (mapMarkAll f (wrappedAll args))).types.map Prod.snd =
        (judgeAll Γ args).types.map Prod.snd := by
      rw [hargs.types, List.map_map]
      rfl
    simp only [wrapped, mapMark, judge, htypes]
    exact same_judgeMax m _ hargs.report

end Expr

theorem Target.same_judge (x : Target) :
    (x.judge Γ).Same f (((x.mapExpr Expr.wrapped).mapMark f).judge Γ) := by
  cases x with
  | name m x => exact (same_judgeName x).of _ _
  | element m base index =>
    rw [Target.mapExpr, Target.mapMark, Target.judge, Target.judge, Expr.mark_wrapped]
    exact same_judgeElement m base _ (same_judgeName base) index.same_judge

theorem Target.mark_wrapped (x : Target) :
    ((x.mapExpr Expr.wrapped).mapMark f).mark = f x.mark := by cases x <;> rfl

theorem Expr.same_judgeCondition (instruction : String) (e : Expr) :
    (e.judgeCondition Γ instruction).Same f
      ((e.wrapped.mapMark f).judgeCondition Γ instruction) := by
  have he := e.same_judge (Γ := Γ) (f := f)
  simp only [judgeCondition, he.type, mark_wrapped]
  exact he.report.append (same_faultIf _ _ _)

theorem Expr.same_judgeRange (es : List Expr) :
    (judgeRange Γ es).Same f (judgeRange Γ ((es.map wrapped).map (mapMark f))) := by
  induction es with
  | nil => exact same_empty
  | cons e es ih =>
    have he := e.same_judge (Γ := Γ) (f := f)
    simp only [List.map_cons, judgeRange, he.type, mark_wrapped]
    exact (he.report.append (same_faultIf _ _ _)).append ih

namespace Stmt

theorem same_judgeAll {ss : List Stmt}
    (h : ∀ s ∈ ss, (s.judge Γ).Same f (((s.mapExpr Expr.wrapped).mapMark f).judge Γ)) :
    (judgeAll Γ ss).Same f (judgeAll Γ (mapMarkAll f (mapExprAll Expr.wrapped ss))) := by
  induction ss with
  | nil => exact same_empty
  | cons s ss ih =>
    obtain ⟨hs, hss⟩ := List.forall_mem_cons.1 h
    exact hs.append (ih hss)

theorem same_judge (s : Stmt) :
    (s.judge Γ).Same f (((s.mapExpr Expr.wrapped).mapMark f).judge Γ) := by
  induction s using Stmt.ind with
  | assign m target value =>
    have ht := target.same_judge (Γ := Γ) (f := f)
    have hv := value.same_judge (Γ := Γ) (f := f)
    simp only [mapExpr, mapMark, judge, ht.type, ht.isPlace, hv.type, Target.mark_wrapped]
    exact ((ht.report.append hv.report).append (same_faultIf _ _ _)).append (same_faultIf _ _ _)
  | ifThen m condition body ih =>
    exact (condition.same_judgeCondition "if").append (same_judgeAll ih)
  | ifElse m condition body otherwise ihb iho =>
    exact ((condition.same_judgeCondition "if").append (same_judgeAll ihb)).append
      (same_judgeAll iho)
  | while_ m condition body ih =>
    exact (condition.same_judgeCondition "while").append (same_judgeAll ih)
  | for_ m control range body ih =>
    have hcontrol := same_judgeName (f := f) (Γ := Γ) control
    have hempty : ((range.map Expr.wrapped).map (Expr.mapMark f)).isEmpty = range.isEmpty := by
      rw [List.isEmpty_map, List.isEmpty_map]
    simp only [mapExpr, mapMark, judge, hcontrol.type, hempty, List.length_map]
    exact (((hcontrol.report.append (same_faultIf _ _ _)).append (same_faultIf _ _ _)).append
      (Expr.same_judgeRange range)).append (same_judgeAll ih)
  | call m callee args =>
    have hcallee := same_judgeName (f := f) (Γ := Γ) callee
    have hargs := Expr.same_judgeAll fun e (_ : e ∈ args) => e.same_judge (f := f) (Γ := Γ)
    rw [Expr.wrappedAll_eq_map, Expr.mapMarkAll_eq_map] at hargs
    obtain ⟨-, hcall⟩ :=
      same_judgeCall (f := f) callee false (Γ.judgeName callee).type hargs.types
    simp only [mapExpr, mapMark, judge, hcallee.type]
    exact (hcallee.report.append hargs.report).append hcall
  | read m target =>
    have ht := target.same_judge (Γ := Γ) (f := f)
    simp only [mapExpr, mapMark, judge, ht.type, ht.isPlace, Target.mark_wrapped]
    exact (ht.report.append (same_faultIf _ _ _)).append (same_faultIf _ _ _)
  | write m value =>
    have hv := value.same_judge (Γ := Γ) (f := f)
    simp only [mapExpr, mapMark, judge, hv.type, Expr.mark_wrapped]
    exact hv.report.append (same_faultIf _ _ _)
  | writeText m raw => exact same_empty
  | ret m value =>
    cases value with
    | none => exact same_faultIf _ _ _
    | some value =>
      have hv := value.same_judge (Γ := Γ) (f := f)
      simp only [mapExpr, mapMark, Option.map_some, judge, hv.type]
      exact hv.report.append (same_faultIf _ _ _)

end Stmt

def Entry.mapMark (f : Mark → Mark) (e : Entry) : Entry := { e with ident := e.ident.mapMark f }

namespace Entry

theorem meaning?_mapMark (es : List Entry) (x : String) :
    meaning? (es.map (mapMark f)) x = meaning? es x := by
  induction es with
  | nil => rfl
  | cons e es ih =>
    rw [List.map_cons, meaning?, meaning?, ih]
    rfl

theorem redeclared_mapMark (taken : List String) (es : List Entry) :
    redeclared taken (es.map (mapMark f)) =
      (redeclared taken es).map (Diagnostic.mapMark f) := by
  induction es generalizing taken with
  | nil => rfl
  | cons e es ih =>
    have hname : (e.mapMark f).name = e.name := rfl
    rw [List.map_cons, redeclared, redeclared, ih, hname, List.map_append]
    split <;> rfl

end Entry

namespace Function

variable (f) (g : Function)

theorem entries_mapMark : (g.mapMark f).entries = g.entries.map (Entry.mapMark f) := by
  simp only [entries, mapMark, List.map_append, List.map_map, List.map_flatMap, List.flatMap_map,
    Declaration.entries, Declaration.mapMark]
  rfl

theorem resultType_mapMark : (g.mapMark f).resultType = g.resultType := by
  unfold resultType mapMark
  cases g.result <;> rfl

theorem type_mapMark : (g.mapMark f).type = g.type := by
  rw [type, type, resultType_mapMark, mapMark, List.map_map]
  rfl

theorem allRedeclared_mapMark (taken : List String) (gs : List Function) :
    allRedeclared taken (gs.map fun g => (g.mapExpr Expr.wrapped).mapMark f) =
      (allRedeclared taken gs).map (Diagnostic.mapMark f) := by
  induction gs generalizing taken with
  | nil => rfl
  | cons g gs ih =>
    have hentries : ((g.mapExpr Expr.wrapped).mapMark f).entries =
        g.entries.map (Entry.mapMark f) := entries_mapMark f _
    have hname : ((g.mapExpr Expr.wrapped).mapMark f).name.name = g.name.name := rfl
    simp only [List.map_cons, allRedeclared, redeclared, hentries, hname, ih,
      Entry.redeclared_mapMark, List.map_append]
    split <;> rfl

end Function

namespace Program

variable (f) (p : Program)

theorem functions_mapMark : (p.wrapped.mapMark f).functions =
    p.functions.map fun g => (g.mapExpr Expr.wrapped).mapMark f := List.map_map ..

theorem context_mapMark (g : Function) : (p.mapMark f).context (g.mapMark f) = p.context g := by
  have hentries : (p.mapMark f).entries = p.entries.map (Entry.mapMark f) := by
    rw [entries, mapMark, entries, List.map_map, List.map_map]
    refine List.map_congr_left fun h _ => ?_
    change Entry.mk _ _ (h.mapMark f).type = _
    rw [Function.type_mapMark]
    rfl
  rw [context, context, Function.resultType_mapMark]
  refine congrArg₂ Context.mk (funext fun x => ?_) rfl
  rw [meaning, meaning, hentries, Function.entries_mapMark, Entry.meaning?_mapMark,
    Entry.meaning?_mapMark]

theorem context_wrapped (g : Function) :
    p.wrapped.context (g.mapExpr Expr.wrapped) = p.context g := by
  have hentries : p.wrapped.entries = p.entries := List.map_map ..
  rw [context, context]
  refine congrArg₂ Context.mk (funext fun x => ?_) rfl
  rw [meaning, meaning, hentries]
  rfl

theorem hasMain_mapMark : (p.wrapped.mapMark f).hasMain = p.hasMain := by
  rw [hasMain, functions_mapMark, List.find?_map, hasMain]
  have hname : ((fun g : Function => decide (g.name.name = "main")) ∘
      fun g : Function => (g.mapExpr Expr.wrapped).mapMark f) =
        fun g => decide (g.name.name = "main") := rfl
  rw [hname]
  cases p.functions.find? (·.name.name = "main") with
  | none => rfl
  | some g =>
    change ((((g.mapExpr Expr.wrapped).mapMark f).params.isEmpty && _) = _)
    rw [Function.resultType_mapMark, Function.mapMark, List.isEmpty_map]
    rfl

theorem diagnostics_mapMark (hf : ∀ id, f ⟨id, 0, 0⟩ = ⟨(f ⟨id, 0, 0⟩).id, 0, 0⟩) :
    (p.wrapped.mapMark f).diagnostics = p.diagnostics.map (Diagnostic.mapMark f) := by
  have hbodies : (p.wrapped.mapMark f).functions.flatMap (fun g =>
      (Stmt.judgeAll ((p.wrapped.mapMark f).context g) g.body).diagnostics) =
        (p.functions.flatMap fun g => (Stmt.judgeAll (p.context g) g.body).diagnostics).map
          (Diagnostic.mapMark f) := by
    rw [functions_mapMark, List.flatMap_map, List.map_flatMap]
    refine congrArg (List.flatMap · _) (funext fun g => ?_)
    have hbody := Stmt.same_judgeAll fun s (_ : s ∈ g.body) =>
      s.same_judge (f := f) (Γ := p.context g)
    rw [Stmt.mapExprAll_eq_map, Stmt.mapMarkAll_eq_map] at hbody
    rw [context_mapMark, context_wrapped]
    exact hbody
  have hmain : (⟨⟨(p.wrapped.mapMark f).id, 0, 0⟩, .noMain⟩ : Diagnostic) =
      Diagnostic.mapMark f ⟨⟨p.id, 0, 0⟩, .noMain⟩ :=
    congrArg (Diagnostic.mk · .noMain) (hf p.id).symm
  rw [diagnostics, hbodies, hasMain_mapMark, functions_mapMark, Function.allRedeclared_mapMark,
    hmain, diagnostics, List.map_append, List.map_append]
  cases p.hasMain <;> rfl

end Program

end Asl
