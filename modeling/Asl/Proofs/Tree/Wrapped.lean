import Asl.Proofs.Tree.Kinds

/-!
# Trees with the parentheses of their texts

The text of a tree has parentheses around every operand that binds too loosely for its place. The
tree with these parentheses as nodes is well nested, a tree that is well nested gets none, and
without its parentheses a tree is what it was.
-/
namespace Asl

def Expr.wrapIf (b : Bool) (e : Expr) : Expr := if b then .paren .blank e else e

mutual

def Expr.wrapped : Expr → Expr
  | .literal m value => .literal m value
  | .name m x => .name m x
  | .element m base index => .element m base index.wrapped
  | .call m callee args => .call m callee (Expr.wrappedAll args)
  | .paren m inner => .paren m inner.wrapped
  | .unary m op operand => .unary m op (.wrapIf (operand.strength < 6) operand.wrapped)
  | .binary m op lhs rhs =>
      .binary m op (.wrapIf (lhs.strength < op.precedence) lhs.wrapped)
        (.wrapIf (rhs.strength ≤ op.precedence) rhs.wrapped)
  | .max m args => .max m (Expr.wrappedAll args)

def Expr.wrappedAll : List Expr → List Expr
  | [] => []
  | e :: es => e.wrapped :: Expr.wrappedAll es

end

theorem Expr.wrappedAll_eq_map (es : List Expr) : Expr.wrappedAll es = es.map Expr.wrapped := by
  induction es with
  | nil => rfl
  | cons e es ih => rw [Expr.wrappedAll, ih, List.map_cons]

namespace Expr

variable {e : Expr}

theorem strength_wrapped (e : Expr) : e.wrapped.strength = e.strength := by cases e <;> rfl

theorem le_strength_wrapIf (e : Expr) {n : Nat} (hn : n ≤ 7) :
    n ≤ (wrapIf (e.strength < n) e.wrapped).strength := by
  unfold wrapIf
  split
  · exact hn
  · rename_i hlt
    rw [strength_wrapped]
    simpa using hlt

theorem each_wrapIf {P : Expr → Prop} {b : Bool} (hparen : ∀ m i, P (.paren m i))
    (h : e.Each P) : (wrapIf b e).Each P := by
  unfold wrapIf
  split
  · exact each_paren.2 ⟨hparen _ _, h⟩
  · exact h

theorem forall_mem_wrappedAll {P : Expr → Prop} {es : List Expr}
    (h : ∀ e ∈ es, e.wrapped.Each P) : ∀ e ∈ wrappedAll es, e.Each P := by
  rw [wrappedAll_eq_map]
  exact List.forall_mem_map.2 h

theorem nested_wrapped (e : Expr) : e.wrapped.Each Nested := by
  induction e using Expr.ind with
  | literal m v => exact each_literal.2 trivial
  | name m x => exact each_name.2 trivial
  | element m base index ih => exact each_element.2 ⟨trivial, ih⟩
  | call m callee args ih => exact each_call.2 ⟨trivial, forall_mem_wrappedAll ih⟩
  | paren m inner ih => exact each_paren.2 ⟨trivial, ih⟩
  | unary m op operand ih =>
    have hoperand := operand.le_strength_wrapIf (n := 6) (by decide)
    exact each_unary.2 ⟨nested_unary.2 hoperand, each_wrapIf (fun _ _ => trivial) ih⟩
  | binary m op lhs rhs ihl ihr =>
    have hlevel := op.precedence_le
    have hl := lhs.le_strength_wrapIf (n := op.precedence) (by omega)
    have hr := rhs.le_strength_wrapIf (n := op.precedence + 1) (by omega)
    simp only [Nat.lt_succ_iff] at hr
    exact each_binary.2 ⟨nested_binary.2 ⟨hl, hr⟩, each_wrapIf (fun _ _ => trivial) ihl,
      each_wrapIf (fun _ _ => trivial) ihr⟩
  | max m args ih => exact each_max.2 ⟨trivial, forall_mem_wrappedAll ih⟩

theorem filled_wrapped (h : e.Each Filled) : e.wrapped.Each Filled := by
  induction e using Expr.ind with
  | literal m v => exact each_literal.2 trivial
  | name m x => exact each_name.2 trivial
  | element m base index ih => exact each_element.2 ⟨trivial, ih (each_element.1 h).2⟩
  | call m callee args ih =>
    have hargs := (each_call.1 h).2
    exact each_call.2 ⟨trivial, forall_mem_wrappedAll fun a ha => ih a ha (hargs a ha)⟩
  | paren m inner ih => exact each_paren.2 ⟨trivial, ih (each_paren.1 h).2⟩
  | unary m op operand ih =>
    exact each_unary.2 ⟨trivial, each_wrapIf (fun _ _ => trivial) (ih (each_unary.1 h).2)⟩
  | binary m op lhs rhs ihl ihr =>
    obtain ⟨-, hl, hr⟩ := each_binary.1 h
    exact each_binary.2 ⟨trivial, each_wrapIf (fun _ _ => trivial) (ihl hl),
      each_wrapIf (fun _ _ => trivial) (ihr hr)⟩
  | max m args ih =>
    obtain ⟨hne, hargs⟩ := each_max.1 h
    refine each_max.2 ⟨?_, forall_mem_wrappedAll fun a ha => ih a ha (hargs a ha)⟩
    rw [Filled, wrappedAll_eq_map]
    exact fun hnil => hne (List.map_eq_nil_iff.1 hnil)

theorem wrappedAll_eq_self {es : List Expr} (h : ∀ e ∈ es, e.wrapped = e) :
    wrappedAll es = es := by
  rw [wrappedAll_eq_map, List.map_congr_left h, List.map_id']

theorem wrapIf_eq_self {b : Bool} (hb : b = false) (e : Expr) : wrapIf b e = e := by
  subst hb
  rfl

theorem wrapped_of_nested (h : e.Each Nested) : e.wrapped = e := by
  induction e using Expr.ind with
  | literal m v => rfl
  | name m x => rfl
  | element m base index ih => rw [wrapped, ih (each_element.1 h).2]
  | call m callee args ih =>
    have hargs := (each_call.1 h).2
    rw [wrapped, wrappedAll_eq_self fun a ha => ih a ha (hargs a ha)]
  | paren m inner ih => rw [wrapped, ih (each_paren.1 h).2]
  | unary m op operand ih =>
    obtain ⟨hnested, h⟩ := each_unary.1 h
    have hoperand := nested_unary.1 hnested
    rw [wrapped, ih h, wrapIf_eq_self (decide_eq_false (Nat.not_lt.2 hoperand))]
  | binary m op lhs rhs ihl ihr =>
    obtain ⟨hnested, hl, hr⟩ := each_binary.1 h
    obtain ⟨hlhs, hrhs⟩ := nested_binary.1 hnested
    rw [wrapped, ihl hl, ihr hr, wrapIf_eq_self (decide_eq_false (Nat.not_lt.2 hlhs)),
      wrapIf_eq_self (decide_eq_false (Nat.not_le.2 hrhs))]
  | max m args ih =>
    have hargs := (each_max.1 h).2
    rw [wrapped, wrappedAll_eq_self fun a ha => ih a ha (hargs a ha)]

theorem wrapped_wrapped (e : Expr) : e.wrapped.wrapped = e.wrapped :=
  wrapped_of_nested e.nested_wrapped

theorem strength_mapMark (f : Mark → Mark) (e : Expr) : (e.mapMark f).strength = e.strength := by
  cases e <;> rfl

theorem mapMark_wrapped {f : Mark → Mark} (hf : f .blank = .blank) (e : Expr) :
    e.wrapped.mapMark f = (e.mapMark f).wrapped := by
  have hwrapIf : ∀ (b : Bool) (e : Expr), (wrapIf b e).mapMark f = wrapIf b (e.mapMark f) := by
    intro b e
    cases b with
    | true => exact congrArg (paren · (e.mapMark f)) hf
    | false => rfl
  have hall : ∀ {es : List Expr}, (∀ e ∈ es, e.wrapped.mapMark f = (e.mapMark f).wrapped) →
      mapMarkAll f (wrappedAll es) = wrappedAll (mapMarkAll f es) := by
    intro es h
    simp only [wrappedAll_eq_map, mapMarkAll_eq_map, List.map_map]
    exact List.map_congr_left h
  induction e using Expr.ind with
  | literal m v => rfl
  | name m x => rfl
  | element m base index ih => rw [wrapped, mapMark, mapMark, wrapped, ih]
  | call m callee args ih => rw [wrapped, mapMark, mapMark, wrapped, hall ih]
  | paren m inner ih => rw [wrapped, mapMark, mapMark, wrapped, ih]
  | unary m op operand ih =>
    rw [wrapped, mapMark, mapMark, wrapped, hwrapIf, ih, strength_mapMark]
  | binary m op lhs rhs ihl ihr =>
    rw [wrapped, mapMark, mapMark, wrapped, hwrapIf, hwrapIf, ihl, ihr, strength_mapMark,
      strength_mapMark]
  | max m args ih => rw [wrapped, mapMark, mapMark, wrapped, hall ih]

end Expr

section

variable (g : Expr → Expr)

def Target.mapExpr : Target → Target
  | .name m x => .name m x
  | .element m base index => .element m base (g index)

mutual

def Stmt.mapExpr : Stmt → Stmt
  | .assign m target value => .assign m (target.mapExpr g) (g value)
  | .ifThen m condition body => .ifThen m (g condition) (Stmt.mapExprAll body)
  | .ifElse m condition body otherwise =>
      .ifElse m (g condition) (Stmt.mapExprAll body) (Stmt.mapExprAll otherwise)
  | .while m condition body => .while m (g condition) (Stmt.mapExprAll body)
  | .for m control range body => .for m control (range.map g) (Stmt.mapExprAll body)
  | .call m callee args => .call m callee (args.map g)
  | .read m target => .read m (target.mapExpr g)
  | .write m value => .write m (g value)
  | .writeText m raw => .writeText m raw
  | .ret m value => .ret m (value.map g)

def Stmt.mapExprAll : List Stmt → List Stmt
  | [] => []
  | s :: ss => s.mapExpr :: Stmt.mapExprAll ss

end

theorem Stmt.mapExprAll_eq_map (ss : List Stmt) :
    Stmt.mapExprAll g ss = ss.map (Stmt.mapExpr g) := by
  induction ss with
  | nil => rfl
  | cons s ss ih => rw [Stmt.mapExprAll, ih, List.map_cons]

def Function.mapExpr (f : Function) : Function := { f with body := f.body.map (Stmt.mapExpr g) }

def Program.mapExpr (p : Program) : Program :=
  { p with functions := p.functions.map (Function.mapExpr g) }

end

def Program.wrapped (p : Program) : Program := p.mapExpr Expr.wrapped

section

variable {g : Expr → Expr} {P Q : Expr → Prop}

theorem Expr.forall_mem_parts_map (h : ∀ e, e.Each P → (g e).Each Q) {es : List Expr}
    (hes : ∀ e ∈ Expr.partsAll es, P e) : ∀ e ∈ Expr.partsAll (es.map g), Q e := by
  rw [Expr.forall_mem_partsAll] at hes ⊢
  exact List.forall_mem_map.2 fun e he => h e (hes e he)

theorem Expr.map_eq_self (h : ∀ e, e.Each P → g e = e) {es : List Expr}
    (hes : ∀ e ∈ Expr.partsAll es, P e) : es.map g = es := by
  rw [List.map_congr_left fun e he => h e (Expr.forall_mem_partsAll.1 hes e he), List.map_id']

theorem Target.forall_mem_exprs_mapExpr (h : ∀ e, e.Each P → (g e).Each Q) {x : Target}
    (hx : ∀ e ∈ x.exprs, P e) : ∀ e ∈ (x.mapExpr g).exprs, Q e := by
  cases x with
  | name m x => exact fun e he => absurd he List.not_mem_nil
  | element m base index => exact h index hx

theorem Target.mapExpr_eq_self (h : ∀ e, e.Each P → g e = e) {x : Target}
    (hx : ∀ e ∈ x.exprs, P e) : x.mapExpr g = x := by
  cases x with
  | name m x => rfl
  | element m base index => rw [Target.mapExpr, h index hx]

namespace Stmt

theorem forall_mem_exprsAll_mapExpr {ss : List Stmt}
    (ih : ∀ s ∈ ss, (∀ e ∈ s.exprs, P e) → ∀ e ∈ (s.mapExpr g).exprs, Q e)
    (hss : ∀ e ∈ exprsAll ss, P e) : ∀ e ∈ exprsAll (mapExprAll g ss), Q e := by
  induction ss with
  | nil => exact fun e he => absurd he List.not_mem_nil
  | cons s ss ihs =>
    obtain ⟨hs, hrest⟩ := List.forall_mem_append.1 hss
    obtain ⟨ihs', ihrest⟩ := List.forall_mem_cons.1 ih
    exact List.forall_mem_append.2 ⟨ihs' hs, ihs ihrest hrest⟩

theorem forall_mem_exprs_mapExpr (h : ∀ e, e.Each P → (g e).Each Q) {s : Stmt}
    (hs : ∀ e ∈ s.exprs, P e) : ∀ e ∈ (s.mapExpr g).exprs, Q e := by
  induction s using Stmt.ind with
  | assign m target value =>
    obtain ⟨htarget, hvalue⟩ := List.forall_mem_append.1 hs
    exact List.forall_mem_append.2
      ⟨Target.forall_mem_exprs_mapExpr h htarget, h value hvalue⟩
  | ifThen m condition body ih | while_ m condition body ih =>
    obtain ⟨hcondition, hbody⟩ := List.forall_mem_append.1 hs
    exact List.forall_mem_append.2
      ⟨h condition hcondition, forall_mem_exprsAll_mapExpr ih hbody⟩
  | ifElse m condition body otherwise ihb iho =>
    obtain ⟨hcondition, hbodies⟩ := List.forall_mem_append.1 hs
    obtain ⟨hbody, hotherwise⟩ := List.forall_mem_append.1 hbodies
    exact List.forall_mem_append.2 ⟨h condition hcondition, List.forall_mem_append.2
      ⟨forall_mem_exprsAll_mapExpr ihb hbody, forall_mem_exprsAll_mapExpr iho hotherwise⟩⟩
  | for_ m control range body ih =>
    obtain ⟨hrange, hbody⟩ := List.forall_mem_append.1 hs
    exact List.forall_mem_append.2
      ⟨Expr.forall_mem_parts_map h hrange, forall_mem_exprsAll_mapExpr ih hbody⟩
  | call m callee args => exact Expr.forall_mem_parts_map h hs
  | read m target => exact Target.forall_mem_exprs_mapExpr h hs
  | write m value => exact h value hs
  | writeText m raw => exact fun e he => absurd he List.not_mem_nil
  | ret m value =>
    cases value with
    | none => exact fun e he => absurd he List.not_mem_nil
    | some value => exact h value hs

theorem mapExprAll_eq_self {ss : List Stmt}
    (ih : ∀ s ∈ ss, (∀ e ∈ s.exprs, P e) → s.mapExpr g = s)
    (hss : ∀ e ∈ exprsAll ss, P e) : mapExprAll g ss = ss := by
  induction ss with
  | nil => rfl
  | cons s ss ihs =>
    obtain ⟨hs, hrest⟩ := List.forall_mem_append.1 hss
    obtain ⟨ihs', ihrest⟩ := List.forall_mem_cons.1 ih
    rw [mapExprAll, ihs' hs, ihs ihrest hrest]

theorem mapExpr_eq_self (h : ∀ e, e.Each P → g e = e) {s : Stmt} (hs : ∀ e ∈ s.exprs, P e) :
    s.mapExpr g = s := by
  induction s using Stmt.ind with
  | assign m target value =>
    obtain ⟨htarget, hvalue⟩ := List.forall_mem_append.1 hs
    rw [mapExpr, Target.mapExpr_eq_self h htarget, h value hvalue]
  | ifThen m condition body ih | while_ m condition body ih =>
    obtain ⟨hcondition, hbody⟩ := List.forall_mem_append.1 hs
    rw [mapExpr, h condition hcondition, mapExprAll_eq_self ih hbody]
  | ifElse m condition body otherwise ihb iho =>
    obtain ⟨hcondition, hbodies⟩ := List.forall_mem_append.1 hs
    obtain ⟨hbody, hotherwise⟩ := List.forall_mem_append.1 hbodies
    rw [mapExpr, h condition hcondition, mapExprAll_eq_self ihb hbody,
      mapExprAll_eq_self iho hotherwise]
  | for_ m control range body ih =>
    obtain ⟨hrange, hbody⟩ := List.forall_mem_append.1 hs
    rw [mapExpr, Expr.map_eq_self h hrange, mapExprAll_eq_self ih hbody]
  | call m callee args => rw [mapExpr, Expr.map_eq_self h hs]
  | read m target => rw [mapExpr, Target.mapExpr_eq_self h hs]
  | write m value => rw [mapExpr, h value hs]
  | writeText m raw => rfl
  | ret m value =>
    cases value with
    | none => rfl
    | some value => rw [mapExpr, Option.map_some, h value hs]

end Stmt

end

mutual

def Expr.unparen : Expr → Expr
  | .literal m value => .literal m value
  | .name m x => .name m x
  | .element m base index => .element m base index.unparen
  | .call m callee args => .call m callee (Expr.unparenAll args)
  | .paren _ inner => inner.unparen
  | .unary m op operand => .unary m op operand.unparen
  | .binary m op lhs rhs => .binary m op lhs.unparen rhs.unparen
  | .max m args => .max m (Expr.unparenAll args)

def Expr.unparenAll : List Expr → List Expr
  | [] => []
  | e :: es => e.unparen :: Expr.unparenAll es

end

namespace Expr

theorem unparenAll_eq_map (es : List Expr) : unparenAll es = es.map unparen := by
  induction es with
  | nil => rfl
  | cons e es ih => rw [unparenAll, ih, List.map_cons]

theorem unparen_wrapped (e : Expr) : e.wrapped.unparen = e.unparen := by
  have hwrapIf : ∀ (b : Bool) (e : Expr), (wrapIf b e).unparen = e.unparen := by
    intro b e
    cases b <;> rfl
  have hall : ∀ {es : List Expr}, (∀ e ∈ es, e.wrapped.unparen = e.unparen) →
      unparenAll (wrappedAll es) = unparenAll es := by
    intro es h
    rw [wrappedAll_eq_map, unparenAll_eq_map, unparenAll_eq_map, List.map_map]
    exact List.map_congr_left h
  induction e using Expr.ind with
  | literal m v => rfl
  | name m x => rfl
  | element m base index ih => rw [wrapped, unparen, unparen, ih]
  | call m callee args ih => rw [wrapped, unparen, unparen, hall ih]
  | paren m inner ih => rw [wrapped, unparen, unparen, ih]
  | unary m op operand ih => rw [wrapped, unparen, unparen, hwrapIf, ih]
  | binary m op lhs rhs ihl ihr =>
    rw [wrapped, unparen, unparen, hwrapIf, hwrapIf, ihl, ihr]
  | max m args ih => rw [wrapped, unparen, unparen, hall ih]

theorem mapMark_unparen (f : Mark → Mark) (e : Expr) :
    e.unparen.mapMark f = (e.mapMark f).unparen := by
  have hall : ∀ {es : List Expr}, (∀ e ∈ es, e.unparen.mapMark f = (e.mapMark f).unparen) →
      mapMarkAll f (unparenAll es) = unparenAll (mapMarkAll f es) := by
    intro es h
    simp only [unparenAll_eq_map, mapMarkAll_eq_map, List.map_map]
    exact List.map_congr_left h
  induction e using Expr.ind with
  | literal m v => rfl
  | name m x => rfl
  | element m base index ih => rw [unparen, mapMark, mapMark, unparen, ih]
  | call m callee args ih => rw [unparen, mapMark, mapMark, unparen, hall ih]
  | paren m inner ih => rw [unparen, mapMark, unparen, ih]
  | unary m op operand ih => rw [unparen, mapMark, mapMark, unparen, ih]
  | binary m op lhs rhs ihl ihr => rw [unparen, mapMark, mapMark, unparen, ihl, ihr]
  | max m args ih => rw [unparen, mapMark, mapMark, unparen, hall ih]

end Expr

section

variable {g h : Expr → Expr}

theorem Stmt.mapExpr_mapExpr (hgh : ∀ e, h (g e) = h e) (s : Stmt) :
    (s.mapExpr g).mapExpr h = s.mapExpr h := by
  have htarget : ∀ x : Target, (x.mapExpr g).mapExpr h = x.mapExpr h := by
    intro x
    cases x with
    | name m x => rfl
    | element m base index => rw [Target.mapExpr, Target.mapExpr, Target.mapExpr, hgh]
  have hes : ∀ es : List Expr, (es.map g).map h = es.map h := by
    intro es
    rw [List.map_map]
    exact List.map_congr_left fun e _ => hgh e
  have hss : ∀ {ss : List Stmt}, (∀ s ∈ ss, (s.mapExpr g).mapExpr h = s.mapExpr h) →
      mapExprAll h (mapExprAll g ss) = mapExprAll h ss := by
    intro ss hss
    simp only [mapExprAll_eq_map, List.map_map]
    exact List.map_congr_left hss
  induction s using Stmt.ind with
  | assign m target value => rw [mapExpr, mapExpr, mapExpr, htarget, hgh]
  | ifThen m condition body ih => rw [mapExpr, mapExpr, mapExpr, hgh, hss ih]
  | ifElse m condition body otherwise ihb iho =>
    rw [mapExpr, mapExpr, mapExpr, hgh, hss ihb, hss iho]
  | while_ m condition body ih => rw [mapExpr, mapExpr, mapExpr, hgh, hss ih]
  | for_ m control range body ih => rw [mapExpr, mapExpr, mapExpr, hes, hss ih]
  | call m callee args => rw [mapExpr, mapExpr, mapExpr, hes]
  | read m target => rw [mapExpr, mapExpr, mapExpr, htarget]
  | write m value => rw [mapExpr, mapExpr, mapExpr, hgh]
  | writeText m raw => rfl
  | ret m value =>
    cases value with
    | none => rfl
    | some value => simp only [mapExpr, Option.map_some, hgh]

theorem Stmt.mapMark_mapExpr {f : Mark → Mark} (hg : ∀ e, (g e).mapMark f = g (e.mapMark f))
    (s : Stmt) : (s.mapExpr g).mapMark f = (s.mapMark f).mapExpr g := by
  have htarget : ∀ x : Target, (x.mapExpr g).mapMark f = (x.mapMark f).mapExpr g := by
    intro x
    cases x with
    | name m x => rfl
    | element m base index =>
      rw [Target.mapExpr, Target.mapMark, Target.mapMark, Target.mapExpr, hg]
  have hes : ∀ es : List Expr, (es.map g).map (Expr.mapMark f) =
      (es.map (Expr.mapMark f)).map g := by
    intro es
    rw [List.map_map, List.map_map]
    exact List.map_congr_left fun e _ => hg e
  have hss : ∀ {ss : List Stmt},
      (∀ s ∈ ss, (s.mapExpr g).mapMark f = (s.mapMark f).mapExpr g) →
        mapMarkAll f (mapExprAll g ss) = mapExprAll g (mapMarkAll f ss) := by
    intro ss hss
    simp only [mapExprAll_eq_map, mapMarkAll_eq_map, List.map_map]
    exact List.map_congr_left hss
  induction s using Stmt.ind with
  | assign m target value => rw [mapExpr, mapMark, mapMark, mapExpr, htarget, hg]
  | ifThen m condition body ih => rw [mapExpr, mapMark, mapMark, mapExpr, hg, hss ih]
  | ifElse m condition body otherwise ihb iho =>
    rw [mapExpr, mapMark, mapMark, mapExpr, hg, hss ihb, hss iho]
  | while_ m condition body ih => rw [mapExpr, mapMark, mapMark, mapExpr, hg, hss ih]
  | for_ m control range body ih => rw [mapExpr, mapMark, mapMark, mapExpr, hes, hss ih]
  | call m callee args => rw [mapExpr, mapMark, mapMark, mapExpr, hes]
  | read m target => rw [mapExpr, mapMark, mapMark, mapExpr, htarget]
  | write m value => rw [mapExpr, mapMark, mapMark, mapExpr, hg]
  | writeText m raw => rfl
  | ret m value =>
    cases value with
    | none => rfl
    | some value => simp only [mapExpr, mapMark, Option.map_some, hg]

end

theorem Function.mapExpr_mapExpr {g h : Expr → Expr} (hgh : ∀ e, h (g e) = h e) (f : Function) :
    (f.mapExpr g).mapExpr h = f.mapExpr h := by
  rw [mapExpr, mapExpr, mapExpr, List.map_map]
  have hbody := List.map_congr_left (l := f.body) fun s _ => s.mapExpr_mapExpr hgh
  exact congrArg (fun body => { f with body := body }) hbody

theorem Function.mapMark_mapExpr {g : Expr → Expr} {k : Mark → Mark}
    (hg : ∀ e, (g e).mapMark k = g (e.mapMark k)) (f : Function) :
    (f.mapExpr g).mapMark k = (f.mapMark k).mapExpr g := by
  rw [mapExpr, mapMark, mapMark, mapExpr, List.map_map, List.map_map]
  have hbody := List.map_congr_left (l := f.body) fun s _ => s.mapMark_mapExpr hg
  exact congrArg (fun body => { f.mapMark k with body := body }) hbody

def Program.unparen (p : Program) : Program := p.mapExpr Expr.unparen

namespace Program

theorem unparen_wrapped (p : Program) : p.wrapped.unparen = p.unparen := by
  rw [unparen, wrapped, mapExpr, mapExpr, unparen, mapExpr, List.map_map]
  exact congrArg (Program.mk p.id)
    (List.map_congr_left fun f _ => f.mapExpr_mapExpr Expr.unparen_wrapped)

theorem bare_unparen (p : Program) : p.unparen.bare = p.bare.unparen := by
  rw [unparen, bare, bare, unparen, mapExpr, mapMark, mapMark, mapExpr, List.map_map, List.map_map]
  exact congrArg (Program.mk _)
    (List.map_congr_left fun f _ => f.mapMark_mapExpr (Expr.mapMark_unparen Mark.erased))

end Program

namespace Program

theorem exprsAll_wrapped (f : Function) : Stmt.exprsAll (f.mapExpr Expr.wrapped).body =
    Stmt.exprsAll (Stmt.mapExprAll Expr.wrapped f.body) := by
  rw [Stmt.mapExprAll_eq_map]
  rfl

theorem wellNested_wrapped (p : Program) : p.wrapped.WellNested := by
  intro e he
  obtain ⟨f', hf', he⟩ := List.mem_flatMap.1 he
  obtain ⟨f, hf, rfl⟩ := List.mem_map.1 hf'
  rw [exprsAll_wrapped] at he
  refine Stmt.forall_mem_exprsAll_mapExpr (P := fun _ => True) (fun s _ => ?_)
    (fun _ _ => trivial) e he
  exact Stmt.forall_mem_exprs_mapExpr fun e _ => e.nested_wrapped

theorem formed_wrapped {p : Program} (h : p.Formed) : p.wrapped.Formed where
  functions hnil := h.functions (List.map_eq_nil_iff.1 hnil)
  formed f' hf' := by
    obtain ⟨f, hf, rfl⟩ := List.mem_map.1 hf'
    obtain ⟨hparams, hresult, hnamed, hsized, hfilled⟩ := h.formed f hf
    refine ⟨hparams, hresult, hnamed, hsized, ?_⟩
    rw [exprsAll_wrapped]
    refine Stmt.forall_mem_exprsAll_mapExpr (fun s _ => ?_) hfilled
    exact Stmt.forall_mem_exprs_mapExpr fun e => Expr.filled_wrapped

theorem wrapped_of_wellNested {p : Program} (h : p.WellNested) : p.wrapped = p := by
  have hfunctions : ∀ f ∈ p.functions, f.mapExpr Expr.wrapped = f := by
    intro f hf
    have hbody : Stmt.mapExprAll Expr.wrapped f.body = f.body :=
      Stmt.mapExprAll_eq_self
        (fun s _ => Stmt.mapExpr_eq_self (P := Expr.Nested) fun e => Expr.wrapped_of_nested)
        fun e he => h e (List.mem_flatMap.2 ⟨f, hf, he⟩)
    rw [Function.mapExpr, ← Stmt.mapExprAll_eq_map, hbody]
  rw [wrapped, mapExpr, List.map_congr_left hfunctions, List.map_id']

end Program

end Asl
