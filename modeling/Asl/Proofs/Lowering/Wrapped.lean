import Asl.Proofs.Lowering.Notes
import Asl.Proofs.Typing.Callees
import Asl.Proofs.Typing.Wrapped
import Mathlib.Data.List.Forall2

/-!
# Lowering trees of one text

Lowering looks through parentheses, and at marks only for the types that were noted. Of the meanings
of names it asks which ones are parameters, and what type the called functions have. Two trees with
the same text are lowered to the same code, if these answers and the checker's notes are the same
for both.
-/
namespace Asl

open Mark (erased)

variable {Λ Λ' : Lowering} {Γ : Context}

theorem forall₂_of_map_eq {α β γ : Type} {g : α → γ} {g' : β → γ} {xs : List α} {ys : List β}
    (h : ys.map g' = xs.map g) : List.Forall₂ (fun x y => g' y = g x) xs ys := by
  have heq : List.Forall₂ (· = ·) (ys.map g') (xs.map g) := by
    rw [List.forall₂_eq_eq_eq, h]
  exact (List.forall₂_map_right_iff.1 (List.forall₂_map_left_iff.1 heq)).flip

theorem map_eq_of_forall₂ {α β γ : Type} {g : α → γ} {g' : β → γ} {xs : List α} {ys : List β}
    (h : List.Forall₂ (fun x y => g' y = g x) xs ys) : ys.map g' = xs.map g := by
  rw [← List.forall₂_eq_eq_eq]
  exact List.forall₂_map_right_iff.2 (List.forall₂_map_left_iff.2 h.flip)

theorem forall₂_mem {α β : Type} {R : α → β → Prop} {xs : List α} {ys : List β}
    (h : List.Forall₂ R xs ys) : List.Forall₂ (fun x y => x ∈ xs ∧ y ∈ ys ∧ R x y) xs ys := by
  have hright := (List.forall₂_and_left ys xs).2 ⟨fun y hy => hy, h.flip⟩
  exact (List.forall₂_and_left xs ys).2 ⟨fun x hx => hx, hright.flip⟩

theorem mapM_eq_of_forall₂ {α β γ ε : Type} {g : α → Except ε γ} {g' : β → Except ε γ}
    {xs : List α} {ys : List β} (h : List.Forall₂ (fun x y => g' y = g x) xs ys) :
    ys.mapM g' = xs.mapM g := by
  induction h with
  | nil => rfl
  | cons head _ ih => rw [List.mapM_cons, List.mapM_cons, head, ih]

def Expr.SameText (e e' : Expr) : Prop := e'.wrapped.mapMark erased = e.wrapped.mapMark erased

namespace Expr

theorem SameText.type {e e' : Expr} (h : e.SameText e') : (e'.judge Γ).type = (e.judge Γ).type := by
  rw [← (e'.same_judge (f := erased)).type, h, (e.same_judge (f := erased)).type]

theorem sameText_map {es es' : List Expr}
    (h : (es'.map wrapped).map (mapMark erased) = (es.map wrapped).map (mapMark erased)) :
    List.Forall₂ SameText es es' := by
  rw [List.map_map, List.map_map] at h
  exact forall₂_of_map_eq h

theorem sameText_all {es es' : List Expr}
    (h : mapMarkAll erased (wrappedAll es') = mapMarkAll erased (wrappedAll es)) :
    List.Forall₂ SameText es es' := by
  rw [mapMarkAll_eq_map, mapMarkAll_eq_map, wrappedAll_eq_map, wrappedAll_eq_map] at h
  exact sameText_map h

theorem SameText.typeOf {e e' : Expr} (h : e.SameText e') (hn : e.Noted Λ Γ)
    (hn' : e'.Noted Λ' Γ) : Lower.typeOf Λ' e'.mark.id = Lower.typeOf Λ e.mark.id := by
  rw [Lower.typeOf, Lower.typeOf, hn.typeOf, hn'.typeOf, h.type]

/-! ## Parentheses around an expression -/

/-- The expression inside of all parentheses around an expression. -/
def core : Expr → Expr
  | .paren _ inner => inner.core
  | e => e

theorem core_wrapIf (b : Bool) (e : Expr) : (wrapIf b e).core = e.core := by
  cases b <;> rfl

theorem core_wrapped (e : Expr) : e.wrapped.core = e.core.wrapped := by
  induction e using Expr.ind with
  | paren m inner ih => exact ih
  | _ => rfl

theorem core_mapMark (f : Mark → Mark) (e : Expr) : (e.mapMark f).core = e.core.mapMark f := by
  induction e using Expr.ind with
  | paren m inner ih => exact ih
  | _ => rfl

theorem type_core (e : Expr) : (e.core.judge Γ).type = (e.judge Γ).type := by
  induction e using Expr.ind with
  | paren m inner ih => exact ih
  | _ => rfl

theorem Noted.core {e : Expr} (h : e.Noted Λ Γ) : e.core.Noted Λ Γ := by
  induction e using Expr.ind with
  | paren m inner ih => exact ih h.inner
  | _ => exact h

theorem sameText_core {b c : Bool} {e e' : Expr}
    (h : (wrapIf c e'.wrapped).mapMark erased = (wrapIf b e.wrapped).mapMark erased) :
    e.core.SameText e'.core := by
  have hcore := congrArg core h
  simp only [core_mapMark, core_wrapIf, core_wrapped] at hcore
  exact hcore

end Expr

def Target.SameText (x x' : Target) : Prop :=
  (x'.mapExpr Expr.wrapped).mapMark erased = (x.mapExpr Expr.wrapped).mapMark erased

def Stmt.SameText (s s' : Stmt) : Prop :=
  (s'.mapExpr Expr.wrapped).mapMark erased = (s.mapExpr Expr.wrapped).mapMark erased

def Function.SameText (g g' : Function) : Prop :=
  (g'.mapExpr Expr.wrapped).mapMark erased = (g.mapExpr Expr.wrapped).mapMark erased

theorem Stmt.sameText_map {ss ss' : List Stmt}
    (h : (ss'.map (mapExpr Expr.wrapped)).map (mapMark erased) =
      (ss.map (mapExpr Expr.wrapped)).map (mapMark erased)) : List.Forall₂ SameText ss ss' := by
  rw [List.map_map, List.map_map] at h
  exact forall₂_of_map_eq h

theorem Stmt.sameText_all {ss ss' : List Stmt}
    (h : mapMarkAll erased (mapExprAll Expr.wrapped ss') =
      mapMarkAll erased (mapExprAll Expr.wrapped ss)) : List.Forall₂ SameText ss ss' := by
  rw [mapMarkAll_eq_map, mapMarkAll_eq_map, mapExprAll_eq_map, mapExprAll_eq_map] at h
  exact sameText_map h

theorem Function.sameText_of_mapMark {g g' : Function}
    (h : g'.mapMark erased = g.mapMark erased) : g.SameText g' := by
  rw [SameText, mapMark_mapExpr (Expr.mapMark_wrapped rfl), h,
    mapMark_mapExpr (Expr.mapMark_wrapped rfl)]

theorem Function.sameText_of_wrapped {g g' : Function}
    (h : g'.mapMark erased = (g.mapExpr Expr.wrapped).mapMark erased) : g.SameText g' := by
  have hwrapped := sameText_of_mapMark h
  rwa [SameText, mapExpr_mapExpr Expr.wrapped_wrapped] at hwrapped

theorem Target.SameText.typeOf {x x' : Target} (h : x.SameText x')
    (hn : Λ.Reads (x.judge Γ).report) (hn' : Λ'.Reads (x'.judge Γ).report) :
    Lower.typeOf Λ' x'.mark.id = Lower.typeOf Λ x.mark.id := by
  have htype : (x'.judge Γ).type = (x.judge Γ).type := by
    rw [← (x'.same_judge (f := erased)).type, h, (x.same_judge (f := erased)).type]
  rw [Lower.typeOf, Lower.typeOf, typeOf_of_reads hn, typeOf_of_reads hn', htype]

/-- Two lowerings that know the same parameters, and the same types of these functions. -/
structure Lowering.SameCalls (Λ Λ' : Lowering) (names : List String) : Prop where
  parameter : ∀ x, Lower.isParameter Λ' x = Lower.isParameter Λ x
  callee : ∀ x ∈ names, Λ'.meaning x = Λ.meaning x

namespace Lowering.SameCalls

variable {names names' : List String}

theorem of_meaning (h : Λ'.meaning = Λ.meaning) (names : List String) : Λ.SameCalls Λ' names where
  parameter x := by rw [Lower.isParameter, Lower.isParameter, h]
  callee x _ := congrFun h x

theorem mono (h : Λ.SameCalls Λ' names) (hsub : names' ⊆ names) : Λ.SameCalls Λ' names' :=
  { h with callee := fun x hx => h.callee x (hsub hx) }

theorem append (h : Λ.SameCalls Λ' (names ++ names')) :
    Λ.SameCalls Λ' names ∧ Λ.SameCalls Λ' names' :=
  ⟨h.mono (List.subset_append_left _ _), h.mono (List.subset_append_right _ _)⟩

theorem tail {x : String} (h : Λ.SameCalls Λ' (x :: names)) : Λ.SameCalls Λ' names :=
  h.mono (List.subset_cons_self _ _)

theorem arrayBase (h : Λ.SameCalls Λ' names) : Lower.arrayBase Λ' = Lower.arrayBase Λ := by
  funext array
  rw [Lower.arrayBase, Lower.arrayBase, h.parameter]

theorem reference (h : Λ.SameCalls Λ' names) : Lower.reference Λ' = Lower.reference Λ := by
  funext array
  rw [Lower.reference, Lower.reference, h.parameter]

theorem calleeType {x : String} (h : Λ.SameCalls Λ' (x :: names)) :
    Lower.calleeType Λ' x = Lower.calleeType Λ x := by
  rw [Lower.calleeType, Lower.calleeType, h.callee x List.mem_cons_self]

end Lowering.SameCalls

namespace Lower

/-! ## Expressions -/

/-- An expression is lowered to the same code as every expression of its text, whatever parentheses
stand around either. -/
def Transparent (Λ Λ' : Lowering) (Γ : Context) (e : Expr) : Prop :=
  Λ.SameCalls Λ' e.callees → ∀ e', e.core.SameText e'.core → e.Noted Λ Γ → e'.Noted Λ' Γ →
    expr Λ' e' = expr Λ e

theorem expr_core (Λ : Lowering) (e : Expr) : expr Λ e.core = expr Λ e := by
  induction e using Expr.ind with
  | paren m inner ih => rw [Expr.core, ih, expr]
  | _ => rfl

/-- The parentheses around the other expression are stripped, if this one has none. -/
theorem transparent_of_core {e : Expr} (he : e.core = e)
    (h : Λ.SameCalls Λ' e.callees → ∀ e', e.SameText e' → e.Noted Λ Γ → e'.Noted Λ' Γ →
      expr Λ' e' = expr Λ e) : Transparent Λ Λ' Γ e := by
  intro ha e' htext hn hn'
  rw [he] at htext
  rw [← expr_core Λ' e']
  exact h ha e'.core htext hn hn'.core

theorem Transparent.apply {e e' : Expr} (ht : Transparent Λ Λ' Γ e)
    (ha : Λ.SameCalls Λ' e.callees) (h : e.SameText e') (hn : e.Noted Λ Γ) (hn' : e'.Noted Λ' Γ) :
    expr Λ' e' = expr Λ e :=
  ht ha e' (Expr.sameText_core (b := false) (c := false) h) hn hn'

theorem Transparent.operand {e e' : Expr} {b c : Bool} (ht : Transparent Λ Λ' Γ e)
    (ha : Λ.SameCalls Λ' e.callees)
    (h : (Expr.wrapIf c e'.wrapped).mapMark erased = (Expr.wrapIf b e.wrapped).mapMark erased)
    (hn : e.Noted Λ Γ) (hn' : e'.Noted Λ' Γ) :
    expr Λ' e' = expr Λ e ∧ typeOf Λ' e'.mark.id = typeOf Λ e.mark.id := by
  have hcore := Expr.sameText_core h
  refine ⟨ht ha e' hcore hn hn', ?_⟩
  rw [typeOf, typeOf, hn.typeOf, hn'.typeOf, ← Expr.type_core e, ← Expr.type_core e', hcore.type]

theorem maxRest_sameText {type : Ty} {best : Operand} {es es' : List Expr}
    (h : List.Forall₂ Expr.SameText es es') (ht : ∀ e ∈ es, Transparent Λ Λ' Γ e)
    (ha : Λ.SameCalls Λ' (Expr.calleesAll es)) (hn : ∀ e ∈ es, e.Noted Λ Γ)
    (hn' : ∀ e ∈ es', e.Noted Λ' Γ) : maxRest Λ' type best es' = maxRest Λ type best es := by
  induction h with
  | nil => rfl
  | @cons e e' es es' he hes ih =>
    obtain ⟨ht, hts⟩ := List.forall_mem_cons.1 ht
    obtain ⟨hn, hns⟩ := List.forall_mem_cons.1 hn
    obtain ⟨hn', hns'⟩ := List.forall_mem_cons.1 hn'
    obtain ⟨ha, has⟩ := ha.append
    rw [maxRest, maxRest, ht.apply ha he hn hn', he.typeOf hn hn', ih hts has hns hns']

theorem arguments_sameText {callee : String} {ps : List Ty} {es es' : List Expr}
    (h : List.Forall₂ Expr.SameText es es') (ht : ∀ e ∈ es, Transparent Λ Λ' Γ e)
    (ha : Λ.SameCalls Λ' (Expr.calleesAll es)) (hn : ∀ e ∈ es, e.Noted Λ Γ)
    (hn' : ∀ e ∈ es', e.Noted Λ' Γ) : arguments Λ' callee ps es' = arguments Λ callee ps es := by
  induction h generalizing ps with
  | nil => cases ps <;> rfl
  | @cons e e' es es' he hes ih =>
    obtain ⟨ht, hts⟩ := List.forall_mem_cons.1 ht
    obtain ⟨hn, hns⟩ := List.forall_mem_cons.1 hn
    obtain ⟨hn', hns'⟩ := List.forall_mem_cons.1 hn'
    cases ps with
    | nil => rfl
    | cons p ps =>
      have hreference := ha.reference
      obtain ⟨ha, has⟩ := ha.append
      rw [arguments, arguments, ht.apply ha he hn hn', he.typeOf hn hn', ih hts has hns hns',
        hreference]

theorem transparent_expr (e : Expr) : Transparent Λ Λ' Γ e := by
  induction e using Expr.ind with
  | literal m v =>
    refine transparent_of_core rfl fun ha e' h hn hn' => ?_
    cases e' with
    | literal m' v' =>
      injection h with _ hv
      rw [expr, expr, hv]
    | _ => cases h
  | name m x =>
    refine transparent_of_core rfl fun ha e' h hn hn' => ?_
    cases e' with
    | name m' x' =>
      injection h with _ hx
      injection hx with _ hx
      rw [expr, expr, hx]
    | _ => cases h
  | element m base index ih =>
    refine transparent_of_core rfl fun ha e' h hn hn' => ?_
    cases e' with
    | element m' base' index' =>
      injection h with _ hbase hindex
      injection hbase with _ hbase
      rw [expr, expr, ih.apply ha hindex hn.index hn'.index, hbase, ha.arrayBase]
    | _ => cases h
  | call m callee args ih =>
    refine transparent_of_core rfl fun ha e' h hn hn' => ?_
    cases e' with
    | call m' callee' args' =>
      injection h with _ hcallee hargs
      injection hcallee with _ hcallee
      have htexts := Expr.sameText_all hargs
      have hpushes (ps : List Ty) :
          arguments Λ' callee.name ps args' = arguments Λ callee.name ps args :=
        arguments_sameText htexts ih ha.tail hn.callArgs hn'.callArgs
      simp only [expr, hcallee, ha.calleeType, hpushes, htexts.length_eq]
    | _ => cases h
  | paren m inner ih =>
    intro ha e' h hn hn'
    rw [expr]
    exact ih ha e' h hn.inner hn'
  | unary m op operand ih =>
    refine transparent_of_core rfl fun ha e' h hn hn' => ?_
    have htype := Expr.SameText.typeOf h hn hn'
    cases e' with
    | unary m' op' operand' =>
      injection h with _ hop hoperand
      obtain ⟨hcode, -⟩ := ih.operand ha hoperand hn.operand hn'.operand
      subst hop
      change typeOf Λ' m'.id = typeOf Λ m.id at htype
      rw [expr, expr, hcode, htype]
    | _ => cases h
  | binary m op lhs rhs ihl ihr =>
    refine transparent_of_core rfl fun ha e' h hn hn' => ?_
    cases e' with
    | binary m' op' lhs' rhs' =>
      injection h with _ hop hlhs hrhs
      obtain ⟨hal, har⟩ := ha.append
      obtain ⟨hl, htl⟩ := ihl.operand hal hlhs hn.operands.1 hn'.operands.1
      obtain ⟨hr, htr⟩ := ihr.operand har hrhs hn.operands.2 hn'.operands.2
      rw [expr, expr, hl, hr, htl, htr, hop]
    | _ => cases h
  | max m args ih =>
    refine transparent_of_core rfl fun ha e' h hn hn' => ?_
    have htype := Expr.SameText.typeOf h hn hn'
    cases e' with
    | max m' args' =>
      injection h with _ hargs
      change typeOf Λ' m'.id = typeOf Λ m.id at htype
      have hns := hn.maxArgs
      have hns' := hn'.maxArgs
      cases Expr.sameText_all hargs with
      | nil => rw [expr, expr, htype]
      | @cons e e' es es' he hes =>
        obtain ⟨ihe, ihes⟩ := List.forall_mem_cons.1 ih
        obtain ⟨hne, hnes⟩ := List.forall_mem_cons.1 hns
        obtain ⟨hne', hnes'⟩ := List.forall_mem_cons.1 hns'
        obtain ⟨hae, haes⟩ := ha.append
        have hrest (t : Ty) (best : Operand) : maxRest Λ' t best es' = maxRest Λ t best es :=
          maxRest_sameText hes ihes haes hnes hnes'
        simp only [expr, htype, ihe.apply hae he hne hne', he.typeOf hne hne', hrest]
    | _ => cases h

theorem expr_sameText {e e' : Expr} (ha : Λ.SameCalls Λ' e.callees) (h : e.SameText e')
    (hn : e.Noted Λ Γ) (hn' : e'.Noted Λ' Γ) : expr Λ' e' = expr Λ e :=
  (transparent_expr e).apply ha h hn hn'

/-! ## Statements -/

theorem constantInt_mapMark (f : Mark → Mark) (e : Expr) :
    constantInt (e.mapMark f) = constantInt e := by
  induction e using Expr.ind with
  | literal m v => cases v <;> rfl
  | name m x => rfl
  | element m base index ih => rfl
  | call m callee args ih => rfl
  | paren m inner ih => exact ih
  | unary m op operand ih =>
    cases op with
    | not => rfl
    | plus => exact ih
    | minus => rw [Expr.mapMark, constantInt, constantInt, ih]
  | binary m op lhs rhs ihl ihr => rfl
  | max m args ih => rfl

theorem constantInt_wrapped (e : Expr) : constantInt e.wrapped = constantInt e := by
  have hwrapIf : ∀ (b : Bool) (e : Expr), constantInt (Expr.wrapIf b e) = constantInt e := by
    intro b e
    cases b <;> rfl
  induction e using Expr.ind with
  | literal m v => rfl
  | name m x => rfl
  | element m base index ih => rfl
  | call m callee args ih => rfl
  | paren m inner ih => exact ih
  | unary m op operand ih =>
    cases op with
    | not => rfl
    | plus => exact (hwrapIf _ _).trans ih
    | minus => rw [Expr.wrapped, constantInt, constantInt, hwrapIf, ih]
  | binary m op lhs rhs ihl ihr => rfl
  | max m args ih => rfl

theorem constantInt_sameText {e e' : Expr} (h : e.SameText e') :
    constantInt e' = constantInt e := by
  rw [← constantInt_wrapped e', ← constantInt_mapMark erased, h, constantInt_mapMark,
    constantInt_wrapped]

theorem direction_sameText {es es' : List Expr} (h : List.Forall₂ Expr.SameText es es')
    (step : Operand) : direction step es'[2]? = direction step es[2]? := by
  rcases h with _ | ⟨-, _ | ⟨-, _ | ⟨he, -⟩⟩⟩
  · rfl
  · rfl
  · rfl
  · have hstep := constantInt_sameText he
    simp only [direction, List.getElem?_cons_succ, List.getElem?_cons_zero, Option.elim_some, hstep]

theorem bounds_sameText {es es' : List Expr} (h : List.Forall₂ Expr.SameText es es')
    (ha : Λ.SameCalls Λ' (Expr.calleesAll es)) (hn : ∀ e ∈ es, e.Noted Λ Γ)
    (hn' : ∀ e ∈ es', e.Noted Λ' Γ) : bounds Λ' es' = bounds Λ es := by
  induction h with
  | nil => rfl
  | @cons e e' es es' he hes ih =>
    obtain ⟨hn, hns⟩ := List.forall_mem_cons.1 hn
    obtain ⟨hn', hns'⟩ := List.forall_mem_cons.1 hn'
    obtain ⟨ha, has⟩ := ha.append
    rw [bounds, bounds, expr_sameText ha he hn hn', ih has hns hns']

theorem place_sameText {x x' : Target} (ha : Λ.SameCalls Λ' x.callees) (h : x.SameText x')
    (hn : Λ.Reads (x.judge Γ).report) (hn' : Λ'.Reads (x'.judge Γ).report) :
    place Λ' x' = place Λ x := by
  cases x with
  | name m x =>
    cases x' with
    | name m' x' =>
      injection h with _ hx
      injection hx with _ hx
      rw [place, place, hx]
    | element m' base' index' => cases h
  | element m base index =>
    cases x' with
    | name m' x' => cases h
    | element m' base' index' =>
      injection h with _ hbase hindex
      injection hbase with _ hbase
      have hcode := expr_sameText ha hindex (Target.noted_index hn) (Target.noted_index hn')
      rw [place, place, hcode, hbase, ha.arrayBase]

theorem copyArray_sameText {dst : String} {size : Nat} {e e' : Expr}
    (ha : Λ.SameCalls Λ' e.callees) (h : e.SameText e') (hn : e.Noted Λ Γ) (hn' : e'.Noted Λ' Γ) :
    copyArray Λ' dst size e' = copyArray Λ dst size e := by
  have hcode := expr_sameText ha h hn hn'
  have hbase := ha.arrayBase
  cases e with
  | name m x =>
    cases e' with
    | name m' x' => simp only [copyArray, hcode, hbase]
    | _ => cases h
  | paren m inner =>
    cases e' with
    | paren m' inner' => simp only [copyArray, hcode, hbase]
    | _ => cases h
  | _ => cases e' <;> first | rfl | cases h

theorem assign_sameText {x x' : Target} {e e' : Expr}
    (ha : Λ.SameCalls Λ' (x.callees ++ e.callees)) (hx : x.SameText x') (he : e.SameText e')
    (hnx : Λ.Reads (x.judge Γ).report) (hnx' : Λ'.Reads (x'.judge Γ).report) (hne : e.Noted Λ Γ)
    (hne' : e'.Noted Λ' Γ) : assign Λ' x' e' = assign Λ x e := by
  obtain ⟨hax, hae⟩ := ha.append
  have hplace := place_sameText hax hx hnx hnx'
  have htype := hx.typeOf hnx hnx'
  have hcopy (dst : String) (size : Nat) :
      copyArray Λ' dst size e' = copyArray Λ dst size e :=
    copyArray_sameText hae he hne hne'
  rw [assign, assign, htype, hplace, he.typeOf hne hne', expr_sameText hae he hne hne']
  cases x with
  | name m x =>
    cases x' with
    | name m' x' =>
      injection hx with _ hx
      injection hx with _ hx
      simp only [hx, hcopy]
    | element m' base' index' => cases hx
  | element m base index =>
    cases x' with
    | name m' x' => cases hx
    | element m' base' index' => rfl

def StmtTransparent (Λ Λ' : Lowering) (Γ : Context) (s : Stmt) : Prop :=
  Λ.SameCalls Λ' s.callees → ∀ s', s.SameText s' → s.Noted Λ Γ → s'.Noted Λ' Γ →
    stmt Λ' s' = stmt Λ s

theorem stmts_sameText {ss ss' : List Stmt} (h : List.Forall₂ Stmt.SameText ss ss')
    (ht : ∀ s ∈ ss, StmtTransparent Λ Λ' Γ s) (ha : Λ.SameCalls Λ' (Stmt.calleesAll ss))
    (hn : ∀ s ∈ ss, s.Noted Λ Γ) (hn' : ∀ s ∈ ss', s.Noted Λ' Γ) :
    stmts Λ' ss' = stmts Λ ss := by
  induction h with
  | nil => rfl
  | @cons s s' ss ss' hs hss ih =>
    obtain ⟨ht, hts⟩ := List.forall_mem_cons.1 ht
    obtain ⟨hn, hns⟩ := List.forall_mem_cons.1 hn
    obtain ⟨hn', hns'⟩ := List.forall_mem_cons.1 hn'
    obtain ⟨ha, has⟩ := ha.append
    rw [stmts, stmts, ht ha s' hs hn hn', ih hts has hns hns']

theorem transparent_assign {m : Mark} {target : Target} {value : Expr} :
    StmtTransparent Λ Λ' Γ (.assign m target value) := by
  intro ha s' h hn hn'
  cases s' with
  | assign m' target' value' =>
    injection h with _ ht hv
    rw [stmt, stmt,
      assign_sameText ha ht hv hn.assign.1 hn'.assign.1 hn.assign.2 hn'.assign.2]
  | _ => cases h

theorem transparent_ifThen {m : Mark} {condition : Expr} {body : List Stmt}
    (ih : ∀ s ∈ body, StmtTransparent Λ Λ' Γ s) :
    StmtTransparent Λ Λ' Γ (.ifThen m condition body) := by
  intro ha s' h hn hn'
  obtain ⟨hac, hab⟩ := ha.append
  cases s' with
  | ifThen m' condition' body' =>
    injection h with _ hc hb
    have hcode := expr_sameText hac hc hn.ifThen.1 hn'.ifThen.1
    have hbody := stmts_sameText (Stmt.sameText_all hb) ih hab hn.ifThen.2 hn'.ifThen.2
    rw [stmt, stmt, hcode, hbody]
  | _ => cases h

theorem transparent_ifElse {m : Mark} {condition : Expr} {body otherwise : List Stmt}
    (ihb : ∀ s ∈ body, StmtTransparent Λ Λ' Γ s) (iho : ∀ s ∈ otherwise, StmtTransparent Λ Λ' Γ s) :
    StmtTransparent Λ Λ' Γ (.ifElse m condition body otherwise) := by
  intro ha s' h hn hn'
  obtain ⟨hnc, hnb, hno⟩ := hn.ifElse
  obtain ⟨hac, habs⟩ := ha.append
  obtain ⟨hab, hao⟩ := habs.append
  cases s' with
  | ifElse m' condition' body' otherwise' =>
    obtain ⟨hnc', hnb', hno'⟩ := hn'.ifElse
    injection h with _ hc hb ho
    have hcode := expr_sameText hac hc hnc hnc'
    have hbody := stmts_sameText (Stmt.sameText_all hb) ihb hab hnb hnb'
    have hotherwise := stmts_sameText (Stmt.sameText_all ho) iho hao hno hno'
    rw [stmt, stmt, hcode, hbody, hotherwise]
  | _ => cases h

theorem transparent_while {m : Mark} {condition : Expr} {body : List Stmt}
    (ih : ∀ s ∈ body, StmtTransparent Λ Λ' Γ s) :
    StmtTransparent Λ Λ' Γ (.while m condition body) := by
  intro ha s' h hn hn'
  obtain ⟨hac, hab⟩ := ha.append
  cases s' with
  | «while» m' condition' body' =>
    injection h with _ hc hb
    have hcode := expr_sameText hac hc hn.while_.1 hn'.while_.1
    have hbody := stmts_sameText (Stmt.sameText_all hb) ih hab hn.while_.2 hn'.while_.2
    rw [stmt, stmt, hcode, hbody]
  | _ => cases h

theorem transparent_for {m : Mark} {control : Ident} {range : List Expr} {body : List Stmt}
    (ih : ∀ s ∈ body, StmtTransparent Λ Λ' Γ s) :
    StmtTransparent Λ Λ' Γ (.for m control range body) := by
  intro ha s' h hn hn'
  obtain ⟨har, hab⟩ := ha.append
  cases s' with
  | «for» m' control' range' body' =>
    injection h with _ hcontrol hrange hb
    injection hcontrol with _ hcontrol
    have htexts := Expr.sameText_map hrange
    have hbounds := bounds_sameText htexts har hn.for_.1 hn'.for_.1
    have hbody := stmts_sameText (Stmt.sameText_all hb) ih hab hn.for_.2 hn'.for_.2
    simp only [stmt, hbounds, direction_sameText htexts, hbody, hcontrol]
  | _ => cases h

theorem transparent_call {m : Mark} {callee : Ident} {args : List Expr} :
    StmtTransparent Λ Λ' Γ (.call m callee args) := by
  intro ha s' h hn hn'
  cases s' with
  | call m' callee' args' =>
    injection h with _ hcallee hargs
    injection hcallee with _ hcallee
    have htexts := Expr.sameText_map hargs
    have hpushes (ps : List Ty) :
        arguments Λ' callee.name ps args' = arguments Λ callee.name ps args :=
      arguments_sameText htexts (fun e _ => transparent_expr e) ha.tail hn.callArgs hn'.callArgs
    simp only [stmt, hcallee, ha.calleeType, hpushes, htexts.length_eq]
  | _ => cases h

theorem transparent_read {m : Mark} {target : Target} :
    StmtTransparent Λ Λ' Γ (.read m target) := by
  intro ha s' h hn hn'
  cases s' with
  | read m' target' =>
    injection h with _ ht
    have htype := Target.SameText.typeOf ht hn.read hn'.read
    rw [stmt, stmt, htype, place_sameText ha ht hn.read hn'.read]
  | _ => cases h

theorem transparent_write {m : Mark} {value : Expr} :
    StmtTransparent Λ Λ' Γ (.write m value) := by
  intro ha s' h hn hn'
  cases s' with
  | write m' value' =>
    injection h with _ hv
    have htype := Expr.SameText.typeOf hv hn.write hn'.write
    rw [stmt, stmt, htype, expr_sameText ha hv hn.write hn'.write]
  | _ => cases h

theorem transparent_ret (hresult : Λ'.result = Λ.result) {m : Mark} {value : Option Expr} :
    StmtTransparent Λ Λ' Γ (.ret m value) := by
  intro ha s' h hn hn'
  cases s' with
  | ret m' value' =>
    injection h with _ hvalue
    cases value with
    | none =>
      cases value' with
      | none => rw [stmt, stmt]
      | some value' => cases hvalue
    | some value =>
      cases value' with
      | none => cases hvalue
      | some value' =>
        have hv : value.SameText value' := Option.some.inj hvalue
        have htype := hv.typeOf hn.ret hn'.ret
        rw [stmt, stmt, htype, expr_sameText ha hv hn.ret hn'.ret, hresult]
  | _ => cases h

theorem transparent_stmt (hresult : Λ'.result = Λ.result) (s : Stmt) :
    StmtTransparent Λ Λ' Γ s := by
  induction s using Stmt.ind with
  | assign m target value => exact transparent_assign
  | ifThen m condition body ih => exact transparent_ifThen ih
  | ifElse m condition body otherwise ihb iho => exact transparent_ifElse ihb iho
  | while_ m condition body ih => exact transparent_while ih
  | for_ m control range body ih => exact transparent_for ih
  | call m callee args => exact transparent_call
  | read m target => exact transparent_read
  | write m value => exact transparent_write
  | writeText m raw =>
    intro _ s' h _ _
    cases s' with
    | writeText m' raw' =>
      injection h with _ hraw
      rw [stmt, stmt, hraw]
    | _ => cases h
  | ret m value => exact transparent_ret hresult

/-! ## Functions -/

theorem locals_sameText {ds ds' : List Declaration}
    (h : List.Forall₂ (fun d d' : Declaration => d'.mapMark erased = d.mapMark erased) ds ds')
    (hn : ∀ d ∈ ds, Λ.typeOf d.type.mark.id = .ok (.ofSpec d.type.spec))
    (hn' : ∀ d ∈ ds', Λ'.typeOf d.type.mark.id = .ok (.ofSpec d.type.spec)) :
    locals Λ' ds' = locals Λ ds := by
  induction h with
  | nil => rfl
  | @cons d d' ds ds' hd hds ih =>
    obtain ⟨hn, hns⟩ := List.forall_mem_cons.1 hn
    obtain ⟨hn', hns'⟩ := List.forall_mem_cons.1 hn'
    injection hd with hnames htype
    injection htype with _ hspec
    have hvariables : ∀ n : Nat, d'.names.map (fun x => Variable.mk x.name n) =
        d.names.map fun x => Variable.mk x.name n := by
      intro n
      have hmapped := congrArg (List.map fun x : Ident => Variable.mk x.name n) hnames
      rw [List.map_map, List.map_map] at hmapped
      exact hmapped
    simp only [locals, typeOf, hn, hn', hspec, ih hns hns', hvariables]

theorem function_sameText {g g' : Function} (ha : Λ.SameCalls Λ' g.callees)
    (hresult : Λ'.result = Λ.result) (h : g.SameText g') (type : Ty)
    (hd : ∀ d ∈ g.declarations, Λ.typeOf d.type.mark.id = .ok (.ofSpec d.type.spec))
    (hd' : ∀ d ∈ g'.declarations, Λ'.typeOf d.type.mark.id = .ok (.ofSpec d.type.spec))
    (hn : Λ.Reads (Stmt.judgeAll Γ g.body)) (hn' : Λ'.Reads (Stmt.judgeAll Γ g'.body)) :
    function Λ' type g' = function Λ type g := by
  injection h with _ hname hparams _ hdeclarations hbody
  injection hname with _ hname
  have hcode := stmts_sameText (Stmt.sameText_map hbody) (fun s _ => transparent_stmt hresult s) ha
    (Stmt.noted_all hn) (Stmt.noted_all hn')
  have hparams : g'.params.map (·.name.name) = g.params.map (·.name.name) := by
    have hmapped := congrArg (List.map (·.name.name)) hparams
    rw [List.map_map, List.map_map] at hmapped
    exact hmapped
  have hlocals : locals Λ' g'.declarations = locals Λ g.declarations :=
    locals_sameText (forall₂_of_map_eq hdeclarations) hd hd'
  change g'.name.name = g.name.name at hname
  rw [function, function, hlocals, hcode, hname, hparams]

end Lower

end Asl
