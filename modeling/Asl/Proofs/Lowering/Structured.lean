import Asl.Proofs.Code.Structured
import Asl.Proofs.Lowering.TypedBody

/-!
# Lowering gives structured code

The code of a part of a program is structured: its jumps stay inside, every temporary that it reads
is written before, and a call pops what it has pushed. The code of an expression is always left; the
code of a statement is left unless the statement must return.
-/
namespace Asl

/-- A call in code pushes what the function that it names takes: a slot if the function has a value,
and then one value for each parameter. -/
def Surroundings.Calls (E : Surroundings) (site : CallSite) : Prop :=
  ∃ params t, E.signature site.name = some (params, t) ∧
    site.slots.map (·.value.isSome) =
      (if t = .void then [] else [false]) ++ params.map fun _ => true

/-! ## Statements that must return -/

mutual

/-- A statement after which nothing is executed, whatever its conditions are. -/
def Stmt.mustReturn : Stmt → Bool
  | .ret _ _ => true
  | .ifElse _ _ body otherwise => Stmt.anyMustReturn body && Stmt.anyMustReturn otherwise
  | _ => false

def Stmt.anyMustReturn : List Stmt → Bool
  | [] => false
  | s :: ss => s.mustReturn || Stmt.anyMustReturn ss

end

namespace Code

variable {C : CallSite → Prop} {A B : Set Nat} {i : Instr} {code : Code} {f : Bool}

theorem Structured.plain_cons (hi : i.isPlain = true) (hsources : ∀ o ∈ i.sources, o.Known A)
    (h : Structured C (A ∪ i.written) code B f) : Structured C A (i :: code) B f :=
  .append (.plain hi hsources) h

end Code

namespace Lower

variable {E : Surroundings} {Γ : Context} {Λ : Lowering} {A : Set Nat} {c : Counters}

/-- Lowering that gives structured code and an operand that is known behind it. -/
def Forms (E : Surroundings) (A : Set Nat) (c : Counters) (m : Lower (Code × Operand)) : Prop :=
  Gives m c fun r _ => ∃ B, Code.Structured E.Calls A r.1 B true ∧ r.2.Known B

theorem forms_pure {v : Operand} (hv : v.Known A) : Forms E A c (pure ([], v)) :=
  gives_pure ⟨A, .nil, hv⟩

theorem forms_fresh {i : Operand → Instr} (hi : ∀ n, (i (.temp n)).isPlain = true)
    (hsources : ∀ n, ∀ o ∈ (i (.temp n)).sources, o.Known A)
    (hwritten : ∀ n, n ∈ (i (.temp n)).written) :
    Forms E A c (do let t ← freshTemp; return ([i t], t)) := by
  refine (gives_freshTemp c).bind fun o c' hres => ?_
  obtain ⟨ho, -⟩ := hres
  subst ho
  exact gives_pure ⟨_, .plain (hi _) (hsources _), Or.inr (hwritten _)⟩

theorem toFloat_forms {v : Operand} (hv : v.Known A) (t : Ty) : Forms E A c (toFloat v t) := by
  unfold toFloat
  split
  · exact forms_fresh (fun _ => rfl) (fun _ o ho => List.mem_singleton.1 ho ▸ hv)
      fun _ => List.mem_cons_self
  · exact forms_pure hv

theorem coerce_forms {v : Operand} (hv : v.Known A) (t expected : Ty) :
    Forms E A c (coerce v t expected) := by
  unfold coerce
  split
  · exact toFloat_forms hv t
  · exact forms_pure hv

theorem arrayBase_forms {v : Operand} (hv : v.Known A) : Forms E A c (arrayBase Λ v) := by
  unfold arrayBase
  split
  · exact forms_fresh (fun _ => rfl) (fun _ o ho => List.mem_singleton.1 ho ▸ hv)
      fun _ => List.mem_cons_self
  · exact forms_pure hv

theorem reference_forms {v : Operand} (hv : v.Known A) : Forms E A c (reference Λ v) := by
  unfold reference
  split
  · exact forms_pure hv
  · exact forms_fresh (fun _ => rfl) (fun _ o ho => List.mem_singleton.1 ho ▸ hv)
      fun _ => List.mem_cons_self

theorem materialize_forms {v : Operand} (hv : v.Known A) : Forms E A c (materialize v) := by
  unfold materialize
  split
  · exact forms_pure hv
  · exact forms_fresh (fun _ => rfl) (fun _ o ho => List.mem_singleton.1 ho ▸ hv)
      fun _ => List.mem_cons_self

theorem immediate_forms (n : Int) : Forms E A c (immediate n) :=
  forms_fresh (fun _ => rfl) nofun fun _ => List.mem_cons_self

/-! ## Expressions -/

theorem known_pair {a b : Operand} (ha : a.Known A) (hb : b.Known A) : ∀ o ∈ [a, b], o.Known A :=
  List.forall_mem_cons.2 ⟨ha, List.forall_mem_singleton.2 hb⟩

theorem operation_structured {a b : Operand} (ha : a.Known A) (hb : b.Known A) (op : BinaryOp)
    (ns : Numbers) (n : Nat) : Gives (operation op ns (.temp n) a b) c fun code _ =>
      ∃ B, Code.Structured E.Calls A code B true ∧ n ∈ B := by
  have plain : ∀ i, ∃ B, Code.Structured E.Calls A [Instr.binary i (.temp n) a b] B true ∧ n ∈ B :=
    fun i => ⟨_, .plain rfl (known_pair ha hb), Or.inr List.mem_cons_self⟩
  have negated : ∀ i, ∃ B, Code.Structured E.Calls A
      [Instr.binary i (.temp n) a b, .unary .not (.temp n) (.temp n)] B true ∧ n ∈ B := by
    intro i
    have hn : n ∈ A ∪ (Instr.binary i (.temp n) a b).written := Or.inr List.mem_cons_self
    refine ⟨_, .plain_cons rfl (known_pair ha hb) (.plain rfl ?_), Or.inl hn⟩
    exact List.forall_mem_singleton.2 hn
  cases op with
  | mod =>
    refine (gives_freshTemp c).bind fun q c₁ hres => ?_
    obtain ⟨hq, -⟩ := hres
    refine (gives_freshTemp c₁).bind fun s c₂ hres => ?_
    obtain ⟨hs, -⟩ := hres
    subst hq hs
    have hdiv : A ⊆ A ∪ (Instr.binary (.div .whole) (.temp (c.temps + 1)) a b).written :=
      Set.subset_union_left
    have hq : c.temps + 1 ∈ A ∪ (Instr.binary (.div .whole) (.temp (c.temps + 1)) a b).written :=
      Or.inr List.mem_cons_self
    refine gives_pure ⟨_, .plain_cons rfl (known_pair ha hb) (.plain_cons rfl
      (known_pair hq (hb.mono hdiv)) (.plain rfl (known_pair ?_ ?_))), Or.inr List.mem_cons_self⟩
    · exact (ha.mono hdiv).mono Set.subset_union_left
    · exact Or.inr List.mem_cons_self
  | notEqual => exact gives_pure (negated _)
  | greater => exact gives_pure (negated _)
  | greaterEqual => exact gives_pure (negated _)
  | _ => exact gives_pure (plain _)

def Formed (E : Surroundings) (A : Set Nat) (p : Slot) : Prop :=
  ∃ B, Code.Structured E.Calls A p.code B true ∧ ∀ o, p.value = some o → o.Known B

theorem site_structured {site : CallSite} (hsite : E.Calls site)
    (hpops : site.pops.length = site.slots.length) (h : ∀ p ∈ site.slots, Formed E A p) :
    Code.Structured E.Calls A site.code (A ∪ site.written) true := by
  choose! known hstructured hknown using h
  exact .call hsite hpops hstructured hknown

theorem call_structured {name : String} {params : List Ty} {t : Ty}
    (hsignature : E.signature name = some (params, t)) {slot : Bool}
    (hslot : slot = true ↔ t ≠ .void) {ps : List Slot}
    (hvalues : ps.map (·.value.isSome) = params.map fun _ => true)
    (hps : ∀ p ∈ ps, Formed E A p) (result : Option Operand) :
    ∃ B, Code.Structured E.Calls A (callCode slot (ps.flatMap Slot.pushing) name params.length ++
      if slot then [.pop result] else []) B true ∧
        (slot = true → ∀ o, result = some o → o.Known B) := by
  have hlength : ps.length = params.length := by
    simpa only [List.length_map] using congrArg List.length hvalues
  cases slot with
  | false =>
    have ht : t = .void := by simpa using hslot
    let site : CallSite := ⟨ps, name, List.replicate params.length none⟩
    have hcode : callCode false (ps.flatMap Slot.pushing) name params.length = site.code := by
      simp [site, callCode, CallSite.code, CallSite.pushing, CallSite.popping]
    have hsite : E.Calls site := ⟨params, t, hsignature, by rw [if_pos ht]; exact hvalues⟩
    have hpops : site.pops.length = site.slots.length := by simp [site, hlength]
    simp only [Bool.false_eq_true, if_false, List.append_nil, hcode]
    exact ⟨_, site_structured hsite hpops hps, False.elim⟩
  | true =>
    have ht : t ≠ .void := hslot.1 rfl
    let empty : Slot := ⟨[], none⟩
    let site : CallSite := ⟨empty :: ps, name, List.replicate params.length none ++ [result]⟩
    have hcode : callCode true (ps.flatMap Slot.pushing) name params.length ++ [.pop result] =
        site.code := by
      simp [site, empty, callCode, CallSite.code, CallSite.pushing, CallSite.popping, Slot.pushing]
    have hsite : E.Calls site := by
      refine ⟨params, t, hsignature, ?_⟩
      rw [if_neg ht, List.map_cons, hvalues]
      rfl
    have hpops : site.pops.length = site.slots.length := by simp [site, hlength]
    have hempty : Formed E A empty := by
      refine ⟨A, .nil, fun v hv => ?_⟩
      cases hv
    simp only [if_true, hcode]
    refine ⟨_, site_structured hsite hpops (List.forall_mem_cons.2 ⟨hempty, hps⟩), ?_⟩
    intro _ o ho
    cases o with
    | temp n =>
      refine Or.inr (List.mem_append_right _ ?_)
      rw [ho]
      exact List.mem_singleton_self _
    | name x => trivial
    | result => trivial

theorem arguments_structured (callee : String) {es : List Expr} (params : List Ty)
    (h : ∀ e ∈ es, ∀ c, Forms E A c (expr Λ e)) : Gives (arguments Λ callee params es) c
      fun code _ => ∃ ps : List Slot, code = ps.flatMap Slot.pushing ∧
        ps.map (·.value.isSome) = es.map (fun _ => true) ∧ ∀ p ∈ ps, Formed E A p := by
  induction es generalizing params c with
  | nil => cases params <;> exact gives_pure ⟨[], rfl, rfl, nofun⟩
  | cons e es ih =>
    obtain ⟨he, hes⟩ := List.forall_mem_cons.1 h
    cases params with
    | nil => exact gives_fail
    | cons p params =>
      refine (gives_typeOf Λ _ c).bind fun t c₁ _ => (he c₁).bind fun r c₂ hr => ?_
      obtain ⟨B, hcode, hv⟩ := hr
      have hrest : ∀ (q : Code × Operand) c₃,
          (∃ D, Code.Structured E.Calls B q.1 D true ∧ q.2.Known D) →
          Gives (do
            let more ← arguments Λ callee params es
            return r.1 ++ q.1 ++ .push (some q.2) :: more) c₃ fun code _ =>
              ∃ ps : List Slot, code = ps.flatMap Slot.pushing ∧
                ps.map (·.value.isSome) = (e :: es).map (fun _ => true) ∧
                  ∀ p ∈ ps, Formed E A p := by
        intro q c₃ hq
        obtain ⟨D, hconv, hvalue⟩ := hq
        refine (ih params hes).bind fun more c₄ hmore => ?_
        obtain ⟨ps, rfl, hvalues, hps⟩ := hmore
        have hslot : Formed E A ⟨r.1 ++ q.1, some q.2⟩ :=
          ⟨D, hcode.append hconv, fun o ho => Option.some.inj ho ▸ hvalue⟩
        refine gives_pure ⟨⟨r.1 ++ q.1, some q.2⟩ :: ps, ?_, ?_, ?_⟩
        · simp [Slot.pushing]
        · simp [hvalues]
        · exact List.forall_mem_cons.2 ⟨hslot, hps⟩
      simp only
      split
      · exact (reference_forms hv).bind hrest
      · exact (coerce_forms hv t p).bind hrest

theorem maxRest_structured (t : Ty) {best : Nat} {es : List Expr} (hbest : best ∈ A)
    (h : ∀ e ∈ es, ∀ A c, Forms E A c (expr Λ e)) :
    Gives (maxRest Λ t (.temp best) es) c fun code _ =>
      ∃ B, Code.Structured E.Calls A code B true := by
  induction es generalizing A c with
  | nil => exact gives_pure ⟨A, .nil⟩
  | cons e es ih =>
    obtain ⟨he, hes⟩ := List.forall_mem_cons.1 h
    refine (gives_typeOf Λ _ c).bind fun u c₁ _ => (he A c₁).bind fun r c₂ hr => ?_
    obtain ⟨B, hcode, hv⟩ := hr
    refine (coerce_forms (E := E) hv u t).bind fun q c₃ hq => ?_
    obtain ⟨D, hconv, hvalue⟩ := hq
    refine (gives_freshTemp c₃).bind fun o c₄ hres => ?_
    obtain ⟨ho, -⟩ := hres
    subst ho
    refine (gives_freshBranch c₄).bind fun n c₅ _ => ?_
    have hbestD : best ∈ D := hconv.subset (hcode.subset hbest)
    have hless : Code.Structured E.Calls D _ _ true :=
      .plain (i := .binary (.less (numbers t)) (.temp (c₃.temps + 1)) (.temp best) q.2) rfl
        (known_pair hbestD hvalue)
    have hcondition : (Operand.temp (c₃.temps + 1)).Known (D ∪ (Instr.binary (.less (numbers t))
        (.temp (c₃.temps + 1)) (.temp best) q.2).written) := Or.inr List.mem_cons_self
    have hcopy : Code.Structured E.Calls _ [.copy (.temp best) q.2] _ true :=
      .plain rfl (List.forall_mem_singleton.2 (hvalue.mono hless.subset))
    refine (ih (hless.subset hbestD) hes).bind fun more c₆ hmore => ?_
    obtain ⟨F, hmore⟩ := hmore
    have hskip := Code.Structured.skip (l := ⟨.endmax, n⟩) hcondition hcopy
    have hall := (((hcode.append hconv).append hless).append hskip).append hmore
    refine gives_pure ⟨F, ?_⟩
    simpa using hall

def FormsExpr (E : Surroundings) (Γ : Context) (Λ : Lowering) (e : Expr) : Prop :=
  ∀ t, e.HasType Γ t → ∀ A c, Forms E A c (expr Λ e)

theorem forms_of_forall₂ {es : List Expr} {ts : List Ty} (ih : ∀ e ∈ es, FormsExpr E Γ Λ e)
    (htypes : List.Forall₂ (Expr.HasType Γ) es ts) :
    ∀ e ∈ es, ∀ A c, Forms E A c (expr Λ e) := by
  intro e he A c
  induction htypes with
  | nil => cases he
  | @cons e' t es ts ht _ ihs =>
    obtain ⟨ih', ih⟩ := List.forall_mem_cons.1 ih
    rcases List.mem_cons.1 he with rfl | he
    · exact ih' t ht A c
    · exact ihs ih he

theorem calleeType_of_function (hE : E.Agrees Γ Λ) {x : String} {role : Role} {params : List Ty}
    {t : Ty} (hx : Γ.meaning x = some (role, .function params t)) :
    calleeType Λ x = pure (.function params t) := by
  rw [calleeType, hE.meaning, hx]
  rfl

theorem isProcedure_eq_false {params : List Ty} {t : Ty} (ht : t ≠ .void) :
    (Ty.function params t).isProcedure = false := by
  cases t with
  | void => exact absurd rfl ht
  | _ => rfl

theorem call_forms (hE : E.Agrees Γ Λ) {m : Mark} {callee : Ident} {args : List Expr}
    (ih : ∀ a ∈ args, FormsExpr E Γ Λ a) : FormsExpr E Γ Λ (.call m callee args) := by
  intro t ht A c
  cases ht with
  | @call _ _ _ role params ts _ hcallee htypes hfits hvoid =>
    obtain ⟨-, hsignature, -⟩ := hE.function _ _ _ _ hcallee
    have hcount : args.length = params.length := htypes.length_eq.trans hfits.length_eq
    have hargs := forms_of_forall₂ ih htypes
    rw [Forms, expr, calleeType_of_function hE hcallee, pure_bind]
    simp only [isProcedure_eq_false hvoid, Bool.false_eq_true, if_false]
    refine (arguments_structured callee.name params fun a ha => hargs a ha A).bind
      fun pushes c₁ hres => ?_
    obtain ⟨ps, rfl, hvalues, hps⟩ := hres
    refine (gives_freshTemp c₁).bind fun o c₂ _ => ?_
    have hsame : args.map (fun _ => true) = params.map fun _ => true := by
      rw [List.map_const', List.map_const', hcount]
    have hslot : true = true ↔ t ≠ .void := by simpa using hvoid
    obtain ⟨B, hcode, hresult⟩ :=
      call_structured hsignature hslot (hvalues.trans hsame) hps (some o)
    rw [hcount]
    exact gives_pure ⟨B, hcode, hresult rfl o rfl⟩

theorem unary_forms {m : Mark} {op : UnaryOp} {operand : Expr} (ih : FormsExpr E Γ Λ operand) :
    FormsExpr E Γ Λ (.unary m op operand) := by
  intro t ht A c
  cases ht with
  | unary hv _ =>
    refine (ih _ hv A c).bind fun r c₁ hr => ?_
    obtain ⟨B, hcode, hvalue⟩ := hr
    cases op with
    | plus => exact gives_pure ⟨B, hcode, hvalue⟩
    | not =>
      refine (gives_freshTemp c₁).bind fun o c₂ hres => ?_
      obtain ⟨ho, -⟩ := hres
      subst ho
      exact gives_pure ⟨_, hcode.append (.plain rfl (List.forall_mem_singleton.2 hvalue)),
        Or.inr List.mem_cons_self⟩
    | minus =>
      refine (gives_typeOf Λ _ c₁).bind fun u c₂ _ => (gives_freshTemp c₂).bind fun o c₃ hres => ?_
      obtain ⟨ho, -⟩ := hres
      subst ho
      exact gives_pure ⟨_, hcode.append (.plain rfl (List.forall_mem_singleton.2 hvalue)),
        Or.inr List.mem_cons_self⟩

theorem binary_forms {m : Mark} {op : BinaryOp} {lhs rhs : Expr} (ihl : FormsExpr E Γ Λ lhs)
    (ihr : FormsExpr E Γ Λ rhs) : FormsExpr E Γ Λ (.binary m op lhs rhs) := by
  intro t ht A c
  cases ht with
  | binary hl hr _ =>
    refine (ihl _ hl A c).bind fun a c₁ ha => ?_
    obtain ⟨B₁, hcodeA, hknownA⟩ := ha
    refine (ihr _ hr B₁ c₁).bind fun b c₂ hb => ?_
    obtain ⟨B₂, hcodeB, hknownB⟩ := hb
    refine (gives_typeOf Λ _ c₂).bind fun u c₃ _ => (gives_typeOf Λ _ c₃).bind fun v c₄ _ => ?_
    refine (coerce_forms (E := E) (hknownA.mono hcodeB.subset) u _).bind fun a' c₅ ha' => ?_
    obtain ⟨B₃, hconvA, hknownA'⟩ := ha'
    refine (coerce_forms (E := E) (hknownB.mono hconvA.subset) v _).bind fun b' c₆ hb' => ?_
    obtain ⟨B₄, hconvB, hknownB'⟩ := hb'
    refine (gives_freshTemp c₆).bind fun o c₇ hres => ?_
    obtain ⟨ho, -⟩ := hres
    subst ho
    refine (operation_structured (E := E) (hknownA'.mono hconvB.subset) hknownB' op _ _).bind
      fun code c₈ hcode => ?_
    obtain ⟨B₅, hcode, hmem⟩ := hcode
    exact gives_pure ⟨B₅, (((hcodeA.append hcodeB).append hconvA).append hconvB).append hcode, hmem⟩

theorem element_forms {m : Mark} {base : Ident} {index : Expr} (ih : FormsExpr E Γ Λ index) :
    FormsExpr E Γ Λ (.element m base index) := by
  intro t ht A c
  cases ht with
  | element _ hi =>
    refine (ih _ hi A c).bind fun r c₁ hr => ?_
    obtain ⟨B, hcode, hvalue⟩ := hr
    refine (arrayBase_forms (E := E) (A := B) (v := .name base.name) trivial).bind
      fun q c₂ hq => ?_
    obtain ⟨D, hload, hbase⟩ := hq
    refine (gives_freshTemp c₂).bind fun o c₃ hres => ?_
    obtain ⟨ho, -⟩ := hres
    subst ho
    have hknown := known_pair hbase (hvalue.mono hload.subset)
    exact gives_pure ⟨_, (hcode.append hload).append (.plain rfl hknown), Or.inr List.mem_cons_self⟩

theorem max_forms {m : Mark} {args : List Expr} (ih : ∀ a ∈ args, FormsExpr E Γ Λ a) :
    FormsExpr E Γ Λ (.max m args) := by
  intro t ht A c
  cases ht with
  | max hlength htypes _ =>
    cases args with
    | nil => cases hlength
    | cons first rest =>
      obtain ⟨hfirst, hrest⟩ := List.forall_mem_cons.1 (forms_of_forall₂ ih htypes)
      refine (gives_typeOf Λ _ c).bind fun u c₁ _ => (gives_freshTemp c₁).bind fun o c₂ hres => ?_
      obtain ⟨ho, -⟩ := hres
      subst ho
      refine (gives_typeOf Λ _ c₂).bind fun v c₃ _ => (hfirst A c₃).bind fun r c₄ hr => ?_
      obtain ⟨B, hcode, hvalue⟩ := hr
      refine (coerce_forms (E := E) hvalue v u).bind fun q c₅ hq => ?_
      obtain ⟨D, hconv, hvalue'⟩ := hq
      have hcopy : Code.Structured E.Calls D [.copy (.temp (c₁.temps + 1)) q.2] _ true :=
        .plain rfl (List.forall_mem_singleton.2 hvalue')
      have hbest : c₁.temps + 1 ∈ D ∪ (Instr.copy (.temp (c₁.temps + 1)) q.2).written :=
        Or.inr List.mem_cons_self
      refine (maxRest_structured u hbest hrest).bind fun more c₆ hmore => ?_
      obtain ⟨F, hmore⟩ := hmore
      have hall := (hcode.append hconv).append (hcopy.append hmore)
      exact gives_pure ⟨F, hall, hmore.subset hbest⟩

theorem expr_forms (hE : E.Agrees Γ Λ) (e : Expr) : FormsExpr E Γ Λ e := by
  induction e using Expr.ind with
  | literal m v =>
    exact fun _ _ A c => forms_fresh (fun _ => rfl) nofun fun _ => List.mem_cons_self
  | name m x => exact fun _ _ A c => gives_pure ⟨A, .nil, trivial⟩
  | element m base index ih => exact element_forms ih
  | call m callee args ih => exact call_forms hE ih
  | paren m inner ih =>
    intro t ht A c
    cases ht with
    | paren hinner => exact ih t hinner A c
  | unary m op operand ih => exact unary_forms ih
  | binary m op lhs rhs ihl ihr => exact binary_forms ihl ihr
  | max m args ih => exact max_forms ih

/-! ## Assignments -/

def Place.Known (A : Set Nat) : Place → Prop
  | .scalar _ => True
  | .element base index => base.Known A ∧ index.Known A

theorem Place.Known.mono {p : Place} {B : Set Nat} (h : p.Known A) (hAB : A ⊆ B) : p.Known B := by
  cases p with
  | scalar x => trivial
  | element base index => exact ⟨h.1.mono hAB, h.2.mono hAB⟩

theorem store_structured {p : Place} (hp : p.Known A) {v : Operand} (hv : v.Known A) :
    ∃ B, Code.Structured E.Calls A [p.store v] B true := by
  cases p with
  | scalar x => exact ⟨_, .plain rfl (List.forall_mem_singleton.2 hv)⟩
  | element base index =>
    exact ⟨_, .plain rfl (List.forall_mem_cons.2 ⟨hp.1, known_pair hp.2 hv⟩)⟩

theorem place_structured (hE : E.Agrees Γ Λ) {x : Target} {t : Ty} (hx : x.HasType Γ t) :
    Gives (place Λ x) c fun r _ =>
      ∃ B, Code.Structured E.Calls A r.1 B true ∧ r.2.Known B := by
  cases hx with
  | name => exact gives_pure ⟨A, .nil, trivial⟩
  | element _ hindex =>
    refine (expr_forms hE _ _ hindex A c).bind fun i c₁ hi => ?_
    obtain ⟨B, hcode, hvalue⟩ := hi
    refine (arrayBase_forms (E := E) (A := B) (v := .name _) trivial).bind fun b c₂ hb => ?_
    obtain ⟨D, hload, hbase⟩ := hb
    exact gives_pure ⟨D, hcode.append hload, hbase, hvalue.mono hload.subset⟩

theorem copyElements_structured {dst src : Operand} (hdst : dst.Known A) (hsrc : src.Known A)
    (i j size : Nat) :
    ∃ B, Code.Structured E.Calls A (copyElements dst src (.temp i) (.temp j) size) B true := by
  unfold copyElements
  induction List.range size generalizing A with
  | nil => exact ⟨A, .nil⟩
  | cons k ks ih =>
    have hconstant : Code.Structured E.Calls A [.constant (.temp i) (.int k)] _ true :=
      .plain rfl nofun
    have hi : (Operand.temp i).Known (A ∪ (Instr.constant (.temp i) (.int k)).written) :=
      Or.inr List.mem_cons_self
    have hload : Code.Structured E.Calls _ [.loadElement (.temp j) src (.temp i)] _ true :=
      .plain rfl (known_pair (hsrc.mono hconstant.subset) hi)
    have hj : (Operand.temp j).Known (A ∪ (Instr.constant (.temp i) (.int k)).written ∪
        (Instr.loadElement (.temp j) src (.temp i)).written) := Or.inr List.mem_cons_self
    have hsubset := hconstant.subset.trans hload.subset
    have hstore : Code.Structured E.Calls _ [.storeElement dst (.temp i) (.temp j)] _ true :=
      .plain rfl (List.forall_mem_cons.2 ⟨hdst.mono hsubset,
        known_pair (hi.mono hload.subset) hj⟩)
    have hall := hsubset.trans hstore.subset
    obtain ⟨B, hrest⟩ := ih (hdst.mono hall) (hsrc.mono hall)
    exact ⟨B, (hconstant.append (hload.append hstore)).append hrest⟩

theorem copyArray_structured (hE : E.Agrees Γ Λ) {value : Expr} {n : Nat} {t : Ty}
    (hv : value.HasType Γ (.array n t)) (x : String) (size : Nat) :
    Gives (copyArray Λ x size value) c fun code _ =>
      ∃ B, Code.Structured E.Calls A code B true := by
  rw [copyArray_eq hE hv]
  refine (expr_forms hE value _ hv A c).bind fun r c₁ hr => ?_
  obtain ⟨B₁, hcode, hsrc⟩ := hr
  refine (arrayBase_forms (E := E) hsrc).bind fun s c₂ hs => ?_
  obtain ⟨B₂, hloadSrc, hs⟩ := hs
  refine (arrayBase_forms (E := E) (A := B₂) (v := .name x) trivial).bind fun d c₃ hd => ?_
  obtain ⟨B₃, hloadDst, hd⟩ := hd
  refine (gives_freshTemp c₃).bind fun index c₄ hres => ?_
  obtain ⟨hindex, -⟩ := hres
  refine (gives_freshTemp c₄).bind fun elem c₅ hres => ?_
  obtain ⟨helem, -⟩ := hres
  subst hindex helem
  obtain ⟨B, hcells⟩ := copyElements_structured (E := E) hd (hs.mono hloadDst.subset)
    (c₃.temps + 1) (c₄.temps + 1) size
  exact gives_pure ⟨B, ((hcode.append hloadSrc).append hloadDst).append hcells⟩

theorem assign_structured (hE : E.Agrees Γ Λ) {target : Target} {value : Expr} {t u : Ty}
    (hx : target.HasType Γ t) (hv : value.HasType Γ u) (hfits : Fits u t)
    (hnx : Λ.Reads (target.judge Γ).report) :
    Gives (assign Λ target value) c fun code _ =>
      ∃ B, Code.Structured E.Calls A code B true := by
  refine (gives_known (typeOf_target hE hx hnx)).bind fun _ _ hres => ?_
  obtain ⟨h, h'⟩ := hres
  subst h h'
  split
  · next harray =>
    cases target with
    | element => exact gives_fail
    | name m x =>
      cases t with
      | array k b =>
        cases hfits
        exact copyArray_structured hE hv _ _
      | _ => cases harray
  · refine (gives_typeOf Λ _ c).bind fun w c₁ _ => (place_structured (A := A) hE hx).bind
      fun p c₂ hp => ?_
    obtain ⟨B₁, hbefore, hplace⟩ := hp
    refine (expr_forms hE value _ hv B₁ c₂).bind fun r c₃ hr => ?_
    obtain ⟨B₂, hcode, hsrc⟩ := hr
    refine (coerce_forms (E := E) hsrc w t).bind fun q c₄ hq => ?_
    obtain ⟨B₃, hconv, hvalue⟩ := hq
    obtain ⟨B, hstore⟩ := store_structured (E := E)
      (hplace.mono (hcode.subset.trans hconv.subset)) hvalue
    exact gives_pure ⟨B, ((hbefore.append hcode).append hconv).append hstore⟩

/-! ## Loops -/

theorem bounds_structured (hE : E.Agrees Γ Λ) {es : List Expr} (h : ∀ e ∈ es, e.HasType Γ .int) :
    Gives (bounds Λ es) c fun r _ => ∃ B, Code.Structured E.Calls A r.1 B true ∧
      ∀ v ∈ r.2, v.Known B := by
  induction es generalizing A c with
  | nil => exact gives_pure ⟨A, .nil, nofun⟩
  | cons e es ih =>
    obtain ⟨he, hes⟩ := List.forall_mem_cons.1 h
    refine (expr_forms hE e _ he A c).bind fun r c₁ hr => ?_
    obtain ⟨B₁, hcode, hvalue⟩ := hr
    refine (materialize_forms (E := E) hvalue).bind fun q c₂ hq => ?_
    obtain ⟨B₂, hkeep, hkept⟩ := hq
    refine (ih (A := B₂) hes).bind fun more c₃ hmore => ?_
    obtain ⟨B, hmore, hvalues⟩ := hmore
    refine gives_pure ⟨B, (hcode.append hkeep).append hmore, ?_⟩
    exact List.forall_mem_cons.2 ⟨hkept.mono hmore.subset, hvalues⟩

theorem loopBounds_structured {vs : List Operand} (hvs : ∀ v ∈ vs, v.Known A) :
    Gives (loopBounds vs) c fun r _ => ∀ q, r = some q → ∃ B,
      Code.Structured E.Calls A q.1 B true ∧ q.2.1.Known B ∧ q.2.2.1.Known B ∧ q.2.2.2.Known B := by
  rcases vs with _ | ⟨u, _ | ⟨v, _ | ⟨w, rest⟩⟩⟩
  · exact gives_pure nofun
  · have hu := hvs u (by simp)
    refine (immediate_forms (E := E) (A := A) 0).bind fun zero c₁ hzero => ?_
    obtain ⟨B₁, hzero, hstart⟩ := hzero
    refine (immediate_forms (E := E) (A := B₁) 1).bind fun one c₂ hone => ?_
    obtain ⟨B₂, hone, hstep⟩ := hone
    refine gives_pure fun q hq => ?_
    cases hq
    exact ⟨B₂, hzero.append hone, hstart.mono hone.subset,
      hu.mono (hzero.subset.trans hone.subset), hstep⟩
  · have hu := hvs u (by simp)
    have hv := hvs v (by simp)
    refine (immediate_forms (E := E) (A := A) 1).bind fun one c₁ hone => ?_
    obtain ⟨B, hone, hstep⟩ := hone
    refine gives_pure fun q hq => ?_
    cases hq
    exact ⟨B, hone, hu.mono hone.subset, hv.mono hone.subset, hstep⟩
  · refine gives_pure fun q hq => ?_
    cases hq
    exact ⟨A, .nil, hvs u (by simp), hvs v (by simp), hvs w (by simp)⟩

def Direction.Known (A : Set Nat) : Direction → Prop
  | .tested isUp => isUp.Known A
  | _ => True

theorem Direction.Known.mono {d : Direction} {B : Set Nat} (h : d.Known A) (hAB : A ⊆ B) :
    d.Known B := by
  cases d with
  | tested isUp => exact Operand.Known.mono h hAB
  | _ => trivial

theorem direction_structured {step : Operand} (hstep : step.Known A) (written : Option Expr) :
    Gives (direction step written) c fun r _ =>
      ∃ B, Code.Structured E.Calls A r.1 B true ∧ Direction.Known B r.2 := by
  have htest : Gives (direction.test step) c fun r _ =>
      ∃ B, Code.Structured E.Calls A r.1 B true ∧ Direction.Known B r.2 := by
    refine (immediate_forms (E := E) (A := A) 0).bind fun zero c₁ hzero => ?_
    obtain ⟨B, hcode, hzero⟩ := hzero
    refine (gives_freshTemp c₁).bind fun o c₂ hres => ?_
    obtain ⟨ho, -⟩ := hres
    subst ho
    exact gives_pure ⟨_, hcode.append (.plain rfl (known_pair hzero (hstep.mono hcode.subset))),
      Or.inr List.mem_cons_self⟩
  unfold direction
  split
  · split
    · exact gives_pure ⟨A, .nil, trivial⟩
    · split
      · exact gives_pure ⟨A, .nil, trivial⟩
      · exact htest
  · exact htest

theorem loopTest_structured {control stop : Operand} (hcontrol : control.Known A)
    (hstop : stop.Known A) {d : Direction} (hd : d.Known A) (n k : Nat) :
    ∃ B, Code.Structured E.Calls A (loopTest n (.temp k) control stop d) B true ∧ k ∈ B := by
  have hup : Code.Structured E.Calls A [.binary (.less .whole) (.temp k) control stop] _ true :=
    .plain rfl (known_pair hcontrol hstop)
  have hdown : Code.Structured E.Calls A [.binary (.less .whole) (.temp k) stop control] _ true :=
    .plain rfl (known_pair hstop hcontrol)
  cases d with
  | up => exact ⟨_, hup, Or.inr List.mem_cons_self⟩
  | down => exact ⟨_, hdown, Or.inr List.mem_cons_self⟩
  | tested isUp =>
    exact ⟨_, .branch hd hup hdown, Or.inr List.mem_cons_self, Or.inr List.mem_cons_self⟩

/-! ## Statements -/

def FormsStmt (E : Surroundings) (Γ : Context) (Λ : Lowering) (s : Stmt) : Prop :=
  s.Ok Γ → s.Noted Λ Γ → ∀ A c, Gives (stmt Λ s) c fun code _ =>
    ∃ B, Code.Structured E.Calls A code B (!s.mustReturn)

theorem stmts_structured_of {ss : List Stmt} (h : ∀ s ∈ ss, FormsStmt E Γ Λ s)
    (hok : ∀ s ∈ ss, s.Ok Γ) (hn : ∀ s ∈ ss, s.Noted Λ Γ) (A : Set Nat) (c : Counters) :
    Gives (stmts Λ ss) c fun code _ =>
      ∃ B, Code.Structured E.Calls A code B (!Stmt.anyMustReturn ss) := by
  induction ss generalizing A c with
  | nil => exact gives_pure ⟨A, .nil⟩
  | cons s ss ih =>
    obtain ⟨hs, hss⟩ := List.forall_mem_cons.1 h
    obtain ⟨hoks, hokss⟩ := List.forall_mem_cons.1 hok
    obtain ⟨hns, hnss⟩ := List.forall_mem_cons.1 hn
    refine (hs hoks hns A c).bind fun code c₁ hcode => ?_
    obtain ⟨B, hcode⟩ := hcode
    refine (ih hss hokss hnss B c₁).bind fun more c₂ hmore => ?_
    obtain ⟨D, hmore⟩ := hmore
    refine gives_pure ⟨D, ?_⟩
    rw [Stmt.anyMustReturn, Bool.not_or]
    exact hcode.append hmore

theorem ifThen_structured (hE : E.Agrees Γ Λ) {m : Mark} {condition : Expr} {body : List Stmt}
    (ih : ∀ s ∈ body, FormsStmt E Γ Λ s) : FormsStmt E Γ Λ (.ifThen m condition body) := by
  intro hok hn A c
  obtain ⟨-, hnb⟩ := hn.ifThen
  cases hok with
  | ifThen hc hb =>
    refine (expr_forms hE condition .bool hc A c).bind fun r c₁ hr => ?_
    obtain ⟨B, htest, hv⟩ := hr
    refine (gives_freshBranch c₁).bind fun n c₂ _ => ?_
    refine (stmts_structured_of ih hb hnb B c₂).bind fun yes c₃ hyes => ?_
    obtain ⟨D, hyes⟩ := hyes
    refine gives_pure ⟨B, ?_⟩
    have hall := htest.append (.skip (l := ⟨.endif, n⟩) hv hyes)
    simpa [Stmt.mustReturn] using hall

theorem ifElse_structured (hE : E.Agrees Γ Λ) {m : Mark} {condition : Expr}
    {body otherwise : List Stmt} (ihb : ∀ s ∈ body, FormsStmt E Γ Λ s)
    (iho : ∀ s ∈ otherwise, FormsStmt E Γ Λ s) :
    FormsStmt E Γ Λ (.ifElse m condition body otherwise) := by
  intro hok hn A c
  obtain ⟨-, hnb, hno⟩ := hn.ifElse
  cases hok with
  | ifElse hc hb ho =>
    refine (expr_forms hE condition .bool hc A c).bind fun r c₁ hr => ?_
    obtain ⟨B, htest, hv⟩ := hr
    refine (gives_freshBranch c₁).bind fun n c₂ _ => ?_
    refine (stmts_structured_of ihb hb hnb B c₂).bind fun yes c₃ hyes => ?_
    obtain ⟨D, hyes⟩ := hyes
    refine (stmts_structured_of iho ho hno B c₃).bind fun no c₄ hno => ?_
    obtain ⟨F, hno⟩ := hno
    refine gives_pure ⟨D ∩ F, ?_⟩
    have hall := htest.append (.branch (l := ⟨.else, n⟩) (m := ⟨.endif, n⟩) hv hyes hno)
    simpa [Stmt.mustReturn] using hall

theorem while_structured (hE : E.Agrees Γ Λ) {m : Mark} {condition : Expr} {body : List Stmt}
    (ih : ∀ s ∈ body, FormsStmt E Γ Λ s) : FormsStmt E Γ Λ (.while m condition body) := by
  intro hok hn A c
  obtain ⟨-, hnb⟩ := hn.while_
  cases hok with
  | while_ hc hb =>
    refine (gives_freshLoop c).bind fun n c₁ _ => ?_
    refine (expr_forms hE condition .bool hc A c₁).bind fun r c₂ hr => ?_
    obtain ⟨B, htest, hv⟩ := hr
    refine (stmts_structured_of ih hb hnb B c₂).bind fun inner c₃ hinner => ?_
    obtain ⟨D, hinner⟩ := hinner
    refine gives_pure ⟨B, ?_⟩
    have hall := Code.Structured.loop (l := ⟨.while, n⟩) (m := ⟨.endwhile, n⟩) htest hv hinner
    simpa [Stmt.mustReturn] using hall

theorem for_structured (hE : E.Agrees Γ Λ) {m : Mark} {control : Ident} {range : List Expr}
    {body : List Stmt} (ih : ∀ s ∈ body, FormsStmt E Γ Λ s) :
    FormsStmt E Γ Λ (.for m control range body) := by
  intro hok hn A c
  obtain ⟨-, hnb⟩ := hn.for_
  cases hok with
  | for_ _ _ _ hrange hb =>
    refine (bounds_structured (A := A) hE hrange).bind fun r c₁ hr => ?_
    obtain ⟨B₁, hevaluate, hvalues⟩ := hr
    refine (loopBounds_structured (E := E) hvalues).bind fun q c₂ hq => ?_
    cases q with
    | none => exact gives_pure ⟨A, .nil⟩
    | some q =>
      obtain ⟨defaults, start, stop, step⟩ := q
      obtain ⟨B₂, hdefaults, hstart, hstop, hstep⟩ := hq _ rfl
      refine (direction_structured (E := E) hstep range[2]?).bind fun d c₃ hd => ?_
      obtain ⟨B₃, hsign, hdirection⟩ := hd
      refine (gives_freshLoop c₃).bind fun n c₄ _ => ?_
      refine (gives_freshTemp c₄).bind fun o c₅ hres => ?_
      obtain ⟨ho, -⟩ := hres
      subst ho
      have hcopy : Code.Structured E.Calls B₃ [.copy (.name control.name) start] _ true :=
        .plain rfl (List.forall_mem_singleton.2 (hstart.mono hsign.subset))
      have hkept := hsign.subset.trans hcopy.subset
      have hcontrol : ∀ D, (Operand.name control.name).Known D := fun _ => trivial
      obtain ⟨B₄, htest, hcondition⟩ := loopTest_structured (E := E) (hcontrol _) (hstop.mono hkept)
        (hdirection.mono hcopy.subset) n (c₄.temps + 1)
      refine (stmts_structured_of ih hb hnb B₄ c₅).bind fun inner c₆ hinner => ?_
      obtain ⟨B₅, hinner⟩ := hinner
      have hstep' := hstep.mono (hkept.trans (htest.subset.trans hinner.subset))
      have hadd : Code.Structured E.Calls B₅
          [.binary (.add .whole) (.name control.name) (.name control.name) step] _ true :=
        .plain rfl (known_pair (hcontrol _) hstep')
      have hloop := Code.Structured.loop (l := ⟨.for, n⟩) (m := ⟨.endfor, n⟩) htest
        (show (Operand.temp (c₄.temps + 1)).Known B₄ from hcondition) (hinner.append hadd)
      refine gives_pure ⟨B₄, ?_⟩
      have hall := ((hevaluate.append hdefaults).append hsign).append (hcopy.append hloop)
      simpa [Stmt.mustReturn] using hall

theorem callStmt_structured (hE : E.Agrees Γ Λ) {m : Mark} {callee : Ident} {args : List Expr} :
    FormsStmt E Γ Λ (.call m callee args) := by
  intro hok _ A c
  cases hok with
  | @call _ _ _ role params ts t hcallee htypes hfits =>
    obtain ⟨-, hsignature, -⟩ := hE.function _ _ _ _ hcallee
    have hcount : args.length = params.length := htypes.length_eq.trans hfits.length_eq
    have hargs := forms_of_forall₂ (fun a _ => expr_forms hE a) htypes
    have hsame : args.map (fun _ => true) = params.map fun _ => true := by
      rw [List.map_const', List.map_const', hcount]
    have hslot : (!(Ty.function params t).isProcedure) = true ↔ t ≠ .void := by
      by_cases hvoid : t = .void
      · subst hvoid
        simp [Ty.isProcedure]
      · simp [isProcedure_eq_false hvoid, hvoid]
    simp only [stmt, calleeType_of_function hE hcallee, pure_bind]
    refine (arguments_structured callee.name params fun a ha => hargs a ha A).bind
      fun pushes c₁ hres => ?_
    obtain ⟨ps, rfl, hvalues, hps⟩ := hres
    obtain ⟨B, hcode, -⟩ := call_structured hsignature hslot (hvalues.trans hsame) hps none
    rw [hcount]
    refine gives_pure ⟨B, ?_⟩
    cases hproc : (Ty.function params t).isProcedure with
    | false => simpa [hproc, Stmt.mustReturn] using hcode
    | true => simpa [hproc, Stmt.mustReturn] using hcode

theorem read_structured (hE : E.Agrees Γ Λ) {m : Mark} {target : Target} :
    FormsStmt E Γ Λ (.read m target) := by
  intro hok _ A c
  cases hok with
  | read hx _ =>
    refine (gives_typeOf Λ _ c).bind fun t c₁ _ => (place_structured (A := A) hE hx).bind
      fun r c₂ hr => ?_
    obtain ⟨before, p⟩ := r
    obtain ⟨B, hbefore, hp⟩ := hr
    cases p with
    | scalar x => exact gives_pure ⟨_, hbefore.append (.plain rfl nofun)⟩
    | element base index =>
      refine (gives_freshTemp c₂).bind fun o c₃ hres => ?_
      obtain ⟨ho, -⟩ := hres
      subst ho
      have hread : Code.Structured E.Calls B [.read (channel t) (.temp (c₂.temps + 1))] _ true :=
        .plain rfl nofun
      obtain ⟨D, hstore⟩ := store_structured (E := E) (hp.mono hread.subset)
        (v := .temp (c₂.temps + 1)) (Or.inr List.mem_cons_self)
      exact gives_pure ⟨D, hbefore.append (hread.append hstore)⟩

theorem writeChars_structured (n : Nat) (cs : List Char) :
    ∃ B, Code.Structured E.Calls A (writeChars (.temp n) cs) B true := by
  rw [writeChars_eq]
  induction Glyph.ofText cs generalizing A with
  | nil => exact ⟨A, .nil⟩
  | cons glyph glyphs ih =>
    have hglyph : ∃ B, Code.Structured E.Calls A (glyph.code (.temp n)) B true := by
      cases glyph with
      | char raw =>
        have hn : (Operand.temp n).Known (A ∪ (Instr.constant (.temp n) (.char raw)).written) :=
          Or.inr List.mem_cons_self
        exact ⟨_, .plain_cons rfl nofun (.plain rfl (List.forall_mem_singleton.2 hn))⟩
      | line => exact ⟨_, .plain rfl nofun⟩
    obtain ⟨B, hglyph⟩ := hglyph
    obtain ⟨D, hrest⟩ := ih (A := B)
    exact ⟨D, hglyph.append hrest⟩

theorem ret_structured (hE : E.Agrees Γ Λ) {m : Mark} {value : Expr} :
    FormsStmt E Γ Λ (.ret m (some value)) := by
  intro hok _ A c
  cases hok with
  | ret hv _ =>
    refine (gives_typeOf Λ _ c).bind fun t c₁ _ => (expr_forms hE value _ hv A c₁).bind
      fun r c₂ hr => ?_
    obtain ⟨B₁, hcode, hvalue⟩ := hr
    refine (coerce_forms (E := E) hvalue t _).bind fun q c₃ hq => ?_
    obtain ⟨B₂, hconv, hvalue'⟩ := hq
    have hcopy : Code.Structured E.Calls B₂ [.copy .result q.2] _ true :=
      .plain rfl (List.forall_mem_singleton.2 hvalue')
    exact gives_pure ⟨_, (hcode.append hconv).append (hcopy.append .ret)⟩

theorem stmt_structured (hE : E.Agrees Γ Λ) (s : Stmt) : FormsStmt E Γ Λ s := by
  induction s using Stmt.ind with
  | assign m target value =>
    intro hok hn A c
    obtain ⟨hnx, -⟩ := hn.assign
    cases hok with
    | assign hx hv hfits => exact assign_structured hE hx hv hfits hnx
  | ifThen m condition body ih => exact ifThen_structured hE ih
  | ifElse m condition body otherwise ihb iho => exact ifElse_structured hE ihb iho
  | while_ m condition body ih => exact while_structured hE ih
  | for_ m control range body ih => exact for_structured hE ih
  | call m callee args => exact callStmt_structured hE
  | read m target => exact read_structured hE
  | write m value =>
    intro hok _ A c
    cases hok with
    | write hv _ =>
      refine (gives_typeOf Λ _ c).bind fun t c₁ _ => (expr_forms hE value _ hv A c₁).bind
        fun r c₂ hr => ?_
      obtain ⟨B, hcode, hvalue⟩ := hr
      exact gives_pure ⟨_, hcode.append (.plain rfl (List.forall_mem_singleton.2 hvalue))⟩
  | writeText m raw =>
    intro _ _ A c
    refine (gives_freshTemp c).bind fun o c₁ hres => ?_
    obtain ⟨ho, -⟩ := hres
    subst ho
    exact gives_pure (writeChars_structured _ _)
  | ret m value =>
    cases value with
    | none => exact fun _ _ A c => gives_pure ⟨A, .ret⟩
    | some value => exact ret_structured hE

/-! ## Subroutines -/

theorem closed_structured {C : CallSite → Prop} {B : Set Nat} {code : Code} {g : Bool}
    (h : Code.Structured C A code B g) (isProcedure : Bool) :
    ∃ g', Code.Structured C A (closed isProcedure code) B g' ∧
      (isProcedure = true ∨ g = false → g' = false) := by
  unfold closed
  split
  · exact ⟨false, Bool.and_false g ▸ h.append .ret, fun _ => rfl⟩
  · next hnot =>
    refine ⟨g, h, fun hor => hor.elim (fun hproc => h.not_left ?_) id⟩
    simpa [hproc] using hnot

/-- A subroutine is structured; it is not left at its end if it is a procedure or if its body must
return. -/
theorem subroutine_structured (hE : E.Agrees Γ Λ) {f : Function} (hbody : ∀ s ∈ f.body, s.Ok Γ)
    (hn : ∀ s ∈ f.body, s.Noted Λ Γ) {t : Ty} {sub : Subroutine}
    (h : subroutine Λ t f = .ok sub) : ∃ B g, Code.Structured E.Calls ∅ sub.code B g ∧
      (t.isProcedure = true ∨ Stmt.anyMustReturn f.body = true → g = false) := by
  have hlocals : Gives (locals Λ f.declarations) ⟨0, 0, 0⟩ fun _ _ => True :=
    fun _ _ _ => trivial
  have hfunction : Gives (function Λ t f) ⟨0, 0, 0⟩ fun sub _ =>
      ∃ B g, Code.Structured E.Calls ∅ sub.code B g ∧
        (t.isProcedure = true ∨ Stmt.anyMustReturn f.body = true → g = false) := by
    refine hlocals.bind fun vars c _ => ?_
    refine (stmts_structured_of (fun s _ => stmt_structured hE s) hbody hn ∅ c).bind
      fun code c' hcode => ?_
    obtain ⟨B, hcode⟩ := hcode
    obtain ⟨g, hclosed, hleft⟩ := closed_structured hcode t.isProcedure
    refine gives_pure ⟨B, g, hclosed, fun hor => hleft (hor.imp id fun hreturns => ?_)⟩
    rw [hreturns]
    rfl
  exact hfunction sub _ (Prod.ext h rfl)

end Lower

end Asl
