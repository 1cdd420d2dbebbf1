import Asl.Proofs.Meaning.Expressions
import Mathlib.Data.List.Induction

/-!
# Calls on the stack

A call pushes a slot if the function gives a value, and then its arguments from left to right. The
call fills the slot, the arguments are dropped, and what is left on the stack is the slot.
-/
namespace Asl

variable {D : Domain}

theorem Config.arguments?_pushed (vs : List D.Value) (σ : List (Option D.Value)) :
    Config.arguments? vs.length ((vs.map some).reverse ++ σ) = some (vs, σ) := by
  induction vs using List.reverseRecOn generalizing σ with
  | nil => rfl
  | append_singleton vs v ih =>
    rw [List.length_append, List.length_singleton, List.map_append, List.reverse_append]
    simp only [List.map_cons, List.map_nil, List.reverse_singleton, List.nil_append,
      List.cons_append, arguments?, ih, Option.map_some]

section

variable {E : Surroundings} {Γ : Context} {Λ : Lowering} {M : Machine D}

namespace Lower

theorem drops_reach {cells σ : List (Option D.Value)} {rest : Code} {cfg : Config D}
    (hat : Code.At M.code cfg.pc (List.replicate cells.length (.pop none) ++ rest))
    (hstack : cfg.stack = cells ++ σ) :
    M.Reaches cfg { cfg with pc := cfg.pc + cells.length, stack := σ } := by
  induction cells generalizing cfg with
  | nil =>
    rw [List.nil_append] at hstack
    rw [← hstack]
    exact .refl M cfg
  | cons cell cells ih =>
    have hexec : M.execute (.pop none) cfg =
        some { cfg with pc := cfg.pc + 1, stack := cells ++ σ } := by
      simp only [Machine.execute, hstack, List.cons_append, Config.next]
    have hat' : Code.At M.code cfg.pc
        (.pop none :: (List.replicate cells.length (.pop none) ++ rest)) := hat
    refine (Machine.reaches_of_execute hat'.head hexec).trans ?_
    have hdropped : ({ cfg with pc := cfg.pc + 1, stack := cells ++ σ } : Config D).stack =
        cells ++ σ := rfl
    have h := ih hat'.tail hdropped
    rw [List.length_cons, Nat.add_comm cells.length 1, ← Nat.add_assoc]
    exact h

theorem passed_follows (hE : E.Agrees Γ Λ) (hM : M.Suits Γ) {o : Operand} {t p : Ty}
    (hfit : Fits t p) (hp : p.OfValue) {c : Counters} (ho : o.Held Γ c.temps t) :
    Gives (if p.isArray then reference Λ o else coerce o t p) c fun r c' =>
      c.temps ≤ c'.temps ∧ r.2.Stable c'.temps ∧
        ∀ n cfg s v, Code.At M.code cfg.pc r.1 → cfg.Shows s →
          cfg.Stands M.interpretation Γ o t v →
            M.Follows n cfg ((M.interpretation.convert t p v).run s) fun y u d =>
              Advanced c.temps r.1 cfg s d u ∧ d.get r.2 = y := by
  obtain ⟨b | ⟨m, b⟩⟩ := hp
  · have hprim := hfit.primitive (Primitive.ofBase b)
    have hnot : (Ty.ofSpec (.base b)).isArray = false := by cases b <;> rfl
    rw [hnot]
    refine (coerce_follows M o t _ c).mono fun r c' hres => ?_
    obtain ⟨hle, hst, hconv⟩ := hres
    refine ⟨hle, hst (ho.stable hprim), fun n cfg s v hat hs hv => ?_⟩
    rw [← hv.get hprim]
    exact hconv n cfg s hat hs
  · cases hfit
    cases ho with
    | value h => cases h
    | array hx =>
      refine (reference_follows hE hM hx c).mono fun r c' hres => ?_
      obtain ⟨hle, hst, href⟩ := hres
      refine ⟨hle, hst, fun n cfg s v hat hs hv => ?_⟩
      obtain ⟨d, hreach, h, hget⟩ := href cfg s v hat hs hv
      have hnot : ¬ (Ty.ofSpec (.array m b) = .float ∧ Ty.ofSpec (.array m b) = .int) := by
        intro h
        cases h.1
      rw [Interpretation.convert, if_neg hnot]
      exact .of_reaches hreach (Machine.follows_pure ⟨h, hget⟩)

theorem arguments_follows (hE : E.Agrees Γ Λ) (hM : M.Suits Γ) (callee : String) {es : List Expr}
    {ts params : List Ty} (ih : ∀ e ∈ es, Evaluated M Γ Λ e)
    (htypes : List.Forall₂ (Expr.HasType Γ) es ts) (hfits : List.Forall₂ Fits ts params)
    (hparams : ∀ p ∈ params, p.OfValue) (hn : ∀ e ∈ es, e.Noted Λ Γ) (c : Counters) :
    Gives (arguments Λ callee params es) c fun code c' => c.temps ≤ c'.temps ∧
      ∀ n cfg s, Code.At M.code cfg.pc code → cfg.Shows s →
        M.Follows n cfg ((Expr.evalArguments M.interpretation Γ params es).run s) fun vs u d =>
          Moved c.temps code cfg s d u ∧ d.stack = (vs.map some).reverse ++ cfg.stack ∧
            vs.length = params.length := by
  induction htypes generalizing params c with
  | nil =>
    cases hfits
    refine gives_pure ⟨Nat.le_refl _, fun n cfg s _ hs => ?_⟩
    exact Machine.follows_pure ⟨(Advanced.refl _ hs).toMoved, rfl, rfl⟩
  | @cons e t es ts ht htypes ihs =>
    cases hfits with
    | @cons _ p _ ps hfit hfits =>
      obtain ⟨ihe, ihes⟩ := List.forall_mem_cons.1 ih
      obtain ⟨hp, hps⟩ := List.forall_mem_cons.1 hparams
      obtain ⟨hne, hnes⟩ := List.forall_mem_cons.1 hn
      have htype : (e.judge Γ).type = t := ((Expr.clean_judge hE.proper e t).2 ht).2
      refine (gives_known hne.typeOf).bind fun _ _ hres => ?_
      obtain ⟨h, h'⟩ := hres
      subst h h'
      refine (ihe t ht hne c).bind fun r c₁ hr => ?_
      rw [htype]
      refine Gives.branch ((passed_follows hE hM hfit hp hr.held).bind
        fun q c₂ hres => ?_)
      obtain ⟨hle₂, hq, hpass⟩ := hres
      refine (ihs ihes hfits hps hnes c₂).bind fun more c₃ hres => gives_pure ?_
      obtain ⟨hle₃, hmore⟩ := hres
      have hle := Nat.le_trans hr.le hle₂
      refine ⟨Nat.le_trans hle hle₃, fun n cfg s hat hs => ?_⟩
      simp only [List.append_assoc] at hat
      rw [Expr.evalArguments, htype]
      refine (hr.follows n cfg s hat.left hs).bind fun v s₁ d₁ hres => ?_
      obtain ⟨h₁, hv⟩ := hres
      have hat₁ := h₁.codeAt hat
      have hs₁ := h₁.shows hs
      refine (hpass n d₁ s₁ v hat₁.left hs₁ hv).bind fun y s₂ d₂ hres => ?_
      obtain ⟨h₂, hy⟩ := hres
      have hat₂ := h₂.codeAt hat₁
      have hs₂ := h₂.shows hs₁
      have hpush : M.Reaches d₂ { d₂ with stack := some y :: d₂.stack }.next := by
        refine Machine.reaches_of_execute hat₂.head ?_
        rw [← hy]
        rfl
      have h₃ : Moved c₂.temps [.push (some q.2)] d₂ s₂
          { d₂ with stack := some y :: d₂.stack }.next s₂ :=
        ⟨rfl, rfl, .refl _ _, hs₂.world⟩
      refine .of_reaches hpush ?_
      refine (hmore n _ s₂ (h₃.codeAt hat₂) (h₃.shows hs₂)).bind
        fun vs s₄ d₄ hres => ?_
      obtain ⟨h₄, hstack, hlength⟩ := hres
      refine Machine.follows_pure ⟨?_, ?_, ?_⟩
      · have h₁₂ := (h₁.trans h₂ hr.le).toMoved
        have hall := (h₁₂.trans h₃ hle).trans h₄ hle
        simpa only [List.append_assoc, List.singleton_append] using hall
      · rw [hstack]
        simp only [Config.next, h₂.stack, h₁.stack, List.map_cons, List.reverse_cons,
          List.append_assoc, List.singleton_append]
      · rw [List.length_cons, List.length_cons, hlength]

theorem call_execute {sub : Subroutine} {x : String} (hfind : M.assembly.find? x = some sub)
    {vs : List D.Value} {σ : List (Option D.Value)} {cfg : Config D}
    (harity : sub.arity = vs.length)
    (hstack : cfg.stack = (vs.map some).reverse ++ ((if sub.hasSlot then [none] else []) ++ σ)) :
    M.execute (.call x) cfg = cfg.after (M.interpretation.call x vs) fun v d =>
      { d with stack := (vs.map some).reverse ++ ((if sub.hasSlot then [v] else []) ++ σ) } := by
  have harguments := Config.arguments?_pushed vs ((if sub.hasSlot then [none] else []) ++ σ)
  rw [← hstack, ← harity] at harguments
  cases hslot : sub.hasSlot with
  | true =>
    rw [hslot] at harguments
    simp only [Machine.execute, Machine.call, hfind, Option.bind_eq_bind, Option.bind_some,
      harguments, hslot, if_true, List.singleton_append]
  | false =>
    rw [hslot] at harguments hstack
    simp only [Bool.false_eq_true, if_false, List.nil_append] at hstack ⊢
    simp only [Machine.execute, Machine.call, hfind, Option.bind_eq_bind, Option.bind_some,
      harguments, hslot, Config.after]
    rw [hstack]

/-- A call takes the arguments that were pushed and leaves what the function gives back, if there
is a slot for it. -/
theorem callCode_follows {sub : Subroutine} {x : String} (hfind : M.assembly.find? x = some sub)
    {pushes : Code} {lo count : Nat} {evaluate : Act D (List D.Value)} (harity : sub.arity = count)
    (hpushes : ∀ n cfg s, Code.At M.code cfg.pc pushes → cfg.Shows s →
      M.Follows n cfg (evaluate.run s) fun vs u d =>
        Moved lo pushes cfg s d u ∧ d.stack = (vs.map some).reverse ++ cfg.stack ∧
          vs.length = count)
    {n : Nat} {cfg : Config D} {s : State D} {rest : Code}
    (hat : Code.At M.code cfg.pc (callCode sub.hasSlot pushes x count ++ rest))
    (hs : cfg.Shows s) :
    M.Follows n cfg
      ((evaluate >>= fun vs => Act.perform (M.interpretation.call x vs)).run s) fun v u d =>
        Moved lo (callCode sub.hasSlot pushes x count) cfg s d u ∧
          d.stack = (if sub.hasSlot then [v] else []) ++ cfg.stack := by
  have hslot : ∃ d, M.Reaches cfg d ∧
      Moved lo (if sub.hasSlot then [.push none] else []) cfg s d s ∧
        d.stack = (if sub.hasSlot then [none] else []) ++ cfg.stack := by
    cases hb : sub.hasSlot with
    | true =>
      rw [hb] at hat
      have hat' : Code.At M.code cfg.pc ([.push none] ++ (pushes ++ .call x ::
          List.replicate count (.pop none) ++ rest)) := by
        simpa [callCode] using hat
      exact ⟨_, Machine.reaches_of_execute hat'.head rfl, ⟨rfl, rfl, .refl _ _, hs.world⟩, rfl⟩
    | false => exact ⟨cfg, .refl M cfg, (Advanced.refl lo hs).toMoved, rfl⟩
  simp only [callCode, List.append_assoc, List.cons_append] at hat
  obtain ⟨d₀, hreach₀, h₀, hstack₀⟩ := hslot
  have hat₀ := h₀.codeAt hat
  have hs₀ := h₀.shows hs
  refine .of_reaches hreach₀ ?_
  refine (hpushes n d₀ s hat₀.left hs₀).bind fun vs s₁ d₁ hres => ?_
  obtain ⟨h₁, hstack₁, hlength⟩ := hres
  have hat₁ := h₁.codeAt hat₀
  have hs₁ := h₁.shows hs₀
  rw [hstack₀] at hstack₁
  have hexec := call_execute hfind (harity.trans hlength.symm) hstack₁
  refine (Machine.follows_perform hat₁.head (by rintro ⟨⟩) hexec hs₁.world).onward
    fun v u d hres => ?_
  obtain ⟨hframe, hd⟩ := hres
  have hlength' : (vs.map some).reverse.length = count := by
    rw [List.length_reverse, List.length_map, hlength]
  have h₂ : Moved lo [.call x] d₁ s₁ d u := by
    rw [hd]
    exact ⟨rfl, hframe, .refl _ _, rfl⟩
  have hstack₂ : d.stack =
      (vs.map some).reverse ++ ((if sub.hasSlot then [v] else []) ++ cfg.stack) := by
    rw [hd]
    rfl
  have hat₂ := h₂.codeAt (a := [_]) hat₁
  rw [← hlength'] at hat₂
  refine ⟨_, drops_reach hat₂ hstack₂, ?_, rfl⟩
  have h₃ : Moved lo (List.replicate count (.pop none)) d u
      { d with pc := d.pc + (vs.map some).reverse.length,
               stack := (if sub.hasSlot then [v] else []) ++ cfg.stack } u := by
    rw [hlength']
    exact ⟨by rw [List.length_replicate], rfl, .refl _ _, h₂.world⟩
  have hle := Nat.le_refl lo
  have hall := (h₀.trans h₁ hle).trans (h₂.trans h₃ hle) hle
  exact hall

theorem calleeType_eq (hE : E.Agrees Γ Λ) {x : String} {role : Role} {params : List Ty} {t : Ty}
    (hx : Γ.meaning x = some (role, .function params t)) :
    calleeType Λ x = pure (.function params t) := by
  rw [calleeType, hE.meaning, hx]
  rfl

theorem paramsOf_eq {x : String} {role : Role} {params : List Ty} {t : Ty}
    (hx : Γ.meaning x = some (role, .function params t)) : Γ.paramsOf x = params := by
  rw [Context.paramsOf, hx]
  rfl

theorem call_evaluated (hE : E.Agrees Γ Λ) (hM : M.Suits Γ) {m : Mark} {callee : Ident}
    {args : List Expr} (ih : ∀ a ∈ args, Evaluated M Γ Λ a) :
    Evaluated M Γ Λ (.call m callee args) := by
  intro t ht hn c
  cases ht with
  | @call _ _ _ role params ts _ hcallee htypes hfits hvoid =>
    obtain ⟨-, -, hplain⟩ := hE.function _ _ _ _ hcallee
    have ht := hplain.resolve_left hvoid
    have hvalue : (Ty.function params t).isProcedure = false := by
      cases t with
      | void => exact absurd rfl hvoid
      | _ => rfl
    have hcount : args.length = params.length := htypes.length_eq.trans hfits.length_eq
    obtain ⟨sub, hfind, harity, hslot⟩ := hM.headers _ _ _ _ hcallee
    rw [decide_eq_true hvoid] at hslot
    have hparams := (hE.proper _ _ _ hcallee).params
    simp only [expr, calleeType_eq hE hcallee, pure_bind, hvalue, Bool.false_eq_true, if_false]
    refine (arguments_follows hE hM callee.name ih htypes hfits hparams hn.callArgs c).bind
      fun pushes c₁ hres => ?_
    obtain ⟨hle, hpushes⟩ := hres
    refine (gives_freshTemp c₁).bind fun o c₂ hres => gives_pure ?_
    obtain ⟨ho, hc₂⟩ := hres
    subst ho hc₂
    refine ⟨Nat.le_trans hle (Nat.le_succ _), .value ht (.temp (Nat.le_refl _)), ?_⟩
    intro n cfg s hat hs
    rw [hcount, ← hslot] at hat ⊢
    rw [Expr.eval, paramsOf_eq hcallee, ← bind_assoc]
    refine (callCode_follows hfind harity hpushes hat hs).bind fun r u d hres => ?_
    obtain ⟨h, hstack⟩ := hres
    rw [hslot] at hstack
    have hpop := (h.codeAt hat).head
    have hexec : M.execute (.pop (some (.temp (c₁.temps + 1)))) d =
        r.map fun v => ({ d with stack := cfg.stack }.set (.temp (c₁.temps + 1)) v).next := by
      simp only [Machine.execute, hstack, if_true, List.singleton_append]
      cases r <;> rfl
    cases r with
    | none => exact Machine.jams_of_execute hpop (by rintro ⟨⟩) hexec
    | some v =>
      refine .of_reaches (Machine.reaches_of_execute hpop hexec) (Machine.follows_pure ?_)
      have h' : Moved c₁.temps [.pop (some (.temp (c₁.temps + 1)))] d u
          ({ d with stack := cfg.stack }.set (.temp (c₁.temps + 1)) v).next u :=
        ⟨rfl, rfl, .set (Nat.lt_succ_self _) _ v, h.world⟩
      exact ⟨⟨h.trans h' hle, rfl⟩, .value ht (Config.get_set _ _ v)⟩

end Lower

end

end Asl
