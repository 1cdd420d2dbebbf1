import Asl.Proofs.Meaning.Calls

/-!
# Running maxima

A maximum is kept in a temporary that is taken before its first operand. Every further operand is
compared with it, and copied over it if it is greater; the code of the operands takes later
temporaries, so it keeps what is the greatest so far.
-/
namespace Asl

variable {D : Domain}

section

variable {E : Surroundings} {Γ : Context} {Λ : Lowering} {M : Machine D}

namespace Lower

theorem raise_follows (hM : M.Suits Γ) {ns : Numbers} {lo k j m l n : Nat} {o : Operand}
    {rest : Code} {cfg : Config D} {s : State D} (hlo : lo < k) (hk : k ≤ j) (hj : j < m)
    (ho : o.Stable j)
    (hat : Code.At M.code cfg.pc ([.binary (.less ns) (.temp m) (.temp k) o,
      .jumpUnless (.temp m) ⟨.endmax, l⟩, .copy (.temp k) o, .label ⟨.endmax, l⟩] ++ rest))
    (hs : cfg.Shows s) :
    M.Follows n cfg
      ((M.interpretation.binaryAct (.less ns) (cfg.get (.temp k)) (cfg.get o)).run s)
        fun b u d => Advanced lo [.binary (.less ns) (.temp m) (.temp k) o,
          .jumpUnless (.temp m) ⟨.endmax, l⟩, .copy (.temp k) o, .label ⟨.endmax, l⟩] cfg s d u ∧
            d.get (.temp k) =
              if M.interpretation.holds b then cfg.get o else cfg.get (.temp k) := by
  apply (binary_follows hat hj hs).onward
  rintro b u d ⟨h, hb⟩
  have hat₁ := h.codeAt (a := [_]) hat
  have hs₁ := h.shows hs
  have hbefore := (Advanced.refl lo hs).trans h (Nat.le_trans (Nat.le_of_lt hlo) hk)
  cases hholds : M.interpretation.holds b with
  | true =>
    have henter := Machine.enters hat₁ (by rw [hb, hholds])
    have hcopy : M.Reaches d.next (d.next.set (.temp k) (d.get o)).next :=
      Machine.reaches_of_execute hat₁.tail.head rfl
    have hpass : M.Reaches (d.next.set (.temp k) (d.get o)).next
        (d.next.set (.temp k) (d.get o)).next.next := Machine.passes hat₁.tail.tail
    have hraised : Advanced lo [.jumpUnless (.temp m) ⟨.endmax, l⟩, .copy (.temp k) o,
        .label ⟨.endmax, l⟩] d u (d.next.set (.temp k) (d.get o)).next.next u :=
      ⟨⟨rfl, rfl, .set hlo _ _, hs₁.world⟩, rfl⟩
    refine ⟨_, henter.trans (hcopy.trans hpass), hbefore.trans hraised (Nat.le_refl lo), ?_⟩
    rw [if_pos rfl, ← h.get ho]
    exact Config.get_set d.next (.temp k) (d.get o)
  | false =>
    have hend := hat₁.tail.tail
    have hskip := Machine.skips hM.labels hat₁ hend (by rw [hb, hholds])
    have hpass := Machine.passes (c := { d with pc := d.pc + 1 + 1 }) hend
    have hkept : Advanced lo [.jumpUnless (.temp m) ⟨.endmax, l⟩, .copy (.temp k) o,
        .label ⟨.endmax, l⟩] d u { d with pc := d.pc + 1 + 1 + 1 } u :=
      ⟨⟨rfl, rfl, .refl lo _, hs₁.world⟩, rfl⟩
    refine ⟨_, hskip.trans hpass, hbefore.trans hkept (Nat.le_refl lo), ?_⟩
    rw [if_neg Bool.false_ne_true]
    exact h.get (.temp hk)

theorem maxRest_follows (hE : E.Agrees Γ Λ) (hM : M.Suits Γ) {t : Ty} (ht : Primitive t)
    {es : List Expr} {ts : List Ty} (ih : ∀ e ∈ es, Evaluated M Γ Λ e)
    (htypes : List.Forall₂ (Expr.HasType Γ) es ts) (hfits : ∀ u ∈ ts, Fits u t)
    (hn : ∀ e ∈ es, e.Noted Λ Γ) {lo k : Nat} (hlo : lo < k) (c : Counters) (hk : k ≤ c.temps) :
    Gives (maxRest Λ t (.temp k) es) c fun code c' => c.temps ≤ c'.temps ∧
      ∀ n cfg s, Code.At M.code cfg.pc code → cfg.Shows s →
        M.Follows n cfg ((Expr.evalMax M.interpretation Γ t es (cfg.get (.temp k))).run s)
          fun v u d => Advanced lo code cfg s d u ∧ d.get (.temp k) = v := by
  induction htypes generalizing c with
  | nil =>
    refine gives_pure ⟨Nat.le_refl _, fun n cfg s _ hs => ?_⟩
    exact Machine.follows_pure ⟨.refl lo hs, rfl⟩
  | @cons e u es ts hu htypes ihs =>
    obtain ⟨ihe, ihes⟩ := List.forall_mem_cons.1 ih
    obtain ⟨hfit, hfits⟩ := List.forall_mem_cons.1 hfits
    obtain ⟨hne, hnes⟩ := List.forall_mem_cons.1 hn
    have hp := hfit.primitive ht
    have htype : (e.judge Γ).type = u := ((Expr.clean_judge hE.proper e u).2 hu).2
    refine (gives_known hne.typeOf).bind fun _ _ hres => ?_
    obtain ⟨h, h'⟩ := hres
    subst h h'
    refine (ihe u hu hne c).bind fun r c₁ hr => ?_
    rw [htype]
    refine (coerce_follows M r.2 u t c₁).bind fun q c₂ hres => ?_
    obtain ⟨hle₂, hst₂, hconv⟩ := hres
    refine (gives_freshTemp c₂).bind fun o c₃ hres => ?_
    obtain ⟨ho, hc₃⟩ := hres
    subst ho hc₃
    refine (gives_freshBranch _).bind fun l c₄ hres => ?_
    obtain ⟨hl, hc₄⟩ := hres
    subst hl hc₄
    have hle := Nat.le_trans hr.le hle₂
    have hk₂ := Nat.le_trans hk hle
    refine (ihs ihes hfits hnes _ (Nat.le_succ_of_le hk₂)).bind
      fun more c₅ hres => gives_pure ?_
    obtain ⟨hle₅, hmore⟩ := hres
    refine ⟨Nat.le_trans hle (Nat.le_of_succ_le hle₅), fun n cfg s hat hs => ?_⟩
    simp only [List.append_assoc] at hat
    rw [Expr.evalMax, htype, ← numbers_eq]
    refine (hr.follows n cfg s hat.left hs).bind fun x s₁ d₁ hres => ?_
    obtain ⟨h₁, hx⟩ := hres
    have hat₁ := h₁.codeAt hat
    have hs₁ := h₁.shows hs
    rw [← hx.get hp]
    refine (hconv n d₁ s₁ hat₁.left hs₁).bind fun y s₂ d₂ hres => ?_
    obtain ⟨h₂, hy⟩ := hres
    have hat₂ := h₂.codeAt hat₁
    have hs₂ := h₂.shows hs₁
    have hbest : d₂.get (.temp k) = cfg.get (.temp k) :=
      (h₂.get (.temp (Nat.le_trans hk hr.le))).trans (h₁.get (.temp hk))
    rw [← hbest, ← hy]
    have hq := hst₂ (hr.held.stable hp)
    refine (raise_follows hM hlo hk₂ (Nat.lt_succ_self _) hq hat₂ hs₂).bind
      fun b s₃ d₃ hres => ?_
    obtain ⟨h₃, hraised⟩ := hres
    rw [← hraised]
    refine (hmore n d₃ s₃ (h₃.codeAt hat₂) (h₃.shows hs₂)).mono fun v w d hres => ?_
    obtain ⟨h₄, hv⟩ := hres
    have hlo₁ := Nat.le_trans (Nat.le_of_lt hlo) hk
    have h₁₂ := ((Advanced.refl lo hs).trans h₁ hlo₁).trans h₂ (Nat.le_trans hlo₁ hr.le)
    exact ⟨(h₁₂.trans h₃ (Nat.le_refl lo)).trans h₄ (Nat.le_refl lo), hv⟩

theorem max_evaluated (hE : E.Agrees Γ Λ) (hM : M.Suits Γ) {m : Mark} {args : List Expr}
    (ih : ∀ a ∈ args, Evaluated M Γ Λ a) : Evaluated M Γ Λ (.max m args) := by
  intro t ht hn c
  have htype : ((Expr.max m args).judge Γ).type = t :=
    ((Expr.clean_judge hE.proper _ t).2 ht).2
  have hnode := hn.typeOf
  have hargs := hn.maxArgs
  cases ht with
  | max hcount htypes hmax =>
    have hp := hmax.primitive
    have hfits := HasMaximum.fits hmax
    cases htypes with
    | nil => exact absurd hcount (by simp)
    | @cons first u rest ts hu htypes =>
      obtain ⟨ihe, ihes⟩ := List.forall_mem_cons.1 ih
      obtain ⟨hne, hnes⟩ := List.forall_mem_cons.1 hargs
      obtain ⟨hfit, hfits⟩ := List.forall_mem_cons.1 hfits
      have hpu := hfit.primitive hp
      have hfirst : (first.judge Γ).type = u :=
        ((Expr.clean_judge hE.proper first u).2 hu).2
      rw [expr]
      refine (gives_known hnode).bind fun _ _ hres => ?_
      obtain ⟨h, h'⟩ := hres
      subst h h'
      refine (gives_freshTemp c).bind fun o c₁ hres => ?_
      obtain ⟨ho, hc₁⟩ := hres
      subst ho hc₁
      refine (gives_known hne.typeOf).bind fun _ _ hres => ?_
      obtain ⟨h, h'⟩ := hres
      subst h h'
      refine (ihe u hu hne _).bind fun r c₂ hr => ?_
      rw [hfirst, htype]
      refine (coerce_follows M r.2 u t c₂).bind fun q c₃ hres => ?_
      obtain ⟨hle₃, _, hconv⟩ := hres
      have hle := Nat.le_trans hr.le hle₃
      have hlo : c.temps < c.temps + 1 := Nat.lt_succ_self _
      refine (maxRest_follows hE hM hp ihes htypes hfits hnes hlo c₃ hle).bind
        fun more c₄ hres => gives_pure ?_
      obtain ⟨hle₄, hmore⟩ := hres
      have htemp : c.temps + 1 ≤ c₄.temps := Nat.le_trans hle hle₄
      refine ⟨Nat.le_of_succ_le htemp, .value hp (.temp htemp), fun n cfg s hat hs => ?_⟩
      simp only [List.append_assoc] at hat
      rw [Expr.eval, htype, hfirst]
      refine (hr.follows n cfg s hat.left hs).bind fun x s₁ d₁ hres => ?_
      obtain ⟨h₁, hx⟩ := hres
      have hat₁ := h₁.codeAt hat
      have hs₁ := h₁.shows hs
      rw [← hx.get hpu]
      refine (hconv n d₁ s₁ hat₁.left hs₁).bind fun y s₂ d₂ hres => ?_
      obtain ⟨h₂, hy⟩ := hres
      have hat₂ := h₂.codeAt hat₁
      have hs₂ := h₂.shows hs₁
      obtain ⟨d₃, hreach, h₃, hbest⟩ := Machine.moves hat₂ rfl hlo hs₂
      refine .of_reaches hreach ?_
      rw [← hy, ← hbest]
      refine (hmore n d₃ s₂ (h₃.codeAt hat₂) (h₃.shows hs₂)).mono fun v w d hres => ?_
      obtain ⟨h₄, hv⟩ := hres
      have h₁₂ := ((Advanced.refl c.temps hs).trans h₁ (Nat.le_of_lt hlo)).trans h₂
        (Nat.le_of_succ_le hr.le)
      have hall := (h₁₂.trans h₃ (Nat.le_refl _)).trans h₄ (Nat.le_refl _)
      refine ⟨?_, .value hp hv⟩
      simpa only [List.append_assoc, List.nil_append, List.singleton_append] using hall

theorem expr_evaluated (hE : E.Agrees Γ Λ) (hM : M.Suits Γ) (e : Expr) : Evaluated M Γ Λ e := by
  induction e using Expr.ind with
  | literal m v => exact literal_evaluated m v
  | name m x => exact name_evaluated hE hM m x
  | element m base index ih => exact element_evaluated hE hM ih
  | call m callee args ih => exact call_evaluated hE hM ih
  | paren m inner ih =>
    intro t ht hn c
    cases ht with
    | paren hinner => exact ih t hinner hn.inner c
  | unary m op operand ih => exact unary_evaluated ih
  | binary m op lhs rhs ihl ihr => exact binary_evaluated ihl ihr
  | max m args ih => exact max_evaluated hE hM ih

end Lower

end

end Asl
