import Asl.Proofs.Meaning.Maxima

/-!
# Control through statements

A statement that goes on leaves the machine behind its code; one that returns leaves it at a halt.
In both cases the stack is as it was and the names show the state, and while the machine goes on it
keeps every temporary that was taken before the statement.
-/
namespace Asl

variable {D : Domain} {α : Type}

/-- The machine has come from one configuration to a place in the code behind it. -/
structure Passed (lo : Nat) (c : Config D) (pc : Nat) (u : State D) (d : Config D) : Prop where
  pc : d.pc = pc
  shows : d.Shows u
  kept : ∀ r, isIdentifier r = false → (∀ k, lo < k → (Operand.temp k).text ≠ r) →
    d.registers r = c.registers r
  stack : d.stack = c.stack

inductive Machine.Ended (M : Machine D) (lo : Nat) (c : Config D) (pc : Nat) :
    Ending D → State D → Config D → Prop
  | normal {u : State D} {d : Config D} : Passed lo c pc u d → Ended M lo c pc .normal u d
  | returned {v : Option D.Value} {u : State D} {d : Config D} : M.Halted d → d.Shows u →
      d.stack = c.stack → d.registers resultName = v.getD (c.registers resultName) →
        Ended M lo c pc (.returned v) u d

/-- Code that follows the execution of statements, with any bound on the rounds of loops. -/
def Machine.Executes (M : Machine D) (lo : Nat) (code : Code) (act : Nat → Act D (Ending D)) :
    Prop :=
  ∀ n cfg s, Code.At M.code cfg.pc code → cfg.Shows s →
    M.Follows n cfg ((act n).run s) (M.Ended lo cfg (cfg.pc + code.length))

theorem isIdentifier_text_temp (k : Nat) : isIdentifier (Operand.temp k).text = false := by
  cases h : isIdentifier (Operand.temp k).text with
  | false => rfl
  | true => exact absurd rfl (Operand.text_temp_ne_of_isIdentifier h k)

section

variable {M : Machine D} {lo lo' pc pc' n : Nat} {code : Code} {c d e : Config D} {s u w : State D}

namespace Passed

theorem refl (lo : Nat) (hs : c.Shows s) : Passed lo c c.pc s c :=
  ⟨rfl, hs, fun _ _ _ => rfl, rfl⟩

theorem trans (h : Passed lo c pc u d) (h' : Passed lo' d pc' w e) (hle : lo ≤ lo') :
    Passed lo c pc' w e where
  pc := h'.pc
  shows := h'.shows
  kept r hr hk := by
    have hbelow := h'.kept r hr fun k hlt => hk k (Nat.lt_of_le_of_lt hle hlt)
    rw [hbelow, h.kept r hr hk]
  stack := h'.stack.trans h.stack

theorem of_advanced (h : Advanced lo code c s d u) (hs : c.Shows s) :
    Passed lo c (c.pc + code.length) u d :=
  ⟨h.pc, h.shows hs, fun r _ hk => h.kept r hk, h.stack⟩

theorem advanced (h : Passed lo c pc s d) (h' : Advanced lo' code d s e u) (hle : lo ≤ lo') :
    Passed lo c (pc + code.length) u e := by
  have hbehind := of_advanced h' h.shows
  rw [h.pc] at hbehind
  exact h.trans hbehind hle

theorem goto (h : Passed lo c pc u d) (pc' : Nat) : Passed lo c pc' u { d with pc := pc' } :=
  ⟨rfl, ⟨h.shows.frame, h.shows.world⟩, h.kept, h.stack⟩

theorem next (h : Passed lo c pc u d) : Passed lo c (pc + 1) u d.next := by
  have hgoto := h.goto (pc + 1)
  rw [← h.pc] at hgoto ⊢
  exact hgoto

theorem get_temp (h : Passed lo c pc u d) {k : Nat} (hk : k ≤ lo) :
    d.get (.temp k) = c.get (.temp k) := by
  apply h.kept _ (isIdentifier_text_temp k)
  intro j hj heq
  have hsame := Operand.text_temp_injective heq
  omega

theorem result (h : Passed lo c pc u d) : d.registers resultName = c.registers resultName :=
  h.kept _ (by decide) fun k _ => Operand.text_temp_ne_resultName k

theorem assign (hs : c.Shows s) {x : String} (hx : isIdentifier x = true) (v : D.Value) :
    Passed lo c (c.pc + 1) { s with frame := Function.update s.frame x v }
      (c.set (.name x) v).next where
  pc := rfl
  shows := by
    refine ⟨fun y hy => ?_, hs.world⟩
    change Function.update c.registers x v y = Function.update s.frame x v y
    by_cases hyx : y = x
    · rw [hyx, Function.update_self, Function.update_self]
    · rw [Function.update_of_ne hyx, Function.update_of_ne hyx, hs.frame y hy]
  kept r hr _ := by
    apply Function.update_of_ne
    intro hrx
    rw [hrx] at hr
    change isIdentifier x = false at hr
    rw [hx] at hr
    cases hr
  stack := rfl

end Passed

namespace Machine

variable {r : Ending D}

theorem Ended.of_passed (h : Passed lo c pc u d) (h' : M.Ended lo' d pc' r w e)
    (hle : lo ≤ lo') : M.Ended lo c pc' r w e := by
  cases h' with
  | normal hpassed => exact .normal (h.trans hpassed hle)
  | returned hhalted hshows hstack hresult =>
    rw [h.result] at hresult
    exact .returned hhalted hshows (hstack.trans h.stack) hresult

theorem Ended.onward (h : M.Ended lo c pc r u d)
    (hd : Passed lo c pc u d → ∃ e, M.Reaches d e ∧ Passed lo c pc' u e) :
    ∃ e, M.Reaches d e ∧ M.Ended lo c pc' r u e := by
  cases h with
  | normal hpassed =>
    obtain ⟨e, hreach, hbehind⟩ := hd hpassed
    exact ⟨e, hreach, .normal hbehind⟩
  | returned hhalted hshows hstack hresult =>
    exact ⟨d, .refl M d, .returned hhalted hshows hstack hresult⟩

theorem Executes.passed {act : Nat → Act D (Ending D)} (h : M.Executes lo' code act)
    (hc : Passed lo c pc s d) (hat : Code.At M.code pc code) (hle : lo ≤ lo') :
    M.Follows n d ((act n).run s) (M.Ended lo c (pc + code.length)) := by
  rw [← hc.pc] at hat ⊢
  apply (h n d s hat hc.shows).mono
  intro r u e hended
  exact hended.of_passed hc hle

theorem executes_of_end {act : Nat → Act D (Ending D)} (last : Nat → Nat)
    (hlast : ∀ pc, pc + code.length = last pc)
    (h : ∀ n cfg s, Code.At M.code cfg.pc code → cfg.Shows s →
      M.Follows n cfg ((act n).run s) (M.Ended lo cfg (last cfg.pc))) : M.Executes lo code act := by
  intro n cfg s hat hs
  rw [hlast]
  exact h n cfg s hat hs

theorem executes_of_passed {act : Act D Unit}
    (h : ∀ n cfg s, Code.At M.code cfg.pc code → cfg.Shows s →
      M.Follows n cfg (act.run s) fun _ u d => Passed lo cfg (cfg.pc + code.length) u d) :
    M.Executes lo code fun _ => act >>= fun _ => pure .normal := by
  intro n cfg s hat hs
  apply (h n cfg s hat hs).bind
  intro _ u d hd
  exact follows_pure (.normal hd)

/-- A round of a loop takes at least the step past its label. -/
theorem Follows.of_step {Q : α → State D → Config D → Prop} {r : Except Stop α × State D}
    (hstep : M.step c = some d) (hd : M.Follows n d r Q) : M.Follows (n + 1) c r Q := by
  rcases r with ⟨⟨_ | _⟩ | a, s⟩
  · exact Jams.of_reaches (.one hstep) hd
  · have hrun : M.run (n + 1) c = M.run n d := by rw [run, hstep, Option.bind_some]
    change (M.run (n + 1) c).isSome = true
    rw [hrun]
    exact hd
  · obtain ⟨e, he, hq⟩ := hd
    exact ⟨e, (Reaches.one hstep).trans he, hq⟩

theorem assigns {F : Effect D D.Value} {x : String} {i : Instr} {rest : Code}
    (hat : Code.At M.code c.pc (i :: rest)) (hret : i ≠ .ret)
    (hexec : M.execute i c = c.after F fun v d => d.set (.name x) v)
    (hx : isIdentifier x = true) (hs : c.Shows s) :
    M.Follows n c ((Act.perform F >>= Act.assign x).run s) fun _ u d =>
      Passed lo c (c.pc + 1) u d := by
  apply (follows_perform hat.head hret hexec hs.world).bind
  rintro v t d ⟨hframe, hd⟩
  have hshows : ({ c with world := t.world } : Config D).Shows t :=
    ⟨fun y hy => by rw [hframe]; exact hs.frame y hy, rfl⟩
  have hworld : Passed lo c c.pc t { c with world := t.world } :=
    ⟨rfl, hshows, fun _ _ _ => rfl, rfl⟩
  have hassigned := hworld.trans (.assign hshows hx v) (Nat.le_refl lo)
  rw [hd]
  exact ⟨_, .refl M _, hassigned⟩

/-- The code of a loop follows its rounds, if the codes of the test, of the body and of what is
between two rounds follow these from wherever the loop has come to. -/
theorem loop_follows (next : Code) (hM : M.code.labels.Nodup) {head done : Label}
    {condition : Operand} {test body : Code} {testAct : Act D D.Value} {bodyAct : Act D (Ending D)}
    {nextAct : Act D Unit}
    (hat : Code.At M.code pc (.label head :: (test ++ (.jumpUnless condition done ::
      (body ++ (next ++ [.jump head, .label done]))))))
    (htest : ∀ d s, Passed lo c (pc + 1) s d → M.Follows n d (testAct.run s) fun v u e =>
      Passed lo c (pc + 1 + test.length) u e ∧ e.get condition = v)
    (hbody : ∀ d s, Passed lo c (pc + 1 + test.length + 1) s d → M.Follows n d (bodyAct.run s)
      (M.Ended lo c (pc + 1 + test.length + 1 + body.length)))
    (hnext : ∀ d s, Passed lo c (pc + 1 + test.length + 1 + body.length) s d →
      M.Follows n d (nextAct.run s) fun _ u e =>
        Passed lo c (pc + 1 + test.length + 1 + body.length + next.length) u e)
    {k : Nat} (hk : k ≤ n) (hd : Passed lo c pc s d) :
    M.Follows k d ((M.interpretation.loop testAct bodyAct nextAct k).run s)
      (M.Ended lo c (pc + 1 + test.length + 1 + body.length + next.length + 1 + 1)) := by
  have htests := hat.tail.right
  have hends := htests.tail.right.right
  induction k generalizing d s with
  | zero => rfl
  | succ k ih =>
    have hkn := Nat.le_of_succ_le hk
    have hstep : M.step d = some d.next := by
      have hhead := hat.head
      rw [← hd.pc] at hhead
      rw [step, hhead, Option.bind_some]
      rfl
    apply Follows.of_step hstep
    apply ((htest d.next s hd.next).of_le hkn).bind
    rintro v u e ⟨he, hv⟩
    have hjump := htests
    rw [← he.pc] at hjump
    cases hholds : M.interpretation.holds v with
    | true =>
      rw [if_pos rfl]
      have henter := enters hjump (by rw [hv, hholds])
      apply Follows.of_reaches henter
      apply ((hbody e.next u he.next).of_le hkn).bind
      intro r w f hended
      cases hended with
      | returned hhalted hshows hstack hresult =>
        exact follows_pure (.returned hhalted hshows hstack hresult)
      | normal hf =>
        apply ((hnext f w hf).of_le hkn).bind
        intro _ w' g hg
        have hback := hends
        rw [← hg.pc] at hback
        apply Follows.of_reaches (jumps hM hback hat)
        exact ih hkn (hg.goto pc)
    | false =>
      rw [if_neg Bool.false_ne_true]
      have hend := hends.tail
      have hskip := skips hM hjump hend (by rw [hv, hholds])
      have hleave := hskip.trans (passes (c := { e with pc := _ }) hend)
      apply Follows.of_reaches hleave
      exact follows_pure (.normal (he.goto _))

end Machine

end

section

variable {E : Surroundings} {Γ : Context} {Λ : Lowering} {M : Machine D}

theorem Machine.Evaluates.passed {t : Ty} {act : Act D D.Value} {k k' : Counters}
    {r : Code × Operand} (h : M.Evaluates Γ t act k r k') {lo pc n : Nat} {c d : Config D}
    {s : State D} (hc : Passed lo c pc s d) (hat : Code.At M.code pc r.1) (hle : lo ≤ k.temps) :
    M.Follows n d (act.run s) fun v u e =>
      Passed lo c (pc + r.1.length) u e ∧ e.Stands M.interpretation Γ r.2 t v := by
  rw [← hc.pc] at hat
  apply (h.follows n d s hat hc.shows).mono
  rintro v u e ⟨hadvanced, hv⟩
  exact ⟨hc.advanced hadvanced hle, hv⟩

namespace Lower

def Executed (M : Machine D) (Γ : Context) (Λ : Lowering) (s : Stmt) : Prop :=
  s.Ok Γ → s.Noted Λ Γ → ∀ c, Gives (stmt Λ s) c fun code c' => c.temps ≤ c'.temps ∧
    M.Executes c.temps code fun n => s.exec M.interpretation Γ n

theorem stmts_executed {ss : List Stmt} (h : ∀ s ∈ ss, Executed M Γ Λ s)
    (hok : ∀ s ∈ ss, s.Ok Γ) (hn : ∀ s ∈ ss, s.Noted Λ Γ) (c : Counters) :
    Gives (stmts Λ ss) c fun code c' => c.temps ≤ c'.temps ∧
      M.Executes c.temps code fun n => Stmt.execAll M.interpretation Γ n ss := by
  induction ss generalizing c with
  | nil =>
    refine gives_pure ⟨Nat.le_refl _, fun n cfg s _ hs => ?_⟩
    exact Machine.follows_pure (.normal (.refl _ hs))
  | cons s ss ih =>
    obtain ⟨hs, hss⟩ := List.forall_mem_cons.1 h
    obtain ⟨hoks, hokss⟩ := List.forall_mem_cons.1 hok
    obtain ⟨hns, hnss⟩ := List.forall_mem_cons.1 hn
    refine (hs hoks hns c).bind fun code c₁ hres => ?_
    obtain ⟨hle₁, hcode⟩ := hres
    refine (ih hss hokss hnss c₁).bind fun more c₂ hres => gives_pure ?_
    obtain ⟨hle₂, hmore⟩ := hres
    refine ⟨Nat.le_trans hle₁ hle₂, fun n cfg st hat hst => ?_⟩
    simp only [Stmt.execAll, List.length_append, ← Nat.add_assoc]
    apply (hcode n cfg st hat.left hst).bind
    intro r u d hended
    cases hended with
    | returned hhalted hshows hstack hresult =>
      exact Machine.follows_pure (.returned hhalted hshows hstack hresult)
    | normal hd => exact hmore.passed hd hat.right hle₁

theorem ifThen_executed (hE : E.Agrees Γ Λ) (hM : M.Suits Γ) {m : Mark} {condition : Expr}
    {body : List Stmt} (ih : ∀ s ∈ body, Executed M Γ Λ s) :
    Executed M Γ Λ (.ifThen m condition body) := by
  intro hok hn c
  obtain ⟨hnc, hnb⟩ := hn.ifThen
  cases hok with
  | ifThen hc hb =>
    refine (expr_evaluated hE hM condition .bool hc hnc c).bind fun r c₁ hr => ?_
    refine (gives_freshBranch c₁).bind fun k c₂ hres => ?_
    obtain ⟨hk, hc₂⟩ := hres
    subst hk hc₂
    refine (stmts_executed ih hb hnb _).bind fun yes c₃ hres => gives_pure ?_
    obtain ⟨hle₃, hyes⟩ := hres
    refine ⟨Nat.le_trans hr.le hle₃, ?_⟩
    apply Machine.executes_of_end fun pc => pc + r.1.length + 1 + yes.length + 1
    · intro pc
      simp only [List.length_append, List.length_cons, List.length_nil]
      omega
    intro n cfg st hat hst
    simp only [Stmt.exec]
    simp only [List.append_assoc, List.cons_append] at hat
    have hjump := hat.right
    have hend := hjump.tail.right
    apply (hr.passed (.refl _ hst) hat.left (Nat.le_refl _)).bind
    rintro v u d ⟨hd, hv⟩
    have hholds := hv.get .bool
    rw [← hd.pc] at hjump
    cases hb : M.interpretation.holds v with
    | true =>
      rw [if_pos rfl]
      apply Machine.Follows.of_reaches (Machine.enters hjump (by rw [hholds, hb]))
      apply (hyes.passed hd.next hat.right.tail.left hr.le).onward
      intro e w f hended
      apply hended.onward
      intro hf
      rw [← hf.pc] at hend
      exact ⟨_, Machine.passes hend, hf.next⟩
    | false =>
      rw [if_neg Bool.false_ne_true]
      have hskip := Machine.skips hM.labels hjump hend (by rw [hholds, hb])
      have hpass := Machine.passes (c := { d with pc := _ }) hend
      apply Machine.Follows.of_reaches (hskip.trans hpass)
      exact Machine.follows_pure (.normal (hd.goto _))

theorem ifElse_executed (hE : E.Agrees Γ Λ) (hM : M.Suits Γ) {m : Mark} {condition : Expr}
    {body otherwise : List Stmt} (ihb : ∀ s ∈ body, Executed M Γ Λ s)
    (iho : ∀ s ∈ otherwise, Executed M Γ Λ s) :
    Executed M Γ Λ (.ifElse m condition body otherwise) := by
  intro hok hn c
  obtain ⟨hnc, hnb, hno⟩ := hn.ifElse
  cases hok with
  | ifElse hc hb ho =>
    refine (expr_evaluated hE hM condition .bool hc hnc c).bind fun r c₁ hr => ?_
    refine (gives_freshBranch c₁).bind fun k c₂ hres => ?_
    obtain ⟨hk, hc₂⟩ := hres
    subst hk hc₂
    refine (stmts_executed ihb hb hnb _).bind fun yes c₃ hres => ?_
    obtain ⟨hle₃, hyes⟩ := hres
    refine (stmts_executed iho ho hno c₃).bind fun no c₄ hres => gives_pure ?_
    obtain ⟨hle₄, hno⟩ := hres
    have hle := Nat.le_trans hr.le hle₃
    refine ⟨Nat.le_trans hle hle₄, ?_⟩
    apply Machine.executes_of_end fun pc => pc + r.1.length + 1 + yes.length + 1 + 1 + no.length + 1
    · intro pc
      simp only [List.length_append, List.length_cons, List.length_nil]
      omega
    intro n cfg st hat hst
    simp only [Stmt.exec]
    simp only [List.append_assoc, List.cons_append] at hat
    have hjump := hat.right
    have hleave := hjump.tail.right
    have helse := hleave.tail
    have hend := helse.tail.right
    apply (hr.passed (.refl _ hst) hat.left (Nat.le_refl _)).bind
    rintro v u d ⟨hd, hv⟩
    have hholds := hv.get .bool
    rw [← hd.pc] at hjump
    cases hb : M.interpretation.holds v with
    | true =>
      rw [if_pos rfl]
      apply Machine.Follows.of_reaches (Machine.enters hjump (by rw [hholds, hb]))
      apply (hyes.passed hd.next hat.right.tail.left hr.le).onward
      intro e w f hended
      apply hended.onward
      intro hf
      rw [← hf.pc] at hleave
      have hjumped := Machine.jumps hM.labels hleave hend
      exact ⟨_, hjumped.trans (Machine.passes (c := { f with pc := _ }) hend), hf.goto _⟩
    | false =>
      rw [if_neg Bool.false_ne_true]
      have hskip := Machine.skips hM.labels hjump helse (by rw [hholds, hb])
      have hpass := Machine.passes (c := { d with pc := _ }) helse
      apply Machine.Follows.of_reaches (hskip.trans hpass)
      apply (hno.passed (hd.goto _) helse.tail.left hle).onward
      intro e w f hended
      apply hended.onward
      intro hf
      rw [← hf.pc] at hend
      exact ⟨_, Machine.passes hend, hf.next⟩

theorem while_executed (hE : E.Agrees Γ Λ) (hM : M.Suits Γ) {m : Mark} {condition : Expr}
    {body : List Stmt} (ih : ∀ s ∈ body, Executed M Γ Λ s) :
    Executed M Γ Λ (.while m condition body) := by
  intro hok hn c
  obtain ⟨hnc, hnb⟩ := hn.while_
  cases hok with
  | while_ hc hb =>
    refine (gives_freshLoop c).bind fun k c₁ hres => ?_
    obtain ⟨hk, hc₁⟩ := hres
    subst hk hc₁
    refine (expr_evaluated hE hM condition .bool hc hnc _).bind fun r c₂ hr => ?_
    refine (stmts_executed ih hb hnb c₂).bind fun inner c₃ hres => gives_pure ?_
    obtain ⟨hle₃, hinner⟩ := hres
    refine ⟨Nat.le_trans hr.le hle₃, ?_⟩
    apply Machine.executes_of_end fun pc => pc + 1 + r.1.length + 1 + inner.length + 0 + 1 + 1
    · intro pc
      simp only [List.length_append, List.length_cons, List.length_nil]
      omega
    intro n cfg st hat hst
    simp only [Stmt.exec]
    simp only [List.append_assoc, List.cons_append] at hat
    have htest := hat.tail.left
    have hbody := hat.tail.right.tail.left
    apply Machine.loop_follows (n := n) [] hM.labels hat
    · intro d s hd
      apply (hr.passed hd htest (Nat.le_refl _)).mono
      rintro v u e ⟨he, hv⟩
      exact ⟨he, hv.get .bool⟩
    · intro d s hd
      exact hinner.passed hd hbody hr.le
    · intro d s hd
      exact Machine.follows_pure hd
    · exact Nat.le_refl n
    · exact .refl _ hst

end Lower

end

end Asl
