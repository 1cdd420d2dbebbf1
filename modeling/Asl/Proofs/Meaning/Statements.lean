import Asl.Proofs.Meaning.Ranges
import Asl.Proofs.Meaning.Storing

/-!
# The code of a statement follows its execution

Every form of a statement is followed by its code, and so is a list of statements: where a list
finishes the machine is behind its code or at a halt, and it is stuck or runs on as the list does.
-/
namespace Asl

variable {D : Domain} {E : Surroundings} {Γ : Context} {Λ : Lowering} {M : Machine D}

namespace Lower

theorem callStmt_executed (hE : E.Agrees Γ Λ) (hM : M.Suits Γ) (m : Mark) (callee : Ident)
    (args : List Expr) : Executed M Γ Λ (.call m callee args) := by
  intro hok hn c
  cases hok with
  | @call _ _ _ role params ts t hcallee htypes hfits =>
    obtain ⟨sub, hfind, harity, hslot⟩ := hM.headers _ _ _ _ hcallee
    have hproc : (Ty.function params t).isProcedure = !sub.hasSlot := by
      rw [hslot]
      cases t <;> rfl
    have hcount : args.length = params.length := htypes.length_eq.trans hfits.length_eq
    have hparams := (hE.proper _ _ _ hcallee).params
    simp only [stmt, calleeType_eq hE hcallee, pure_bind, hproc, Bool.not_not, hcount]
    refine (arguments_follows hE hM callee.name (fun e _ => expr_evaluated hE hM e) htypes hfits
      hparams hn.callArgs c).bind fun pushes c₁ hres => ?_
    obtain ⟨hle, hpushes⟩ := hres
    refine gives_pure ⟨hle, ?_⟩
    intro n cfg s hat hs
    simp only [Stmt.exec]
    rw [paramsOf_eq hcallee, ← bind_assoc]
    apply (callCode_follows hfind harity hpushes hat hs).bind
    rintro v u d ⟨h, hstack⟩
    have hat' := h.codeAt hat
    cases hb : sub.hasSlot with
    | true =>
      rw [hb] at h hat' hstack
      have hexec : M.execute (.pop none) d = some { d with stack := cfg.stack }.next := by
        simp only [Machine.execute, hstack, if_true, List.singleton_append]
      have hpopped : Moved c.temps [.pop none] d u { d with stack := cfg.stack }.next u :=
        ⟨rfl, rfl, .refl _ _, h.world⟩
      apply Machine.Follows.of_reaches (Machine.reaches_of_execute hat'.head hexec)
      have hall := h.trans hpopped (Nat.le_refl _)
      exact Machine.follows_pure (.normal (.of_advanced ⟨hall, rfl⟩ hs))
    | false =>
      rw [hb] at h hstack
      have hall := h.trans (Advanced.refl c.temps (h.shows hs)).toMoved (Nat.le_refl _)
      exact Machine.follows_pure (.normal (.of_advanced ⟨hall, hstack⟩ hs))

theorem channel_eq (t : Ty) : channel t = t.medium := by cases t <;> rfl

theorem read_executed (hE : E.Agrees Γ Λ) (hM : M.Suits Γ) (m : Mark) (target : Target) :
    Executed M Γ Λ (.read m target) := by
  intro hok hn c
  have hexec (n : Nat) : Stmt.exec M.interpretation Γ n (.read m target) =
      ((do
        let q ← target.place M.interpretation Γ
        let v ← Act.perform (.read M.interpretation (target.judge Γ).type.medium)
        M.interpretation.set q v) >>= fun _ => pure .normal) := by
    simp only [Stmt.exec, bind_assoc]
  simp only [hexec]
  cases hok with
  | read hx ht =>
    refine (gives_known (Target.typeOf_of_reads hn.read)).bind fun _ _ hres => ?_
    obtain ⟨h, h'⟩ := hres
    subst h h'
    refine (place_follows hE hM hx hn.read c).bind fun hres c₁ hres2 => ?_
    obtain ⟨before, p⟩ := hres
    obtain ⟨hle, hplace⟩ := hres2
    cases p with
    | scalar o =>
      refine gives_pure ⟨hle, ?_⟩
      apply Machine.executes_of_passed
      intro n cfg s hat hs
      apply (hplace n cfg s hat.left hs).bind
      rintro q u d ⟨h, hdenotes⟩
      rw [List.length_append, ← Nat.add_assoc, ← h.pc]
      cases hdenotes with
      | scalar hx =>
        apply (Machine.assigns (h.codeAt hat) (by rintro ⟨⟩) rfl hx (h.shows hs)).mono
        intro _ w e hassigned
        exact (Passed.of_advanced h hs).trans hassigned (Nat.le_refl _)
    | element base index =>
      refine (gives_freshTemp c₁).bind fun o c₂ hres => gives_pure ?_
      obtain ⟨ho, hc₂⟩ := hres
      subst ho hc₂
      refine ⟨Nat.le_succ_of_le hle, ?_⟩
      apply Machine.executes_of_passed
      intro n cfg s hat hs
      apply (hplace n cfg s hat.left hs).bind
      rintro q u d ⟨h, hdenotes⟩
      have hat' := h.codeAt hat
      have hs' := h.shows hs
      apply (Machine.computes hat' (by rintro ⟨⟩) rfl (Nat.lt_succ_self c₁.temps) hs').bind
      rintro v w e ⟨hread, hv⟩
      have hplaced := hdenotes.advanced hread (Nat.le_refl _)
      have hstores := store_follows (n := n) (o := .temp (c₁.temps + 1)) hplaced
        (hread.codeAt (a := [_]) hat') (hread.shows hs')
      rw [hv] at hstores
      apply hstores.mono
      intro _ w' f hstored
      have hall := h.trans hread hle
      rw [hall.pc] at hstored
      have hpassed := (Passed.of_advanced hall hs).trans hstored hle
      simpa only [List.length_append, List.length_cons, List.length_nil, Nat.add_assoc]
        using hpassed

theorem write_executed (hE : E.Agrees Γ Λ) (hM : M.Suits Γ) (m : Mark) (value : Expr) :
    Executed M Γ Λ (.write m value) := by
  intro hok hn c
  cases hok with
  | write hv ht =>
    refine (gives_known hn.write.typeOf).bind fun _ _ hres => ?_
    obtain ⟨h, h'⟩ := hres
    subst h h'
    refine (expr_evaluated hE hM value _ hv hn.write c).bind fun r c₁ hr => gives_pure ⟨hr.le, ?_⟩
    intro n cfg s hat hs
    simp only [Stmt.exec]
    apply (hr.follows n cfg s hat.left hs).bind
    rintro v u d ⟨h, hstands⟩
    have hexec : M.execute (.write (channel (value.judge Γ).type) r.2) d =
        d.after (.write (.value (value.judge Γ).type.medium v)) fun _ d => d := by
      rw [← hstands.get ht, ← channel_eq]
      rfl
    apply (Machine.performs (h.codeAt hat) (by rintro ⟨⟩) hexec (h.shows hs)).bind
    intro _ w e hwritten
    exact Machine.follows_pure (.normal (.of_advanced (h.trans hwritten hr.le) hs))

theorem writeText_executed (m : Mark) (raw : String) : Executed M Γ Λ (.writeText m raw) := by
  intro _ _ c
  refine (gives_freshTemp c).bind fun o c₁ hres => gives_pure ?_
  obtain ⟨ho, hc₁⟩ := hres
  subst ho hc₁
  refine ⟨Nat.le_succ _, ?_⟩
  simp only [Stmt.exec, writeChars_eq]
  apply Machine.executes_of_passed
  intro n cfg s hat hs
  have hglyph : ∀ x n cfg s, Code.At M.code cfg.pc (Glyph.code (.temp (c.temps + 1)) x) →
      cfg.Shows s → True → M.Follows n cfg
        ((Act.perform (.write (M.interpretation.written x))).run s) fun _ u d =>
          Advanced c.temps (Glyph.code (.temp (c.temps + 1)) x) cfg s d u := by
    intro x n cfg s hat hs _
    cases x with
    | line => exact Machine.performs hat (by rintro ⟨⟩) rfl hs
    | char raw =>
      obtain ⟨d, hreach, h, hget⟩ := Machine.moves hat rfl (Nat.lt_succ_self c.temps) hs
      apply Machine.Follows.of_reaches hreach
      have hexec : M.execute (.write .char (.temp (c.temps + 1))) d =
          d.after (.write (M.interpretation.written (.char raw))) fun _ d => d := by
        rw [Interpretation.written, ← hget]
        rfl
      apply (Machine.performs (h.codeAt (a := [_]) hat) (by rintro ⟨⟩) hexec (h.shows hs)).mono
      intro _ u e h'
      exact h.trans h' (Nat.le_refl _)
  apply (forM_follows (fun _ _ => trivial) hglyph _ hat hs trivial).mono
  intro _ u d h
  exact .of_advanced h hs

theorem ret_executed (hE : E.Agrees Γ Λ) (hM : M.Suits Γ) (m : Mark) (value : Expr) :
    Executed M Γ Λ (.ret m (some value)) := by
  intro hok hn c
  cases hok with
  | ret hv hfits =>
    have hp := hfits.primitive (primitive_result hE hv hfits)
    refine (gives_known hn.ret.typeOf).bind fun _ _ hres => ?_
    obtain ⟨h, h'⟩ := hres
    subst h h'
    refine (expr_evaluated hE hM value _ hv hn.ret c).bind fun r c₁ hr => ?_
    rw [hE.result]
    refine (coerce_follows M r.2 _ Γ.result c₁).bind fun q c₂ hres => gives_pure ?_
    obtain ⟨hle₂, _, hconv⟩ := hres
    refine ⟨Nat.le_trans hr.le hle₂, fun n cfg s hat hs => ?_⟩
    simp only [List.append_assoc] at hat
    simp only [Stmt.exec]
    apply (hr.follows n cfg s hat.left hs).bind
    rintro v s₁ d₁ ⟨h₁, hstands⟩
    have hat₁ := h₁.codeAt hat
    have hs₁ := h₁.shows hs
    rw [← hstands.get hp]
    apply (hconv n d₁ s₁ hat₁.left hs₁).bind
    rintro y s₂ d₂ ⟨h₂, hy⟩
    have hat₂ := h₂.codeAt hat₁
    have hs₂ := h₂.shows hs₁
    have hcopy : M.Reaches d₂ (d₂.set .result y).next := by
      rw [← hy]
      exact Machine.reaches_of_execute hat₂.head rfl
    apply Machine.Follows.of_reaches hcopy
    have hhalted : M.Halted (d₂.set .result y).next := Or.inr hat₂.tail.head
    have hshows : (d₂.set .result y).next.Shows s₂ := by
      refine ⟨fun x hx => ?_, hs₂.world⟩
      rw [← hs₂.frame x hx]
      exact Function.update_of_ne (ne_resultName_of_isIdentifier hx) y d₂.registers
    refine Machine.follows_pure (.returned hhalted hshows (h₂.stack.trans h₁.stack) ?_)
    exact Function.update_self resultName y d₂.registers

theorem stmt_executed (hE : E.Agrees Γ Λ) (hM : M.Suits Γ) (s : Stmt) : Executed M Γ Λ s := by
  induction s using Stmt.ind with
  | assign m target value => exact assign_executed hE hM m target value
  | ifThen m condition body ih => exact ifThen_executed hE hM ih
  | ifElse m condition body otherwise ihb iho => exact ifElse_executed hE hM ihb iho
  | while_ m condition body ih => exact while_executed hE hM ih
  | for_ m control range body ih => exact for_executed hE hM ih
  | call m callee args => exact callStmt_executed hE hM m callee args
  | read m target => exact read_executed hE hM m target
  | write m value => exact write_executed hE hM m value
  | writeText m raw => exact writeText_executed m raw
  | ret m value =>
    cases value with
    | none =>
      intro _ _ c
      refine gives_pure ⟨Nat.le_refl _, fun n cfg s hat hs => ?_⟩
      have hhalted : M.Halted cfg := Or.inr hat.head
      exact Machine.follows_pure (.returned hhalted hs rfl rfl)
    | some value => exact ret_executed hE hM m value

end Lower

end Asl
