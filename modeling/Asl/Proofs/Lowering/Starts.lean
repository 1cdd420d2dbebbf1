import Asl.Proofs.Lowering.Structured

/-!
# Where the code of a statement starts

The code of a statement stands in the code of the statements around it, behind the code of those
before it and behind the tests that lead to it. All of that leaves the stack as it was.
-/
namespace Asl

namespace Lower

/-- When a statement is lowered from some counters, the statements of a block of it are lowered from
others, and some code of the statement stands before theirs. -/
inductive Block (Λ : Lowering) : Stmt → Counters → List Stmt → Counters → Code → Prop
  | ifThen {m : Mark} {condition : Expr} {body : List Stmt} {c c₁ c₂ : Counters} {test : Code}
      {o : Operand} {n : Nat} : (expr Λ condition).run c = (.ok (test, o), c₁) →
        freshBranch.run c₁ = (.ok n, c₂) → Block Λ (.ifThen m condition body) c body c₂
          (test ++ [.jumpUnless o ⟨.endif, n⟩])
  | thenOf {m : Mark} {condition : Expr} {body otherwise : List Stmt} {c c₁ c₂ : Counters}
      {test : Code} {o : Operand} {n : Nat} : (expr Λ condition).run c = (.ok (test, o), c₁) →
        freshBranch.run c₁ = (.ok n, c₂) → Block Λ (.ifElse m condition body otherwise) c body c₂
          (test ++ [.jumpUnless o ⟨.else, n⟩])
  | elseOf {m : Mark} {condition : Expr} {body otherwise : List Stmt} {c c₁ c₂ c₃ : Counters}
      {test yes : Code} {o : Operand} {n : Nat} : (expr Λ condition).run c = (.ok (test, o), c₁) →
        freshBranch.run c₁ = (.ok n, c₂) → (stmts Λ body).run c₂ = (.ok yes, c₃) →
          Block Λ (.ifElse m condition body otherwise) c otherwise c₃
            (test ++ .jumpUnless o ⟨.else, n⟩ :: yes ++ [.jump ⟨.endif, n⟩, .label ⟨.else, n⟩])
  | while_ {m : Mark} {condition : Expr} {body : List Stmt} {c c₁ c₂ : Counters} {test : Code}
      {o : Operand} {n : Nat} : freshLoop.run c = (.ok n, c₁) →
        (expr Λ condition).run c₁ = (.ok (test, o), c₂) →
          Block Λ (.while m condition body) c body c₂
          (.label ⟨.while, n⟩ :: test ++ [.jumpUnless o ⟨.endwhile, n⟩])
  | for_ {m : Mark} {control : Ident} {range : List Expr} {body : List Stmt}
      {c c₁ c₂ c₃ c₄ c₅ : Counters} {evaluate defaults sign : Code} {values : List Operand}
      {start stop step condition : Operand} {dir : Direction} {n : Nat} :
      (bounds Λ range).run c = (.ok (evaluate, values), c₁) →
        (loopBounds values).run c₁ = (.ok (some (defaults, start, stop, step)), c₂) →
          (direction step range[2]?).run c₂ = (.ok (sign, dir), c₃) →
            freshLoop.run c₃ = (.ok n, c₄) → freshTemp.run c₄ = (.ok condition, c₅) →
              Block Λ (.for m control range body) c body c₅
                (evaluate ++ defaults ++ sign ++ .copy (.name control.name) start ::
                  .label ⟨.for, n⟩ :: loopTest n condition (.name control.name) stop dir ++
                    [.jumpUnless condition ⟨.endfor, n⟩])

/-- When statements are lowered from some counters, a statement among or inside of them is lowered
from others, and some code stands before its own. -/
inductive Comes (Λ : Lowering) : List Stmt → Counters → Stmt → Counters → Code → Prop
  | here {s : Stmt} {ss : List Stmt} {c : Counters} : Comes Λ (s :: ss) c s c []
  | later {s t : Stmt} {ss : List Stmt} {c c₁ d : Counters} {code before : Code} :
      (stmt Λ s).run c = (.ok code, c₁) → Comes Λ ss c₁ t d before →
        Comes Λ (s :: ss) c t d (code ++ before)
  | inside {s t : Stmt} {ss body : List Stmt} {c c₁ d : Counters} {front before : Code} :
      Block Λ s c body c₁ front → Comes Λ body c₁ t d before →
        Comes Λ (s :: ss) c t d (front ++ before)

variable {E : Surroundings} {Γ : Context} {Λ : Lowering}

theorem run_stmts_cons {s : Stmt} {ss : List Stmt} {c c' : Counters} {code : Code}
    (h : (stmts Λ (s :: ss)).run c = (.ok code, c')) : ∃ first c₁ more,
      (stmt Λ s).run c = (.ok first, c₁) ∧ (stmts Λ ss).run c₁ = (.ok more, c') ∧
        code = first ++ more := by
  obtain ⟨first, c₁, hfirst, h⟩ := Attempt.run_bind_eq_ok.1 h
  obtain ⟨more, c₂, hmore, h⟩ := Attempt.run_bind_eq_ok.1 h
  cases h
  exact ⟨first, c₁, more, hfirst, hmore, rfl⟩

theorem run_bind_of_ok {α β : Type} {m : Lower α} {f : α → Lower β} {c c' : Counters} {a : α}
    (h : m.run c = (.ok a, c')) : (m >>= f).run c = (f a).run c' := by
  rw [Attempt.run_bind, h]

theorem Block.stands {s : Stmt} {body : List Stmt} {c d : Counters} {front : Code}
    (h : Block Λ s c body d front) {code : Code} {c' : Counters}
    (hrun : (stmt Λ s).run c = (.ok code, c')) : ∃ inner d' behind,
      (stmts Λ body).run d = (.ok inner, d') ∧ code = front ++ inner ++ behind := by
  cases h with
  | @ifThen m condition _ _ c₁ _ test o n htest hn =>
    rw [stmt, run_bind_of_ok htest, run_bind_of_ok hn] at hrun
    obtain ⟨yes, d', hbody, hrest⟩ := Attempt.run_bind_eq_ok.1 hrun
    cases hrest
    exact ⟨yes, c', [.label ⟨.endif, n⟩], hbody, by simp⟩
  | @thenOf m condition _ otherwise _ c₁ _ test o n htest hn =>
    rw [stmt, run_bind_of_ok htest, run_bind_of_ok hn] at hrun
    obtain ⟨yes, d', hbody, hrun⟩ := Attempt.run_bind_eq_ok.1 hrun
    obtain ⟨no, d'', -, hrun⟩ := Attempt.run_bind_eq_ok.1 hrun
    cases hrun
    exact ⟨yes, d', .jump ⟨.endif, n⟩ :: .label ⟨.else, n⟩ :: no ++ [.label ⟨.endif, n⟩], hbody,
      by simp⟩
  | @elseOf m condition yesBody _ _ c₁ c₂ _ test yes o n htest hn hyes =>
    rw [stmt, run_bind_of_ok htest, run_bind_of_ok hn, run_bind_of_ok hyes] at hrun
    obtain ⟨no, d', hbody, hrun⟩ := Attempt.run_bind_eq_ok.1 hrun
    cases hrun
    exact ⟨no, c', [.label ⟨.endif, n⟩], hbody, by simp⟩
  | @while_ m condition _ _ c₁ _ test o n hn htest =>
    rw [stmt, run_bind_of_ok hn, run_bind_of_ok htest] at hrun
    obtain ⟨inner, d', hbody, hrun⟩ := Attempt.run_bind_eq_ok.1 hrun
    cases hrun
    exact ⟨inner, c', [.jump ⟨.while, n⟩, .label ⟨.endwhile, n⟩], hbody, by simp⟩
  | @for_ m control range _ _ c₁ c₂ c₃ c₄ _ evaluate defaults sign values start stop step condition
      dir n hbounds hloop hsign hn hcondition =>
    rw [stmt, run_bind_of_ok hbounds, run_bind_of_ok hloop, run_bind_of_ok hsign, run_bind_of_ok hn,
      run_bind_of_ok hcondition] at hrun
    obtain ⟨inner, d', hbody, hrun⟩ := Attempt.run_bind_eq_ok.1 hrun
    cases hrun
    exact ⟨inner, c', [.binary (.add .whole) (.name control.name) (.name control.name) step,
      .jump ⟨.for, n⟩, .label ⟨.endfor, n⟩], hbody, by simp⟩

theorem Comes.stands {ss : List Stmt} {c d : Counters} {t : Stmt} {before : Code}
    (h : Comes Λ ss c t d before) {code : Code} {c' : Counters}
    (hrun : (stmts Λ ss).run c = (.ok code, c')) : ∃ part d' behind,
      (stmt Λ t).run d = (.ok part, d') ∧ code = before ++ part ++ behind := by
  induction h generalizing code c' with
  | here =>
    obtain ⟨first, c₁, more, hfirst, -, rfl⟩ := run_stmts_cons hrun
    exact ⟨first, c₁, more, hfirst, rfl⟩
  | later hs _ ih =>
    obtain ⟨first, c₁, more, hfirst, hmore, rfl⟩ := run_stmts_cons hrun
    rw [hs] at hfirst
    cases hfirst
    obtain ⟨part, d', behind, hpart, rfl⟩ := ih hmore
    exact ⟨part, d', behind, hpart, by simp only [List.append_assoc]⟩
  | inside hblock _ ih =>
    obtain ⟨first, c₁, more, hfirst, -, rfl⟩ := run_stmts_cons hrun
    obtain ⟨inner, d', behind, hinner, rfl⟩ := hblock.stands hfirst
    obtain ⟨part, d'', behind', hpart, rfl⟩ := ih hinner
    exact ⟨part, d'', behind' ++ behind ++ more, hpart, by simp only [List.append_assoc]⟩

theorem Block.ok {s : Stmt} {body : List Stmt} {c d : Counters} {front : Code}
    (h : Block Λ s c body d front) (hok : s.Ok Γ) (hn : s.Noted Λ Γ) :
    ∀ t ∈ body, t.Ok Γ ∧ t.Noted Λ Γ := by
  cases h with
  | ifThen =>
    cases hok with
    | ifThen _ hb => exact fun t ht => ⟨hb t ht, hn.ifThen.2 t ht⟩
  | thenOf =>
    cases hok with
    | ifElse _ hb _ => exact fun t ht => ⟨hb t ht, hn.ifElse.2.1 t ht⟩
  | elseOf =>
    cases hok with
    | ifElse _ _ ho => exact fun t ht => ⟨ho t ht, hn.ifElse.2.2 t ht⟩
  | while_ =>
    cases hok with
    | while_ _ hb => exact fun t ht => ⟨hb t ht, hn.while_.2 t ht⟩
  | for_ =>
    cases hok with
    | for_ _ _ _ _ hb => exact fun t ht => ⟨hb t ht, hn.for_.2 t ht⟩

theorem expr_balanced (hE : E.Agrees Γ Λ) {e : Expr} {t : Ty} (he : e.HasType Γ t)
    {c c' : Counters} {code : Code} {o : Operand} (hrun : (expr Λ e).run c = (.ok (code, o), c')) :
    code.Balanced := by
  obtain ⟨B, hcode, -⟩ := expr_forms hE e t he ∅ c _ _ hrun
  exact hcode.balanced

theorem stmts_balanced (hE : E.Agrees Γ Λ) {ss : List Stmt} (hok : ∀ s ∈ ss, s.Ok Γ ∧ s.Noted Λ Γ)
    {c c' : Counters} {code : Code} (hrun : (stmts Λ ss).run c = (.ok code, c')) :
    code.Balanced := by
  obtain ⟨B, hcode⟩ := stmts_structured_of (fun s _ => stmt_structured hE s)
    (fun s hs => (hok s hs).1) (fun s hs => (hok s hs).2) ∅ c _ _ hrun
  exact hcode.balanced

theorem Block.balanced (hE : E.Agrees Γ Λ) {s : Stmt} {body : List Stmt} {c d : Counters}
    {front : Code} (h : Block Λ s c body d front) (hok : s.Ok Γ) (hn : s.Noted Λ Γ) :
    front.Balanced := by
  cases h with
  | ifThen htest =>
    cases hok with
    | ifThen hc _ => exact (expr_balanced hE hc htest).append (Code.balanced_single rfl)
  | thenOf htest =>
    cases hok with
    | ifElse hc _ _ => exact (expr_balanced hE hc htest).append (Code.balanced_single rfl)
  | @elseOf m condition yesBody _ _ c₁ c₂ _ test yes o n htest hn' hyes =>
    cases hok with
    | ifElse hc hb _ =>
      have hbody := stmts_balanced hE (fun t ht => ⟨hb t ht, hn.ifElse.2.1 t ht⟩) hyes
      have hjump : Code.Balanced [.jumpUnless o ⟨.else, n⟩] := Code.balanced_single rfl
      have hback : Code.Balanced [.jump ⟨.endif, n⟩, .label ⟨.else, n⟩] :=
        Code.balanced_of_forall (by simp [Instr.stacks])
      exact ((expr_balanced hE hc htest).append (hjump.append hbody)).append hback
  | @while_ m condition _ _ c₁ _ test o n hn' htest =>
    cases hok with
    | while_ hc _ =>
      have hlabel : Code.Balanced [.label ⟨.while, n⟩] := Code.balanced_single rfl
      exact (hlabel.append (expr_balanced hE hc htest)).append (Code.balanced_single rfl)
  | @for_ m control range _ _ c₁ c₂ c₃ c₄ _ evaluate defaults sign values start stop step condition
      dir n hbounds hloop hsign hn' hcondition =>
    cases hok with
    | for_ _ _ _ hrange _ =>
      obtain ⟨B₁, hevaluate, hvalues⟩ := bounds_structured (A := ∅) hE hrange _ _ hbounds
      obtain ⟨B₂, hdefaults, -, -, hstep⟩ := loopBounds_structured (E := E) hvalues _ _ hloop _ rfl
      obtain ⟨B₃, hsign, -⟩ := direction_structured (E := E) hstep _ _ _ hsign
      have hhead : Code.Balanced (.copy (.name control.name) start :: .label ⟨.for, n⟩ ::
          loopTest n condition (.name control.name) stop dir) := by
        refine Code.balanced_of_forall ?_
        cases dir <;> simp [loopTest, Instr.stacks]
      have hbefore := (hevaluate.balanced.append hdefaults.balanced).append hsign.balanced
      exact (hbefore.append hhead).append (Code.balanced_single rfl)

theorem Comes.ok {ss : List Stmt} {c d : Counters} {t : Stmt} {before : Code}
    (h : Comes Λ ss c t d before) (hok : ∀ s ∈ ss, s.Ok Γ ∧ s.Noted Λ Γ) :
    t.Ok Γ ∧ t.Noted Λ Γ := by
  induction h with
  | here => exact hok _ List.mem_cons_self
  | later _ _ ih => exact ih (List.forall_mem_cons.1 hok).2
  | inside hblock _ ih =>
    obtain ⟨hoks, hns⟩ := (List.forall_mem_cons.1 hok).1
    exact ih (hblock.ok hoks hns)

theorem Comes.balanced (hE : E.Agrees Γ Λ) {ss : List Stmt} {c d : Counters} {t : Stmt}
    {before : Code} (h : Comes Λ ss c t d before) (hok : ∀ s ∈ ss, s.Ok Γ ∧ s.Noted Λ Γ) :
    before.Balanced := by
  induction h with
  | here => exact Code.balanced_nil
  | later hs _ ih =>
    obtain ⟨hoks, hokss⟩ := List.forall_mem_cons.1 hok
    obtain ⟨B, hcode⟩ := stmt_structured hE _ hoks.1 hoks.2 ∅ _ _ _ hs
    exact hcode.balanced.append (ih hokss)
  | inside hblock _ ih =>
    obtain ⟨hoks, -⟩ := List.forall_mem_cons.1 hok
    exact (hblock.balanced hE hoks.1 hoks.2).append (ih (hblock.ok hoks.1 hoks.2))

end Lower

def Stmt.blocks : Stmt → List (List Stmt)
  | .ifThen _ _ body => [body]
  | .ifElse _ _ body otherwise => [body, otherwise]
  | .while _ _ body => [body]
  | .for _ _ _ body => [body]
  | _ => []

inductive Stmt.OccursIn (t : Stmt) : List Stmt → Prop
  | here {ss : List Stmt} : t ∈ ss → OccursIn t ss
  | inside {s : Stmt} {ss body : List Stmt} : s ∈ ss → body ∈ s.blocks → OccursIn t body →
      OccursIn t ss

namespace Lower

variable {E : Surroundings} {Γ : Context} {Λ : Lowering}

theorem length_bounds (es : List Expr) (c : Counters) :
    Gives (bounds Λ es) c fun r _ => r.2.length = es.length := by
  induction es generalizing c with
  | nil => exact gives_pure rfl
  | cons e es ih =>
    intro r c' hrun
    obtain ⟨q, c₁, -, hrun⟩ := Attempt.run_bind_eq_ok.1 hrun
    obtain ⟨k, c₂, -, hrun⟩ := Attempt.run_bind_eq_ok.1 hrun
    obtain ⟨more, c₃, hmore, hrun⟩ := Attempt.run_bind_eq_ok.1 hrun
    cases hrun
    exact congrArg (· + 1) (ih c₂ more _ hmore)

theorem bounds_ne_nil {es : List Expr} (hes : es ≠ []) (c : Counters) :
    Gives (bounds Λ es) c fun r _ => r.2 ≠ [] := by
  intro r c' hrun hnil
  have hlength : r.2.length = es.length := length_bounds es c r c' hrun
  rw [hnil] at hlength
  exact hes (List.length_eq_zero_iff.1 hlength.symm)

theorem loopBounds_ne_none {vs : List Operand} (hvs : vs ≠ []) (c : Counters) :
    Gives (loopBounds vs) c fun r _ => r ≠ none := by
  rcases vs with _ | ⟨u, _ | ⟨v, _ | ⟨w, rest⟩⟩⟩
  · exact absurd rfl hvs
  · intro r c' hrun
    obtain ⟨q, c₁, -, hrun⟩ := Attempt.run_bind_eq_ok.1 hrun
    obtain ⟨k, c₂, -, hrun⟩ := Attempt.run_bind_eq_ok.1 hrun
    cases hrun
    exact nofun
  · intro r c' hrun
    obtain ⟨q, c₁, -, hrun⟩ := Attempt.run_bind_eq_ok.1 hrun
    cases hrun
    exact nofun
  · exact gives_pure nofun

theorem exists_block {s : Stmt} (hok : s.Ok Γ) {body : List Stmt} (hbody : body ∈ s.blocks)
    {c c' : Counters} {code : Code} (hrun : (stmt Λ s).run c = (.ok code, c')) :
    ∃ d front, Block Λ s c body d front := by
  cases s with
  | ifThen m condition inner =>
    rw [List.mem_singleton.1 hbody]
    obtain ⟨r, c₁, htest, hrun⟩ := Attempt.run_bind_eq_ok.1 hrun
    obtain ⟨n, c₂, hn, -⟩ := Attempt.run_bind_eq_ok.1 hrun
    exact ⟨c₂, _, .ifThen htest hn⟩
  | ifElse m condition inner otherwise =>
    obtain ⟨r, c₁, htest, hrun⟩ := Attempt.run_bind_eq_ok.1 hrun
    obtain ⟨n, c₂, hn, hrun⟩ := Attempt.run_bind_eq_ok.1 hrun
    obtain ⟨yes, c₃, hyes, -⟩ := Attempt.run_bind_eq_ok.1 hrun
    simp only [Stmt.blocks, List.mem_cons, List.not_mem_nil, or_false] at hbody
    rcases hbody with rfl | rfl
    · exact ⟨c₂, _, .thenOf htest hn⟩
    · exact ⟨c₃, _, .elseOf htest hn hyes⟩
  | «while» m condition inner =>
    rw [List.mem_singleton.1 hbody]
    obtain ⟨n, c₁, hn, hrun⟩ := Attempt.run_bind_eq_ok.1 hrun
    obtain ⟨r, c₂, htest, -⟩ := Attempt.run_bind_eq_ok.1 hrun
    exact ⟨c₂, _, .while_ hn htest⟩
  | «for» m control range inner =>
    rw [List.mem_singleton.1 hbody]
    cases hok with
    | for_ _ hone _ _ _ =>
      obtain ⟨r, c₁, hbounds, hrun⟩ := Attempt.run_bind_eq_ok.1 hrun
      obtain ⟨q, c₂, hloop, hrun⟩ := Attempt.run_bind_eq_ok.1 hrun
      have hne := bounds_ne_nil (List.ne_nil_of_length_pos hone) c r c₁ hbounds
      cases q with
      | none => exact absurd rfl (loopBounds_ne_none hne c₁ _ _ hloop)
      | some q =>
        obtain ⟨d, c₃, hsign, hrun⟩ := Attempt.run_bind_eq_ok.1 hrun
        obtain ⟨n, c₄, hn, hrun⟩ := Attempt.run_bind_eq_ok.1 hrun
        obtain ⟨condition, c₅, hcondition, -⟩ := Attempt.run_bind_eq_ok.1 hrun
        exact ⟨c₅, _, .for_ hbounds hloop hsign hn hcondition⟩
  | _ => cases hbody

theorem exists_run_of_mem {s : Stmt} {ss : List Stmt} (hs : s ∈ ss) {c c' : Counters} {code : Code}
    (hrun : (stmts Λ ss).run c = (.ok code, c')) : ∃ front d part d' rest,
      (stmt Λ s).run d = (.ok part, d') ∧ ∀ t e before, Comes Λ (s :: rest) d t e before →
        Comes Λ ss c t e (front ++ before) := by
  induction ss generalizing c code with
  | nil => cases hs
  | cons s' ss ih =>
    obtain ⟨first, c₁, more, hfirst, hmore, -⟩ := run_stmts_cons hrun
    rcases List.mem_cons.1 hs with rfl | hs
    · exact ⟨[], c, first, c₁, ss, hfirst, fun _ _ _ h => h⟩
    · obtain ⟨front, d, part, d', rest, hpart, hcomes⟩ := ih hs hmore
      refine ⟨first ++ front, d, part, d', rest, hpart, fun t e before h => ?_⟩
      rw [List.append_assoc]
      exact .later hfirst (hcomes t e before h)

theorem exists_comes {t : Stmt} {ss : List Stmt} (h : t.OccursIn ss)
    (hok : ∀ s ∈ ss, s.Ok Γ ∧ s.Noted Λ Γ) {c c' : Counters} {code : Code}
    (hrun : (stmts Λ ss).run c = (.ok code, c')) : ∃ d before, Comes Λ ss c t d before := by
  induction h generalizing c c' code with
  | here ht =>
    obtain ⟨front, d, part, d', rest, -, hcomes⟩ := exists_run_of_mem ht hrun
    exact ⟨d, _, hcomes t d [] .here⟩
  | inside hs hbody _ ih =>
    obtain ⟨front, d, part, d', rest, hpart, hcomes⟩ := exists_run_of_mem hs hrun
    obtain ⟨hoks, hns⟩ := hok _ hs
    obtain ⟨e, inner, hblock⟩ := exists_block hoks hbody hpart
    obtain ⟨code', e', _, hinner, -⟩ := hblock.stands hpart
    obtain ⟨d'', before, hbefore⟩ := ih (hblock.ok hoks hns) hinner
    exact ⟨d'', _, hcomes t d'' _ (.inside hblock hbefore)⟩

end Lower

end Asl
