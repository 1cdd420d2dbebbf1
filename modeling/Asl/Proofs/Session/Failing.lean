import Asl.Proofs.Lowering.Failure
import Asl.Proofs.Session.Repeating
import Asl.Proofs.Typing.Located

/-!
# Passes that may fail

The second and the third pass enter scopes by the notes of the first, which may be missing: the
program was not declared before, or another tree has written over its notes. Such a pass fails with
the scopes active that it had entered. That is all that can go wrong with scopes, since every number
of a scope that was ever noted is in range, and a pass leaves only scopes that it has entered.
-/
namespace Asl

namespace View

/-- A later view of the same scopes, with further diagnostics about bodies. -/
structure Grows (v w : View) : Prop where
  keeps : v.Keeps w
  diagnostics : ∃ added, w.diagnostics = v.diagnostics ++ added ∧ ∀ d ∈ added, d.fault ≠ .noMain

theorem Grows.refl (v : View) : v.Grows v :=
  ⟨Keeps.refl v, [], (List.append_nil _).symm, fun _ h => absurd h List.not_mem_nil⟩

theorem Grows.trans {u v w : View} (h : u.Grows v) (h' : v.Grows w) : u.Grows w := by
  obtain ⟨added, hadded, hfaults⟩ := h.diagnostics
  obtain ⟨more, hmore, hfaults'⟩ := h'.diagnostics
  refine ⟨h.keeps.trans h'.keeps, added ++ more, ?_, ?_⟩
  · rw [hmore, hadded, List.append_assoc]
  · exact List.forall_mem_append.2 ⟨hfaults, hfaults'⟩

theorem grows_judged (v : View) (t : Option Ty) (Γ : Context) (body : List Stmt) :
    v.Grows (v.judged t (Stmt.judgeAll Γ body)) :=
  ⟨keeps_judged v t _, _, rfl, fun d hd => (Stmt.inside_all Γ body d hd).2⟩

theorem keeps_working (v : View) (t : Option Ty) : v.Keeps { v with function := t } :=
  ⟨rfl, rfl, rfl, fun _ h => h⟩

/-- A view after the second pass, which looks at the first scope for an entry point. -/
structure Checked (v w : View) (root : NodeId) : Prop where
  keeps : v.Keeps w
  diagnostics : ∃ added, w.diagnostics = v.diagnostics ++ added ++
    (if v.hasMain then [] else [⟨⟨root, 0, 0⟩, .noMain⟩]) ∧ ∀ d ∈ added, d.fault ≠ .noMain

theorem Ranged.keeps {v w : View} (hv : v.Ranged) (h : v.Keeps w) : w.Ranged where
  stack := by
    rw [h.stack, h.scopes]
    exact hv.stack
  scopeOf := by
    rw [h.scopeOf, h.scopes]
    exact hv.scopeOf

theorem Keeps.hasMain {v w : View} (h : v.Keeps w) : w.hasMain = v.hasMain := by
  rw [View.hasMain, View.hasMain, h.scopes]

theorem Keeps.enter {v w : View} (h : v.Keeps w) (k : ScopeId) : (v.enter k).Keeps (w.enter k) :=
  ⟨h.scopes, congrArg (k :: ·) h.stack, h.scopeOf, h.typeOf⟩

theorem Keeps.report {v w : View} (h : v.Keeps w) (ds : List Diagnostic) : v.Keeps (w.report ds) :=
  ⟨h.scopes, h.stack, h.scopeOf, h.typeOf⟩

theorem Keeps.leave {v w : View} {k : ScopeId} (h : (v.enter k).Keeps w) : v.Keeps w.leave :=
  ⟨h.scopes, by rw [View.leave, h.stack]; rfl, h.scopeOf, h.typeOf⟩

end View

namespace Pass

open Attempt (run_bind)

variable {ε α β : Type} {s : Session}

/-- A pass ends in a sound session: with a value, and then `Q` holds, or with an error, and then `B`
holds. -/
def Ends (p : Pass ε α) (s : Session) (Q : α → Session → Prop) (B : ε → Session → Prop) : Prop :=
  ∃ s', s'.Sound ∧
    ((∃ a, p.run s = (.ok a, s') ∧ Q a s') ∨ ∃ e, p.run s = (.error e, s') ∧ B e s')

theorem Ends.imp {p : Pass ε α} {Q Q' : α → Session → Prop} {B B' : ε → Session → Prop}
    (h : p.Ends s Q B) (hQ : ∀ a s', p.run s = (.ok a, s') → Q a s' → Q' a s')
    (hB : ∀ e s', p.run s = (.error e, s') → B e s' → B' e s') : p.Ends s Q' B' := by
  obtain ⟨s', hs', ⟨a, hrun, hq⟩ | ⟨e, hrun, hb⟩⟩ := h
  · exact ⟨s', hs', Or.inl ⟨a, hrun, hQ a s' hrun hq⟩⟩
  · exact ⟨s', hs', Or.inr ⟨e, hrun, hB e s' hrun hb⟩⟩

theorem Ends.bind {p : Pass ε α} {f : α → Pass ε β} {Q : α → Session → Prop}
    {R : β → Session → Prop} {B : ε → Session → Prop} (hp : p.Ends s Q B)
    (hf : ∀ a s', s'.Sound → p.run s = (.ok a, s') → Q a s' → (f a).Ends s' R B) :
    (p >>= f).Ends s R B := by
  obtain ⟨s', hs', ⟨a, hrun, hq⟩ | ⟨e, hrun, hb⟩⟩ := hp
  · obtain ⟨s'', hs'', h⟩ := hf a s' hs' hrun hq
    refine ⟨s'', hs'', ?_⟩
    rw [run_bind, hrun]
    exact h
  · refine ⟨s', hs', Or.inr ⟨e, ?_, hb⟩⟩
    rw [run_bind, hrun]

theorem Ends.after {p : Pass ε α} {Q : α → Session → Prop} {B : ε → Session → Prop}
    {I : Session → Prop} (h : p.Ends s Q B) (hQ : ∀ a s', s'.Sound → Q a s' → I s')
    (hB : ∀ e s', s'.Sound → B e s' → I s') : I (p.run s).2 := by
  obtain ⟨s', hs', ⟨a, hrun, hq⟩ | ⟨e, hrun, hb⟩⟩ := h
  · rw [hrun]
    exact hQ a s' hs' hq
  · rw [hrun]
    exact hB e s' hs' hb

theorem Ends.of_ok {p : Pass ε α} {Q : α → Session → Prop} {B : ε → Session → Prop}
    (h : p.Ends s Q B) {a : α} {s' : Session} (hrun : p.run s = (.ok a, s')) :
    s'.Sound ∧ Q a s' := by
  obtain ⟨s₁, hs₁, ⟨b, hrun₁, hq⟩ | ⟨e, hrun₁, -⟩⟩ := h
  · rw [hrun] at hrun₁
    cases hrun₁
    exact ⟨hs₁, hq⟩
  · rw [hrun] at hrun₁
    cases hrun₁

theorem ends_pure (hs : s.Sound) (a : α) {Q : α → Session → Prop} {B : ε → Session → Prop}
    (hq : Q a s) : (pure a : Pass ε α).Ends s Q B :=
  ⟨s, hs, Or.inl ⟨a, rfl, hq⟩⟩

theorem Yields.ends {p : Pass ε α} {v : View} {Q : α → Session → Prop} {B : ε → Session → Prop}
    (h : p.Yields s v Q) : p.Ends s (fun a s' => s'.view = v ∧ Q a s') B := by
  obtain ⟨a, s', hrun, hm, hq⟩ := h
  exact ⟨s', hm.sound, Or.inl ⟨a, hrun, hm.view, hq⟩⟩

theorem enterFunction_fails (hr : s.view.Ranged) (ofAttribute : AttributeError → ε)
    (ofScope : ScopeError → ε) {f : Function} (h : ∀ k t, ¬ s.view.Knows f k t) :
    ∃ a, (enterFunction ofAttribute ofScope f).run s = (.error (ofAttribute a), s) := by
  cases hscope : s.attributes.scope f.mark.id with
  | error a =>
    refine ⟨a, ?_⟩
    simp only [enterFunction, run_bind, Attempt.run_get, hscope, Except.mapError,
      Attempt.run_ofExcept]
  | ok k =>
    cases htype : s.attributes.type f.mark.id with
    | error a =>
      refine ⟨a, ?_⟩
      simp only [enterFunction, run_bind, Attempt.run_get, hscope, htype, Except.mapError,
        Attempt.run_ofExcept]
    | ok id =>
      have hk := Session.scope_eq_ok_iff.1 hscope
      exact absurd ⟨hk, Session.view_typeOf_of_type htype, hr.scopeOf _ _ hk⟩ (h k _)

theorem enterProgram_fails (ofAttribute : AttributeError → ε) (ofScope : ScopeError → ε)
    {p : Program} (h : ∀ g, s.view.scopeOf p.id ≠ some g) :
    ∃ a, (enterProgram ofAttribute ofScope p).run s = (.error (ofAttribute a), s) := by
  cases hscope : s.attributes.scope p.id with
  | error a =>
    refine ⟨a, ?_⟩
    simp only [enterProgram, run_bind, Attempt.run_get, hscope, Except.mapError,
      Attempt.run_ofExcept]
  | ok g => exact absurd (Session.scope_eq_ok_iff.1 hscope) (h g)

theorem ends_enterFunction (hs : s.Sound) (hr : s.view.Ranged) (ofAttribute : AttributeError → ε)
    (ofScope : ScopeError → ε) (f : Function) :
    (enterFunction ofAttribute ofScope f).Ends s (fun _ s' => s'.view.Ranged)
      (fun _ s' => s' = s) := by
  by_cases h : ∃ k t, s.view.Knows f k t
  · obtain ⟨k, t, hk⟩ := h
    have henter := yields_enterFunction_of_knows hs ofAttribute ofScope hk
    refine henter.ends.imp (fun _ s' _ hs' => ?_) fun _ _ _ hb => hb
    rw [hs'.1]
    exact (hr.enter hk.lt_length).keeps (View.keeps_working _ _)
  · obtain ⟨a, hrun⟩ := enterFunction_fails hr ofAttribute ofScope fun k t hk => h ⟨k, t, hk⟩
    exact ⟨s, hs, Or.inr ⟨_, hrun, rfl⟩⟩

theorem ends_enterProgram (hs : s.Sound) (hr : s.view.Ranged) (ofAttribute : AttributeError → ε)
    (ofScope : ScopeError → ε) (p : Program) :
    (enterProgram ofAttribute ofScope p).Ends s
      (fun _ s' => ∃ g, s.view.scopeOf p.id = some g ∧ s'.view = s.view.enter g)
      (fun e s' => (∃ a, e = ofAttribute a) ∧ s' = s ∧ ∀ g, s.view.scopeOf p.id ≠ some g) := by
  by_cases h : ∃ g, s.view.scopeOf p.id = some g
  · obtain ⟨g, hg⟩ := h
    have henter := yields_enterProgram_of_scope hs ofAttribute ofScope hg (hr.scopeOf _ _ hg)
    exact henter.ends.imp (fun _ s' _ hs' => ⟨g, hg, hs'.1⟩) fun _ _ _ hb => hb
  · obtain ⟨a, hrun⟩ := enterProgram_fails ofAttribute ofScope (not_exists.1 h)
    exact ⟨s, hs, Or.inr ⟨_, hrun, ⟨a, rfl⟩, rfl, not_exists.1 h⟩⟩

theorem ends_judgeFunction (hs : s.Sound) (hr : s.view.Ranged) (f : Function) :
    (judgeFunction f).Ends s (fun _ s' => s.view.Grows s'.view)
      (fun e s' => (∃ a, e = .attribute a) ∧ s' = s ∧ ∀ k t, ¬ s.view.Knows f k t) := by
  by_cases h : ∃ k t, s.view.Knows f k t
  · obtain ⟨k, t, hk⟩ := h
    refine (yields_judgeFunction hs hk).ends.imp (fun _ s' _ hs' => ?_) fun _ _ _ hb => hb
    rw [hs'.1]
    exact View.grows_judged _ _ _ _
  · have hknows : ∀ k t, ¬ s.view.Knows f k t := fun k t hk => h ⟨k, t, hk⟩
    obtain ⟨a, hrun⟩ := enterFunction_fails hr AnalysisError.attribute .scope hknows
    refine ⟨s, hs, Or.inr ⟨.attribute a, ?_, ⟨a, rfl⟩, rfl, hknows⟩⟩
    rw [judgeFunction, run_bind, hrun]

theorem ends_judgeFunctions (fs : List Function) (hs : s.Sound) (hr : s.view.Ranged) :
    (judgeFunctions fs).Ends s (fun _ s' => s.view.Grows s'.view)
      (fun e s' => (∃ a, e = .attribute a) ∧ s.view.Keeps s'.view ∧
        ∃ f ∈ fs, ∀ k t, ¬ s'.view.Knows f k t) := by
  induction fs generalizing s with
  | nil => exact ends_pure hs () (View.Grows.refl _)
  | cons f fs ih =>
    refine Ends.bind ((ends_judgeFunction hs hr f).imp (fun _ _ _ hq => hq) fun e s' _ hb => ?_)
      fun _ s₁ hs₁ _ hgrows => ?_
    · obtain ⟨he, rfl, hknows⟩ := hb
      exact ⟨he, View.Keeps.refl _, f, List.mem_cons_self, hknows⟩
    · refine (ih hs₁ (hr.keeps hgrows.keeps)).imp (fun _ _ _ hq => hgrows.trans hq) ?_
      intro e s' _ hb
      obtain ⟨he, hkeeps, f', hf', hknows⟩ := hb
      exact ⟨he, hgrows.keeps.trans hkeeps, f', List.mem_cons_of_mem _ hf', hknows⟩

/-- How the second pass fails: on entering the program, or on entering one of its functions. -/
def Misjudges (p : Program) (s : Session) (e : AnalysisError) (s' : Session) : Prop :=
  (∃ a, e = .attribute a) ∧ ((s' = s ∧ ∀ g, s.view.scopeOf p.id ≠ some g) ∨
    ∃ g, s.view.scopeOf p.id = some g ∧ (s.view.enter g).Keeps s'.view ∧
      ∃ f ∈ p.functions, ∀ k t, ¬ s'.view.Knows f k t)

theorem ends_judgeProgram (hs : s.Sound) (hr : s.view.Ranged) (p : Program) :
    (judgeProgram p).Ends s (fun _ s' => s.view.Checked s'.view p.id) (Misjudges p s) := by
  refine Ends.bind ((ends_enterProgram hs hr AnalysisError.attribute .scope p).imp
    (fun _ _ _ hq => hq) fun e s' _ hb => ?_) fun _ s₁ hs₁ _ henter => ?_
  · obtain ⟨he, rfl, hscope⟩ := hb
    exact ⟨he, Or.inl ⟨rfl, hscope⟩⟩
  obtain ⟨g, hscope, hv₁⟩ := henter
  have hr₁ : s₁.view.Ranged := by
    rw [hv₁]
    exact hr.enter (hr.scopeOf _ _ hscope)
  refine Ends.bind ((ends_judgeFunctions p.functions hs₁ hr₁).imp (fun _ _ _ hq => hq)
    fun e s' _ hb => ?_) fun _ s₂ hs₂ _ hgrows => ?_
  · obtain ⟨he, hkeeps, hf⟩ := hb
    rw [hv₁] at hkeeps
    exact ⟨he, Or.inr ⟨g, hscope, hkeeps, hf⟩⟩
  rw [hv₁] at hgrows
  have hstack : s₂.view.stack ≠ [] := by
    rw [hgrows.keeps.stack]
    exact List.cons_ne_nil _ _
  refine (yields_lookForMain hs₂ hstack p).ends.imp (fun _ s₃ _ hq => ?_) fun _ _ _ hb => hb
  obtain ⟨added, hadded, hfaults⟩ := hgrows.diagnostics
  have hmain : s₂.view.hasMain = s.view.hasMain := hgrows.keeps.hasMain
  rw [hq.1, hmain]
  exact ⟨(hgrows.keeps.report _).leave, added, congrArg (· ++ _) hadded, hfaults⟩

/-- The first two passes together never fail: the second one finds the notes that the first one has
made just before. -/
theorem analyze_succeeds (hs : s.Sound) (hr : s.view.Ranged) (p : Program) :
    ∃ s', (analyze p).run s = (.ok (), s') ∧ s'.Sound ∧
      (s.view.declared p.id p.functions).leave.Checked s'.view p.id := by
  obtain ⟨_, s₁, hrun₁, hm₁, -⟩ := yields_declareProgram hs p
  have hnames : (s.view.declared p.id p.functions).leave.Names p :=
    (View.names_declared hr p).moved _
  have hr₁ : s₁.view.Ranged := by
    rw [hm₁.view]
    exact (hr.declared p.id p.functions).leave
  have hanalyze : (analyze p).run s = (judgeProgram p).run s₁ := by
    rw [analyze, run_bind, hrun₁]
  rw [hanalyze]
  obtain ⟨s₂, hs₂, ⟨_, hrun₂, hchecked⟩ | ⟨e, -, -, hb⟩⟩ := ends_judgeProgram hm₁.sound hr₁ p
  · rw [hm₁.view] at hchecked
    exact ⟨s₂, hrun₂, hs₂, hchecked⟩
  · rw [hm₁.view] at hb
    rcases hb with ⟨-, hscope⟩ | ⟨g, -, hkeeps, f, hf, hknows⟩
    · obtain ⟨g, hg, -⟩ := hnames.program
      exact absurd hg (hscope g)
    · obtain ⟨k, t, hk⟩ := ((hnames.moved _).keeps hkeeps).functions f hf
      exact absurd hk (hknows k t)

def FailsAt (fs : List Function) (s : Session) (f : Function) (e : LowerError) (s' : Session) :
    Prop :=
  ∃ before after subs s₁, fs = before ++ f :: after ∧
    (lowerFunctions before).run s = (.ok subs, s₁) ∧ (lowerFunction f).run s₁ = (.error e, s')

theorem FailsAt.cons {fs : List Function} {f g : Function} {sub : Subroutine} {s₁ s' : Session}
    {e : LowerError} (hg : (lowerFunction g).run s = (.ok sub, s₁)) (h : FailsAt fs s₁ f e s') :
    FailsAt (g :: fs) s f e s' := by
  obtain ⟨before, after, subs, s₂, hfs, hbefore, hf⟩ := h
  refine ⟨g :: before, after, sub :: subs, s₂, by rw [hfs, List.cons_append], ?_, hf⟩
  rw [lowerFunctions, run_bind, hg]
  simp only [run_bind, hbefore, Attempt.run_pure]

theorem ends_lowerFunction (hs : s.Sound) (hr : s.view.Ranged) (f : Function) :
    (lowerFunction f).Ends s (fun _ s' => s.view.Keeps s'.view)
      (fun e s' => (∀ e', e ≠ .scope e') ∧ (s.view.Keeps s'.view ∨
        ∃ k, s.view.scopeOf f.mark.id = some k ∧ (s.view.enter k).Keeps s'.view)) := by
  by_cases h : ∃ k t, s.view.Knows f k t
  · obtain ⟨k, t, hk⟩ := h
    have hrun := lowerFunction_run hs hk
    split at hrun
    · rename_i sub hsub
      obtain ⟨s', hrun, hm⟩ := hrun
      have hkeeps : s.view.Keeps s'.view := by
        rw [hm.view]
        exact View.keeps_working _ _
      exact ⟨s', hm.sound, Or.inl ⟨sub, hrun, hkeeps⟩⟩
    · rename_i e hsub
      obtain ⟨s', hrun, hm⟩ := hrun
      refine ⟨s', hm.sound, Or.inr ⟨e, hrun, fun e' he => ?_, Or.inr ⟨k, hk.scope, ?_⟩⟩⟩
      · rw [he] at hsub
        exact Lower.subroutine_ne_scope _ _ _ _ hsub
      · rw [hm.view]
        exact View.keeps_working _ _
  · have hknows : ∀ k t, ¬ s.view.Knows f k t := fun k t hk => h ⟨k, t, hk⟩
    obtain ⟨a, hrun⟩ := enterFunction_fails hr LowerError.attribute .scope hknows
    refine ⟨s, hs, Or.inr ⟨.attribute a, ?_, nofun, Or.inl (View.Keeps.refl _)⟩⟩
    rw [lowerFunction, run_bind, hrun]

theorem ends_lowerFunctions (fs : List Function) (hs : s.Sound) (hr : s.view.Ranged) :
    (lowerFunctions fs).Ends s (fun _ s' => s.view.Keeps s'.view)
      (fun e s' => (∀ e', e ≠ .scope e') ∧ ∃ f, FailsAt fs s f e s' ∧ (s.view.Keeps s'.view ∨
        ∃ k, s.view.scopeOf f.mark.id = some k ∧ (s.view.enter k).Keeps s'.view)) := by
  induction fs generalizing s with
  | nil => exact ends_pure hs [] (View.Keeps.refl _)
  | cons f fs ih =>
    refine Ends.bind ((ends_lowerFunction hs hr f).imp (fun _ _ _ hq => hq) fun e s' hrun hb => ?_)
      fun sub s₁ hs₁ hrun hkeeps => ?_
    · exact ⟨hb.1, f, ⟨[], fs, [], s, rfl, rfl, hrun⟩, hb.2⟩
    · have hrest := ih hs₁ (hr.keeps hkeeps)
      refine Ends.bind (hrest.imp (fun _ _ _ hq => hq) fun e s' _ hb => ?_)
        fun subs s₂ hs₂ _ hkeeps₂ => ends_pure hs₂ (sub :: subs) (hkeeps.trans hkeeps₂)
      obtain ⟨he, f', hfails, hstack⟩ := hb
      refine ⟨he, f', hfails.cons hrun, ?_⟩
      rcases hstack with hstack | ⟨k, hk, hstack⟩
      · exact Or.inl (hkeeps.trans hstack)
      · exact Or.inr ⟨k, hkeeps.scopeOf ▸ hk, (hkeeps.enter k).trans hstack⟩

/-- How the third pass fails: on entering the program, or at one of its functions, with or without
the scope of that function. -/
def Mislowers (p : Program) (s : Session) (e : LowerError) (s' : Session) : Prop :=
  (∀ e', e ≠ .scope e') ∧ (s' = s ∨ ∃ g s₁ f, s.view.scopeOf p.id = some g ∧
    (enterProgram .attribute .scope p : Pass LowerError Unit).run s = (.ok (), s₁) ∧
    FailsAt p.functions s₁ f e s' ∧ ((s.view.enter g).Keeps s'.view ∨
      ∃ k, s.view.scopeOf f.mark.id = some k ∧ ((s.view.enter g).enter k).Keeps s'.view))

theorem ends_lowerProgram (hs : s.Sound) (hr : s.view.Ranged) (p : Program) :
    (lowerProgram p).Ends s (fun _ s' => s.view.Keeps s'.view) (Mislowers p s) := by
  refine Ends.bind ((ends_enterProgram hs hr LowerError.attribute .scope p).imp
    (fun _ _ _ hq => hq) fun e s' _ hb => ?_) fun _ s₁ hs₁ hrun₁ henter => ?_
  · obtain ⟨⟨a, rfl⟩, rfl, -⟩ := hb
    exact ⟨nofun, Or.inl rfl⟩
  obtain ⟨g, hscope, hv₁⟩ := henter
  have hr₁ : s₁.view.Ranged := by
    rw [hv₁]
    exact hr.enter (hr.scopeOf _ _ hscope)
  refine Ends.bind ((ends_lowerFunctions p.functions hs₁ hr₁).imp (fun _ _ _ hq => hq)
    fun e s' _ hb => ?_) fun subs s₂ hs₂ _ hkeeps => ?_
  · obtain ⟨he, f, hfails, hstack⟩ := hb
    rw [hv₁] at hstack
    exact ⟨he, Or.inr ⟨g, s₁, f, hscope, hrun₁, hfails, hstack⟩⟩
  rw [hv₁] at hkeeps
  have hstack : s₂.view.stack ≠ [] := by
    rw [hkeeps.stack]
    exact List.cons_ne_nil _ _
  have hleave := yields_leaveScope hs₂ LowerError.scope hstack
  refine Ends.bind hleave.ends fun _ s₃ hs₃ _ hq => ends_pure hs₃ (Assembly.mk subs) ?_
  rw [hq.1]
  exact hkeeps.leave

end Pass

end Asl
