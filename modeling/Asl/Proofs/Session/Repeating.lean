import Asl.Proofs.Lowering.Agreement
import Asl.Proofs.Session.Analysis
import Asl.Proofs.Session.Ranged

/-!
# The passes in a used session

A program is analysed twice, in a fresh session and in one that other programs have been through.
The second run opens the same scopes behind the older ones and notes the same types, so it has every
note of the first run, with the numbers of scopes shifted. It also has older notes, of nodes with
the same identities among them. No pass reads these: what a pass looks up of a program, the first
run has noted before. Nothing is assumed of the identities of the nodes of a tree; where two of its
nodes share one, both runs read what was noted last.
-/
namespace Asl

/-- The diagnostics that do not depend on what stands in the first scope of a session. -/
def Diagnostic.besidesMain (ds : List Diagnostic) : List Diagnostic :=
  ds.filter fun d => d.fault ≠ .noMain

theorem Diagnostic.besidesMain_append (ds ds' : List Diagnostic) :
    besidesMain (ds ++ ds') = besidesMain ds ++ besidesMain ds' := List.filter_append ..

theorem Diagnostic.besidesMain_unless (b : Bool) (n : NodeId) :
    besidesMain (if b then [] else [⟨⟨n, 0, 0⟩, .noMain⟩]) = [] := by
  cases b <;> rfl

namespace View

open Diagnostic (besidesMain besidesMain_append)

/-- On top of a view `b`, a run has come to the view `v` by what led another from a fresh session to
the view `w`. -/
structure Repeats (b w v : View) : Prop where
  scopes : v.scopes = b.scopes ++ w.scopes
  stack : v.stack = w.stack.map (b.scopes.length + ·)
  scopeOf : ∀ n k, w.scopeOf n = some k → v.scopeOf n = some (b.scopes.length + k)
  typeOf : ∀ n t, w.typeOf n = some t → v.typeOf n = some t
  diagnostics : ∃ added, v.diagnostics = b.diagnostics ++ added ∧
    besidesMain added = besidesMain w.diagnostics

namespace Repeats

variable {b w v : View}

theorem getElem?_scopes (h : b.Repeats w v) (k : ScopeId) :
    v.scopes[b.scopes.length + k]? = w.scopes[k]? := by
  rw [h.scopes, List.getElem?_append_right (Nat.le_add_right _ _), Nat.add_sub_cancel_left]

theorem lt_length (h : b.Repeats w v) {k : ScopeId} (hk : k < w.scopes.length) :
    b.scopes.length + k < v.scopes.length := by
  rw [h.scopes, List.length_append]
  exact Nat.add_lt_add_left hk _

theorem meaning (h : b.Repeats w v) : v.meaning = w.meaning := by
  funext x
  have hf : ((fun k => (v.scopes[k]?).bind (· x)) ∘ (b.scopes.length + ·)) =
      fun k => (w.scopes[k]?).bind (· x) := by
    funext k
    simp only [Function.comp_apply, h.getElem?_scopes]
  rw [View.meaning, View.meaning, h.stack, List.findSome?_map, hf]

theorem knows (h : b.Repeats w v) {f : Function} {k : ScopeId} {t : Ty} (hk : w.Knows f k t) :
    v.Knows f (b.scopes.length + k) t :=
  ⟨h.scopeOf _ _ hk.scope, h.typeOf _ _ hk.type, h.lt_length hk.lt_length⟩

theorem enter (h : b.Repeats w v) (k : ScopeId) :
    b.Repeats (w.enter k) (v.enter (b.scopes.length + k)) :=
  ⟨h.scopes, congrArg (_ :: ·) h.stack, h.scopeOf, h.typeOf, h.diagnostics⟩

theorem leave (h : b.Repeats w v) : b.Repeats w.leave v.leave :=
  ⟨h.scopes, by rw [View.leave, h.stack, ← List.map_tail]; rfl, h.scopeOf, h.typeOf, h.diagnostics⟩

theorem stack_ne_nil (h : b.Repeats w v) (hw : w.stack ≠ []) : v.stack ≠ [] := by
  rw [h.stack]
  exact fun hnil => hw (List.map_eq_nil_iff.1 hnil)

theorem working (h : b.Repeats w v) (t t' : Option Ty) :
    b.Repeats { w with function := t } { v with function := t' } :=
  ⟨h.scopes, h.stack, h.scopeOf, h.typeOf, h.diagnostics⟩

theorem report (h : b.Repeats w v) {ds ds' : List Diagnostic}
    (hds : besidesMain ds' = besidesMain ds) : b.Repeats (w.report ds) (v.report ds') := by
  refine ⟨h.scopes, h.stack, h.scopeOf, h.typeOf, ?_⟩
  obtain ⟨added, hadded, hsame⟩ := h.diagnostics
  refine ⟨added ++ ds', ?_, ?_⟩
  · rw [View.report, hadded, List.append_assoc]
  · rw [View.report, besidesMain_append, besidesMain_append, hsame, hds]

theorem judged (h : b.Repeats w v) (t t' : Option Ty) (r : Report) :
    b.Repeats (w.judged t r) (v.judged t' r) := by
  obtain ⟨hscopes, hstack, hscopeOf, -, hdiagnostics⟩ :=
    h.report (Eq.refl (besidesMain r.diagnostics))
  exact ⟨hscopes, hstack, hscopeOf, fun n t ht => writeAll_mono h.typeOf ht, hdiagnostics⟩

end Repeats

theorem notedScopes_add (n k : Nat) (fs : List Function) :
    Function.notedScopes (n + k) fs =
      (Function.notedScopes k fs).map fun x => (x.1, n + x.2) := by
  induction fs generalizing k with
  | nil => rfl
  | cons f fs ih =>
    have htail := ih (k + 1)
    rw [← Nat.add_assoc] at htail
    simp only [Function.notedScopes, List.zipIdx_cons, List.map_cons] at htail ⊢
    rw [htail]

theorem scopeOf_fresh (n : NodeId) : Session.fresh.view.scopeOf n = none := by
  simp [Session.view, Session.fresh, AttributeTable.empty, AttributeTable.get]

theorem typeOf_fresh (n : NodeId) : Session.fresh.view.typeOf n = none := by
  simp [Session.view, Session.fresh, AttributeTable.empty, AttributeTable.get]

theorem repeats_declared {b : View} (hb : b.stack = []) (root : NodeId) (fs : List Function) :
    b.Repeats (Session.fresh.view.declared root fs) (b.declared root fs) where
  scopes := rfl
  stack := by
    rw [declared, hb]
    rfl
  scopeOf n k hk := by
    have hshift : (root, b.scopes.length) :: Function.notedScopes (b.scopes.length + 1) fs =
        ((root, 0) :: Function.notedScopes 1 fs).map fun x => (x.1, b.scopes.length + x.2) := by
      rw [notedScopes_add, List.map_cons]
      rfl
    rw [declared, hshift]
    refine writeAll_map (fun m j hj => ?_) hk
    rw [scopeOf_fresh] at hj
    cases hj
  typeOf n t ht := by
    refine writeAll_mono (fun m j hj => ?_) ht
    rw [typeOf_fresh] at hj
    cases hj
  diagnostics := ⟨_, rfl, rfl⟩

/-- A view has the notes that the later passes ask for before they judge a body. -/
structure Names (v : View) (p : Program) : Prop where
  program : ∃ g, v.scopeOf p.id = some g ∧ g < v.scopes.length
  functions : ∀ f ∈ p.functions, ∃ k t, v.Knows f k t
  declarations : ∀ f ∈ p.functions, ∀ d ∈ f.declarations, (v.typeOf d.type.mark.id).isSome

/-- A view has a note for every node that a judgement of a body leaves a note for. -/
def Types (v : View) (body : List Stmt) : Prop :=
  ∃ Γ, ∀ n ∈ (Stmt.judgeAll Γ body).nodes, (v.typeOf n).isSome

/-- A later view of the same scopes, where no node has lost its type. -/
structure Keeps (v w : View) : Prop where
  scopes : w.scopes = v.scopes
  stack : w.stack = v.stack
  scopeOf : w.scopeOf = v.scopeOf
  typeOf : ∀ n, (v.typeOf n).isSome → (w.typeOf n).isSome

theorem Keeps.refl (v : View) : v.Keeps v := ⟨rfl, rfl, rfl, fun _ h => h⟩

theorem Keeps.trans {u v w : View} (h : u.Keeps v) (h' : v.Keeps w) : u.Keeps w :=
  ⟨h'.scopes.trans h.scopes, h'.stack.trans h.stack, h'.scopeOf.trans h.scopeOf,
    fun n hn => h'.typeOf n (h.typeOf n hn)⟩

theorem keeps_judged (v : View) (t : Option Ty) (r : Report) : v.Keeps (v.judged t r) :=
  ⟨rfl, rfl, rfl, fun _ hn => isSome_writeAll.2 (Or.inl hn)⟩

theorem Keeps.knows {v w : View} (h : v.Keeps w) {f : Function} {k : ScopeId} {t : Ty}
    (hk : v.Knows f k t) : ∃ t', w.Knows f k t' := by
  have hsome : (v.typeOf f.mark.id).isSome := Option.isSome_of_eq_some hk.type
  obtain ⟨t', ht'⟩ := Option.isSome_iff_exists.1 (h.typeOf _ hsome)
  exact ⟨t', by rw [h.scopeOf, hk.scope], ht', by rw [h.scopes]; exact hk.lt_length⟩

theorem Names.keeps {v w : View} {p : Program} (hp : v.Names p) (h : v.Keeps w) : w.Names p where
  program := by
    rw [h.scopeOf, h.scopes]
    exact hp.program
  functions f hf := by
    obtain ⟨k, t, hk⟩ := hp.functions f hf
    exact ⟨k, h.knows hk⟩
  declarations f hf d hd := h.typeOf _ (hp.declarations f hf d hd)

theorem Names.moved {v : View} {p : Program} (hp : v.Names p) (stack : List ScopeId) :
    ({ v with stack := stack } : View).Names p where
  program := hp.program
  functions f hf := by
    obtain ⟨k, t, hk⟩ := hp.functions f hf
    exact ⟨k, t, hk.scope, hk.type, hk.lt_length⟩
  declarations := hp.declarations

theorem Types.keeps {v w : View} {body : List Stmt} (hb : v.Types body) (h : v.Keeps w) :
    w.Types body := by
  obtain ⟨Γ, hΓ⟩ := hb
  exact ⟨Γ, fun n hn => h.typeOf n (hΓ n hn)⟩

theorem types_judged (v : View) (t : Option Ty) (Γ : Context) (body : List Stmt) :
    (v.judged t (Stmt.judgeAll Γ body)).Types body := by
  refine ⟨Γ, fun n hn => isSome_writeAll.2 (Or.inr ?_)⟩
  rwa [Report.map_fst_types]

theorem names_declared {b : View} (hb : b.Ranged) (p : Program) :
    (b.declared p.id p.functions).Names p := by
  have hscope : ∀ n ∈ p.id :: p.functions.map (·.mark.id), ∃ k,
      (b.declared p.id p.functions).scopeOf n = some k ∧
        k < (b.declared p.id p.functions).scopes.length := by
    intro n hn
    rw [← Function.map_fst_notedScopes (b.scopes.length + 1),
      ← List.map_cons (f := Prod.fst) (a := (p.id, b.scopes.length))] at hn
    obtain ⟨k, hk⟩ := Option.isSome_iff_exists.1 (isSome_writeAll (g := b.scopeOf).2 (Or.inr hn))
    exact ⟨k, hk, (hb.declared p.id p.functions).scopeOf n k hk⟩
  have htype : ∀ f ∈ p.functions, ∀ x ∈ f.notedTypes,
      ((b.declared p.id p.functions).typeOf x.1).isSome := by
    intro f hf x hx
    refine isSome_writeAll.2 (Or.inr (List.mem_map.2 ⟨x, ?_, rfl⟩))
    exact List.mem_flatMap.2 ⟨f, hf, hx⟩
  refine ⟨hscope p.id List.mem_cons_self, fun f hf => ?_, fun f hf d hd => ?_⟩
  · obtain ⟨k, hk, hlt⟩ := hscope f.mark.id
      (List.mem_cons_of_mem _ (List.mem_map.2 ⟨f, hf, rfl⟩))
    obtain ⟨t, ht⟩ := Option.isSome_iff_exists.1
      (htype f hf (f.mark.id, f.type) (List.mem_append_right _ List.mem_cons_self))
    exact ⟨k, t, hk, ht, hlt⟩
  · refine htype f hf (d.type.mark.id, .ofSpec d.type.spec) (List.mem_append_left _ ?_)
    exact List.mem_append_left _ (List.mem_append_right _ (List.mem_map.2 ⟨d, hd, rfl⟩))

theorem Repeats.subroutine_eq {b w v : View} (h : b.Repeats w v) {f : Function}
    (hd : ∀ d ∈ f.declarations, (w.typeOf d.type.mark.id).isSome) (hb : w.Types f.body) (t : Ty) :
    Lower.subroutine (v.lowering t) t f = Lower.subroutine (w.lowering t) t f := by
  have hagree : ∀ ns : List NodeId, (∀ n ∈ ns, (w.typeOf n).isSome) →
      (w.lowering t).AgreesOn (v.lowering t) ns := by
    intro ns hns
    refine ⟨h.meaning, rfl, fun n hn => ?_⟩
    obtain ⟨u, hu⟩ := Option.isSome_iff_exists.1 (hns n hn)
    simp only [lowering, hu, h.typeOf n u hu]
  obtain ⟨Γ, hΓ⟩ := hb
  refine Lower.subroutine_congr (hagree _ fun n hn => ?_) (hagree _ hΓ)
  obtain ⟨d, hmem, rfl⟩ := List.mem_map.1 hn
  exact hd d hmem

end View

/-- Two sound sessions of which the second has come, on top of a view, to what the first shows. -/
structure Session.Repeats (b : View) (s₀ s : Session) : Prop where
  first : s₀.Sound
  second : s.Sound
  view : b.Repeats s₀.view s.view

namespace Pass

open Attempt (run_bind)
open Diagnostic (besidesMain_unless)

variable {ε α β : Type} {b : View} {s₀ s : Session}

/-- A pass gives the same value in both sessions; `Q` holds of it and of the view of the first. -/
def Twice (p : Pass ε α) (b : View) (s₀ s : Session) (Q : α → View → Prop) : Prop :=
  ∃ a s₀' s', p.run s₀ = (.ok a, s₀') ∧ p.run s = (.ok a, s') ∧ Session.Repeats b s₀' s' ∧
    Q a s₀'.view

/-- A pass gives the same value in both sessions, or fails in both with the same error. -/
def Alike (p : Pass ε α) (b : View) (s₀ s : Session) (Q : α → View → Prop) : Prop :=
  p.Twice b s₀ s Q ∨ ∃ e s₀' s', p.run s₀ = (.error e, s₀') ∧ p.run s = (.error e, s')

theorem Twice.bind {p : Pass ε α} {f : α → Pass ε β} {Q : α → View → Prop} {R : β → View → Prop}
    (hp : p.Twice b s₀ s Q)
    (hf : ∀ a s₀' s', Session.Repeats b s₀' s' → Q a s₀'.view → (f a).Twice b s₀' s' R) :
    (p >>= f).Twice b s₀ s R := by
  obtain ⟨a, s₀', s', hrun₀, hrun, hr, hq⟩ := hp
  obtain ⟨c, s₀'', s'', hrun₀', hrun', hr', hc⟩ := hf a s₀' s' hr hq
  refine ⟨c, s₀'', s'', ?_, ?_, hr', hc⟩
  · rw [run_bind, hrun₀]
    exact hrun₀'
  · rw [run_bind, hrun]
    exact hrun'

theorem Alike.bind {p : Pass ε α} {f : α → Pass ε β} {Q : α → View → Prop} {R : β → View → Prop}
    (hp : p.Alike b s₀ s Q)
    (hf : ∀ a s₀' s', Session.Repeats b s₀' s' → Q a s₀'.view → (f a).Alike b s₀' s' R) :
    (p >>= f).Alike b s₀ s R := by
  rcases hp with ⟨a, s₀', s', hrun₀, hrun, hr, hq⟩ | ⟨e, s₀', s', hrun₀, hrun⟩
  · rcases hf a s₀' s' hr hq with
      ⟨c, s₀'', s'', hrun₀', hrun', hr', hc⟩ | ⟨e, s₀'', s'', hrun₀', hrun'⟩
    · refine Or.inl ⟨c, s₀'', s'', ?_, ?_, hr', hc⟩
      · rw [run_bind, hrun₀]
        exact hrun₀'
      · rw [run_bind, hrun]
        exact hrun'
    · refine Or.inr ⟨e, s₀'', s'', ?_, ?_⟩
      · rw [run_bind, hrun₀]
        exact hrun₀'
      · rw [run_bind, hrun]
        exact hrun'
  · refine Or.inr ⟨e, s₀', s', ?_, ?_⟩
    · rw [run_bind, hrun₀]
    · rw [run_bind, hrun]

theorem Alike.outcome_eq {p : Pass ε α} {Q : α → View → Prop} (hp : p.Alike b s₀ s Q) :
    (p.run s).1 = (p.run s₀).1 := by
  rcases hp with ⟨a, s₀', s', hrun₀, hrun, -⟩ | ⟨e, s₀', s', hrun₀, hrun⟩
  · rw [hrun, hrun₀]
  · rw [hrun, hrun₀]

theorem twice_pure (h : Session.Repeats b s₀ s) (a : α) {Q : α → View → Prop} (hq : Q a s₀.view) :
    (pure a : Pass ε α).Twice b s₀ s Q := ⟨a, s₀, s, rfl, rfl, h, hq⟩

theorem twice_of_yields {p : Pass ε Unit} {w v : View} {Q₀ Q : Unit → Session → Prop}
    (h₀ : Yields p s₀ w Q₀) (h : Yields p s v Q) (hr : b.Repeats w v) :
    p.Twice b s₀ s fun _ u => u = w := by
  obtain ⟨a₀, s₀', hrun₀, hm₀, -⟩ := h₀
  obtain ⟨a, s', hrun, hm, -⟩ := h
  refine ⟨a, s₀', s', hrun₀, hrun, ⟨hm₀.sound, hm.sound, ?_⟩, hm₀.view⟩
  rw [hm₀.view, hm.view]
  exact hr

theorem twice_enterProgram (h : Session.Repeats b s₀ s) (ofAttribute : AttributeError → ε)
    (ofScope : ScopeError → ε) {p : Program} {g : ScopeId} (hscope : s₀.view.scopeOf p.id = some g)
    (hg : g < s₀.view.scopes.length) :
    (enterProgram ofAttribute ofScope p).Twice b s₀ s fun _ w => w = s₀.view.enter g :=
  twice_of_yields (yields_enterProgram_of_scope h.first ofAttribute ofScope hscope hg)
    (yields_enterProgram_of_scope h.second ofAttribute ofScope (h.view.scopeOf _ _ hscope)
      (h.view.lt_length hg))
    (h.view.enter g)

theorem twice_leaveScope (h : Session.Repeats b s₀ s) (ofScope : ScopeError → ε)
    (hstack : s₀.view.stack ≠ []) :
    (leaveScope ofScope).Twice b s₀ s fun _ w => w = s₀.view.leave :=
  twice_of_yields (yields_leaveScope h.first ofScope hstack)
    (yields_leaveScope h.second ofScope (h.view.stack_ne_nil hstack)) h.view.leave

theorem twice_judgeFunction (h : Session.Repeats b s₀ s) {f : Function} {k : ScopeId} {t : Ty}
    (hk : s₀.view.Knows f k t) :
    (judgeFunction f).Twice b s₀ s fun _ w => s₀.view.Keeps w ∧ w.Types f.body := by
  have hjudge := yields_judgeFunction h.second (h.view.knows hk)
  rw [(h.view.enter k).meaning] at hjudge
  obtain ⟨a, s₀', s', hrun₀, hrun, hr, hw⟩ :=
    twice_of_yields (yields_judgeFunction h.first hk) hjudge
    (h.view.judged _ _ _)
  refine ⟨a, s₀', s', hrun₀, hrun, hr, ?_⟩
  rw [hw]
  exact ⟨View.keeps_judged _ _ _, View.types_judged _ _ _ _⟩

theorem twice_judgeFunctions (fs : List Function) (h : Session.Repeats b s₀ s)
    (hfs : ∀ f ∈ fs, ∃ k t, s₀.view.Knows f k t) :
    (judgeFunctions fs).Twice b s₀ s fun _ w => s₀.view.Keeps w ∧ ∀ f ∈ fs, w.Types f.body := by
  induction fs generalizing s₀ s with
  | nil => exact twice_pure h () ⟨View.Keeps.refl _, fun _ hf => absurd hf List.not_mem_nil⟩
  | cons f fs ih =>
    obtain ⟨⟨k, t, hk⟩, hfs⟩ := List.forall_mem_cons.1 hfs
    refine (twice_judgeFunction h hk).bind fun _ s₁ s₁' h₁ hf => ?_
    obtain ⟨hkeeps, hbody⟩ := hf
    have hrest : ∀ f ∈ fs, ∃ k t, s₁.view.Knows f k t := by
      intro f' hf'
      obtain ⟨k', t', hk'⟩ := hfs f' hf'
      exact ⟨k', hkeeps.knows hk'⟩
    obtain ⟨a, s₂, s₂', hrun₀, hrun, h₂, hkeeps₂, hbodies⟩ := ih h₁ hrest
    exact ⟨a, s₂, s₂', hrun₀, hrun, h₂, hkeeps.trans hkeeps₂,
      List.forall_mem_cons.2 ⟨hbody.keeps hkeeps₂, hbodies⟩⟩

theorem twice_judgeProgram (h : Session.Repeats b s₀ s) {p : Program} (hp : s₀.view.Names p) :
    (judgeProgram p).Twice b s₀ s fun _ w =>
      s₀.view.Keeps w ∧ ∀ f ∈ p.functions, w.Types f.body := by
  obtain ⟨g, hscope, hg⟩ := hp.program
  refine (twice_enterProgram h AnalysisError.attribute AnalysisError.scope hscope hg).bind
    fun _ s₁ s₁' h₁ hw₁ => ?_
  have hfs : ∀ f ∈ p.functions, ∃ k t, s₁.view.Knows f k t := by
    rw [hw₁]
    exact (hp.moved _).functions
  refine (twice_judgeFunctions p.functions h₁ hfs).bind fun _ s₂ s₂' h₂ hw₂ => ?_
  obtain ⟨hkeeps, hbodies⟩ := hw₂
  rw [hw₁] at hkeeps
  have hstack : s₂.view.stack ≠ [] := by
    rw [hkeeps.stack]
    exact List.cons_ne_nil _ _
  -- The first scope of the used session is another program's, so only the diagnostics may differ.
  have hrest := twice_of_yields (yields_lookForMain h₂.first hstack p)
    (yields_lookForMain h₂.second (h₂.view.stack_ne_nil hstack) p)
    (h₂.view.report (by rw [besidesMain_unless, besidesMain_unless])).leave
  obtain ⟨a, s₃, s₃', hrun₀, hrun, h₃, hw₃⟩ := hrest
  refine ⟨a, s₃, s₃', hrun₀, hrun, h₃, ?_, ?_⟩
  · rw [hw₃]
    refine ⟨hkeeps.scopes, ?_, hkeeps.scopeOf, hkeeps.typeOf⟩
    rw [View.leave, View.report, hkeeps.stack]
    rfl
  · rw [hw₃]
    exact hbodies

theorem twice_analyze (hs : s.Sound) (hstack : s.view.stack = []) (p : Program) :
    (analyze p).Twice s.view .fresh s fun _ w =>
      w.stack = [] ∧ w.Names p ∧ ∀ f ∈ p.functions, w.Types f.body := by
  have hdeclare := twice_of_yields (yields_declareProgram Session.sound_fresh p)
    (yields_declareProgram hs p) (View.repeats_declared hstack p.id p.functions).leave
  refine hdeclare.bind fun _ s₁ s₁' h₁ hw₁ => ?_
  have hnames : s₁.view.Names p := by
    rw [hw₁]
    exact (View.names_declared View.ranged_fresh p).moved _
  obtain ⟨a, s₂, s₂', hrun₀, hrun, h₂, hkeeps, hbodies⟩ := twice_judgeProgram h₁ hnames
  refine ⟨a, s₂, s₂', hrun₀, hrun, h₂, ?_, hnames.keeps hkeeps, hbodies⟩
  rw [hkeeps.stack, hw₁]
  rfl

theorem alike_lowerFunction (h : Session.Repeats b s₀ s) {f : Function} {k : ScopeId} {t : Ty}
    (hk : s₀.view.Knows f k t) (hd : ∀ d ∈ f.declarations, (s₀.view.typeOf d.type.mark.id).isSome)
    (hb : s₀.view.Types f.body) :
    (lowerFunction f).Alike b s₀ s fun _ w => s₀.view.Keeps w := by
  have hrun₀ := lowerFunction_run h.first hk
  have hrun := lowerFunction_run h.second (h.view.knows hk)
  rw [(h.view.enter k).subroutine_eq hd hb t] at hrun
  cases hsub : Lower.subroutine ((s₀.view.enter k).lowering t) t f with
  | error e =>
    rw [hsub] at hrun₀ hrun
    obtain ⟨s₀', hrun₀, -⟩ := hrun₀
    obtain ⟨s', hrun, -⟩ := hrun
    exact Or.inr ⟨e, s₀', s', hrun₀, hrun⟩
  | ok sub =>
    rw [hsub] at hrun₀ hrun
    obtain ⟨s₀', hrun₀, hm₀⟩ := hrun₀
    obtain ⟨s', hrun, hm⟩ := hrun
    refine Or.inl ⟨sub, s₀', s', hrun₀, hrun, ⟨hm₀.sound, hm.sound, ?_⟩, ?_⟩
    · rw [hm₀.view, hm.view]
      exact h.view.working _ _
    · rw [hm₀.view]
      exact ⟨rfl, rfl, rfl, fun _ hn => hn⟩

theorem alike_lowerFunctions {p : Program} (fs : List Function) (hfs : fs ⊆ p.functions)
    (h : Session.Repeats b s₀ s) (hp : s₀.view.Names p) (hb : ∀ f ∈ fs, s₀.view.Types f.body) :
    (lowerFunctions fs).Alike b s₀ s fun _ w => s₀.view.Keeps w := by
  induction fs generalizing s₀ s with
  | nil => exact Or.inl (twice_pure h [] (View.Keeps.refl _))
  | cons f fs ih =>
    obtain ⟨hf, hrest⟩ := List.cons_subset.1 hfs
    obtain ⟨hbody, hbodies⟩ := List.forall_mem_cons.1 hb
    obtain ⟨k, t, hk⟩ := hp.functions f hf
    refine (alike_lowerFunction h hk (hp.declarations f hf) hbody).bind
      fun sub s₁ s₁' h₁ hkeeps => ?_
    have hfs := ih hrest h₁ (hp.keeps hkeeps) fun f' hf' => (hbodies f' hf').keeps hkeeps
    exact hfs.bind fun subs s₂ s₂' h₂ hkeeps₂ =>
      Or.inl (twice_pure h₂ (sub :: subs) (hkeeps.trans hkeeps₂))

theorem alike_lowerProgram (h : Session.Repeats b s₀ s) {p : Program} (hp : s₀.view.Names p)
    (hb : ∀ f ∈ p.functions, s₀.view.Types f.body) :
    (lowerProgram p).Alike b s₀ s fun _ _ => True := by
  obtain ⟨g, hscope, hg⟩ := hp.program
  have henter := twice_enterProgram h LowerError.attribute LowerError.scope hscope hg
  refine Alike.bind (Or.inl henter) fun _ s₁ s₁' h₁ hw₁ => ?_
  have hnames : s₁.view.Names p := by
    rw [hw₁]
    exact hp.moved _
  have hbodies : ∀ f ∈ p.functions, s₁.view.Types f.body := by
    rw [hw₁]
    exact hb
  have hfs := alike_lowerFunctions p.functions (List.Subset.refl _) h₁ hnames hbodies
  refine hfs.bind fun subs s₂ s₂' h₂ hkeeps => ?_
  have hstack : s₂.view.stack ≠ [] := by
    rw [hkeeps.stack, hw₁]
    exact List.cons_ne_nil _ _
  refine Alike.bind (Or.inl (twice_leaveScope h₂ LowerError.scope hstack)) fun _ s₃ s₃' h₃ _ => ?_
  exact Or.inl (twice_pure h₃ (Assembly.mk subs) trivial)

end Pass

end Asl
