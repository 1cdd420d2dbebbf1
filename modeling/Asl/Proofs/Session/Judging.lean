import Asl.Proofs.Session.Declaring

/-!
# The second and third pass

Judging a function notes what its body's report says under the identities of the nodes and appends
the diagnostics of the report. Lowering a function reads the view and leaves it as it is, so the
outcome of the third pass is a function of the view. Both passes enter a function by what the first
pass noted of it, and by nothing else.
-/
open scoped List

namespace Asl

namespace Report

def types (r : Report) : List (NodeId × Ty) := r.notes.map fun n => (n.node, n.type)

def places (r : Report) : List (NodeId × Bool) := r.notes.map fun n => (n.node, n.isPlace)

theorem map_fst_types (r : Report) : r.types.map Prod.fst = r.nodes := by
  simp only [types, nodes, List.map_map]
  rfl

theorem map_fst_places (r : Report) : r.places.map Prod.fst = r.nodes := by
  simp only [places, nodes, List.map_map]
  rfl

end Report

namespace View

def judged (v : View) (function : Option Ty) (r : Report) : View :=
  { v with
    function := function
    typeOf := writeAll v.typeOf r.types
    isPlace := writeAll v.isPlace r.places
    diagnostics := v.diagnostics ++ r.diagnostics }

def lowering (v : View) (t : Ty) : Lowering :=
  ⟨v.meaning, fun n => (v.typeOf n).elim (.error (.noType n)) .ok, t.result⟩

structure Knows (v : View) (f : Function) (k : ScopeId) (t : Ty) : Prop where
  scope : v.scopeOf f.mark.id = some k
  type : v.typeOf f.mark.id = some t
  lt_length : k < v.scopes.length

end View

namespace Session

theorem typeOf_eq (s : Session) (n : NodeId) :
    s.typeOf n = (s.view.typeOf n).elim (.error (.noType n)) .ok := by
  simp only [typeOf, AttributeTable.type, view]
  cases (s.attributes.get n).type <;> rfl

theorem typeOf_eq_ok_iff {s : Session} {n : NodeId} {t : Ty} :
    s.typeOf n = .ok t ↔ s.view.typeOf n = some t := by
  refine ⟨fun h => ?_, typeOf_eq_ok⟩
  rw [typeOf_eq] at h
  cases hv : s.view.typeOf n with
  | none =>
    rw [hv] at h
    cases h
  | some u =>
    rw [hv] at h
    cases h
    rfl

end Session

namespace Pass

open Attempt (run_bind)

variable {ε : Type} {s : Session}

theorem yields_record (hs : s.Sound) (ns : List Note) :
    Yields (record ns : Pass ε Unit) s { s.view with
      typeOf := writeAll s.view.typeOf (ns.map fun n => (n.node, n.type))
      isPlace := writeAll s.view.isPlace (ns.map fun n => (n.node, n.isPlace)) }
      fun _ _ => True := by
  induction ns generalizing s with
  | nil => exact yields_pure hs rfl () trivial
  | cons n ns ih =>
    refine (yields_intern hs n.type).bind fun id s₁ hm₁ hid => ?_
    refine (yields_setType hm₁.sound n.node hid).bind fun _ s₂ hm₂ _ => ?_
    refine (yields_setPlace hm₂.sound n.node n.isPlace).bind fun _ s₃ hm₃ _ => ?_
    have h := ih hm₃.sound
    rw [hm₃.view, hm₂.view, hm₁.view] at h
    exact h

theorem yields_get (hs : s.Sound) :
    Yields (Attempt.get : Pass ε Session) s s.view fun a s' => a = s ∧ s' = s :=
  ⟨s, s, rfl, ⟨hs, TypeTable.Extends.refl _, rfl⟩, rfl, rfl⟩

theorem yields_enterFunction_of_knows (hs : s.Sound) (ofAttribute : AttributeError → ε)
    (ofScope : ScopeError → ε) {f : Function} {k : ScopeId} {t : Ty} (hk : s.view.Knows f k t) :
    Yields (enterFunction ofAttribute ofScope f) s ((s.view.enter k).enterFunction t)
      fun t' _ => t' = t := by
  have hscope : s.attributes.scope f.mark.id = .ok k := by
    have h : (s.attributes.get f.mark.id).scope = some k := hk.scope
    simp only [AttributeTable.scope, h]
  obtain ⟨id, hget, hid⟩ := Option.map_eq_some_iff.1 hk.type
  have htype : s.attributes.type f.mark.id = .ok id := by
    simp only [AttributeTable.type, hget]
  have hmeans : s.Means id t := ⟨hs.attributes _ _ hget, hid⟩
  have hlt : k < s.scopes.scopes.length := by simpa [Session.view] using hk.lt_length
  let s' : Session := { s with scopes := { s.scopes with
    stack := k :: s.scopes.stack, function := some id } }
  have hsound : s'.Sound := by
    refine ⟨hs.types, hs.bindings, hs.attributes, fun id' h => ?_⟩
    cases h
    exact hmeans.1
  refine ⟨t, s', ?_, ⟨hsound, TypeTable.Extends.refl _, ?_⟩, rfl⟩
  · simp only [enterFunction, run_bind, Attempt.run_get, hscope, htype, Except.mapError,
      Attempt.run_ofExcept, run_enterScope hlt, Attempt.run_modify, Attempt.run_pure, hid]
    rfl
  · simp only [s', Session.view, View.enter, View.enterFunction, Option.map_some, hid]

theorem yields_enterProgram_of_scope (hs : s.Sound) (ofAttribute : AttributeError → ε)
    (ofScope : ScopeError → ε) {p : Program} {g : ScopeId} (hscope : s.view.scopeOf p.id = some g)
    (hg : g < s.view.scopes.length) :
    Yields (enterProgram ofAttribute ofScope p) s (s.view.enter g) fun _ _ => True := by
  have hattribute : s.attributes.scope p.id = .ok g := by
    have h : (s.attributes.get p.id).scope = some g := hscope
    simp only [AttributeTable.scope, h]
  obtain ⟨a, s', hrun, hm, -⟩ := yields_enterScope hs ofScope hg
  refine ⟨a, s', ?_, hm, trivial⟩
  simp only [enterProgram, run_bind, Attempt.run_get, hattribute, Except.mapError,
    Attempt.run_ofExcept]
  exact hrun

theorem yields_judgeFunction (hs : s.Sound) {f : Function} {k : ScopeId} {t : Ty}
    (hk : s.view.Knows f k t) :
    Yields (judgeFunction f) s (s.view.judged (some t)
      (Stmt.judgeAll ⟨(s.view.enter k).meaning, t.result⟩ f.body)) fun _ _ => True := by
  refine (yields_enterFunction_of_knows hs AnalysisError.attribute AnalysisError.scope hk).bind
    fun t' s₁ hm₁ ht' => ?_
  subst ht'
  have hmeaning : s₁.meaning = (s.view.enter k).meaning := by
    rw [Session.view_meaning, hm₁.view]
    rfl
  refine (yields_get hm₁.sound).bind fun a s' _ hres => ?_
  obtain ⟨ha, hs'⟩ := hres
  subst ha hs'
  simp only [hmeaning]
  generalize Stmt.judgeAll ⟨(s.view.enter k).meaning, t'.result⟩ f.body = r
  refine (yields_record hm₁.sound r.notes).bind fun _ s₂ hm₂ _ => ?_
  refine (yields_report hm₂.sound r.diagnostics).bind fun _ s₃ hm₃ _ => ?_
  have hv₃ : s₃.view = (s.view.judged (some t') r).enter k := by
    rw [hm₃.view, hm₂.view, hm₁.view]
    rfl
  have h := yields_leaveScope hm₃.sound AnalysisError.scope (by
    rw [hv₃]
    exact List.cons_ne_nil _ _)
  rw [hv₃] at h
  exact h

theorem lowerFunction_run (hs : s.Sound) {f : Function} {k : ScopeId} {t : Ty}
    (hk : s.view.Knows f k t) :
    match Lower.subroutine ((s.view.enter k).lowering t) t f with
    | .ok sub => ∃ s', (lowerFunction f).run s = (.ok sub, s') ∧
        s.Moves s' { s.view with function := some t }
    | .error e => ∃ s', (lowerFunction f).run s = (.error e, s') ∧
        s.Moves s' ((s.view.enter k).enterFunction t) := by
  obtain ⟨t', s₁, hrun, hm₁, rfl⟩ :=
    yields_enterFunction_of_knows hs LowerError.attribute LowerError.scope hk
  have hmeaning : s₁.meaning = (s.view.enter k).meaning := by
    rw [Session.view_meaning, hm₁.view]
    rfl
  have htypeOf : s₁.typeOf =
        fun n => ((s.view.enter k).typeOf n).elim (.error (.noType n)) .ok := by
    funext n
    rw [Session.typeOf_eq, hm₁.view]
    rfl
  have hstep : (lowerFunction f).run s =
      (do
        let sub ← Attempt.ofExcept (Lower.subroutine ((s.view.enter k).lowering t') t' f)
        leaveScope .scope
        return sub : Pass LowerError Subroutine).run s₁ := by
    rw [lowerFunction, run_bind, hrun]
    simp only [run_bind, Attempt.run_get, hmeaning, htypeOf, View.lowering]
  cases hsub : Lower.subroutine ((s.view.enter k).lowering t') t' f with
  | error e =>
    refine ⟨s₁, ?_, hm₁⟩
    rw [hstep, hsub]
    rfl
  | ok sub =>
    obtain ⟨u, s₂, hleave, hm₂, -⟩ := yields_leaveScope hm₁.sound LowerError.scope (by
      rw [hm₁.view]
      exact List.cons_ne_nil _ _)
    refine ⟨s₂, ?_, hm₁.trans ⟨hm₂.sound, hm₂.extends_, ?_⟩⟩
    · rw [hstep, hsub, run_bind, Attempt.run_ofExcept]
      simp only [run_bind, hleave, Attempt.run_pure]
    · rw [hm₂.view, hm₁.view]
      rfl

end Pass

def Program.report (p : Program) (f : Function) : Report := Stmt.judgeAll (p.context f) f.body

theorem Program.nodes_report (p : Program) (f : Function) :
    (p.report f).nodes <+ Stmt.idsAll f.body :=
  Stmt.nodes_judgeAll_sublist (p.context f) f.body

namespace View

def judgedAll (p : Program) : List Function → View → View
  | [], v => v
  | f :: fs, v => judgedAll p fs (v.judged (some f.type) (p.report f))

theorem scopes_judgedAll (p : Program) (fs : List Function) (v : View) :
    (v.judgedAll p fs).scopes = v.scopes := by
  induction fs generalizing v with
  | nil => rfl
  | cons f fs ih => exact ih _

theorem stack_judgedAll (p : Program) (fs : List Function) (v : View) :
    (v.judgedAll p fs).stack = v.stack := by
  induction fs generalizing v with
  | nil => rfl
  | cons f fs ih => exact ih _

theorem scopeOf_judgedAll (p : Program) (fs : List Function) (v : View) :
    (v.judgedAll p fs).scopeOf = v.scopeOf := by
  induction fs generalizing v with
  | nil => rfl
  | cons f fs ih => exact ih _

theorem typeOf_judgedAll (p : Program) (fs : List Function) (v : View) :
    (v.judgedAll p fs).typeOf = writeAll v.typeOf (fs.flatMap fun f => (p.report f).types) := by
  induction fs generalizing v with
  | nil => rfl
  | cons f fs ih =>
    rw [judgedAll, ih, List.flatMap_cons, writeAll_append]
    rfl

theorem isPlace_judgedAll (p : Program) (fs : List Function) (v : View) :
    (v.judgedAll p fs).isPlace = writeAll v.isPlace (fs.flatMap fun f => (p.report f).places) := by
  induction fs generalizing v with
  | nil => rfl
  | cons f fs ih =>
    rw [judgedAll, ih, List.flatMap_cons, writeAll_append]
    rfl

theorem diagnostics_judgedAll (p : Program) (fs : List Function) (v : View) :
    (v.judgedAll p fs).diagnostics =
      v.diagnostics ++ fs.flatMap fun f => (p.report f).diagnostics := by
  induction fs generalizing v with
  | nil => exact (List.append_nil _).symm
  | cons f fs ih =>
    rw [judgedAll, ih, List.flatMap_cons, judged, List.append_assoc]

structure Ready (v : View) (f : Function) (k : ScopeId) : Prop where
  knows : v.Knows f k f.type
  locals : v.scopes[k]? = some (Entry.meaning? f.entries)

/-- The only active scope is that of a program, and it declares the program's functions. -/
structure Inside (v : View) (p : Program) (g : ScopeId) : Prop where
  stack : v.stack = [g]
  globals : v.scopes[g]? = some (Entry.meaning? p.entries)

theorem Inside.meaning_enter {v : View} {p : Program} {g : ScopeId} (h : v.Inside p g)
    {f : Function} {k : ScopeId} (hk : v.Ready f k) : (v.enter k).meaning = p.meaning f := by
  funext x
  simp only [meaning, enter, h.stack, List.findSome?_cons, List.findSome?_nil, hk.locals,
    h.globals, Option.bind_some, Program.meaning]
  cases Entry.meaning? f.entries x with
  | some m => rfl
  | none => cases Entry.meaning? p.entries x <;> rfl

theorem Ready.judged {v : View} {f : Function} {k : ScopeId} (h : v.Ready f k) (t : Option Ty)
    {r : Report} (hn : f.mark.id ∉ r.nodes) : (v.judged t r).Ready f k where
  knows :=
    { scope := h.knows.scope
      type := by
        rw [← Report.map_fst_types] at hn
        exact (writeAll_of_notMem hn).trans h.knows.type
      lt_length := h.knows.lt_length }
  locals := h.locals

theorem Inside.judged {v : View} {p : Program} {g : ScopeId} (h : v.Inside p g) (t : Option Ty)
    (r : Report) : (v.judged t r).Inside p g := ⟨h.stack, h.globals⟩

end View

namespace Pass

variable {s : Session}

theorem yields_judgeFunctions {p : Program} {g : ScopeId} (fs : List Function) (hs : s.Sound)
    (hp : s.view.Inside p g) (hfs : ∀ f ∈ fs, ∃ k, s.view.Ready f k)
    (hids : (fs.flatMap Function.ids).Nodup) :
    Yields (judgeFunctions fs) s (s.view.judgedAll p fs) fun _ _ => True := by
  induction fs generalizing s with
  | nil => exact yields_pure hs rfl () trivial
  | cons f fs ih =>
    obtain ⟨k, hk⟩ := hfs f List.mem_cons_self
    rw [List.flatMap_cons, List.nodup_append] at hids
    obtain ⟨-, hrest, hdisjoint⟩ := hids
    have hjudge := yields_judgeFunction hs hk.knows
    rw [hp.meaning_enter hk] at hjudge
    refine hjudge.bind fun _ s₁ hm₁ _ => ?_
    have hv₁ : s₁.view = s.view.judged (some f.type) (p.report f) := hm₁.view
    have h := ih hm₁.sound (by rw [hv₁]; exact hp.judged _ _) (fun f' hf' => ?_) hrest
    · rw [hv₁] at h
      exact h
    · obtain ⟨k', hk'⟩ := hfs f' (List.mem_cons_of_mem _ hf')
      rw [hv₁]
      refine ⟨k', hk'.judged _ fun hmem => ?_⟩
      have hin : f'.mark.id ∈ f.ids :=
        List.mem_append_right _ ((p.nodes_report f).subset hmem)
      have hin' : f'.mark.id ∈ fs.flatMap Function.ids :=
        List.mem_flatMap.2 ⟨f', hf', List.mem_cons_self⟩
      exact hdisjoint _ hin _ hin' rfl

theorem lowerFunctions_run {p : Program} {g : ScopeId} {typeOf : NodeId → Option Ty}
    (fs : List Function) (hs : s.Sound) (hp : s.view.Inside p g)
    (hfs : ∀ f ∈ fs, ∃ k, s.view.Ready f k) (htypes : s.view.typeOf = typeOf) :
    match fs.mapM fun f => Lower.subroutine
      ⟨p.meaning f, fun n => (typeOf n).elim (.error (.noType n)) .ok, f.resultType⟩ f.type f with
    | .ok subs => ∃ s', (lowerFunctions fs).run s = (.ok subs, s') ∧ s'.Sound ∧
        s'.view.stack = [g]
    | .error e => ∃ s', (lowerFunctions fs).run s = (.error e, s') := by
  induction fs generalizing s with
  | nil => exact ⟨s, rfl, hs, hp.stack⟩
  | cons f fs ih =>
    obtain ⟨k, hk⟩ := hfs f List.mem_cons_self
    have hf := lowerFunction_run hs hk.knows
    have hΓ : (s.view.enter k).lowering f.type =
        ⟨p.meaning f, fun n => (typeOf n).elim (.error (.noType n)) .ok, f.resultType⟩ := by
      rw [View.lowering, hp.meaning_enter hk, Function.result_type, ← htypes]
      rfl
    rw [hΓ] at hf
    rw [List.mapM_cons]
    cases hsub : Lower.subroutine
        ⟨p.meaning f, fun n => (typeOf n).elim (.error (.noType n)) .ok, f.resultType⟩ f.type f with
    | error e =>
      rw [hsub] at hf
      obtain ⟨s', hrun, -⟩ := hf
      refine ⟨s', ?_⟩
      rw [lowerFunctions, Attempt.run_bind, hrun]
    | ok sub =>
      rw [hsub] at hf
      obtain ⟨s₁, hrun, hm₁⟩ := hf
      have h := ih hm₁.sound (by rw [hm₁.view]; exact ⟨hp.stack, hp.globals⟩)
        (fun f' hf' => by
          obtain ⟨k', hk'⟩ := hfs f' (List.mem_cons_of_mem _ hf')
          rw [hm₁.view]
          exact ⟨k', ⟨⟨hk'.knows.scope, hk'.knows.type, hk'.knows.lt_length⟩, hk'.locals⟩⟩)
        (by rw [hm₁.view]; exact htypes)
      cases hmap : fs.mapM fun f => Lower.subroutine
          ⟨p.meaning f, fun n => (typeOf n).elim (.error (.noType n)) .ok,
            f.resultType⟩ f.type f with
      | error e =>
        rw [hmap] at h
        obtain ⟨s', hrun'⟩ := h
        refine ⟨s', ?_⟩
        rw [lowerFunctions, Attempt.run_bind, hrun]
        simp only [Attempt.run_bind, hrun']
      | ok subs =>
        rw [hmap] at h
        obtain ⟨s', hrun', hsound, hstack⟩ := h
        refine ⟨s', ?_, hsound, hstack⟩
        rw [lowerFunctions, Attempt.run_bind, hrun]
        simp only [Attempt.run_bind, hrun', Attempt.run_pure]

end Pass

end Asl
