import Asl.Proofs.Session.Judging
import Mathlib.Data.List.Flatten
import Mathlib.Data.List.Perm.Basic

/-!
# What an analysis leaves behind

A program whose nodes have distinct identities is analysed in a fresh session without a failure.
The diagnostics are then those that the tree of the program has by itself, every note of every body
and every written type can be read back, and the third pass gives what lowering the functions one by
one gives. These facts are all that is said of sessions elsewhere.
-/
open scoped List

namespace Asl

def Program.lowering (p : Program) (s : Session) (f : Function) : Lowering :=
  ⟨p.meaning f, s.typeOf, f.resultType⟩

def Program.lowered (p : Program) (s : Session) : Except LowerError Assembly :=
  (p.functions.mapM fun f => Lower.subroutine (p.lowering s f) f.type f).map Assembly.mk

structure Program.Analyzed (p : Program) (s : Session) : Prop where
  diagnostics : s.diagnostics = p.diagnostics
  note : ∀ f ∈ p.functions, ∀ n ∈ (p.report f).notes, s.typeOf n.node = .ok n.type
  written : ∀ f ∈ p.functions, ∀ w ∈ f.writtenTypes, s.typeOf w.1 = .ok w.2
  lower : ((Pass.lowerProgram p).run s).1 = p.lowered s

theorem Program.Analyzed.typeOf_declaration {p : Program} {s : Session} (hs : p.Analyzed s)
    {f : Function} (hf : f ∈ p.functions) {d : Declaration} (hd : d ∈ f.declarations) :
    s.typeOf d.type.mark.id = .ok (.ofSpec d.type.spec) := by
  refine hs.written f hf (d.type.mark.id, .ofSpec d.type.spec) ?_
  exact List.mem_append_left _ (List.mem_append_right _ (List.mem_map.2 ⟨d, hd, rfl⟩))

/-- The nodes of a function that get a type, in the order in which they stand in it. -/
def Function.typedNodes (p : Program) (f : Function) : List NodeId :=
  f.mark.id :: f.params.map (·.type.mark.id) ++ (f.result.map (·.mark.id)).toList ++
    f.declarations.map (·.type.mark.id) ++ (p.report f).nodes

theorem Function.typedNodes_sublist (p : Program) (f : Function) :
    f.typedNodes p <+ f.ids := by
  have hparams : f.params.map (·.type.mark.id) <+ f.params.flatMap Parameter.ids := by
    rw [List.map_eq_flatMap]
    exact List.Sublist.flatMap_right _ fun p _ => List.sublist_cons_self _ _
  have hdeclarations :
      f.declarations.map (·.type.mark.id) <+ f.declarations.flatMap Declaration.ids := by
    rw [List.map_eq_flatMap]
    exact List.Sublist.flatMap_right _ fun d _ => List.sublist_append_right _ _
  have hbody := p.nodes_report f
  refine (((List.Sublist.append ?_ (List.Sublist.refl _)).append hdeclarations).append hbody)
  exact (hparams.trans (List.sublist_cons_self _ _)).cons_cons _

theorem Function.noted_perm (p : Program) (f : Function) :
    (f.notedTypes ++ (p.report f).types).map Prod.fst ~ f.typedNodes p := by
  have hresult : ((f.result.map fun t => (t.mark.id, Ty.ofSpec t.spec)).toList).map Prod.fst =
      (f.result.map (·.mark.id)).toList := by
    cases f.result <;> rfl
  rw [List.perm_iff_count]
  intro n
  simp only [notedTypes, writtenTypes, typedNodes, List.map_append, List.map_map, hresult,
    Report.map_fst_types, List.count_append, List.count_cons, List.map_cons, List.map_nil,
    List.count_nil, List.cons_append, Function.comp_def]
  omega

theorem Program.nodup_noted {p : Program} (h : p.ids.Nodup) :
    ((p.functions.flatMap Function.notedTypes ++
      p.functions.flatMap fun f => (p.report f).types).map Prod.fst).Nodup := by
  have hperm := (List.flatMap_append_perm p.functions Function.notedTypes
    fun f => (p.report f).types).map Prod.fst
  rw [List.map_flatMap] at hperm
  have htyped := List.Perm.flatMap_left p.functions fun f _ => Function.noted_perm p f
  have hsub : p.functions.flatMap (Function.typedNodes p) <+ p.functions.flatMap Function.ids :=
    List.Sublist.flatMap_right _ fun f _ => f.typedNodes_sublist p
  have hids := (List.nodup_cons.1 h).2
  exact (hperm.trans htyped).nodup_iff.2 (hids.sublist hsub)

theorem Program.nodup_places {p : Program} (h : p.ids.Nodup) :
    ((p.functions.flatMap fun f => (p.report f).places).map Prod.fst).Nodup := by
  have hnoted := Program.nodup_noted h
  rw [List.map_append] at hnoted
  have hbodies := hnoted.sublist (List.sublist_append_right _ _)
  rw [List.map_flatMap] at hbodies ⊢
  simp only [Report.map_fst_places, Report.map_fst_types] at hbodies ⊢
  exact hbodies

theorem Program.nodup_marks {p : Program} (h : p.ids.Nodup) :
    (p.id :: p.functions.map (·.mark.id)).Nodup := by
  refine h.sublist (List.Sublist.cons_cons _ ?_)
  rw [List.map_eq_flatMap]
  exact List.Sublist.flatMap_right _ fun f _ =>
    (List.nil_sublist _).cons_cons _

theorem Function.map_fst_notedScopes (k : Nat) (fs : List Function) :
    (Function.notedScopes k fs).map Prod.fst = fs.map (·.mark.id) := by
  induction fs generalizing k with
  | nil => rfl
  | cons f fs ih => exact congrArg _ (ih (k + 1))

namespace View

theorem Ready.moved {v : View} {f : Function} {k : ScopeId} (h : v.Ready f k)
    (stack : List ScopeId) : ({ v with stack := stack } : View).Ready f k :=
  ⟨⟨h.knows.scope, h.knows.type, h.knows.lt_length⟩, h.locals⟩

theorem scopeOf_declared (b : View) {p : Program} (h : p.ids.Nodup) :
    (b.declared p.id p.functions).scopeOf p.id = some b.scopes.length := by
  refine writeAll_of_mem ?_ List.mem_cons_self
  rw [List.map_cons, Function.map_fst_notedScopes]
  exact Program.nodup_marks h

theorem scopeOf_function_declared (b : View) {p : Program} (h : p.ids.Nodup) {i : Nat}
    {f : Function} (hi : p.functions[i]? = some f) :
    (b.declared p.id p.functions).scopeOf f.mark.id = some (b.scopes.length + 1 + i) := by
  have hscope : (f.mark.id, b.scopes.length + 1 + i) ∈
      (p.id, b.scopes.length) :: Function.notedScopes (b.scopes.length + 1) p.functions := by
    refine List.mem_cons_of_mem _ (List.mem_map.2 ⟨(f, b.scopes.length + 1 + i), ?_, rfl⟩)
    exact List.mk_mem_zipIdx_iff_le_and_getElem?_sub.2
      ⟨Nat.le_add_right _ _, by rw [Nat.add_sub_cancel_left]; exact hi⟩
  refine writeAll_of_mem ?_ hscope
  rw [List.map_cons, Function.map_fst_notedScopes]
  exact Program.nodup_marks h

theorem typeOf_function_declared (b : View) {p : Program} (h : p.ids.Nodup) {f : Function}
    (hf : f ∈ p.functions) :
    (b.declared p.id p.functions).typeOf f.mark.id = some f.type := by
  have htype : (f.mark.id, f.type) ∈ p.functions.flatMap Function.notedTypes :=
    List.mem_flatMap.2 ⟨f, hf, List.mem_append_right _ List.mem_cons_self⟩
  have hnoted := Program.nodup_noted h
  rw [List.map_append] at hnoted
  exact writeAll_of_mem (hnoted.sublist (List.sublist_append_left _ _)) htype

theorem ready_declared (b : View) {p : Program} (h : p.ids.Nodup) {f : Function}
    (hf : f ∈ p.functions) : ∃ k, (b.declared p.id p.functions).Ready f k := by
  obtain ⟨i, hi⟩ := List.mem_iff_getElem?.1 hf
  have hlt : i < p.functions.length := (List.getElem?_eq_some_iff.1 hi).1
  refine ⟨b.scopes.length + 1 + i, ⟨scopeOf_function_declared b h hi,
    typeOf_function_declared b h hf, ?_⟩, ?_⟩
  · have hlength : (b.declared p.id p.functions).scopes.length =
        b.scopes.length + (p.functions.length + 1) := by
      simp only [declared, List.length_append, List.length_cons, List.length_map]
    rw [hlength, Nat.add_assoc]
    exact Nat.add_lt_add_left (by omega) _
  · have hpos : b.scopes.length + 1 + i = b.scopes.length + (i + 1) := by omega
    rw [declared, hpos, List.getElem?_append_right (Nat.le_add_right _ _),
      Nat.add_sub_cancel_left, List.getElem?_cons_succ, List.getElem?_map, hi]
    rfl

def analyzed (b : View) (p : Program) : View :=
  let v := ((b.declared p.id p.functions).leave.enter b.scopes.length).judgedAll p p.functions
  (v.report (if v.hasMain then [] else [⟨⟨p.id, 0, 0⟩, .noMain⟩])).leave

theorem scopes_analyzed (b : View) (p : Program) :
    (b.analyzed p).scopes = (b.declared p.id p.functions).scopes :=
  scopes_judgedAll p p.functions _

theorem scopeOf_analyzed (b : View) (p : Program) :
    (b.analyzed p).scopeOf = (b.declared p.id p.functions).scopeOf :=
  scopeOf_judgedAll p p.functions _

theorem typeOf_analyzed (b : View) (p : Program) :
    (b.analyzed p).typeOf = writeAll b.typeOf (p.functions.flatMap Function.notedTypes ++
      p.functions.flatMap fun f => (p.report f).types) := by
  rw [writeAll_append]
  exact typeOf_judgedAll p p.functions _

theorem isPlace_analyzed (b : View) (p : Program) :
    (b.analyzed p).isPlace =
      writeAll b.isPlace (p.functions.flatMap fun f => (p.report f).places) :=
  isPlace_judgedAll p p.functions _

theorem diagnostics_analyzed (b : View) (p : Program) :
    (b.analyzed p).diagnostics = b.diagnostics ++ Function.allRedeclared [] p.functions ++
      p.functions.flatMap (fun f => (p.report f).diagnostics) ++
        if (b.analyzed p).hasMain then [] else [⟨⟨p.id, 0, 0⟩, .noMain⟩] := by
  have hjudged := diagnostics_judgedAll p p.functions
    ((b.declared p.id p.functions).leave.enter b.scopes.length)
  exact congrArg (· ++ if (b.analyzed p).hasMain then [] else [⟨⟨p.id, 0, 0⟩, .noMain⟩]) hjudged

theorem stack_analyzed (b : View) (p : Program) : (b.analyzed p).stack = b.stack := by
  simp only [analyzed, leave, report, stack_judgedAll, enter, List.tail_cons]
  rfl

/-- A view holds what a program declares: its scope, its functions and their types. -/
structure Prepared (v : View) (p : Program) (g : ScopeId) : Prop where
  scope : v.scopeOf p.id = some g
  inside : (v.enter g).Inside p g
  ready : ∀ f ∈ p.functions, ∃ k, v.Ready f k

theorem Prepared.lt_length {v : View} {p : Program} {g : ScopeId} (h : v.Prepared p g) :
    g < v.scopes.length :=
  (List.getElem?_eq_some_iff.1 h.inside.globals).1

theorem prepared_declared (b : View) {p : Program} (hb : b.stack = []) (h : p.ids.Nodup) :
    (b.declared p.id p.functions).leave.Prepared p b.scopes.length where
  scope := scopeOf_declared b h
  inside := by
    refine ⟨?_, ?_⟩
    · simp only [enter, leave, declared, List.tail_cons, hb]
    · simp only [enter, leave, declared, List.getElem?_append_right (Nat.le_refl _), Nat.sub_self,
        List.getElem?_cons_zero]
      rfl
  ready f hf := by
    obtain ⟨k, hk⟩ := ready_declared b h hf
    exact ⟨k, hk.moved _⟩

end View

namespace Pass

variable {ε : Type} {s : Session}

theorem yields_enterProgram (hs : s.Sound) (ofAttribute : AttributeError → ε)
    (ofScope : ScopeError → ε) {p : Program} {g : ScopeId} (hp : s.view.Prepared p g) :
    Yields (enterProgram ofAttribute ofScope p) s (s.view.enter g) fun _ _ => True :=
  yields_enterProgram_of_scope hs ofAttribute ofScope hp.scope hp.lt_length

theorem yields_reportUnless {α : Type} {rest : Unit → Pass ε α} (hs : s.Sound) (b : Bool)
    (ds : List Diagnostic) {w : View} {Q : α → Session → Prop}
    (hrest : ∀ s', s.Moves s' (s.view.report (if b then [] else ds)) → Yields (rest ()) s' w Q) :
    Yields (if !b then report ds >>= rest else rest ()) s w Q := by
  cases b with
  | true =>
    refine hrest s ⟨hs, TypeTable.Extends.refl _, ?_⟩
    simp [View.report]
  | false => exact (yields_report hs ds).bind fun _ s' hm _ => hrest s' hm

theorem yields_lookForMain (hs : s.Sound) (hstack : s.view.stack ≠ []) (p : Program) :
    Yields (do
      let s ← Attempt.get
      if !s.scopes.hasMain s.types then report [⟨⟨p.id, 0, 0⟩, .noMain⟩]
      leaveScope .scope : Pass AnalysisError Unit) s
      (s.view.report (if s.view.hasMain then [] else [⟨⟨p.id, 0, 0⟩, .noMain⟩])).leave
      fun _ _ => True := by
  refine (yields_get hs).bind fun a s₁ _ hres => ?_
  obtain ⟨ha, hs₁⟩ := hres
  subst ha hs₁
  rw [Session.view_hasMain]
  refine yields_reportUnless hs _ _ fun s₂ hm₂ => ?_
  have h := yields_leaveScope hm₂.sound AnalysisError.scope (by rw [hm₂.view]; exact hstack)
  rw [hm₂.view] at h
  exact h

theorem yields_judgeProgram (hs : s.Sound) {p : Program} {g : ScopeId}
    (hp : s.view.Prepared p g) (hids : p.ids.Nodup) :
    let v := (s.view.enter g).judgedAll p p.functions
    Yields (judgeProgram p) s
      (v.report (if v.hasMain then [] else [⟨⟨p.id, 0, 0⟩, .noMain⟩])).leave fun _ _ => True := by
  intro v
  refine (yields_enterProgram hs AnalysisError.attribute AnalysisError.scope hp).bind
    fun _ s₁ hm₁ _ => ?_
  have hready : ∀ f ∈ p.functions, ∃ k, s₁.view.Ready f k := by
    intro f hf
    obtain ⟨k, hk⟩ := hp.ready f hf
    rw [hm₁.view]
    exact ⟨k, hk.moved _⟩
  have hinside : s₁.view.Inside p g := by
    rw [hm₁.view]
    exact hp.inside
  have hjudge := yields_judgeFunctions p.functions hm₁.sound hinside hready
    (List.nodup_cons.1 hids).2
  refine hjudge.bind fun _ s₂ hm₂ _ => ?_
  have hv₂ : s₂.view = v := by
    rw [hm₂.view, hm₁.view]
  have hstack : s₂.view.stack ≠ [] := by
    rw [hv₂, View.stack_judgedAll]
    exact List.cons_ne_nil _ _
  have h := yields_lookForMain hm₂.sound hstack p
  rw [hv₂] at h
  exact h

theorem yields_analyze (hs : s.Sound) (hstack : s.view.stack = []) {p : Program}
    (hids : p.ids.Nodup) : Yields (analyze p) s (s.view.analyzed p) fun _ _ => True := by
  refine (yields_declareProgram hs p).bind fun _ s₁ hm₁ _ => ?_
  have hp := View.prepared_declared s.view hstack hids
  rw [← hm₁.view] at hp
  have h := yields_judgeProgram hm₁.sound hp hids
  rw [hm₁.view] at h
  exact h

theorem lowerProgram_run (hs : s.Sound) {p : Program} {g : ScopeId} (hp : s.view.Prepared p g) :
    ((lowerProgram p).run s).1 = p.lowered s := by
  obtain ⟨_, s₁, hrun, hm₁, -⟩ :=
    yields_enterProgram hs LowerError.attribute LowerError.scope hp
  have hready : ∀ f ∈ p.functions, ∃ k, s₁.view.Ready f k := by
    intro f hf
    obtain ⟨k, hk⟩ := hp.ready f hf
    rw [hm₁.view]
    exact ⟨k, hk.moved _⟩
  have hinside : s₁.view.Inside p g := by
    rw [hm₁.view]
    exact hp.inside
  have htypes : s₁.view.typeOf = s.view.typeOf := by
    rw [hm₁.view]
    rfl
  have hΓ : (fun f => Lower.subroutine (p.lowering s f) f.type f) = fun f => Lower.subroutine
      ⟨p.meaning f, fun n => (s.view.typeOf n).elim (.error (.noType n)) .ok, f.resultType⟩
        f.type f := by
    funext f
    rw [Program.lowering, funext (Session.typeOf_eq s)]
  have h := lowerFunctions_run p.functions hm₁.sound hinside hready htypes
  simp only [Program.lowered, hΓ]
  rw [lowerProgram, Attempt.run_bind, hrun]
  cases hmap : p.functions.mapM fun f => Lower.subroutine
      ⟨p.meaning f, fun n => (s.view.typeOf n).elim (.error (.noType n)) .ok, f.resultType⟩
        f.type f with
  | error e =>
    rw [hmap] at h
    obtain ⟨s₂, hrun₂⟩ := h
    simp only [Attempt.run_bind, hrun₂]
    rfl
  | ok subs =>
    rw [hmap] at h
    obtain ⟨s₂, hrun₂, hsound, hstack⟩ := h
    obtain ⟨_, s₃, hrun₃, -, -⟩ := yields_leaveScope hsound LowerError.scope (by
      rw [hstack]
      exact List.cons_ne_nil _ _)
    simp only [Attempt.run_bind, hrun₂, hrun₃, Attempt.run_pure]
    rfl

end Pass

namespace View

theorem hasMain_eq {v : View} {p : Program} (h : v.scopes[0]? = some (Entry.meaning? p.entries)) :
    v.hasMain = p.hasMain := by
  rw [hasMain, h, Option.bind_some, Program.entries, Entry.meaning?_entry, Program.hasMain]
  cases p.functions.find? (·.name.name = "main") with
  | none => rfl
  | some f =>
    simp only [Option.map_some, Function.params_type, Function.isProcedure_type, List.isEmpty_map]

theorem prepared_analyzed (b : View) {p : Program} (hb : b.stack = []) (h : p.ids.Nodup) :
    (b.analyzed p).Prepared p b.scopes.length where
  scope := by
    rw [scopeOf_analyzed]
    exact (prepared_declared b hb h).scope
  inside := by
    refine ⟨?_, ?_⟩
    · rw [enter, stack_analyzed, hb]
    · rw [enter, scopes_analyzed]
      exact (prepared_declared b hb h).inside.globals
  ready f hf := by
    obtain ⟨k, hk⟩ := ready_declared b h hf
    refine ⟨k, ⟨⟨?_, ?_, ?_⟩, ?_⟩⟩
    · rw [scopeOf_analyzed]
      exact hk.knows.scope
    · rw [typeOf_analyzed]
      refine writeAll_of_mem (Program.nodup_noted h) (List.mem_append_left _ ?_)
      exact List.mem_flatMap.2 ⟨f, hf, List.mem_append_right _ List.mem_cons_self⟩
    · rw [scopes_analyzed]
      exact hk.knows.lt_length
    · rw [scopes_analyzed]
      exact hk.locals

end View

theorem Program.analyze_fresh {p : Program} (h : p.ids.Nodup) :
    ∃ s, (Pass.analyze p).run .fresh = (.ok (), s) ∧ p.Analyzed s := by
  obtain ⟨_, s, hrun, hm, -⟩ := Pass.yields_analyze Session.sound_fresh rfl h
  have hread : ∀ w ∈ p.functions.flatMap Function.notedTypes ++
      p.functions.flatMap (fun f => (p.report f).types), s.typeOf w.1 = .ok w.2 := by
    intro w hw
    refine Session.typeOf_eq_ok ?_
    rw [hm.view, View.typeOf_analyzed]
    exact writeAll_of_mem (Program.nodup_noted h) hw
  refine ⟨s, hrun, ⟨?_, ?_, ?_, ?_⟩⟩
  · have hdiagnostics : s.diagnostics = (Session.fresh.view.analyzed p).diagnostics := by
      rw [← hm.view]
      rfl
    have hmain : (Session.fresh.view.analyzed p).hasMain = p.hasMain := by
      refine View.hasMain_eq ?_
      rw [View.scopes_analyzed]
      rfl
    rw [hdiagnostics, View.diagnostics_analyzed, hmain]
    rfl
  · intro f hf n hn
    refine hread (n.node, n.type) (List.mem_append_right _ (List.mem_flatMap.2 ⟨f, hf, ?_⟩))
    exact List.mem_map.2 ⟨n, hn, rfl⟩
  · intro f hf w hw
    refine hread w (List.mem_append_left _ (List.mem_flatMap.2 ⟨f, hf, ?_⟩))
    exact List.mem_append_left _ hw
  · have hp := View.prepared_analyzed Session.fresh.view rfl h
    rw [← hm.view] at hp
    exact Pass.lowerProgram_run hm.sound hp

end Asl
