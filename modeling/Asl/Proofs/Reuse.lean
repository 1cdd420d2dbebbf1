import Asl.Proofs.Session.Repeating
import Asl.Proofs.Typing.Program

/-!
# Sessions that are used again

A session that has analysed any programs and lowered some of them is sound, and no scope is active
in it: analysing never fails there, and lowering leaves every scope that it entered, if it succeeds.
So the next program is analysed and lowered as in a fresh session. The one thing that earlier
programs have a say in is whether an entry point is missed, since it is looked for in the first
scope of the session, and that is the scope of the first program.
-/
namespace Asl

/-- Between programs, a session is sound and has no active scopes. -/
structure Session.Idle (s : Session) : Prop where
  sound : s.Sound
  stack : s.view.stack = []

namespace Pass

open Attempt (run_bind run_bind_eq_ok)

variable {ε δ α : Type} {s s' : Session}

theorem run_ofExcept_eq_ok {r : Except δ α} {f : δ → ε} {a : α}
    (h : (Attempt.ofExcept (r.mapError f) : Pass ε α).run s = (.ok a, s')) :
    r = .ok a ∧ s' = s := by
  cases r with
  | error e => cases h
  | ok b =>
    cases h
    exact ⟨rfl, rfl⟩

theorem lt_length_of_enterScope {f : ScopeError → ε} {k : ScopeId} {u : Unit}
    (h : (enterScope f k).run s = (.ok u, s')) : k < s.view.scopes.length := by
  rw [enterScope, run_onScopes, Scoping.run_enter] at h
  split at h
  · rename_i hlt
    simpa only [Session.view, List.length_map] using hlt
  · cases h

theorem scope_of_enterProgram {ofAttribute : AttributeError → ε} {ofScope : ScopeError → ε}
    {p : Program} {u : Unit} (h : (enterProgram ofAttribute ofScope p).run s = (.ok u, s')) :
    ∃ g, s.view.scopeOf p.id = some g ∧ g < s.view.scopes.length := by
  obtain ⟨_, _, hget, hrest⟩ := run_bind_eq_ok.1 h
  cases hget
  obtain ⟨g, _, hscope, henter⟩ := run_bind_eq_ok.1 hrest
  obtain ⟨hscope, rfl⟩ := run_ofExcept_eq_ok hscope
  exact ⟨g, Session.scope_eq_ok_iff.1 hscope, lt_length_of_enterScope henter⟩

theorem knows_of_enterFunction {ofAttribute : AttributeError → ε} {ofScope : ScopeError → ε}
    {f : Function} {t : Ty} (h : (enterFunction ofAttribute ofScope f).run s = (.ok t, s')) :
    ∃ k u, s.view.Knows f k u := by
  obtain ⟨_, _, hget, hrest⟩ := run_bind_eq_ok.1 h
  cases hget
  obtain ⟨k, _, hscope, hrest⟩ := run_bind_eq_ok.1 hrest
  obtain ⟨hscope, rfl⟩ := run_ofExcept_eq_ok hscope
  obtain ⟨id, _, htype, hrest⟩ := run_bind_eq_ok.1 hrest
  obtain ⟨htype, rfl⟩ := run_ofExcept_eq_ok htype
  obtain ⟨_, _, henter, -⟩ := run_bind_eq_ok.1 hrest
  exact ⟨k, _, Session.scope_eq_ok_iff.1 hscope, Session.view_typeOf_of_type htype,
    lt_length_of_enterScope henter⟩

theorem lowerFunction_leaves (hs : s.Sound) {f : Function} {sub : Subroutine}
    (h : (lowerFunction f).run s = (.ok sub, s')) :
    s'.Sound ∧ s'.view.stack = s.view.stack := by
  obtain ⟨t, s₁, henter, -⟩ := run_bind_eq_ok.1 h
  obtain ⟨k, u, hk⟩ := knows_of_enterFunction henter
  have hrun := lowerFunction_run hs hk
  split at hrun
  · obtain ⟨s₂, hrun, hm⟩ := hrun
    rw [h] at hrun
    cases hrun
    exact ⟨hm.sound, by rw [hm.view]⟩
  · obtain ⟨s₂, hrun, -⟩ := hrun
    rw [h] at hrun
    cases hrun

theorem lowerFunctions_leaves (fs : List Function) (hs : s.Sound) {subs : List Subroutine}
    (h : (lowerFunctions fs).run s = (.ok subs, s')) :
    s'.Sound ∧ s'.view.stack = s.view.stack := by
  induction fs generalizing s subs with
  | nil =>
    cases h
    exact ⟨hs, rfl⟩
  | cons f fs ih =>
    obtain ⟨sub, s₁, hf, hrest⟩ := run_bind_eq_ok.1 h
    obtain ⟨hs₁, hstack₁⟩ := lowerFunction_leaves hs hf
    obtain ⟨rest, s₂, hfs, hlast⟩ := run_bind_eq_ok.1 hrest
    cases hlast
    obtain ⟨hs₂, hstack₂⟩ := ih hs₁ hfs
    exact ⟨hs₂, hstack₂.trans hstack₁⟩

theorem lowerProgram_leaves (hs : s.Idle) {p : Program} {a : Assembly}
    (h : (lowerProgram p).run s = (.ok a, s')) : s'.Idle := by
  obtain ⟨u, s₁, henter, hrest⟩ := run_bind_eq_ok.1 h
  obtain ⟨g, hscope, hg⟩ := scope_of_enterProgram henter
  obtain ⟨_, s₁', hrun, hm₁, -⟩ :=
    yields_enterProgram_of_scope hs.sound LowerError.attribute LowerError.scope hscope hg
  rw [henter] at hrun
  cases hrun
  obtain ⟨subs, s₂, hfs, hrest⟩ := run_bind_eq_ok.1 hrest
  obtain ⟨hs₂, hstack₂⟩ := lowerFunctions_leaves p.functions hm₁.sound hfs
  rw [hm₁.view] at hstack₂
  obtain ⟨_, s₃, hleave, hlast⟩ := run_bind_eq_ok.1 hrest
  obtain ⟨_, s₃', hrun, hm₃, -⟩ := yields_leaveScope hs₂ LowerError.scope (by
    rw [hstack₂]
    exact List.cons_ne_nil _ _)
  rw [hleave] at hrun
  cases hrun
  cases hlast
  refine ⟨hm₃.sound, ?_⟩
  rw [hm₃.view, View.leave, hstack₂]
  exact hs.stack

theorem analyze_leaves (hs : s.Idle) (p : Program) :
    ∃ s', (analyze p).run s = (.ok (), s') ∧ s'.Idle := by
  obtain ⟨_, s₀', s', -, hrun, hr, hstack, -⟩ := twice_analyze hs.sound hs.stack p
  refine ⟨s', hrun, hr.second, ?_⟩
  rw [hr.view.stack, hstack]
  rfl

end Pass

namespace Session

/-- The sessions that programs lead to from a fresh one: any tree may be analysed, and any tree may
be lowered as long as this succeeds. -/
inductive Reached : Session → Prop
  | fresh : Reached .fresh
  | analyze {s : Session} (p : Program) (h : Reached s) : Reached ((Pass.analyze p).run s).2
  | lower {s : Session} (p : Program) (h : Reached s)
      (hok : ((Pass.lowerProgram p).run s).1.isOk) : Reached ((Pass.lowerProgram p).run s).2

theorem Reached.idle {s : Session} (h : s.Reached) : s.Idle := by
  induction h with
  | fresh => exact ⟨sound_fresh, rfl⟩
  | analyze p h ih =>
    obtain ⟨s', hrun, hidle⟩ := Pass.analyze_leaves ih p
    rw [hrun]
    exact hidle
  | @lower s p h hok ih =>
    rcases hrun : (Pass.lowerProgram p).run s with ⟨r, s'⟩
    cases r with
    | error e =>
      rw [hrun] at hok
      cases hok
    | ok a => exact Pass.lowerProgram_leaves ih hrun

/-- A program is analysed in every session that programs lead to, with the diagnostics that it has
in a fresh session, but for that of a missing entry point, and is then lowered to the same code or
with the same error. -/
theorem Reached.analyze_as_fresh {s : Session} (h : s.Reached) (p : Program) :
    ∃ s' s₀ added, (Pass.analyze p).run s = (.ok (), s') ∧
      (Pass.analyze p).run .fresh = (.ok (), s₀) ∧
      s'.diagnostics = s.diagnostics ++ added ∧
      Diagnostic.besidesMain added = Diagnostic.besidesMain s₀.diagnostics ∧
      ((Pass.lowerProgram p).run s').1 = ((Pass.lowerProgram p).run s₀).1 := by
  obtain ⟨_, s₀, s', hrun₀, hrun, hr, -, hnames, hbodies⟩ :=
    Pass.twice_analyze h.idle.sound h.idle.stack p
  obtain ⟨added, hadded, hsame⟩ := hr.view.diagnostics
  exact ⟨s', s₀, added, hrun, hrun₀, hadded, hsame,
    (Pass.alike_lowerProgram hr hnames hbodies).outcome_eq⟩

end Session

/-- A procedure that stores into a name that it does not declare. `Program.scaling`, whose nodes
have the same identities, declares the name in its first function. -/
def Program.straying : Program :=
  let mark (n : Nat) : Mark := ⟨n, 0, 0⟩
  { id := 0
    functions := [
      { mark := mark 1
        name := ⟨mark 2, "store"⟩
        params := []
        result := none
        declarations := []
        body := [.assign (mark 6) (.name (mark 4) ⟨mark 3, "a"⟩) (.literal (mark 5) (.int 1))] }] }

theorem Program.straying_as_fresh :
    let s := ((Pass.lowerProgram scaling).run ((Pass.analyze scaling).run .fresh).2).2
    s.Reached ∧ ∃ s' s₀ added, (Pass.analyze straying).run s = (.ok (), s') ∧
      (Pass.analyze straying).run .fresh = (.ok (), s₀) ∧
      s'.diagnostics = s.diagnostics ++ added ∧
      Diagnostic.besidesMain added = Diagnostic.besidesMain s₀.diagnostics ∧
      ((Pass.lowerProgram straying).run s').1 = ((Pass.lowerProgram straying).run s₀).1 := by
  have hreached : Session.Reached
      ((Pass.lowerProgram scaling).run ((Pass.analyze scaling).run .fresh).2).2 :=
    .lower scaling (.analyze scaling .fresh) (by decide +kernel)
  exact ⟨hreached, hreached.analyze_as_fresh straying⟩

end Asl
