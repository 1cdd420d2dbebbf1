import Asl.Proofs.Session.Failing
import Asl.Proofs.Typing.Program

/-!
# Scopes over a whole session

A session may run any passes over any trees in any order, and go on after a pass that failed. Every
number of a scope or of a type that it holds stays in range, so no pass fails for a scope. Declaring
and analysing never fail. A pass that succeeds leaves the active scopes as it found them; one that
fails leaves at most the scopes of the program and of the function that it had entered.
-/
namespace Asl

namespace Session

/-- What passes lead to from a fresh session, whether they succeed or fail, with the programs that
have been declared, in order. -/
inductive Runs : List Program → Session → Prop
  | fresh : Runs [] .fresh
  | declare {ps : List Program} {s : Session} (p : Program) (h : Runs ps s) :
      Runs (ps ++ [p]) ((Pass.declareProgram p).run s).2
  | judge {ps : List Program} {s : Session} (p : Program) (h : Runs ps s) :
      Runs ps ((Pass.judgeProgram p).run s).2
  | analyze {ps : List Program} {s : Session} (p : Program) (h : Runs ps s) :
      Runs (ps ++ [p]) ((Pass.analyze p).run s).2
  | lower {ps : List Program} {s : Session} (p : Program) (h : Runs ps s) :
      Runs ps ((Pass.lowerProgram p).run s).2

/-- Every number that a session holds is that of a scope or of a type that it has. -/
structure InRange (s : Session) : Prop where
  stack : ∀ k ∈ s.scopes.stack, (s.scopes.scope? k).isSome
  scopes : ∀ n k, s.attributes.scope n = .ok k → (s.scopes.scope? k).isSome
  bindings : ∀ k sc x b, s.scopes.scope? k = some sc → sc.lookup? x = some b →
    (s.types.node? b.type).isSome
  types : ∀ n id, s.attributes.type n = .ok id → (s.types.node? id).isSome
  function : ∀ id, s.scopes.functionType = .ok id → (s.types.node? id).isSome
  parts : ∀ id node, s.types.node? id = some node → node.PartsBelow id

/-- The sessions in which the second and the third pass over a program look names up: they have
entered one of its functions, after those before it. -/
def LooksUp (s : Session) (p : Program) (s' : Session) : Prop :=
  ∃ before f after t, p.functions = before ++ f :: after ∧
    ((do
      Pass.enterProgram .attribute .scope p
      Pass.judgeFunctions before
      Pass.enterFunction .attribute .scope f : Pass AnalysisError Ty).run s = (.ok t, s') ∨
    (do
      Pass.enterProgram .attribute .scope p
      let _ ← Pass.lowerFunctions before
      Pass.enterFunction .attribute .scope f : Pass LowerError Ty).run s = (.ok t, s'))

/-- What the passes over a program do to the active scopes of a session. -/
structure Disciplined (s : Session) (p : Program) : Prop where
  inRange : s.InRange
  lookups : ∀ s', s.LooksUp p s' → s'.InRange
  declare : ∃ s', (Pass.declareProgram p).run s = (.ok (), s') ∧ s'.scopes.stack = s.scopes.stack
  analyze : ∃ s', (Pass.analyze p).run s = (.ok (), s') ∧ s'.scopes.stack = s.scopes.stack
  judge : ∃ s', ((Pass.judgeProgram p).run s = (.ok (), s') ∧ s'.scopes.stack = s.scopes.stack) ∨
    ∃ e, (Pass.judgeProgram p).run s = (.error (.attribute e), s') ∧
      (s'.scopes.stack = s.scopes.stack ∨
        ∃ g, s.attributes.scope p.id = .ok g ∧ s'.scopes.stack = g :: s.scopes.stack)
  lower : ∃ s', (∃ a, (Pass.lowerProgram p).run s = (.ok a, s') ∧
      s'.scopes.stack = s.scopes.stack) ∨
    ∃ e, (Pass.lowerProgram p).run s = (.error e, s') ∧ (∀ e', e ≠ .scope e') ∧
      (s'.scopes.stack = s.scopes.stack ∨ ∃ g, s.attributes.scope p.id = .ok g ∧
        (s'.scopes.stack = g :: s.scopes.stack ∨ ∃ s₁ f k,
          (Pass.enterProgram .attribute .scope p : Pass LowerError Unit).run s = (.ok (), s₁) ∧
          Pass.FailsAt p.functions s₁ f e s' ∧ s.attributes.scope f.mark.id = .ok k ∧
          s'.scopes.stack = k :: g :: s.scopes.stack))

end Session

namespace Session

structure Lawful (s : Session) : Prop where
  sound : s.Sound
  ranged : s.view.Ranged

theorem Lawful.inRange {s : Session} (h : s.Lawful) : s.InRange := by
  have hscope : ∀ k, k < s.view.scopes.length → (s.scopes.scope? k).isSome := by
    intro k hk
    have hlt : k < s.scopes.scopes.length := by simpa [view] using hk
    rw [ScopeTable.scope?, List.getElem?_eq_getElem hlt]
    rfl
  refine ⟨fun k hk => hscope k (h.ranged.stack k hk), fun n k hk => ?_,
    fun k sc x b hsc hb => ?_, fun n id hid => ?_, fun id hid => ?_,
    fun id node => TypeTable.WellFormed.partsBelow h.sound.types⟩
  · exact hscope k (h.ranged.scopeOf n k (scope_eq_ok_iff.1 hk))
  · exact TypeTable.isSome_node? (h.sound.bindings sc (List.mem_of_getElem? hsc) x b hb)
  · refine TypeTable.isSome_node? (h.sound.attributes n id ?_)
    rw [AttributeTable.type] at hid
    split at hid
    · rename_i i hi
      cases hid
      exact hi
    · cases hid
  · refine TypeTable.isSome_node? (h.sound.function id ?_)
    rw [ScopeTable.functionType] at hid
    split at hid
    · rename_i i hi
      cases hid
      exact hi
    · cases hid

theorem lawful_fresh : Session.fresh.Lawful := ⟨sound_fresh, View.ranged_fresh⟩

/-- A pass that opens no scopes leaves a lawful session with the scopes that it found. -/
def Stays (s s' : Session) : Prop := s'.Lawful ∧ s'.view.scopes = s.view.scopes

theorem Stays.of_keeps {s s' : Session} {v : View} (hv : v.Ranged)
    (hscopes : v.scopes = s.view.scopes) (hs' : s'.Sound) (h : v.Keeps s'.view) : s.Stays s' :=
  ⟨⟨hs', hv.keeps h⟩, h.scopes.trans hscopes⟩

theorem Lawful.enter {s : Session} (h : s.Lawful) {n : NodeId} {k : ScopeId}
    (hk : s.view.scopeOf n = some k) : (s.view.enter k).Ranged :=
  h.ranged.enter (h.ranged.scopeOf n k hk)

theorem Lawful.judge {s : Session} (h : s.Lawful) (p : Program) :
    s.Stays ((Pass.judgeProgram p).run s).2 := by
  refine (Pass.ends_judgeProgram h.sound h.ranged p).after (fun _ s' hs' hq => ?_)
    fun e s' hs' hb => ?_
  · exact .of_keeps h.ranged rfl hs' hq.keeps
  · obtain ⟨-, ⟨rfl, -⟩ | ⟨g, hg, hkeeps, -⟩⟩ := hb
    · exact ⟨h, rfl⟩
    · exact .of_keeps (h.enter hg) rfl hs' hkeeps

theorem Lawful.lower {s : Session} (h : s.Lawful) (p : Program) :
    s.Stays ((Pass.lowerProgram p).run s).2 := by
  refine (Pass.ends_lowerProgram h.sound h.ranged p).after (fun _ s' hs' hq => ?_)
    fun e s' hs' hb => ?_
  · exact .of_keeps h.ranged rfl hs' hq
  · obtain ⟨-, rfl | ⟨g, s₁, f, hg, -, -, hkeeps | ⟨k, hk, hkeeps⟩⟩⟩ := hb
    · exact ⟨h, rfl⟩
    · exact .of_keeps (h.enter hg) rfl hs' hkeeps
    · exact .of_keeps ((h.enter hg).enter (h.ranged.scopeOf _ k hk)) rfl hs' hkeeps

def Declares (s : Session) (p : Program) (s' : Session) : Prop :=
  s'.Lawful ∧ s'.view.scopes = (s.view.declared p.id p.functions).scopes

theorem Lawful.declare {s : Session} (h : s.Lawful) (p : Program) :
    s.Declares p ((Pass.declareProgram p).run s).2 := by
  obtain ⟨_, s', hrun, hm, -⟩ := Pass.yields_declareProgram h.sound p
  rw [hrun]
  refine ⟨⟨hm.sound, ?_⟩, ?_⟩
  · rw [hm.view]
    exact (h.ranged.declared p.id p.functions).leave
  · rw [hm.view]
    rfl

theorem Lawful.analyze {s : Session} (h : s.Lawful) (p : Program) :
    s.Declares p ((Pass.analyze p).run s).2 := by
  obtain ⟨s', hrun, hs', hchecked⟩ := Pass.analyze_succeeds h.sound h.ranged p
  rw [hrun]
  exact ⟨⟨hs', (h.ranged.declared p.id p.functions).leave.keeps hchecked.keeps⟩,
    hchecked.keeps.scopes⟩

theorem Declares.first {s s' : Session} {p : Program} (h : s.Declares p s') {ps : List Program}
    (hs : s.view.scopes.head? = ps.head?.map fun p => Entry.meaning? p.entries) :
    s'.view.scopes.head? = (ps ++ [p]).head?.map fun p => Entry.meaning? p.entries := by
  rw [h.2, View.head?_declared, hs]
  cases ps <;> rfl

theorem Runs.lawful {ps : List Program} {s : Session} (h : Runs ps s) :
    s.Lawful ∧ s.view.scopes.head? = ps.head?.map fun p => Entry.meaning? p.entries := by
  induction h with
  | fresh => exact ⟨lawful_fresh, rfl⟩
  | declare p h ih => exact ⟨(ih.1.declare p).1, (ih.1.declare p).first ih.2⟩
  | judge p h ih => exact ⟨(ih.1.judge p).1, (congrArg List.head? (ih.1.judge p).2).trans ih.2⟩
  | analyze p h ih => exact ⟨(ih.1.analyze p).1, (ih.1.analyze p).first ih.2⟩
  | lower p h ih => exact ⟨(ih.1.lower p).1, (congrArg List.head? (ih.1.lower p).2).trans ih.2⟩

theorem Lawful.lookups {s : Session} (h : s.Lawful) {p : Program} {s' : Session}
    (hlook : s.LooksUp p s') : s'.InRange := by
  obtain ⟨before, f, after, t, -, hrun⟩ := hlook
  have hentered : ∀ {ε : Type} {ofAttribute : AttributeError → ε} {ofScope : ScopeError → ε}
      {s₁ : Session}, (Pass.enterProgram ofAttribute ofScope p).run s = (.ok (), s₁) →
      s₁.Sound ∧ s₁.view.Ranged := by
    intro ε ofAttribute ofScope s₁ hrun₁
    obtain ⟨hs₁, g, hg, hv₁⟩ :=
      (Pass.ends_enterProgram h.sound h.ranged ofAttribute ofScope p).of_ok hrun₁
    rw [hv₁]
    exact ⟨hs₁, h.enter hg⟩
  have hinside : ∀ {ε : Type} {ofAttribute : AttributeError → ε} {ofScope : ScopeError → ε}
      {s₂ : Session}, s₂.Sound → s₂.view.Ranged →
      (Pass.enterFunction ofAttribute ofScope f).run s₂ = (.ok t, s') → s'.InRange := by
    intro ε ofAttribute ofScope s₂ hs₂ hr₂ hrun₂
    obtain ⟨hs', hr'⟩ := (Pass.ends_enterFunction hs₂ hr₂ ofAttribute ofScope f).of_ok hrun₂
    exact Lawful.inRange ⟨hs', hr'⟩
  rcases hrun with hrun | hrun
  · obtain ⟨_, s₁, hrun₁, hrun⟩ := Attempt.run_bind_eq_ok.1 hrun
    obtain ⟨_, s₂, hrun₂, hrun⟩ := Attempt.run_bind_eq_ok.1 hrun
    obtain ⟨hs₁, hr₁⟩ := hentered hrun₁
    obtain ⟨hs₂, hgrows⟩ := (Pass.ends_judgeFunctions before hs₁ hr₁).of_ok hrun₂
    exact hinside hs₂ (hr₁.keeps hgrows.keeps) hrun
  · obtain ⟨_, s₁, hrun₁, hrun⟩ := Attempt.run_bind_eq_ok.1 hrun
    obtain ⟨_, s₂, hrun₂, hrun⟩ := Attempt.run_bind_eq_ok.1 hrun
    obtain ⟨hs₁, hr₁⟩ := hentered hrun₁
    obtain ⟨hs₂, hkeeps⟩ := (Pass.ends_lowerFunctions before hs₁ hr₁).of_ok hrun₂
    exact hinside hs₂ (hr₁.keeps hkeeps) hrun

/-- In every session that passes lead to, all numbers are in range, no pass fails for a scope, and
a pass leaves active what it found active, and the scopes that it had entered when it failed. -/
theorem Runs.disciplined {ps : List Program} {s : Session} (h : Runs ps s) (p : Program) :
    s.Disciplined p := by
  have hs := h.lawful.1
  refine ⟨hs.inRange, fun s' => hs.lookups, ?_, ?_, ?_, ?_⟩
  · obtain ⟨_, s', hrun, hm, -⟩ := Pass.yields_declareProgram hs.sound p
    exact ⟨s', hrun, congrArg View.stack hm.view⟩
  · obtain ⟨s', hrun, -, hchecked⟩ := Pass.analyze_succeeds hs.sound hs.ranged p
    exact ⟨s', hrun, hchecked.keeps.stack⟩
  · obtain ⟨s', -, ⟨_, hrun, hq⟩ | ⟨e, hrun, ⟨a, rfl⟩, hb⟩⟩ :=
      Pass.ends_judgeProgram hs.sound hs.ranged p
    · exact ⟨s', Or.inl ⟨hrun, hq.keeps.stack⟩⟩
    · refine ⟨s', Or.inr ⟨a, hrun, ?_⟩⟩
      rcases hb with ⟨rfl, -⟩ | ⟨g, hg, hkeeps, -⟩
      · exact Or.inl rfl
      · exact Or.inr ⟨g, scope_eq_ok_iff.2 hg, hkeeps.stack⟩
  · obtain ⟨s', -, ⟨a, hrun, hq⟩ | ⟨e, hrun, he, hb⟩⟩ :=
      Pass.ends_lowerProgram hs.sound hs.ranged p
    · exact ⟨s', Or.inl ⟨a, hrun, hq.stack⟩⟩
    · refine ⟨s', Or.inr ⟨e, hrun, he, ?_⟩⟩
      rcases hb with rfl | ⟨g, s₁, f, hg, henter, hfails, hkeeps | ⟨k, hk, hkeeps⟩⟩
      · exact Or.inl rfl
      · exact Or.inr ⟨g, scope_eq_ok_iff.2 hg, Or.inl hkeeps.stack⟩
      · exact Or.inr ⟨g, scope_eq_ok_iff.2 hg, Or.inr ⟨s₁, f, k, henter, hfails,
          scope_eq_ok_iff.2 hk, hkeeps.stack⟩⟩

/-- Lowering a program that was declared and not judged fails inside of its first function, and
leaves the scopes of both active; the session goes on from there. -/
theorem disciplined_after_failure :
    let s := ((Pass.lowerProgram .scaling).run ((Pass.declareProgram .scaling).run .fresh).2).2
    Runs [.scaling] s ∧ s.scopes.stack = [1, 0] ∧ s.Disciplined .scaling := by
  have hruns : Runs [.scaling]
      ((Pass.lowerProgram .scaling).run ((Pass.declareProgram .scaling).run .fresh).2).2 :=
    .lower .scaling (.declare .scaling .fresh)
  exact ⟨hruns, by decide +kernel, hruns.disciplined .scaling⟩

end Session

end Asl
