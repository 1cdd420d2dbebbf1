import Asl.Proofs.Meaning.Statements

/-!
# Bodies and their code

A body finishes exactly if the machine halts in its code, and then both agree on the frame, the
world and the value that is returned; it is stuck exactly if the machine jams. The machine is
deterministic, so one direction of a simulation is enough: the other one follows because a body
either finishes, is stuck, or has more rounds than the machine has steps.
-/
namespace Asl

variable {D : Domain}

def Ending.value : Ending D → Option D.Value
  | .normal => none
  | .returned v => v

def State.start (s : State D) : Config D := ⟨0, s.frame, [], s.world⟩

/-- What a finished body leaves in the machine that has run its code: its scalars, the world, the
value that it returns, in the slot for it, and nothing on the stack. -/
structure Config.Agrees (d : Config D) (s : State D) (v : Option D.Value) (u : State D) :
    Prop where
  shows : d.Shows u
  result : d.registers resultName = v.getD (s.frame resultName)
  stack : d.stack = []

def Stmt.Finishes (I : Interpretation D) (Γ : Context) (ss : List Stmt) (s : State D)
    (v : Option D.Value) (u : State D) : Prop :=
  ∃ n e, (Stmt.execAll I Γ n ss).run s = (.ok e, u) ∧ e.value = v

def Stmt.GetsStuck (I : Interpretation D) (Γ : Context) (ss : List Stmt) (s : State D) : Prop :=
  ∃ n u, (Stmt.execAll I Γ n ss).run s = (.error .stuck, u)

theorem State.shows_start (s : State D) : s.start.Shows s := ⟨fun _ _ => rfl, rfl⟩

namespace Machine

/-- The machine follows a list of statements from their first state to a halt. -/
def Mirrors (M : Machine D) (Γ : Context) (ss : List Stmt) (s : State D) : Prop :=
  ∀ n, M.Follows n s.start ((Stmt.execAll M.interpretation Γ n ss).run s) fun e u d =>
    M.Halted d ∧ d.Agrees s e.value u

variable {M : Machine D} {Γ : Context} {ss : List Stmt} {s : State D} {d : Config D}

theorem Mirrors.halts (h : M.Mirrors Γ ss s) {v : Option D.Value} {u : State D}
    (hfinishes : Stmt.Finishes M.interpretation Γ ss s v u) :
    ∃ d, M.Halts s.start d ∧ d.Agrees s v u := by
  obtain ⟨n, e, hrun, hv⟩ := hfinishes
  have hfollows := h n
  rw [hrun] at hfollows
  obtain ⟨d, hreach, hhalted, hagrees⟩ := hfollows
  rw [hv] at hagrees
  exact ⟨d, ⟨hreach, hhalted⟩, hagrees⟩

theorem Mirrors.jams (h : M.Mirrors Γ ss s)
    (hstuck : Stmt.GetsStuck M.interpretation Γ ss s) : M.Jams s.start := by
  obtain ⟨n, u, hrun⟩ := hstuck
  have hfollows := h n
  rw [hrun] at hfollows
  exact hfollows

/-- Statements with as many rounds as the machine has steps have come to an end. -/
theorem Mirrors.ends (h : M.Mirrors Γ ss s) (hreach : M.Reaches s.start d)
    (hlast : M.step d = none) :
    (∃ v u, Stmt.Finishes M.interpretation Γ ss s v u) ∨
      Stmt.GetsStuck M.interpretation Γ ss s := by
  obtain ⟨n, hnone⟩ := hreach.exhausted hlast
  have hfollows := h n
  generalize hrun : (Stmt.execAll M.interpretation Γ n ss).run s = r at hfollows
  obtain ⟨⟨_ | _⟩ | e, u⟩ := r
  · exact Or.inr ⟨n, u, hrun⟩
  · change (M.run n s.start).isSome = true at hfollows
    rw [hnone] at hfollows
    cases hfollows
  · exact Or.inl ⟨e.value, u, n, e, hrun, rfl⟩

theorem Mirrors.finishes (h : M.Mirrors Γ ss s) (hd : M.Halts s.start d) :
    ∃ v u, Stmt.Finishes M.interpretation Γ ss s v u ∧ d.Agrees s v u := by
  rcases h.ends hd.1 (step_of_halted hd.2) with ⟨v, u, hfinishes⟩ | hstuck
  · obtain ⟨e, he, hagrees⟩ := h.halts hfinishes
    rw [he.unique hd] at hagrees
    exact ⟨v, u, hfinishes, hagrees⟩
  · exact absurd (h.jams hstuck) hd.not_jams

theorem Mirrors.jams_iff (h : M.Mirrors Γ ss s) :
    M.Jams s.start ↔ Stmt.GetsStuck M.interpretation Γ ss s := by
  constructor
  · rintro ⟨d, hreach, hnot, hlast⟩
    rcases h.ends hreach hlast with ⟨v, u, hfinishes⟩ | hstuck
    · obtain ⟨e, he, -⟩ := h.halts hfinishes
      exact absurd ⟨d, hreach, hnot, hlast⟩ he.not_jams
    · exact hstuck
  · exact h.jams

end Machine

section

variable {E : Surroundings} {Γ : Context} {Λ : Lowering} {M : Machine D}

namespace Lower

theorem exists_closed (isProcedure : Bool) (code : Code) :
    ∃ rest, closed isProcedure code = code ++ rest ∧ (rest = [] ∨ rest = [.ret]) := by
  unfold closed
  split
  · exact ⟨[.ret], rfl, Or.inr rfl⟩
  · exact ⟨[], (List.append_nil code).symm, Or.inl rfl⟩

theorem subroutine_mirrors (hE : E.Agrees Γ Λ) (hM : M.Suits Γ) {t : Ty} {f : Function}
    {sub : Subroutine} (h : subroutine Λ t f = .ok sub) (hcode : M.code = sub.code)
    (hok : ∀ s ∈ f.body, s.Ok Γ) (hn : ∀ s ∈ f.body, s.Noted Λ Γ) (s : State D) :
    M.Mirrors Γ f.body s := by
  have hfunction : Gives (function Λ t f) ⟨0, 0, 0⟩ fun sub _ => ∃ lo code,
      sub.code = closed t.isProcedure code ∧
        M.Executes lo code fun n => Stmt.execAll M.interpretation Γ n f.body := by
    have hlocals : Gives (locals Λ f.declarations) ⟨0, 0, 0⟩ fun _ _ => True :=
      fun _ _ _ => trivial
    refine hlocals.bind fun vars c _ => ?_
    refine (stmts_executed (fun s _ => stmt_executed hE hM s) hok hn c).bind
      fun code c' hres => gives_pure ⟨c.temps, code, rfl, hres.2⟩
  obtain ⟨lo, code, hclosed, hexecutes⟩ := hfunction sub _ (Prod.ext h rfl)
  obtain ⟨rest, hrest, hlast⟩ := exists_closed t.isProcedure code
  rw [hclosed, hrest] at hcode
  have hat : Code.At M.code 0 code := ⟨[], rest, hcode, rfl⟩
  intro n
  apply (hexecutes n s.start s hat s.shows_start).mono
  intro e u d hended
  cases hended with
  | returned hhalted hshows hstack hresult => exact ⟨hhalted, hshows, hresult, hstack⟩
  | normal hd =>
    have hpc : d.pc = code.length := hd.pc.trans (Nat.zero_add _)
    have hhalted : M.Halted d := by
      rw [Machine.Halted, hcode, hpc, List.getElem?_append_right (Nat.le_refl _), Nat.sub_self]
      rcases hlast with hlast | hlast
      · rw [hlast]
        exact Or.inl rfl
      · rw [hlast]
        exact Or.inr rfl
    exact ⟨hhalted, hd.shows, hd.result, hd.stack⟩

end Lower

end

end Asl
