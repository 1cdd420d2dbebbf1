import Asl.Proofs.Accepted

/-!
# Control flow of compiled code

In the code of an accepted program every jump has one label to go to, every temporary is written
before it is read, whichever way control has come, and control does not run past the end of a
procedure or of a function whose body must return. A run of the machine follows a path of the code,
so all this holds of runs as well.
-/
namespace Asl

namespace Machine

variable {D : Domain} {M : Machine D} {c d : Config D}

theorem next_of_jump {i : Instr} {l : Label} (hi : M.code[c.pc]? = some i)
    (hl : i.target? = some l) (h : M.jump l c = some d) : M.code.Next c.pc d.pc := by
  obtain ⟨goal, hgoal, rfl⟩ := Option.map_eq_some_iff.1 h
  obtain ⟨hlt, hlabel, -⟩ := List.findIdx?_eq_some_iff_getElem.1 hgoal
  refine .jump hi hl ?_
  rw [List.getElem?_eq_getElem hlt]
  cases hj : M.code[goal] with
  | label l' =>
    rw [hj] at hlabel
    rw [Label.text_injective (of_decide_eq_true hlabel)]
  | _ =>
    rw [hj] at hlabel
    cases hlabel

theorem pc_of_after {α : Type} {e : Effect D α} {k : α → Config D → Config D}
    (h : c.after e k = some d) (hk : ∀ a c, (k a c).pc = c.pc) : d.pc = c.pc + 1 := by
  obtain ⟨r, -, rfl⟩ := Option.map_eq_some_iff.1 h
  exact congrArg (· + 1) (hk r.1 _)

theorem pc_of_call {f : String} (h : M.call f c = some d) : d.pc = c.pc + 1 := by
  obtain ⟨sub, -, h⟩ := Option.bind_eq_some_iff.1 h
  obtain ⟨r, -, h⟩ := Option.bind_eq_some_iff.1 h
  obtain ⟨vs, rest⟩ := r
  cases hslot : sub.hasSlot with
  | false =>
    simp only [hslot] at h
    exact pc_of_after h fun _ _ => rfl
  | true =>
    rcases rest with _ | ⟨_ | v, below⟩
    · simp [hslot] at h
    · simp only [hslot] at h
      exact pc_of_after h fun _ _ => rfl
    · simp [hslot] at h

theorem next_of_step (h : M.step c = some d) : M.code.Next c.pc d.pc := by
  obtain ⟨i, hi, hexec⟩ := Option.bind_eq_some_iff.1 h
  have honward : i.passes = true → d.pc = c.pc + 1 → M.code.Next c.pc d.pc := by
    intro hpasses hpc
    rw [hpc]
    exact .onward hi hpasses
  cases i with
  | jump l => exact next_of_jump hi rfl hexec
  | jumpUnless o l =>
    by_cases ho : M.interpretation.holds (c.get o) = true
    · rw [execute, if_pos ho] at hexec
      exact honward rfl (by rw [← Option.some.inj hexec]; rfl)
    · rw [execute, if_neg ho] at hexec
      exact next_of_jump hi rfl hexec
  | ret => cases hexec
  | call f => exact honward rfl (pc_of_call hexec)
  | binary op dst lhs rhs =>
    simp only [execute] at hexec
    exact honward rfl (pc_of_after hexec fun _ _ => rfl)
  | unary op dst src =>
    simp only [execute] at hexec
    exact honward rfl (pc_of_after hexec fun _ _ => rfl)
  | loadElement dst base index =>
    simp only [execute] at hexec
    exact honward rfl (pc_of_after hexec fun _ _ => rfl)
  | storeElement base index src =>
    simp only [execute] at hexec
    exact honward rfl (pc_of_after hexec fun _ _ => rfl)
  | read as dst =>
    simp only [execute] at hexec
    exact honward rfl (pc_of_after hexec fun _ _ => rfl)
  | write as src =>
    simp only [execute] at hexec
    exact honward rfl (pc_of_after hexec fun _ _ => rfl)
  | writeLine =>
    simp only [execute] at hexec
    exact honward rfl (pc_of_after hexec fun _ _ => rfl)
  | push src =>
    cases src <;> exact honward rfl (by rw [← Option.some.inj hexec]; rfl)
  | pop dst =>
    rcases hstack : c.stack with _ | ⟨_ | v, σ⟩
    · cases dst <;> simp [execute, hstack] at hexec
    · cases dst with
      | none =>
        simp only [execute, hstack] at hexec
        exact honward rfl (by rw [← Option.some.inj hexec]; rfl)
      | some o => simp [execute, hstack] at hexec
    · cases dst <;>
      · simp only [execute, hstack] at hexec
        exact honward rfl (by rw [← Option.some.inj hexec]; rfl)
  | _ => exact honward rfl (by rw [← Option.some.inj hexec]; rfl)

/-- A run of the machine from the first instruction follows a path through the places that the
machine has come to. -/
theorem path_of_run {n : Nat} (hc : c.pc = 0) (h : M.run n c = some d) :
    ∃ visited, M.code.Path visited d.pc ∧
      ∀ q ∈ visited, ∃ m < n, ∃ e, M.run m c = some e ∧ e.pc = q := by
  induction n generalizing d with
  | zero =>
    cases h
    exact ⟨[], hc ▸ .start, fun q hq => absurd hq List.not_mem_nil⟩
  | succ n ih =>
    rw [run_add, Option.bind_eq_some_iff] at h
    obtain ⟨e, he, hstep⟩ := h
    rw [run_one] at hstep
    obtain ⟨visited, hpath, hvisited⟩ := ih he
    refine ⟨e.pc :: visited, hpath.step (next_of_step hstep), fun q hq => ?_⟩
    rcases List.mem_cons.1 hq with rfl | hq
    · exact ⟨n, Nat.lt_succ_self n, e, he, rfl⟩
    · obtain ⟨m, hm, hrun⟩ := hvisited q hq
      exact ⟨m, Nat.lt_succ_of_lt hm, hrun⟩

end Machine

/-- Every label stands once and every jump goes to one of them, and a temporary is written on every
path to an instruction that reads it. -/
structure Code.Controlled (code : Code) : Prop where
  labels : (code.labels.map Label.text).Nodup
  targets : ∀ i ∈ code, ∀ l, i.target? = some l →
    (code.labels.map Label.text).count l.text = 1
  written : ∀ visited pc i n, code.Path visited pc → code[pc]? = some i →
    .temp n ∈ i.sources → code.Written visited n

theorem Code.Flows.written {L : Label → Fact} {code : Code} {Z : Fact}
    (h : Code.Flows L 0 ⟨True, ∅, []⟩ code Z) {visited : List Nat} {pc n : Nat} {i : Instr}
    (hpath : code.Path visited pc) (hi : code[pc]? = some i) (hn : .temp n ∈ i.sources) :
    code.Written visited n := by
  obtain ⟨X, hX⟩ := hpath.holds h
  have hflows := hX.flows
  rw [Code.drop_of_getElem? hi] at hflows
  cases hflows with
  | cons hstep _ => exact hX.known n (hstep.sources _ hn)

theorem Code.Flows.not_path_end {L : Label → Fact} {code : Code} {Z : Fact}
    (h : Code.Flows L 0 ⟨True, ∅, []⟩ code Z) (hZ : ¬ Z.reached) (visited : List Nat) :
    ¬ code.Path visited code.length := by
  intro hpath
  obtain ⟨X, hX⟩ := hpath.holds h
  have hflows := hX.flows
  rw [List.drop_length] at hflows
  cases hflows with
  | nil hgives => exact hZ (hgives.reached hX.reached)

theorem Program.Compiles.controlled {p : Program} {s : Session} {a : Assembly} {f : Function}
    {sub : Subroutine} (h : p.Compiles s a) (hf : p.Lowered s f sub) : sub.code.Controlled := by
  obtain ⟨B, g, hcode, -⟩ := h.structured hf
  obtain ⟨L, Z, hflows, -⟩ := h.flows hf
  have hlabels : (sub.code.labels.map Label.text).Nodup :=
    (Lower.nodup_labels hf.lowered).map fun _ _ => Label.text_injective
  refine ⟨hlabels, fun i hi l hl => ?_, fun _ _ _ _ hpath hi hn => hflows.written hpath hi hn⟩
  exact List.count_eq_one_of_mem hlabels (List.mem_map_of_mem (hcode.target_mem i hi l hl))

theorem Code.Controlled.written_in_run {code : Code} (h : code.Controlled) {D : Domain}
    {M : Machine D} (hcode : M.code = code) {c d : Config D} {n k : Nat} {i : Instr}
    (hc : c.pc = 0) (hrun : M.run n c = some d) (hi : code[d.pc]? = some i)
    (hk : .temp k ∈ i.sources) :
    ∃ m < n, ∃ e j, M.run m c = some e ∧ code[e.pc]? = some j ∧ k ∈ j.written := by
  subst hcode
  obtain ⟨visited, hpath, hvisited⟩ := Machine.path_of_run hc hrun
  obtain ⟨q, hq, j, hj, hwritten⟩ := h.written visited d.pc i k hpath hi hk
  obtain ⟨m, hm, e, he, rfl⟩ := hvisited q hq
  exact ⟨m, hm, e, j, he, hj, hwritten⟩

/-- Where no path leads past the end of the code, a run halts at a return. -/
theorem Code.Path.halts_at_return {code : Code} (h : ∀ visited, ¬ code.Path visited code.length)
    {D : Domain} {M : Machine D} (hcode : M.code = code) {c d : Config D} (hc : c.pc = 0)
    (hd : M.Halts c d) : code[d.pc]? = some .ret := by
  subst hcode
  obtain ⟨⟨n, hrun⟩, hhalted⟩ := hd
  obtain ⟨visited, hpath, -⟩ := Machine.path_of_run hc hrun
  refine hhalted.resolve_left fun hnone => h visited ?_
  have hpast : M.code.length ≤ d.pc := List.getElem?_eq_none_iff.1 hnone
  rwa [Nat.le_antisymm hpath.le_length hpast] at hpath

/-- On whatever machine the code of a source text runs, it reads no temporary that it has not
written, and it halts at a return where its body must return or there is nothing to return. -/
theorem compile_runs_controlled {source : String} {a : Assembly} (h : compile source = .ok a) :
    ∃ p, parse source = .ok p ∧ List.Forall₂ (fun f sub => ∀ (D : Domain) (M : Machine D),
      M.code = sub.code → ∀ c d : Config D, c.pc = 0 →
        (∀ n i k, M.run n c = some d → sub.code[d.pc]? = some i → .temp k ∈ i.sources →
          ∃ m < n, ∃ e j, M.run m c = some e ∧ sub.code[e.pc]? = some j ∧ k ∈ j.written) ∧
        (f.result = none ∨ Stmt.anyMustReturn f.body = true → M.Halts c d →
          sub.code[d.pc]? = some .ret)) p.functions a.subroutines := by
  obtain ⟨p, s, hp, -, hcompiles⟩ := compile_accepted h
  refine ⟨p, hp, hcompiles.subroutines.imp fun f sub hf D M hcode c d hc => ⟨?_, fun hor => ?_⟩⟩
  · exact fun n i k hrun => (hcompiles.controlled hf).written_in_run hcode hc hrun
  · obtain ⟨L, Z, hflows, hleft⟩ := hcompiles.flows hf
    exact Code.Path.halts_at_return (hflows.not_path_end (hleft hor)) hcode hc

/-- The control flow of the code of a source text is well formed, and no path leads past the end of
a procedure, or of a function whose body must return. -/
theorem compile_controls_flow {source : String} {a : Assembly} (h : compile source = .ok a) :
    ∃ p, parse source = .ok p ∧ List.Forall₂ (fun f sub => sub.code.Controlled ∧
      (f.result = none ∨ Stmt.anyMustReturn f.body = true →
        ∀ visited, ¬ sub.code.Path visited sub.code.length)) p.functions a.subroutines := by
  obtain ⟨p, s, hp, -, hcompiles⟩ := compile_accepted h
  refine ⟨p, hp, hcompiles.subroutines.imp fun f sub hf => ⟨hcompiles.controlled hf, fun hor => ?_⟩⟩
  obtain ⟨L, Z, hflows, hleft⟩ := hcompiles.flows hf
  exact hflows.not_path_end (hleft hor)

theorem surveySource_controls_flow : ∃ a p, compile surveySource = .ok a ∧
    parse surveySource = .ok p ∧ List.Forall₂ (fun f sub => sub.code.Controlled ∧
      (f.result = none ∨ Stmt.anyMustReturn f.body = true →
        ∀ visited, ¬ sub.code.Path visited sub.code.length)) p.functions a.subroutines := by
  obtain ⟨a, ha⟩ := exists_code_surveySource
  obtain ⟨p, hp, hcontrolled⟩ := compile_controls_flow ha
  exact ⟨a, p, ha, hp, hcontrolled⟩

end Asl
