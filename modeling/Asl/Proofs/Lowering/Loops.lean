import Asl.Proofs.Lowering.Starts

/-!
# The parts of a loop

The code of a loop over a range consists of the evaluation of the bounds, of what is done once
before the first round, and of the test, the body and the step of a round. The parts are at known
places, and they are the same however the direction of the loop is found out.
-/
namespace Asl

namespace Lower

structure LoopParts (Λ : Lowering) (control : Ident) (range : List Expr) (body : List Stmt)
    (choose : Operand → Lower (Code × Direction)) (c : Counters) where
  evaluate : Code
  values : List Operand
  bounded : Counters
  run_bounds : (bounds Λ range).run c = (.ok (evaluate, values), bounded)
  defaults : Code
  start : Operand
  stop : Operand
  step : Operand
  completed : Counters
  run_loopBounds : (loopBounds values).run bounded =
    (.ok (some (defaults, start, stop, step)), completed)
  sign : Code
  dir : Direction
  directed : Counters
  run_choose : (choose step).run completed = (.ok (sign, dir), directed)
  inner : Code
  last : Counters
  run_body : (stmts Λ body).run ⟨directed.temps + 1, directed.branches, directed.loops + 1⟩ =
    (.ok inner, last)

/-- Where the parts of a loop begin: the evaluation of its bounds, what is done before the first
round, the test of a round, its body, what is done behind the body, and what is behind it all. -/
structure LoopPlaces where
  bounds : Nat
  setup : Nat
  test : Nat
  body : Nat
  next : Nat
  behind : Nat

namespace LoopParts

variable {Λ : Lowering} {control : Ident} {range : List Expr} {body : List Stmt}
  {choose : Operand → Lower (Code × Direction)} {c : Counters}

section

variable (P : LoopParts Λ control range body choose c)

def number : Nat := P.directed.loops + 1

def condition : Operand := .temp (P.directed.temps + 1)

/-- What is done before the first round: bounds that are not written, the direction, the start. -/
def setup : Code := P.defaults ++ (P.sign ++ [.copy (.name control.name) P.start])

def test : Code := loopTest P.number P.condition (.name control.name) P.stop P.dir

def next : Code :=
  [.binary (.add .whole) (.name control.name) (.name control.name) P.step, .jump ⟨.for, P.number⟩,
    .label ⟨.endfor, P.number⟩]

def code : Code :=
  P.evaluate ++ (P.setup ++ .label ⟨.for, P.number⟩ :: (P.test ++
    .jumpUnless P.condition ⟨.endfor, P.number⟩ :: (P.inner ++ P.next)))

/-- The places of the parts in code in which the loop begins at a place. -/
def places (pc : Nat) : LoopPlaces where
  bounds := pc
  setup := pc + P.evaluate.length
  test := pc + P.evaluate.length + P.setup.length
  body := pc + P.evaluate.length + P.setup.length + 1 + P.test.length + 1
  next := pc + P.evaluate.length + P.setup.length + 1 + P.test.length + 1 + P.inner.length
  behind := pc + P.evaluate.length + P.setup.length + 1 + P.test.length + 1 + P.inner.length + 3

theorem run : (forLoop Λ control range body choose).run c = (.ok P.code, P.last) := by
  have hloop : freshLoop.run P.directed =
      (.ok P.number, { P.directed with loops := P.directed.loops + 1 }) := rfl
  have htemp : freshTemp.run { P.directed with loops := P.directed.loops + 1 } =
      (.ok P.condition, ⟨P.directed.temps + 1, P.directed.branches, P.directed.loops + 1⟩) := rfl
  rw [forLoop, run_bind_of_ok P.run_bounds]
  simp only
  rw [run_bind_of_ok P.run_loopBounds]
  simp only
  rw [run_bind_of_ok P.run_choose]
  simp only
  rw [run_bind_of_ok hloop, run_bind_of_ok htemp, run_bind_of_ok P.run_body, Attempt.run_pure]
  simp only [code, setup, test, next, List.append_assoc, List.cons_append, List.nil_append]

theorem nodup_labels (hchoose : ∀ step, Labels [] Prod.fst (choose step)) :
    P.code.labels.Nodup := by
  obtain ⟨ls, hls, hcount⟩ :=
    forLoop_labels control range hchoose (fun s _ => stmt_labels s) c _ _ P.run
  refine List.nodup_iff_count_le_one.2 fun l => Nat.le_trans (hcount l) ?_
  exact List.nodup_iff_count_le_one.1 hls.nodup l

end

theorem of_run (hrange : range ≠ []) {code : Code} {c' : Counters}
    (h : (forLoop Λ control range body choose).run c = (.ok code, c')) :
    ∃ P : LoopParts Λ control range body choose c, P.code = code := by
  obtain ⟨⟨evaluate, values⟩, c₁, hbounds, h₁⟩ := Attempt.run_bind_eq_ok.1 h
  obtain ⟨q, c₂, hloop, h₂⟩ := Attempt.run_bind_eq_ok.1 h₁
  have hvalues := bounds_ne_nil hrange c _ c₁ hbounds
  cases q with
  | none => exact absurd rfl (loopBounds_ne_none hvalues c₁ _ _ hloop)
  | some q =>
    obtain ⟨⟨sign, dir⟩, c₃, hchoose, h₃⟩ := Attempt.run_bind_eq_ok.1 h₂
    obtain ⟨n, c₄, hn, h₄⟩ := Attempt.run_bind_eq_ok.1 h₃
    obtain ⟨condition, c₅, hcondition, h₅⟩ := Attempt.run_bind_eq_ok.1 h₄
    obtain ⟨inner, c₆, hinner, -⟩ := Attempt.run_bind_eq_ok.1 h₅
    cases hn
    cases hcondition
    let P : LoopParts Λ control range body choose c :=
      ⟨evaluate, values, c₁, hbounds, q.1, q.2.1, q.2.2.1, q.2.2.2, c₂, hloop, sign, dir, c₃,
        hchoose, inner, c₆, hinner⟩
    have hrun := P.run
    rw [h] at hrun
    exact ⟨P, (Except.ok.inj (Prod.mk.inj hrun).1).symm⟩

end LoopParts

theorem exists_run_stmts {E : Surroundings} {Γ : Context} {Λ : Lowering} (hE : E.Agrees Γ Λ)
    {ss : List Stmt} (hok : ∀ s ∈ ss, s.Ok Γ) (hn : ∀ s ∈ ss, s.Noted Λ Γ) (c : Counters) :
    ∃ code c', (stmts Λ ss).run c = (.ok code, c') := by
  let T : Typing := ⟨List.replicate c.temps .int, List.replicate c.branches [],
    List.replicate c.loops [], fun t ht => by
      rw [List.eq_of_mem_replicate ht]
      exact Primitive.int.ofValue⟩
  obtain ⟨code, T', hrun, -⟩ := stmts_typed_of (fun s _ => stmt_typed hE s) hok hn T
  have hT : T.counters = c := by simp [T, Typing.counters]
  rw [hT] at hrun
  exact ⟨code, _, hrun⟩

theorem LoopParts.exists_tested {E : Surroundings} {Γ : Context} {Λ : Lowering} {control : Ident}
    {range : List Expr} {body : List Stmt} {choose : Operand → Lower (Code × Direction)}
    {c : Counters} (P : LoopParts Λ control range body choose c) (hE : E.Agrees Γ Λ)
    (hok : ∀ s ∈ body, s.Ok Γ) (hn : ∀ s ∈ body, s.Noted Λ Γ) :
    Nonempty (LoopParts Λ control range body direction.test c) := by
  obtain ⟨inner, last, hinner⟩ := exists_run_stmts hE hok hn
    ⟨P.completed.temps + 1 + 1 + 1, P.completed.branches, P.completed.loops + 1⟩
  exact ⟨{ P with
    sign := _
    dir := _
    directed := ⟨P.completed.temps + 1 + 1, P.completed.branches, P.completed.loops⟩
    run_choose := rfl
    inner := inner
    last := last
    run_body := hinner }⟩

end Lower

end Asl
