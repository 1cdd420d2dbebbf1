import Asl.Proofs.Lowering.Loops
import Asl.Proofs.Meaning.Progressions
import Asl.Proofs.Meaning.Statements
import Asl.Proofs.Meaning.Within

/-!
# Loops count through arithmetic progressions

Over exact integers the code of a loop evaluates its bounds once, before the first test, and then
goes through its rounds: the control variable has the terms of an arithmetic progression at the
beginning of the bodies, one after the other, as long as the loop goes on with them. At every test
the bounds are in temporaries that no round writes, so it makes no difference what the bodies do to
the variables of the bounds, or how the direction was found out.
-/
namespace Asl

open Lower (LoopPlaces LoopParts)

variable {D : Domain}

/-- The machine evaluates expressions one after the other, each of them once, in a stretch of code
of its own. -/
inductive Machine.EvaluatesEach (M : Machine D) (Γ : Context) : List Expr → Nat → Config D →
    State D → List D.Value → Nat → Config D → State D → Prop
  | nil {pc : Nat} {c : Config D} {s : State D} : EvaluatesEach M Γ [] pc c s [] pc c s
  | cons {e : Expr} {es : List Expr} {lo mid hi : Nat} {c d f : Config D} {s t u : State D}
      {v : D.Value} {vs : List D.Value} : (e.eval M.interpretation Γ).run s = (.ok v, t) →
        M.Within lo mid c d → d.pc = mid → d.Shows t → EvaluatesEach M Γ es mid d t vs hi f u →
          EvaluatesEach M Γ (e :: es) lo c s (v :: vs) hi f u

theorem Machine.EvaluatesEach.reaches {M : Machine D} {Γ : Context} {es : List Expr} {lo hi : Nat}
    {c d : Config D} {s t : State D} {vs : List D.Value}
    (h : M.EvaluatesEach Γ es lo c s vs hi d t) : M.Reaches c d := by
  induction h with
  | nil => exact .refl M _
  | cons _ hwithin _ _ _ ih => exact hwithin.reaches.trans ih

theorem Lower.bounds_each {E : Surroundings} {Γ : Context} {Λ : Lowering} {M : Machine D}
    (hE : E.Agrees Γ Λ) (hM : M.Suits Γ) {es : List Expr} (hes : ∀ e ∈ es, e.HasType Γ .int)
    (hn : ∀ e ∈ es, e.Noted Λ Γ) (c : Counters) :
    Gives (bounds Λ es) c fun r c' => c.temps ≤ c'.temps ∧ (∀ o ∈ r.2, o.Settled c'.temps) ∧
      ∀ cfg s vs t, Code.At M.code cfg.pc r.1 → cfg.Shows s →
        (es.mapM (Expr.eval M.interpretation Γ)).run s = (.ok vs, t) →
          ∃ d, M.EvaluatesEach Γ es cfg.pc cfg s vs (cfg.pc + r.1.length) d t ∧
            Advanced c.temps r.1 cfg s d t ∧ r.2.map d.get = vs := by
  induction es generalizing c with
  | nil =>
    refine gives_pure ⟨Nat.le_refl _, by rintro _ ⟨⟩, fun cfg s vs t _ hs hrun => ?_⟩
    cases hrun
    exact ⟨cfg, .nil, .refl _ hs, rfl⟩
  | cons e es ih =>
    obtain ⟨he, hes⟩ := List.forall_mem_cons.1 hes
    obtain ⟨hne, hnes⟩ := List.forall_mem_cons.1 hn
    intro r c' hrun
    obtain ⟨⟨code, o⟩, c₁, hexpr, hrun⟩ := Attempt.run_bind_eq_ok.1 hrun
    obtain ⟨⟨keep, q⟩, c₂, hkeep, hrun⟩ := Attempt.run_bind_eq_ok.1 hrun
    obtain ⟨⟨more, qs⟩, c₃, hmore, hrun⟩ := Attempt.run_bind_eq_ok.1 hrun
    cases hrun
    have hr := expr_evaluated hE hM e .int he hne c _ _ hexpr
    obtain ⟨hle₂, hq, -⟩ := materialize_follows M (hr.held.stable .int) _ _ hkeep
    obtain ⟨hle₃, hsettled, heach⟩ := ih hes hnes c₂ _ _ hmore
    have hle := Nat.le_trans hr.le hle₂
    refine ⟨Nat.le_trans hle hle₃, List.forall_mem_cons.2 ⟨hq.mono hle₃, hsettled⟩, ?_⟩
    intro cfg s vs t hat hs hvs
    rw [List.mapM_cons] at hvs
    obtain ⟨v, u, hv, hvs⟩ := Attempt.run_bind_eq_ok.1 hvs
    obtain ⟨rest, w, hrest, hvs⟩ := Attempt.run_bind_eq_ok.1 hvs
    cases hvs
    -- the first bound is evaluated and kept in a stretch of its own
    have hpart : Code.At M.code cfg.pc (code ++ keep) := hat.left
    have hinside := M.part_at cfg.pc (code ++ keep)
    have hr' := expr_evaluated hE (hM.part hpart) e .int he hne c _ _ hexpr
    obtain ⟨-, -, hkeeps⟩ := materialize_follows (M.part cfg.pc (code ++ keep))
      (hr.held.stable .int) _ _ hkeep
    have hact := hr'.follows 0 cfg s hinside.left hs
    rw [show (M.part cfg.pc (code ++ keep)).interpretation = M.interpretation from rfl, hv] at hact
    obtain ⟨d₁, hreach₁, h₁, hv₁⟩ := hact
    obtain ⟨d₂, hreach₂, h₂, hget⟩ := hkeeps d₁ u (h₁.codeAt hinside) (h₁.shows hs)
    have hwithin := (hreach₁.trans hreach₂).within hM.labels hpart
    have h₁₂ := h₁.trans h₂ hr.le
    obtain ⟨d, hbehind, h₃, hvalues⟩ :=
      heach d₂ u rest _ (h₁₂.codeAt hat) (h₁₂.shows hs) hrest
    rw [h₁₂.pc, Nat.add_assoc, ← List.length_append] at hbehind
    refine ⟨d, .cons hv hwithin h₁₂.pc (h₁₂.shows hs) hbehind, h₁₂.trans h₃ hle, ?_⟩
    rw [List.map_cons, hvalues, h₃.get hq.stable, hget, hv₁.get .int]

/-- The machine goes round a loop from test to test, with these values in a variable at the
beginning of the bodies. -/
inductive Machine.Iterates (M : Machine D) (L : LoopPlaces) (x : String) :
    List D.Value → Config D → Config D → Prop
  | stop {c : Config D} : Iterates M L x [] c c
  | round {vs : List D.Value} {c b e d f : Config D} : M.Within L.test L.body c b → b.pc = L.body →
      M.Within L.body L.next b e → e.pc = L.next → M.Within L.next L.behind e d → d.pc = L.test →
        Iterates M L x vs d f → Iterates M L x (b.registers x :: vs) c f

theorem Machine.Iterates.append {M : Machine D} {L : LoopPlaces} {x : String}
    {vs ws : List D.Value} {c d e : Config D} (h : M.Iterates L x vs c d)
    (h' : M.Iterates L x ws d e) : M.Iterates L x (vs ++ ws) c e := by
  induction h with
  | stop => exact h'
  | round hbefore hb hbody he hbehind hd _ ih => exact .round hbefore hb hbody he hbehind hd (ih h')

/-- At the test of a loop, with an integer in the control variable: the machine enters the body if
the loop goes on with the integer, and leaves the loop otherwise, in the same state. -/
structure Machine.Decides (M : Machine D) (L : LoopPlaces) (x : String) (int : Int → D.Value)
    (p : Progression) (i : Int) (u : State D) (d : Config D) : Prop where
  pc : d.pc = L.test
  enters : p.GoesOn i → ∃ b, M.Within L.test L.body d b ∧ b.pc = L.body ∧ b.Shows u ∧
    b.registers x = int i
  leaves : ¬ p.GoesOn i → ∃ t e, M.Within L.test L.body d t ∧ M.Within L.next L.behind t e ∧
    e.pc = L.behind ∧ e.Shows u ∧ e.registers x = int i

/-- Over exact integers the machine runs a loop over a progression: it evaluates the bounds, each
once and in their order, prepares the first round, and then goes round with the terms of the
progression, deciding at every test whether there is one more. -/
def Machine.RunsLoop (M : Machine D) (L : LoopPlaces) (Γ : Context) (x : String)
    (range : List Expr) (body : List Stmt) : Prop :=
  ∀ (int : Int → D.Value), M.interpretation.Exact int →
    ∀ (c : Config D) (s t : State D) (vs : List Int) (p : Progression), c.pc = L.bounds →
      c.Shows s → (range.mapM (Expr.eval M.interpretation Γ)).run s = (.ok (vs.map int), t) →
        Progression.ofBounds vs = some p →
          ∃ e h, M.EvaluatesEach Γ range L.bounds c s (vs.map int) L.setup e t ∧
            e.pc = L.setup ∧ e.Shows t ∧ M.Within L.setup L.test e h ∧ h.pc = L.test ∧
              ∀ k u, Rounds M.interpretation Γ int x body p t k u →
                ∃ d, M.Iterates L x ((List.range k).map fun i => int (p.term i)) h d ∧
                  M.Decides L x int p (p.term k) u d

/-- Code that is chosen for the direction of a loop, and that finds it out for a step. -/
def Lower.FindsOut (I : Interpretation D) (choose : Operand → Lower (Code × Lower.Direction))
    (step : D.Value) (isUp : Bool) : Prop :=
  ∀ (M : Machine D) (o : Operand) (c : Counters), M.interpretation = I → o.Settled c.temps →
    Lower.Gives (choose o) c fun r c' => c.temps ≤ c'.temps ∧
      ∀ cfg s, Code.At M.code cfg.pc r.1 → cfg.Shows s → cfg.get o = step →
        ∃ d, M.Reaches cfg d ∧ Advanced c.temps r.1 cfg s d s ∧ r.2.Counts I c'.temps d isUp

section

variable {I : Interpretation D} {int : Int → D.Value}

theorem Interpretation.Exact.test_findsOut (hI : I.Exact int) (k : Int) :
    Lower.FindsOut I Lower.direction.test (int k) (decide (0 < k)) := by
  intro M o c hM ho
  subst hM
  refine (Lower.test_follows M ho).mono fun r c' hres => ?_
  obtain ⟨hle, hfollows⟩ := hres
  refine ⟨hle, fun cfg s hat hs hget => ?_⟩
  have h := hfollows 0 cfg s hat hs
  rw [hget, hI.run_isPositive] at h
  exact h

theorem Interpretation.Exact.direction_findsOut (hI : I.Exact int) {k : Int}
    {written : Option Expr}
    (hk : ∀ n, written.elim (some 1) Expr.numeral? = some n → k = n) :
    Lower.FindsOut I (Lower.direction · written) (int k) (decide (0 < k)) := by
  intro M o c hM ho
  subst hM
  refine (Lower.direction_follows M ho written).mono fun r c' hres => ?_
  obtain ⟨hle, hfollows⟩ := hres
  refine ⟨hle, fun cfg s hat hs hget => ?_⟩
  have h := hfollows 0 cfg s hat hs
  rw [hget, hI.run_countsUp hk] at h
  exact h

end

namespace Lower.LoopParts

variable {E : Surroundings} {Γ : Context} {Λ : Lowering} {M : Machine D} {int : Int → D.Value}
  {control : Ident} {range : List Expr} {body : List Stmt}
  {choose : Operand → Lower (Code × Direction)} {c : Counters} {p : Progression} {pc : Nat}

/-- The machine is at the test of a loop, and its bounds are in temporaries that no round writes. -/
structure Ready (P : LoopParts Λ control range body choose c) (M : Machine D)
    (int : Int → D.Value) (p : Progression) (pc : Nat) (u : State D) (d : Config D) : Prop where
  pc : d.pc = (P.places pc).test
  shows : d.Shows u
  counts : P.dir.Counts M.interpretation P.directed.temps d (decide (0 < p.step))
  settled_stop : P.stop.Settled P.directed.temps
  settled_step : P.step.Settled P.directed.temps
  stop : d.get P.stop = int p.stop
  step : d.get P.step = int p.step

variable {P : LoopParts Λ control range body choose c}

/-! Each part stands at its place. -/

theorem at_setup {code : Code} (hat : Code.At code pc P.code) :
    Code.At code (P.places pc).setup P.setup := hat.right.left

theorem at_head {code : Code} (hat : Code.At code pc P.code) :
    Code.At code (P.places pc).test (.label ⟨.for, P.number⟩ :: (P.test ++
      .jumpUnless P.condition ⟨.endfor, P.number⟩ :: (P.inner ++ P.next))) := hat.right.right

theorem at_jump {code : Code} (hat : Code.At code pc P.code) :
    Code.At code ((P.places pc).test + 1 + P.test.length)
      (.jumpUnless P.condition ⟨.endfor, P.number⟩ :: (P.inner ++ P.next)) :=
  (at_head hat).tail.right

theorem at_body {code : Code} (hat : Code.At code pc P.code) :
    Code.At code (P.places pc).body P.inner := (at_jump hat).tail.left

theorem at_next {code : Code} (hat : Code.At code pc P.code) :
    Code.At code (P.places pc).next P.next := (at_jump hat).tail.right

theorem Ready.passed {u w : State D} {d e : Config D} (h : P.Ready M int p pc u d)
    (he : Passed P.directed.temps d (P.places pc).test w e) : P.Ready M int p pc w e where
  pc := he.pc
  shows := he.shows
  counts := h.counts.passed he
  settled_stop := h.settled_stop
  settled_step := h.settled_step
  stop := (he.get h.settled_stop).trans h.stop
  step := (he.get h.settled_step).trans h.step

theorem evaluates (hE : E.Agrees Γ Λ) (hM : M.Suits Γ) (hrange : ∀ e ∈ range, e.HasType Γ .int)
    (hn : ∀ e ∈ range, e.Noted Λ Γ) (hat : Code.At M.code pc P.code) {cfg : Config D}
    {s t : State D} {vs : List D.Value} (hpc : cfg.pc = pc) (hs : cfg.Shows s)
    (hrun : (range.mapM (Expr.eval M.interpretation Γ)).run s = (.ok vs, t)) :
    (∀ o ∈ P.values, o.Settled P.bounded.temps) ∧
      ∃ e, M.EvaluatesEach Γ range pc cfg s vs (P.places pc).setup e t ∧
        e.pc = (P.places pc).setup ∧ e.Shows t ∧ P.values.map e.get = vs := by
  subst hpc
  obtain ⟨-, hsettled, heach⟩ := bounds_each hE hM hrange hn c _ _ P.run_bounds
  obtain ⟨e, hall, he, hvalues⟩ := heach cfg s vs t hat.left hs hrun
  exact ⟨hsettled, e, hall, he.pc, he.shows hs, hvalues⟩

theorem prepares (hM : M.Suits Γ) (hI : M.interpretation.Exact int)
    (hx : isIdentifier control.name = true)
    (hchoose : FindsOut M.interpretation choose (int p.step) (decide (0 < p.step)))
    (hat : Code.At M.code pc P.code) (hsettled : ∀ o ∈ P.values, o.Settled P.bounded.temps)
    {e : Config D} {t : State D} {vs : List Int} (hpc : e.pc = (P.places pc).setup)
    (hs : e.Shows t) (hvalues : P.values.map e.get = vs.map int)
    (hp : Progression.ofBounds vs = some p) :
    ∃ h, M.Within (P.places pc).setup (P.places pc).test e h ∧ P.Ready M int p pc
      { t with frame := Function.update t.frame control.name (int p.start) } h := by
  have hpart := at_setup hat
  let M' := M.part (P.places pc).setup P.setup
  have hinside : Code.At M'.code e.pc P.setup := by
    rw [hpc]
    exact M.part_at (P.places pc).setup P.setup
  have hne : P.values ≠ [] := by
    intro hnil
    rw [hnil] at hvalues
    rw [List.map_eq_nil_iff.1 hvalues.symm] at hp
    cases hp
  obtain ⟨hle₁, code, start, stop, step, hq, hstart, hstop, hstep, hdefaults⟩ :=
    loopBounds_follows M' hne hsettled _ _ P.run_loopBounds
  cases hq
  obtain ⟨d₁, hreach₁, h₁, hget⟩ := hdefaults e t hinside.left hs
  rw [hvalues, show M'.interpretation = M.interpretation from rfl, hI.range, hp] at hget
  obtain ⟨hstart₁, hstop₁, hstep₁⟩ : int p.start = d₁.get P.start ∧ int p.stop = d₁.get P.stop ∧
      int p.step = d₁.get P.step := by simpa using hget
  obtain ⟨hle₂, hfinds⟩ := hchoose M' P.step P.completed rfl hstep _ _ P.run_choose
  have hat₁ := h₁.codeAt hinside
  obtain ⟨d₂, hreach₂, h₂, hcounts⟩ := hfinds d₁ t hat₁.left (h₁.shows hs) hstep₁.symm
  have hcopy : M'.Reaches d₂ (d₂.set (.name control.name) (d₂.get P.start)).next :=
    Machine.reaches_of_execute (h₂.codeAt hat₁).head rfl
  have hs₂ := h₂.shows (h₁.shows hs)
  have hwithin := ((hreach₁.trans hreach₂).trans hcopy).within hM.labels hpart
  rw [h₂.get hstart.stable, ← hstart₁] at hwithin
  have hpassed : Passed P.directed.temps d₂ (d₂.pc + 1) _ _ := .assign hs₂ hx (int p.start)
  have hplace : d₂.pc + 1 = (P.places pc).test := by
    simp only [h₂.pc, h₁.pc, hpc, places, setup, List.length_append, List.length_singleton]
    omega
  refine ⟨_, hwithin, ⟨hplace, hpassed.shows, hcounts.passed hpassed, hstop.mono hle₂,
    hstep.mono hle₂, ?_, ?_⟩⟩
  · rw [hpassed.get (hstop.mono hle₂), h₂.get hstop.stable, hstop₁]
  · rw [hpassed.get (hstep.mono hle₂), h₂.get hstep.stable, hstep₁]

section

variable (hM : M.Suits Γ) (hI : M.interpretation.Exact int) (hx : isIdentifier control.name = true)
  (hat : Code.At M.code pc P.code)

include hM hI hx hat

theorem Ready.tests {u : State D} {d : Config D} {i : Int} (h : P.Ready M int p pc u d)
    (hi : u.frame control.name = int i) :
    ∃ t, M.Within (P.places pc).test (P.places pc).body d t ∧
      Passed P.directed.temps d ((P.places pc).test + 1 + P.test.length) u t ∧
        M.interpretation.holds (t.get P.condition) = decide (p.GoesOn i) := by
  have hhead : Code.At M.code (P.places pc).test (.label ⟨.for, P.number⟩ :: P.test) :=
    (at_head hat).left (a := .label ⟨.for, P.number⟩ :: P.test)
  let M' := M.part (P.places pc).test (.label ⟨.for, P.number⟩ :: P.test)
  have hinside : Code.At M'.code d.pc (.label ⟨.for, P.number⟩ :: (P.test ++ [])) := by
    rw [h.pc, List.append_nil]
    exact M.part_at _ _
  have hpast : Passed P.directed.temps d (d.pc + 1) u d.next := (Passed.refl _ h.shows).next
  have hreach : M'.Reaches d d.next := Machine.passes hinside
  have hfollows := loopTest_follows (M := M') (n := 0) (hM.part hhead) (h.counts.passed hpast)
    hinside.tail (Nat.lt_succ_self _) hpast.shows
  have hname : d.next.get (.name control.name) = int i := (h.shows.frame _ hx).trans hi
  have hstop : d.next.get P.stop = int p.stop := (hpast.get h.settled_stop).trans h.stop
  rw [hname, hstop, show M'.interpretation = M.interpretation from rfl] at hfollows
  obtain ⟨v, hrun, hholds⟩ := hI.run_test (s := u) p i
  rw [hrun] at hfollows
  obtain ⟨t, hwithin, ht, hv⟩ := (hfollows.of_reaches hreach).within hM.labels hhead
  have hpassed := hpast.advanced ht (Nat.le_refl _)
  rw [h.pc] at hpassed
  refine ⟨t, hwithin.mono (Nat.le_refl _) ?_, hpassed, (congrArg _ hv).trans hholds⟩
  simp only [places, List.length_cons]
  omega

theorem Ready.enters {u : State D} {d : Config D} {i : Int} (h : P.Ready M int p pc u d)
    (hi : u.frame control.name = int i) (hgoes : p.GoesOn i) :
    ∃ b, M.Within (P.places pc).test (P.places pc).body d b ∧
      Passed P.directed.temps d (P.places pc).body u b := by
  obtain ⟨t, hwithin, ht, hholds⟩ := h.tests hM hI hx hat hi
  have hjump := at_jump hat
  rw [← ht.pc] at hjump
  have hexec : M.execute (.jumpUnless P.condition ⟨.endfor, P.number⟩) t = some t.next := by
    simp only [Machine.execute, hholds, decide_eq_true hgoes, if_true]
  refine ⟨t.next, hwithin.trans (.of_execute hjump.head hexec ?_ ?_), ht.next⟩
  · rw [ht.pc]
    omega
  · rw [ht.pc]
    exact Nat.lt_succ_self _

theorem Ready.leaves {u : State D} {d : Config D} {i : Int} (h : P.Ready M int p pc u d)
    (hi : u.frame control.name = int i) (hends : ¬ p.GoesOn i) :
    ∃ t e, M.Within (P.places pc).test (P.places pc).body d t ∧
      M.Within (P.places pc).next (P.places pc).behind t e ∧
        Passed P.directed.temps d (P.places pc).behind u e := by
  obtain ⟨t, hwithin, ht, hholds⟩ := h.tests hM hI hx hat hi
  have hjump := at_jump hat
  rw [← ht.pc] at hjump
  have hend : Code.At M.code ((P.places pc).next + 2) [.label ⟨.endfor, P.number⟩] :=
    (at_next hat).tail.tail
  have hskip : M.execute (.jumpUnless P.condition ⟨.endfor, P.number⟩) t =
      some { t with pc := (P.places pc).next + 2 } := by
    simp only [Machine.execute, hholds, decide_eq_false hends, Machine.jump,
      Machine.find?_of_at hM.labels hend, Option.map_some, Bool.false_eq_true, if_false]
  let l : Config D := { t with pc := (P.places pc).next + 2 }
  have hpass : M.execute (.label ⟨.endfor, P.number⟩) l = some l.next := rfl
  have hl : Passed P.directed.temps d ((P.places pc).next + 2) u l := ht.goto _
  refine ⟨l, l.next, hwithin.trans (.of_execute hjump.head hskip ?_ ?_),
    .of_execute hend.head hpass ?_ ?_, hl.next⟩
  · rw [ht.pc]
    omega
  · rw [ht.pc]
    exact Nat.lt_succ_self _
  · exact Nat.le_add_right _ _
  · exact Nat.lt_succ_self _

theorem Ready.decides {u : State D} {d : Config D} {i : Int} (h : P.Ready M int p pc u d)
    (hi : u.frame control.name = int i) :
    M.Decides (P.places pc) control.name int p i u d where
  pc := h.pc
  enters hgoes := by
    obtain ⟨b, hwithin, hb⟩ := h.enters hM hI hx hat hi hgoes
    exact ⟨b, hwithin, hb.pc, hb.shows, (hb.shows.frame _ hx).trans hi⟩
  leaves hends := by
    obtain ⟨t, e, hwithin, hbehind, he⟩ := h.leaves hM hI hx hat hi hends
    exact ⟨t, e, hwithin, hbehind, he.pc, he.shows, (he.shows.frame _ hx).trans hi⟩

/-- Behind the body the machine adds the step to the control variable and goes back to the test. -/
theorem Ready.steps {u w : State D} {d e : Config D} {i : Int} (h : P.Ready M int p pc u d)
    (he : Passed P.directed.temps d (P.places pc).next w e) (hi : w.frame control.name = int i) :
    ∃ f, M.Within (P.places pc).next (P.places pc).behind e f ∧
      Passed P.directed.temps d (P.places pc).test
        { w with frame := Function.update w.frame control.name (int (i + p.step)) } f := by
  have hnext := at_next hat
  rw [← he.pc] at hnext
  have hcontrol : e.get (.name control.name) = int i := (he.shows.frame _ hx).trans hi
  have hstep : e.get P.step = int p.step := (he.get h.settled_step).trans h.step
  have hadd : M.execute (.binary (.add .whole) (.name control.name) (.name control.name) P.step)
      e = some (e.set (.name control.name) (int (i + p.step))).next := by
    simp only [Machine.execute, Config.after, Effect.calculate, hcontrol, hstep, hI.add,
      Option.map_some]
  let f : Config D := (e.set (.name control.name) (int (i + p.step))).next
  have hf := he.trans (.assign he.shows hx (int (i + p.step))) (Nat.le_refl _)
  have hback : M.execute (.jump ⟨.for, P.number⟩) f =
      some { f with pc := (P.places pc).test } := by
    simp only [Machine.execute, Machine.jump, Machine.find?_of_at hM.labels (at_head hat),
      Option.map_some]
  have hadded : M.Within (P.places pc).next (P.places pc).behind e f := by
    refine .of_execute hnext.head hadd (Nat.le_of_eq he.pc.symm) ?_
    rw [he.pc]
    exact Nat.lt_add_of_pos_right (Nat.succ_pos 2)
  have hjumped : M.Within (P.places pc).next (P.places pc).behind f
      { f with pc := (P.places pc).test } := by
    have hplace : f.pc = (P.places pc).next + 1 := congrArg (· + 1) he.pc
    refine .of_execute hnext.tail.head hback ?_ ?_
    · rw [hplace]
      exact Nat.le_succ _
    · rw [hplace]
      exact Nat.add_lt_add_left (Nat.succ_lt_succ (Nat.succ_pos 1)) _
  exact ⟨_, hadded.trans hjumped, hf.goto _⟩

variable (hE : E.Agrees Γ Λ) (hok : ∀ s ∈ body, s.Ok Γ) (hn : ∀ s ∈ body, s.Noted Λ Γ)

include hE hok hn

/-- A round leaves the machine at the test again, with the next integer in the control variable. -/
theorem Ready.round {u w : State D} {d : Config D} {i : Int} {n : Nat} (h : P.Ready M int p pc u d)
    (hi : u.frame control.name = int i) (hgoes : p.GoesOn i)
    (hrun : (Stmt.execAll M.interpretation Γ n body).run u = (.ok .normal, w))
    (hsame : w.frame control.name = u.frame control.name) :
    ∃ e, M.Iterates (P.places pc) control.name [int i] d e ∧ P.Ready M int p pc
      { w with frame := Function.update w.frame control.name (int (i + p.step)) } e := by
  obtain ⟨b, hwithin, hb⟩ := h.enters hM hI hx hat hi hgoes
  have hbody := at_body hat
  let M' := M.part (P.places pc).body P.inner
  obtain ⟨-, hexecutes⟩ := stmts_executed (M := M') (fun s _ => stmt_executed hE (hM.part hbody) s)
    hok hn _ _ _ P.run_body
  have hinside : Code.At M'.code b.pc P.inner := by
    rw [hb.pc]
    exact M.part_at _ _
  have hact := hexecutes n b u hinside hb.shows
  rw [show M'.interpretation = M.interpretation from rfl, hrun] at hact
  obtain ⟨e, hinner, hended⟩ := hact.within hM.labels hbody
  cases hended with
  | normal hpassed =>
    have he := hb.trans hpassed (Nat.le_succ _)
    rw [hb.pc] at he
    obtain ⟨f, hnext, hf⟩ := h.steps hM hI hx hat he (hsame.trans hi)
    have hvalue : b.registers control.name = int i := (hb.shows.frame _ hx).trans hi
    rw [← hvalue]
    exact ⟨f, .round hwithin hb.pc hinner he.pc hnext hf.pc .stop, h.passed hf⟩

theorem Ready.rounds {t u : State D} {h : Config D}
    (hh : P.Ready M int p pc
      { t with frame := Function.update t.frame control.name (int p.start) } h) {k : Nat}
    (hrounds : Rounds M.interpretation Γ int control.name body p t k u) :
    ∃ d, M.Iterates (P.places pc) control.name ((List.range k).map fun i => int (p.term i)) h d ∧
      P.Ready M int p pc u d := by
  induction hrounds with
  | zero => exact ⟨h, .stop, hh⟩
  | @succ k n u w hbefore hgoes hrun hsame ih =>
    obtain ⟨d, hiterates, hd⟩ := ih
    obtain ⟨e, hround, he⟩ := hd.round hM hI hx hat hE hok hn hbefore.control hgoes hrun hsame
    rw [List.range_succ, List.map_append, p.term_succ]
    exact ⟨e, hiterates.append hround, he⟩

end

theorem runsLoop (P : LoopParts Λ control range body choose c) (hE : E.Agrees Γ Λ)
    (hM : M.Suits Γ) {m : Mark} (hok : (Stmt.for m control range body).Ok Γ)
    (hn : (Stmt.for m control range body).Noted Λ Γ) (hat : Code.At M.code pc P.code)
    (hchoose : ∀ int, M.interpretation.Exact int → ∀ s t vs p,
      (range.mapM (Expr.eval M.interpretation Γ)).run s = (.ok (vs.map int), t) →
        Progression.ofBounds vs = some p →
          FindsOut M.interpretation choose (int p.step) (decide (0 < p.step))) :
    M.RunsLoop (P.places pc) Γ control.name range body := by
  intro int hI cfg s t vs p hpc hs hrun hp
  obtain ⟨hnr, hnb⟩ := hn.for_
  cases hok with
  | for_ hcontrol _ _ hrange hb =>
    have hx := hM.names _ _ hcontrol
    obtain ⟨hsettled, e, hbounds, he, hshows, hvalues⟩ :=
      P.evaluates hE hM hrange hnr hat hpc hs hrun
    obtain ⟨h, hsetup, hh⟩ := P.prepares hM hI hx (hchoose int hI s t vs p hrun hp) hat hsettled
      he hshows hvalues hp
    refine ⟨e, h, hbounds, he, hshows, hsetup, hh.pc, fun k u hrounds => ?_⟩
    obtain ⟨d, hiterates, hd⟩ := hh.rounds hM hI hx hat hE hb hnb hrounds
    exact ⟨d, hiterates, hd.decides hM hI hx hat hrounds.control⟩

end Lower.LoopParts

end Asl
