import Asl.Proofs.Meaning.Control

/-!
# Loops over ranges

The bounds of a loop are evaluated once and kept in temporaries that no round writes. The direction
is known from the step, or is found out before the first round and kept in a temporary as well. So
every round sees the bounds that the loop began with, whatever is stored into their names meanwhile.
-/
namespace Asl

variable {D : Domain}

inductive Operand.Settled (lo : Nat) : Operand → Prop
  | temp {k : Nat} : k ≤ lo → Settled lo (.temp k)

namespace Operand.Settled

variable {o : Operand} {lo hi : Nat}

theorem stable (h : o.Settled lo) : o.Stable lo := by
  cases h with
  | temp hk => exact .temp hk

theorem mono (h : o.Settled lo) (hle : lo ≤ hi) : o.Settled hi := by
  cases h with
  | temp hk => exact .temp (Nat.le_trans hk hle)

end Operand.Settled

theorem Passed.get {lo pc : Nat} {c d : Config D} {u : State D} (h : Passed lo c pc u d)
    {o : Operand} (ho : o.Settled lo) : d.get o = c.get o := by
  cases ho with
  | temp hk => exact h.get_temp hk

inductive Lower.Direction.Counts (I : Interpretation D) (lo : Nat) (c : Config D) :
    Lower.Direction → Bool → Prop
  | up : Counts I lo c .up true
  | down : Counts I lo c .down false
  | tested {o : Operand} : o.Settled lo → Counts I lo c (.tested o) (I.holds (c.get o))

theorem Lower.Direction.Counts.passed {I : Interpretation D} {lo pc : Nat} {c d : Config D}
    {u : State D} {dir : Lower.Direction} {b : Bool} (h : dir.Counts I lo c b)
    (hd : Passed lo c pc u d) : dir.Counts I lo d b := by
  cases h with
  | up => exact .up
  | down => exact .down
  | tested ho =>
    rw [← hd.get ho]
    exact .tested ho

section

variable {E : Surroundings} {Γ : Context} {Λ : Lowering} {M : Machine D}

namespace Lower

theorem materialize_follows (M : Machine D) {o : Operand} {c : Counters} (ho : o.Stable c.temps) :
    Gives (materialize o) c fun r c' => c.temps ≤ c'.temps ∧ r.2.Settled c'.temps ∧
      ∀ cfg s, Code.At M.code cfg.pc r.1 → cfg.Shows s →
        ∃ d, M.Reaches cfg d ∧ Advanced c.temps r.1 cfg s d s ∧ d.get r.2 = cfg.get o := by
  unfold materialize
  cases ho with
  | @temp k hk =>
    have htemp : (Operand.temp k).text.toList.head? = some '%' := by
      rw [Operand.toList_text_temp]
      rfl
    rw [if_pos htemp]
    refine gives_pure ⟨Nat.le_refl _, .temp hk, fun cfg s _ hs => ?_⟩
    exact ⟨cfg, .refl M cfg, .refl _ hs, rfl⟩
  | @name x hx =>
    have hname : (Operand.name x).text.toList.head? ≠ some '%' :=
      Operand.head?_of_isIdentifier hx
    rw [if_neg hname]
    refine (gives_freshTemp c).bind fun t c' hres => gives_pure ?_
    obtain ⟨ht, hc'⟩ := hres
    subst ht hc'
    refine ⟨Nat.le_succ _, .temp (Nat.le_refl _), fun cfg s hat hs => ?_⟩
    exact Machine.moves hat rfl (Nat.lt_succ_self _) hs

theorem immediate_follows (M : Machine D) (k : Int) (c : Counters) :
    Gives (immediate k) c fun r c' => c.temps ≤ c'.temps ∧ r.2.Settled c'.temps ∧
      ∀ cfg s, Code.At M.code cfg.pc r.1 → cfg.Shows s →
        ∃ d, M.Reaches cfg d ∧ Advanced c.temps r.1 cfg s d s ∧
          d.get r.2 = M.interpretation.constant (.int k) := by
  refine (gives_freshTemp c).bind fun t c' hres => gives_pure ?_
  obtain ⟨ht, hc'⟩ := hres
  subst ht hc'
  refine ⟨Nat.le_succ _, .temp (Nat.le_refl _), fun cfg s hat hs => ?_⟩
  exact Machine.moves hat rfl (Nat.lt_succ_self _) hs

theorem bounds_follows (hE : E.Agrees Γ Λ) (hM : M.Suits Γ) {es : List Expr}
    (hes : ∀ e ∈ es, e.HasType Γ .int) (hn : ∀ e ∈ es, e.Noted Λ Γ) (c : Counters) :
    Gives (bounds Λ es) c fun r c' => c.temps ≤ c'.temps ∧ r.2.length = es.length ∧
      (∀ o ∈ r.2, o.Settled c'.temps) ∧
        ∀ n cfg s, Code.At M.code cfg.pc r.1 → cfg.Shows s →
          M.Follows n cfg ((es.mapM (Expr.eval M.interpretation Γ)).run s) fun vs u d =>
            Advanced c.temps r.1 cfg s d u ∧ r.2.map d.get = vs := by
  induction es generalizing c with
  | nil =>
    refine gives_pure ⟨Nat.le_refl _, rfl, by rintro _ ⟨⟩, fun n cfg s _ hs => ?_⟩
    exact Machine.follows_pure ⟨.refl _ hs, rfl⟩
  | cons e es ih =>
    obtain ⟨he, hes⟩ := List.forall_mem_cons.1 hes
    obtain ⟨hne, hnes⟩ := List.forall_mem_cons.1 hn
    refine (expr_evaluated hE hM e .int he hne c).bind fun r c₁ hr => ?_
    refine (materialize_follows M (hr.held.stable .int)).bind fun q c₂ hres => ?_
    obtain ⟨hle₂, hq, hkeep⟩ := hres
    refine (ih hes hnes c₂).bind fun more c₃ hres => gives_pure ?_
    obtain ⟨hle₃, hlength, hsettled, hmore⟩ := hres
    have hle := Nat.le_trans hr.le hle₂
    refine ⟨Nat.le_trans hle hle₃, by rw [List.length_cons, List.length_cons, hlength],
      List.forall_mem_cons.2 ⟨hq.mono hle₃, hsettled⟩, fun n cfg s hat hs => ?_⟩
    simp only [List.append_assoc] at hat
    rw [List.mapM_cons]
    apply (hr.follows n cfg s hat.left hs).bind
    rintro v s₁ d₁ ⟨h₁, hv⟩
    have hat₁ := h₁.codeAt hat
    have hs₁ := h₁.shows hs
    obtain ⟨d₂, hreach, h₂, hget⟩ := hkeep d₁ s₁ hat₁.left hs₁
    apply Machine.Follows.of_reaches hreach
    apply (hmore n d₂ s₁ (h₂.codeAt hat₁) (h₂.shows hs₁)).bind
    rintro vs u d ⟨h₃, hvs⟩
    refine Machine.follows_pure ⟨(h₁.trans h₂ hr.le).trans h₃ hle, ?_⟩
    rw [List.map_cons, hvs, h₃.get hq.stable, hget, hv.get .int]

theorem loopBounds_follows (M : Machine D) {os : List Operand} (hne : os ≠ []) {c : Counters}
    (hos : ∀ o ∈ os, o.Settled c.temps) :
    Gives (loopBounds os) c fun q c' => c.temps ≤ c'.temps ∧ ∃ code start stop step,
      q = some (code, start, stop, step) ∧ start.Settled c'.temps ∧ stop.Settled c'.temps ∧
        step.Settled c'.temps ∧ ∀ cfg s, Code.At M.code cfg.pc code → cfg.Shows s →
          ∃ d, M.Reaches cfg d ∧ Advanced c.temps code cfg s d s ∧
            M.interpretation.range (os.map cfg.get) =
              some (d.get start, d.get stop, d.get step) := by
  rcases os with _ | ⟨a, _ | ⟨b, _ | ⟨o, rest⟩⟩⟩
  · exact absurd rfl hne
  · have ha := hos a (by simp)
    refine (immediate_follows M 0 c).bind fun zero c₁ hres => ?_
    obtain ⟨hle₁, hstart, hzero⟩ := hres
    refine (immediate_follows M 1 c₁).bind fun one c₂ hres => gives_pure ?_
    obtain ⟨hle₂, hstep, hone⟩ := hres
    have hle := Nat.le_trans hle₁ hle₂
    refine ⟨hle, _, _, _, _, rfl, hstart.mono hle₂, ha.mono hle, hstep, fun cfg s hat hs => ?_⟩
    obtain ⟨d₁, hreach₁, h₁, hget₁⟩ := hzero cfg s hat.left hs
    obtain ⟨d₂, hreach₂, h₂, hget₂⟩ := hone d₁ s (h₁.codeAt hat) (h₁.shows hs)
    refine ⟨d₂, hreach₁.trans hreach₂, h₁.trans h₂ hle₁, ?_⟩
    rw [h₂.get hstart.stable, h₂.get (ha.mono hle₁).stable, h₁.get ha.stable, hget₁, hget₂]
    rfl
  · have ha := hos a (by simp)
    have hb := hos b (by simp)
    refine (immediate_follows M 1 c).bind fun one c₁ hres => gives_pure ?_
    obtain ⟨hle, hstep, hone⟩ := hres
    refine ⟨hle, _, _, _, _, rfl, ha.mono hle, hb.mono hle, hstep, fun cfg s hat hs => ?_⟩
    obtain ⟨d, hreach, h, hget⟩ := hone cfg s hat hs
    refine ⟨d, hreach, h, ?_⟩
    rw [h.get ha.stable, h.get hb.stable, hget]
    rfl
  · refine gives_pure ⟨Nat.le_refl _, _, _, _, _, rfl, hos a (by simp), hos b (by simp),
      hos o (by simp), fun cfg s _ hs => ?_⟩
    exact ⟨cfg, .refl M cfg, .refl _ hs, rfl⟩

theorem test_follows (M : Machine D) {step : Operand} {c : Counters}
    (hstep : step.Settled c.temps) :
    Gives (direction.test step) c fun r c' => c.temps ≤ c'.temps ∧
      ∀ n cfg s, Code.At M.code cfg.pc r.1 → cfg.Shows s →
        M.Follows n cfg ((M.interpretation.isPositive (cfg.get step)).run s) fun b u d =>
          Advanced c.temps r.1 cfg s d u ∧ r.2.Counts M.interpretation c'.temps d b := by
  refine (immediate_follows M 0 c).bind fun zero c₁ hres => ?_
  obtain ⟨hle₁, _, hzero⟩ := hres
  refine (gives_freshTemp c₁).bind fun o c₂ hres => gives_pure ?_
  obtain ⟨ho, hc₂⟩ := hres
  subst ho hc₂
  refine ⟨Nat.le_succ_of_le hle₁, fun n cfg s hat hs => ?_⟩
  obtain ⟨d₁, hreach, h₁, hget⟩ := hzero cfg s hat.left hs
  apply Machine.Follows.of_reaches hreach
  rw [Interpretation.isPositive, map_eq_pure_bind, ← hget, ← h₁.get hstep.stable]
  apply (binary_follows (h₁.codeAt hat) (Nat.lt_succ_self _) (h₁.shows hs)).bind
  rintro v u d ⟨h₂, hv⟩
  refine Machine.follows_pure ⟨h₁.trans h₂ hle₁, ?_⟩
  rw [← hv]
  exact .tested (.temp (Nat.le_refl _))

theorem constantInt_eq (e : Expr) : constantInt e = e.numeral? := by
  induction e using Expr.ind with
  | literal m v => cases v <;> rfl
  | paren m inner ih => exact ih
  | unary m op operand ih =>
    cases op with
    | plus => exact ih
    | minus =>
      rw [constantInt, Expr.numeral?, ih]
      refine congrArg (operand.numeral?.bind ·) (funext fun n => ?_)
      have hleast : n = -(integerBound : Int) ↔ n + integerBound = 0 := by omega
      simp only [hleast]
    | not => rfl
  | _ => rfl

theorem direction_eq (step : Operand) (written : Option Expr) :
    direction step written = match written.map Expr.numeral? with
      | none => pure ([], .up)
      | some none => direction.test step
      | some (some k) =>
          if k = 0 then direction.test step else pure ([], if 0 < k then .up else .down) := by
  unfold direction
  cases written with
  | none => rfl
  | some e =>
    rw [Option.elim_some, constantInt_eq, Option.map_some]
    cases e.numeral? with
    | none => rfl
    | some k =>
      simp only
      split_ifs <;> first | rfl | omega

theorem direction_follows (M : Machine D) {step : Operand} {c : Counters}
    (hstep : step.Settled c.temps) (written : Option Expr) :
    Gives (direction step written) c fun r c' => c.temps ≤ c'.temps ∧
      ∀ n cfg s, Code.At M.code cfg.pc r.1 → cfg.Shows s →
        M.Follows n cfg ((M.interpretation.countsUp (cfg.get step) written).run s) fun b u d =>
          Advanced c.temps r.1 cfg s d u ∧ r.2.Counts M.interpretation c'.temps d b := by
  have hknown : ∀ {dir : Direction} {b : Bool},
      (∀ cfg : Config D, dir.Counts M.interpretation c.temps cfg b) →
        Gives (pure ([], dir)) c fun r c' => c.temps ≤ c'.temps ∧
          ∀ n cfg s, Code.At M.code cfg.pc r.1 → cfg.Shows s →
            M.Follows n cfg ((pure b : Act D Bool).run s) fun b u d =>
              Advanced c.temps r.1 cfg s d u ∧ r.2.Counts M.interpretation c'.temps d b := by
    intro dir b hcounts
    refine gives_pure ⟨Nat.le_refl _, fun n cfg s _ hs => ?_⟩
    exact Machine.follows_pure ⟨.refl _ hs, hcounts cfg⟩
  rw [direction_eq]
  unfold Interpretation.countsUp
  cases written.map Expr.numeral? with
  | none => exact hknown fun _ => .up
  | some numeral =>
    cases numeral with
    | none => exact test_follows M hstep
    | some k =>
      simp only
      split
      · exact test_follows M hstep
      · by_cases hup : 0 < k
        · rw [if_pos hup, decide_eq_true hup]
          exact hknown fun _ => .up
        · rw [if_neg hup, decide_eq_false hup]
          exact hknown fun _ => .down

theorem loopTest_follows (hM : M.Suits Γ) {dir : Direction} {b : Bool} {lo k m n : Nat}
    {control stop : Operand} {rest : Code} {cfg : Config D} {s : State D}
    (hdir : dir.Counts M.interpretation lo cfg b)
    (hat : Code.At M.code cfg.pc (loopTest m (.temp k) control stop dir ++ rest)) (hk : lo < k)
    (hs : cfg.Shows s) :
    M.Follows n cfg ((if b then
        M.interpretation.binaryAct (.less .whole) (cfg.get control) (cfg.get stop)
      else M.interpretation.binaryAct (.less .whole) (cfg.get stop) (cfg.get control)).run s)
        fun v u d => Advanced lo (loopTest m (.temp k) control stop dir) cfg s d u ∧
          d.get (.temp k) = v := by
  cases hdir with
  | up => exact binary_follows hat hk hs
  | down => exact binary_follows hat hk hs
  | @tested o ho =>
    simp only [loopTest, List.cons_append, List.nil_append] at hat
    have hleave := hat.tail.tail
    have hdown := hleave.tail
    have hend := hdown.tail.tail
    cases hholds : M.interpretation.holds (cfg.get o) with
    | true =>
      rw [if_pos rfl]
      apply Machine.Follows.of_reaches (Machine.enters hat hholds)
      have hs' : cfg.next.Shows s := ⟨hs.frame, hs.world⟩
      apply (binary_follows hat.tail hk hs').onward
      rintro v u d ⟨h, hv⟩
      have hjump := Machine.jumps hM.labels (h.codeAt (a := [_]) hat.tail) hend
      have hpass := Machine.passes (c := { d with pc := _ }) hend
      exact ⟨_, hjump.trans hpass, ⟨⟨rfl, h.frame, h.kept, h.world⟩, h.stack⟩, hv⟩
    | false =>
      rw [if_neg Bool.false_ne_true]
      have hskip := Machine.skips hM.labels hat hdown hholds
      have hpass := Machine.passes (c := { cfg with pc := _ }) hdown
      apply Machine.Follows.of_reaches (hskip.trans hpass)
      have hs' : ({ cfg with pc := cfg.pc + 1 + 1 + 1 + 1 } : Config D).Shows s :=
        ⟨hs.frame, hs.world⟩
      apply (binary_follows hdown.tail hk hs').onward
      rintro v u d ⟨h, hv⟩
      have hpassed := Machine.passes (h.codeAt (a := [_]) hdown.tail)
      exact ⟨_, hpassed, ⟨⟨by rw [Config.next, h.pc]; rfl, h.frame, h.kept, h.world⟩, h.stack⟩, hv⟩

theorem rounds_follow (hM : M.Suits Γ) {dir : Direction} {b : Bool} {lo k m n pc : Nat}
    {x : String} {stop step : Operand} {inner : Code} {body : Nat → Act D (Ending D)}
    {c d : Config D} {s : State D} (hx : isIdentifier x = true) (hstop : stop.Settled lo)
    (hstep : step.Settled lo) (hk : lo < k) (hcounts : dir.Counts M.interpretation lo c b)
    (hat : Code.At M.code pc (.label ⟨.for, m⟩ ::
      (loopTest m (.temp k) (.name x) stop dir ++ (.jumpUnless (.temp k) ⟨.endfor, m⟩ ::
        (inner ++ [.binary (.add .whole) (.name x) (.name x) step, .jump ⟨.for, m⟩,
          .label ⟨.endfor, m⟩])))))
    (hinner : M.Executes k inner body) (hd : Passed lo c pc s d) :
    M.Follows n d ((M.interpretation.loop
      (do
        let i ← Act.fetch x
        if b then M.interpretation.binaryAct (.less .whole) i (c.get stop)
        else M.interpretation.binaryAct (.less .whole) (c.get stop) i)
      (body n)
      (do
        let i ← Act.fetch x
        let v ← M.interpretation.binaryAct (.add .whole) i (c.get step)
        Act.assign x v) n).run s)
      (M.Ended lo c (pc + 1 + (loopTest m (.temp k) (.name x) stop dir).length + 1 +
        inner.length + 1 + 1 + 1)) := by
  have htest := hat.tail
  have hbody := htest.right.tail
  have hnext := hbody.right
  apply Machine.loop_follows (n := n) [.binary (.add .whole) (.name x) (.name x) step]
    hM.labels hat
  · intro e s he
    rw [← he.pc] at htest
    have hname : e.get (.name x) = s.frame x := he.shows.frame x hx
    have hcompared := loopTest_follows (n := n) hM (hcounts.passed he) htest hk he.shows
    rw [he.get hstop, hname] at hcompared
    apply hcompared.mono
    rintro v u f ⟨hf, hv⟩
    exact ⟨he.advanced hf (Nat.le_refl lo), hv⟩
  · intro e s he
    exact hinner.passed he hbody.left (Nat.le_of_lt hk)
  · intro e s he
    rw [← he.pc] at hnext
    have hname : e.get (.name x) = s.frame x := he.shows.frame x hx
    have hexec : M.execute (.binary (.add .whole) (.name x) (.name x) step) e =
        e.after (.calculate (M.interpretation.binary (.add .whole) (s.frame x) (c.get step)))
          fun v d => d.set (.name x) v := by
      rw [← hname, ← he.get hstep]
      rfl
    apply (Machine.assigns hnext (by rintro ⟨⟩) hexec hx he.shows).mono
    intro _ u f hf
    rw [he.pc] at hf
    exact he.trans hf (Nat.le_refl lo)
  · exact Nat.le_refl n
  · exact hd

theorem for_executed (hE : E.Agrees Γ Λ) (hM : M.Suits Γ) {m : Mark} {control : Ident}
    {range : List Expr} {body : List Stmt} (ih : ∀ s ∈ body, Executed M Γ Λ s) :
    Executed M Γ Λ (.for m control range body) := by
  intro hok hn c
  obtain ⟨hnr, hnb⟩ := hn.for_
  cases hok with
  | for_ hcontrol hone _ hrange hb =>
    have hx := hM.names _ _ hcontrol
    refine (bounds_follows hE hM hrange hnr c).bind
      fun r c₁ hres => ?_
    obtain ⟨hle₁, hlength, hsettled, hbounds⟩ := hres
    have hne : r.2 ≠ [] := by
      intro h
      rw [h, List.length_nil] at hlength
      omega
    refine (loopBounds_follows M hne hsettled).bind
      fun q c₂ hres => ?_
    obtain ⟨hle₂, defaults, start, stop, step, hq, hstart, hstop, hstep, hdefaults⟩ := hres
    subst hq
    refine (direction_follows M hstep range[2]?).bind fun dir c₃ hres => ?_
    obtain ⟨hle₃, hsign⟩ := hres
    refine (gives_freshLoop c₃).bind fun k c₄ hres => ?_
    obtain ⟨hk, hc₄⟩ := hres
    subst hk hc₄
    refine (gives_freshTemp _).bind fun o c₅ hres => ?_
    obtain ⟨ho, hc₅⟩ := hres
    subst ho hc₅
    refine (stmts_executed ih hb hnb _).bind fun inner c₆ hres => gives_pure ?_
    obtain ⟨hle₆, hinner⟩ := hres
    have hle := Nat.le_trans hle₁ (Nat.le_trans hle₂ hle₃)
    have hcondition : c₃.temps < c₃.temps + 1 := Nat.lt_succ_self _
    refine ⟨Nat.le_trans hle (Nat.le_of_succ_le hle₆), ?_⟩
    let test := loopTest (c₃.loops + 1) (.temp (c₃.temps + 1)) (.name control.name) stop dir.2
    apply Machine.executes_of_end fun pc => pc + r.1.length + defaults.length + dir.1.length + 1 +
      1 + test.length + 1 + inner.length + 1 + 1 + 1
    · intro pc
      simp only [test, List.length_append, List.length_cons, List.length_nil]
      omega
    intro n cfg s hat hs
    simp only [Stmt.exec]
    simp only [List.append_assoc, List.cons_append] at hat
    apply (hbounds n cfg s hat.left hs).bind
    rintro vs s₁ d₁ ⟨h₁, hvs⟩
    have hat₁ := h₁.codeAt hat
    have hs₁ := h₁.shows hs
    obtain ⟨d₂, hreach₂, h₂, hrange₂⟩ := hdefaults d₁ s₁ hat₁.left hs₁
    rw [hvs] at hrange₂
    rw [hrange₂]
    apply Machine.Follows.of_reaches hreach₂
    have hat₂ := h₂.codeAt hat₁
    have hs₂ := h₂.shows hs₁
    apply (hsign n d₂ s₁ hat₂.left hs₂).bind
    rintro b s₃ d₃ ⟨h₃, hcounts⟩
    have hat₃ := h₃.codeAt hat₂
    have hs₃ := h₃.shows hs₂
    have hstart₃ := h₃.get hstart.stable
    have hcopy : M.Reaches d₃ (d₃.set (.name control.name) (d₂.get start)).next := by
      rw [← hstart₃]
      exact Machine.reaches_of_execute hat₃.head rfl
    apply Machine.Follows.of_reaches hcopy
    have hassigned : Passed c₃.temps d₃ (d₃.pc + 1) _ _ := .assign hs₃ hx (d₂.get start)
    have hrounds := rounds_follow (n := n) hM hx (hstop.mono hle₃) (hstep.mono hle₃) hcondition
      hcounts hat₃.tail hinner hassigned
    rw [h₃.get hstop.stable, h₃.get hstep.stable] at hrounds
    apply hrounds.mono
    intro e u d hended
    have h₁₃ := (h₁.trans h₂ hle₁).trans h₃ (Nat.le_trans hle₁ hle₂)
    have hall := hended.of_passed (.of_advanced h₁₃ hs) hle
    have hpc : d₃.pc = cfg.pc + r.1.length + defaults.length + dir.1.length := by
      rw [h₁₃.pc]
      simp only [List.length_append]
      omega
    rw [hpc] at hall
    exact hall

end Lower

end

end Asl
