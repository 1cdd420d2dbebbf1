import Asl.Proofs.CallStack
import Asl.Proofs.Meaning.Iterations

/-!
# Loops over ranges

Every loop of an accepted program counts through the arithmetic progression that its bounds give
when the loop is reached, in the code that was emitted for it. The code with a test of the sign of
the step, where the emitted code has none because the sign is known, does the same.
-/
namespace Asl

open Lower (LoopParts direction)

/-- A loop at a place of some code runs over its progression there, and so does the loop with a test
of the sign of its step, in any code that it may stand in. -/
structure Lower.CountsAt (a : Assembly) (Γ : Context) (Λ : Lowering) (m : Mark) (control : Ident)
    (range : List Expr) (body : List Stmt) (c : Counters) (code : Code) (pc : Nat) : Prop where
  emitted : ∃ P : LoopParts Λ control range body (direction · range[2]?) c,
    (stmt Λ (.for m control range body)).run c = (.ok P.code, P.last) ∧ Code.At code pc P.code ∧
      ∀ (D : Domain) (I : Interpretation D),
        (Machine.mk I a code).RunsLoop (P.places pc) Γ control.name range body
  tested : ∃ P : LoopParts Λ control range body direction.test c,
    (forLoop Λ control range body direction.test).run c = (.ok P.code, P.last) ∧
      P.code.labels.Nodup ∧ ∀ (whole : Code) (start : Nat), whole.labels.Nodup →
        Code.At whole start P.code → ∀ (D : Domain) (I : Interpretation D),
          (Machine.mk I a whole).RunsLoop (P.places start) Γ control.name range body

theorem Program.Compiles.countsAt {p : Program} {s : Session} {a : Assembly} {f : Function}
    {sub : Subroutine} (h : p.Compiles s a) (hf : p.Lowered s f sub) {m : Mark} {control : Ident}
    {range : List Expr} {body : List Stmt} {c : Counters} {before : Code}
    (hcomes : Lower.Comes (p.lowering s f) f.body ⟨0, 0, 0⟩ (.for m control range body) c before) :
    Lower.CountsAt a (p.context f) (p.lowering s f) m control range body c sub.code
      before.length := by
  obtain ⟨hok, hn⟩ := hcomes.ok
    fun t ht => ⟨h.wellTyped.body f hf.mem t ht, h.analyzed.noted hf.mem t ht⟩
  have hE := h.agrees hf
  have hsuits {whole : Code} (hwhole : whole.labels.Nodup) (D : Domain) (I : Interpretation D) :
      (Machine.mk I a whole).Suits (p.context f) :=
    Program.suits h.named (h.subroutines.imp fun _ _ hf => hf.heads) hf.mem hwhole I
  obtain ⟨part, c', hrun, hat⟩ := (h.startsIn hf hcomes).stands
  rw [Lower.stmt_for] at hrun
  have hne : range ≠ [] := by
    cases hok with
    | for_ _ hone _ _ _ => exact List.ne_nil_of_length_pos hone
  obtain ⟨P, rfl⟩ := LoopParts.of_run hne hrun
  refine ⟨⟨P, P.run, hat, fun D I => ?_⟩, ?_⟩
  · refine P.runsLoop hE (hsuits (Lower.nodup_labels hf.lowered) D I) hok hn hat ?_
    intro int hI st t vs q hvs hq
    exact hI.direction_findsOut fun n hn => hI.step_eq hvs hq hn
  · have hb : ∀ t ∈ body, t.Ok (p.context f) := by
      cases hok with
      | for_ _ _ _ _ hb => exact hb
    obtain ⟨Q⟩ := P.exists_tested hE hb hn.for_.2
    refine ⟨Q, Q.run, Q.nodup_labels Lower.test_labels, fun whole start hwhole hat D I => ?_⟩
    refine Q.runsLoop hE (hsuits hwhole D I) hok hn hat ?_
    intro int hI st t vs q _ _
    exact hI.test_findsOut q.step

/-- The loops of compiled code iterate over arithmetic progressions. -/
theorem compile_counts_loops {source : String} {a : Assembly} (h : compile source = .ok a) :
    ∃ p s, parse source = .ok p ∧ p.analyze = .ok s ∧ List.Forall₂ (fun f sub =>
      Lower.subroutine (p.lowering s f) f.type f = .ok sub ∧
        ∀ m control range body, (Stmt.for m control range body).OccursIn f.body →
          (∃ c before, Lower.Comes (p.lowering s f) f.body ⟨0, 0, 0⟩
            (.for m control range body) c before) ∧
          ∀ c before, Lower.Comes (p.lowering s f) f.body ⟨0, 0, 0⟩
            (.for m control range body) c before →
              Lower.CountsAt a (p.context f) (p.lowering s f) m control range body c sub.code
                before.length) p.functions a.subroutines := by
  obtain ⟨p, s, hp, hs, hcompiles⟩ := compile_accepted h
  refine ⟨p, s, hp, hs, hcompiles.subroutines.imp fun f sub hf => ⟨hf.lowered, ?_⟩⟩
  intro m control range body hoccurs
  exact ⟨hcompiles.exists_comes hf hoccurs, fun c before hcomes => hcompiles.countsAt hf hcomes⟩

def countdownSource : String :=
  "func main() var i : int for i in range(3, 0, -1) do endfor endfunc"

def Function.countsDown (f : Function) : Bool :=
  match f.body with
  | [.for _ x range []] =>
      x.name = "i" && range.map Expr.numeral? = [some 3, some 0, some (-1)]
  | _ => false

theorem Function.exists_of_countsDown {f : Function} (h : f.countsDown = true) :
    ∃ m x range, f.body = [.for m x range []] ∧ x.name = "i" ∧
      range.map Expr.numeral? = [some 3, some 0, some (-1)] := by
  unfold countsDown at h
  split at h
  · rename_i m x range hbody
    exact ⟨m, x, range, hbody, by simpa using h⟩
  · cases h

theorem countdownSource_counts : ∃ a sub, compile countdownSource = .ok a ∧ a.subroutines = [sub] ∧
    ∀ s : State ⟨Int, Unit, Unit⟩, ∃ L h d e,
      (Machine.mk .integers a sub.code).Reaches s.start h ∧
        (Machine.mk .integers a sub.code).Iterates L "i" [(3 : Int), (2 : Int), (1 : Int)] h d ∧
          (Machine.mk .integers a sub.code).Reaches d e ∧ e.registers "i" = (0 : Int) := by
  have hchars : countdownSource.toList = _ := String.toList_ofList
  have hok : (compile countdownSource).toOption.isSome = true := by
    rw [compile, check, parse, tokens, hchars]
    decide +kernel
  have hshape : (parse countdownSource).toOption.map (fun p => p.functions.map (·.countsDown)) =
      some [true] := by
    rw [parse, tokens, hchars]
    decide +kernel
  obtain ⟨a, ha⟩ := exists_code_of_isSome hok
  obtain ⟨p, s, hp, -, hsubs⟩ := compile_counts_loops ha
  rw [hp] at hshape
  obtain ⟨f, hfunctions, hf⟩ := List.map_eq_singleton_iff.1 (Option.some.inj hshape)
  obtain ⟨m, x, range, hbody, hx, hrange⟩ := f.exists_of_countsDown hf
  rw [hfunctions] at hsubs
  obtain ⟨sub, rest, ⟨-, hloops⟩, hrest, hsub⟩ := List.forall₂_cons_left_iff.1 hsubs
  rw [List.forall₂_nil_left_iff.1 hrest] at hsub
  have hcomes : Lower.Comes (p.lowering s f) f.body ⟨0, 0, 0⟩ (.for m x range []) ⟨0, 0, 0⟩ [] := by
    rw [hbody]
    exact .here
  have hoccurs : (Stmt.for m x range []).OccursIn f.body := .here (by simp [hbody])
  obtain ⟨P, -, -, hruns⟩ := ((hloops m x range [] hoccurs).2 _ _ hcomes).emitted
  refine ⟨a, sub, ha, hsub, fun st => ?_⟩
  have hI := Interpretation.integers_exact
  obtain ⟨e, h, hbounds, -, -, hsetup, -, hrounds⟩ := hruns _ .integers id hI st.start st st
    [3, 0, -1] ⟨3, 0, -1⟩ rfl st.shows_start (hI.run_mapM_eval _ hrange st) rfl
  have hround {k : Nat} {u : State ⟨Int, Unit, Unit⟩}
      (hk : Rounds .integers (p.context f) id x.name [] ⟨3, 0, -1⟩ st k u)
      (hgoes : (⟨3, 0, -1⟩ : Progression).GoesOn ((⟨3, 0, -1⟩ : Progression).term k)) :
      ∃ w, Rounds .integers (p.context f) id x.name [] ⟨3, 0, -1⟩ st (k + 1) w :=
    ⟨_, .succ (n := 0) hk hgoes rfl rfl⟩
  obtain ⟨_, hone⟩ := hround .zero (by decide)
  obtain ⟨_, htwo⟩ := hround hone (by decide)
  obtain ⟨_, hthree⟩ := hround htwo (by decide)
  obtain ⟨d, hiterates, hd⟩ := hrounds 3 _ hthree
  obtain ⟨t, e', htest, hleave, -, -, hlast⟩ := hd.leaves (by decide)
  rw [hx] at hiterates hlast
  exact ⟨_, h, d, e', hbounds.reaches.trans hsetup.reaches, hiterates,
    htest.reaches.trans hleave.reaches, hlast⟩

end Asl
