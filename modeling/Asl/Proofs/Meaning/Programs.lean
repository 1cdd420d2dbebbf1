import Asl.Proofs.Meaning.Bodies
import Asl.Proofs.Source

/-!
# Lowering preserves meaning

Every function of an accepted program is lowered to a subroutine that implements its body, over any
interpretation of arithmetic, of memory and of calls, and from any state.
-/
namespace Asl

variable {D : Domain}

theorem Function.Named.entries {f : Function} (h : f.Named) :
    ∀ e ∈ f.entries, isIdentifier e.name = true := by
  intro e he
  rcases List.mem_append.1 he with he | he
  · obtain ⟨q, hq, hentry⟩ := List.mem_map.1 he
    rw [← hentry]
    exact h.params q hq
  · obtain ⟨d, hd, he⟩ := List.mem_flatMap.1 he
    obtain ⟨x, hx, hentry⟩ := List.mem_map.1 he
    rw [← hentry]
    exact h.locals d hd x hx

theorem Program.Named.meaning {p : Program} (h : p.Named) {f : Function} (hf : f ∈ p.functions)
    {x : String} {m : Role × Ty} (hx : p.meaning f x = some m) : isIdentifier x = true := by
  obtain ⟨role, t⟩ := m
  rcases Program.meaning_cases hx with ⟨hown, -, -⟩ | ⟨g, hg, hfind, -, -⟩
  · obtain ⟨e, he, hname, -, -⟩ := Entry.exists_of_meaning? hown
    rw [← hname]
    exact (h f hf).entries e he
  · have hname := List.find?_some hfind
    rw [← of_decide_eq_true hname]
    exact (h g hg).name

namespace Subroutine.Heads

variable {sub : Subroutine} {f : Function}

theorem find? {fs : List Function} {subs : List Subroutine}
    (h : List.Forall₂ (fun f (sub : Subroutine) => sub.Heads f) fs subs) {x : String} {g : Function}
    (hg : fs.find? (·.name.name = x) = some g) :
    ∃ sub, subs.find? (·.name = x) = some sub ∧ sub.Heads g := by
  induction h with
  | nil => cases hg
  | @cons f sub fs subs hf _ ih =>
    rw [List.find?_cons] at hg ⊢
    rw [hf.name]
    by_cases hx : f.name.name = x
    · rw [decide_eq_true hx] at hg ⊢
      cases hg
      exact ⟨sub, rfl, hf⟩
    · rw [decide_eq_false hx] at hg ⊢
      exact ih hg

theorem resultName_not_mem (hf : ∀ e ∈ f.entries, isIdentifier e.name = true) :
    resultName ∉ f.params.map (·.name.name) := by
  intro hmem
  obtain ⟨q, hq, hname⟩ := List.mem_map.1 hmem
  have hentry : q.entry ∈ f.entries := List.mem_append_left _ (List.mem_map_of_mem hq)
  exact ne_resultName_of_isIdentifier (hf q.entry hentry) hname

theorem arity (h : sub.Heads f) (hf : ∀ e ∈ f.entries, isIdentifier e.name = true) :
    sub.arity = f.params.length := by
  rw [Subroutine.arity, h.params]
  cases f.type.isProcedure with
  | true =>
    have hnot := resultName_not_mem hf
    simp only [if_true, List.nil_append, List.erase_of_not_mem hnot, List.length_map]
  | false =>
    simp only [Bool.false_eq_true, if_false, List.singleton_append, List.erase_cons_head,
      List.length_map]

theorem hasSlot (h : sub.Heads f) (hf : ∀ e ∈ f.entries, isIdentifier e.name = true) :
    sub.hasSlot = decide (f.resultType ≠ .void) := by
  rw [Subroutine.hasSlot, h.params, f.isProcedure_type]
  by_cases hvoid : f.resultType = .void
  · have hhead : (f.params.map (·.name.name)).head? ≠ some resultName :=
      fun hhead => resultName_not_mem hf (List.mem_of_mem_head? hhead)
    rw [decide_eq_true hvoid, if_pos rfl, List.nil_append, decide_eq_false hhead]
    exact (decide_eq_false fun hnot => hnot hvoid).symm
  · rw [decide_eq_false hvoid, decide_eq_true hvoid]
    rfl

end Subroutine.Heads

theorem Program.suits {p : Program} (hp : p.Named) {a : Assembly}
    (hheads : List.Forall₂ (fun f (sub : Subroutine) => sub.Heads f) p.functions a.subroutines)
    {f : Function} (hf : f ∈ p.functions) {code : Code} (hcode : code.labels.Nodup)
    (I : Interpretation D) : (Machine.mk I a code).Suits (p.context f) where
  labels := hcode
  names _ _ hx := hp.meaning hf hx
  headers x role params t hx := by
    rcases Program.meaning_cases hx with ⟨-, -, hvalue⟩ | ⟨g, hg, hfind, -, htype⟩
    · cases hvalue.isFunction
    · cases htype
      obtain ⟨sub, hsub, hgsub⟩ := Subroutine.Heads.find? hheads hfind
      have hentries := (hp g hg).entries
      refine ⟨sub, hsub, ?_, hgsub.hasSlot hentries⟩
      rw [hgsub.arity hentries, List.length_map]

/-- A subroutine implements a list of statements in a program of code: over any interpretation and
from any state it halts if the statements finish, and only then, with the same scalars, the same
world and the value that they return; and it jams exactly where they are stuck. -/
structure Subroutine.Implements (a : Assembly) (sub : Subroutine) (Γ : Context) (ss : List Stmt) :
    Prop where
  halts : ∀ (D : Domain) (I : Interpretation D) (s u : State D) (v : Option D.Value),
    Stmt.Finishes I Γ ss s v u → ∃ d, (Machine.mk I a sub.code).Halts s.start d ∧ d.Agrees s v u
  finishes : ∀ (D : Domain) (I : Interpretation D) (s : State D) (d : Config D),
    (Machine.mk I a sub.code).Halts s.start d →
      ∃ v u, Stmt.Finishes I Γ ss s v u ∧ d.Agrees s v u
  jams : ∀ (D : Domain) (I : Interpretation D) (s : State D),
    (Machine.mk I a sub.code).Jams s.start ↔ Stmt.GetsStuck I Γ ss s

theorem Subroutine.Implements.of_mirrors {a : Assembly} {sub : Subroutine} {Γ : Context}
    {ss : List Stmt} (h : ∀ (D : Domain) (I : Interpretation D) (s : State D),
      (Machine.mk I a sub.code).Mirrors Γ ss s) : sub.Implements a Γ ss where
  halts D I s _ _ hfinishes := (h D I s).halts hfinishes
  finishes D I s _ hd := (h D I s).finishes hd
  jams D I s := (h D I s).jams_iff

theorem Program.Analyzed.implements {p : Program} {s : Session} (hs : p.Analyzed s)
    (hplain : p.Plain) (hnamed : p.Named) (hnone : s.diagnostics = []) :
    ∃ a, ((Pass.lowerProgram p).run s).1 = .ok a ∧
      List.Forall₂ (fun f sub => sub.Heads f ∧ sub.Implements a (p.context f) f.body)
        p.functions a.subroutines := by
  rw [hs.diagnostics] at hnone
  have htyped := p.diagnostics_eq_nil_iff.1 hnone
  obtain ⟨a, ha, hsubs⟩ := Program.lowered_typed hplain htyped hs
  refine ⟨a, by rw [hs.lower, ha], ?_⟩
  have hheads := hsubs.imp fun f (sub : Subroutine) h => h.2.1
  obtain ⟨hlength, hpairs⟩ := List.forall₂_iff_zip.1 hsubs
  refine List.forall₂_iff_zip.2 ⟨hlength, fun {f sub} hpair => ?_⟩
  obtain ⟨hsub, hhead, -⟩ := hpairs hpair
  have hf := (List.of_mem_zip hpair).1
  refine ⟨hhead, .of_mirrors fun D I st => ?_⟩
  have hsuits := Program.suits hnamed hheads hf (Lower.nodup_labels hsub) I
  exact Lower.subroutine_mirrors (Program.agrees hplain hf s) hsuits hsub rfl (htyped.body f hf)
    (hs.noted hf) st

/-- Lowering preserves the meaning of every function of a program in which nothing is wrong. -/
theorem Program.lower_preserves_meaning {p : Program} (hids : p.ids.Nodup) (hplain : p.Plain)
    (hnamed : p.Named) {s : Session} (hs : p.analyze = .ok s) (hnone : s.diagnostics = []) :
    ∃ a, ((Pass.lowerProgram p).run s).1 = .ok a ∧
      List.Forall₂ (fun f sub => sub.Heads f ∧ sub.Implements a (p.context f) f.body)
        p.functions a.subroutines := by
  obtain ⟨s', hs', hanalyzed⟩ := Program.analyze_eq_ok hids
  rw [hs] at hs'
  cases hs'
  exact hanalyzed.implements hplain hnamed hnone

def totalSource : String :=
  "func total(a : array [3] of int, k : int) : float var i : int var s : float s := 0; for i in range(3) do s := max(s, s + a[i], k); endfor while s < 10 do s := s * 2; endwhile return s; endfunc func main() var v, w : array [3] of int v[0] := 7 % 4; w := v; if total(w, 2) > 1 then write total(v, 1); else write \"small\\n\"; endif endfunc"

set_option maxRecDepth 20000 in
theorem totalSource_keeps_meaning : ∃ p s a, parse totalSource = .ok p ∧ p.ids.Nodup ∧ p.Plain ∧
    p.Named ∧ p.analyze = .ok s ∧ s.diagnostics = [] ∧ ((Pass.lowerProgram p).run s).1 = .ok a ∧
      List.Forall₂ (fun f sub => sub.Heads f ∧ sub.Implements a (p.context f) f.body)
        p.functions a.subroutines := by
  have hchars : totalSource.toList = _ := String.toList_ofList
  have hok : (compile totalSource).toOption.isSome = true := by
    rw [compile, check, parse, tokens, hchars]
    decide +kernel
  obtain ⟨a, ha⟩ := exists_code_of_isSome hok
  obtain ⟨p, s, hp, hs, -, hnone, -⟩ := compile_eq_ok ha
  obtain ⟨hids, hplain, hnamed⟩ := parse_eq_ok hp
  obtain ⟨a', ha', hpreserved⟩ := Program.lower_preserves_meaning hids hplain hnamed hs hnone
  exact ⟨p, s, a', hp, hids, hplain, hnamed, hs, hnone, ha', hpreserved⟩

theorem compile_preserves_meaning {source : String} {a : Assembly} (h : compile source = .ok a) :
    ∃ p, parse source = .ok p ∧
      List.Forall₂ (fun f sub => sub.Heads f ∧ sub.Implements a (p.context f) f.body)
        p.functions a.subroutines := by
  obtain ⟨p, s, hp, -, hs, hnone, hlower⟩ := compile_eq_ok h
  obtain ⟨-, hplain, hnamed⟩ := parse_eq_ok hp
  obtain ⟨a', ha', hpreserved⟩ := hs.implements hplain hnamed hnone
  rw [hlower] at ha'
  cases ha'
  exact ⟨p, hp, hpreserved⟩

end Asl
