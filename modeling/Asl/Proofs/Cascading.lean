import Asl.Proofs.Session.Analysis
import Asl.Proofs.Typing.Swapped

/-!
# One mistake, one diagnostic

An expression of a program is replaced by a name that the program declares nowhere. The analysis
then reports that name, and about the rest of the program it reports nothing that it did not report
before. The exception is an index of an array whose type was wrong before: once it is replaced, the
element that it names has a type again, and that may break a rule further out. Only nodes that
enclose the replaced expression can be affected.
-/
open scoped List

namespace Asl

open Report Swap

/-- A name that a program gives to no function and that no function declares. -/
def Program.Undeclared (p : Program) (x : String) : Prop :=
  ∀ f ∈ p.functions, f.name.name ≠ x ∧ x ∉ f.entries.map Entry.name

instance (p : Program) (x : String) : Decidable (p.Undeclared x) :=
  inferInstanceAs (Decidable (∀ f ∈ p.functions, _))

theorem Program.Undeclared.meaning {p : Program} {x : String} (h : p.Undeclared x) {f : Function}
    (hf : f ∈ p.functions) : p.meaning f x = none := by
  have hlocal : Entry.meaning? f.entries x = none := by
    rw [← Option.not_isSome_iff_eq_none, Entry.isSome_meaning?]
    exact (h f hf).2
  have hglobal : Entry.meaning? p.entries x = none := by
    rw [← Option.not_isSome_iff_eq_none, Entry.isSome_meaning?]
    intro hx
    obtain ⟨e, he, rfl⟩ := List.mem_map.1 hx
    obtain ⟨g, hg, rfl⟩ := List.mem_map.1 he
    exact (h g hg).1 rfl
  rw [Program.meaning, hlocal, hglobal]
  rfl

namespace Program.Hole

theorem sameHeaders (c : Hole) (e e' : Expr) : (c.fill e).SameHeaders (c.fill e') := by
  simp only [SameHeaders, fill, List.map_append, List.map_cons]
  rfl

variable {σ : Swap} {ds : List Diagnostic}

theorem reports_others (c : Hole) (e e' : Expr) {fs : List Function}
    (hfs : ∀ n ∈ fs.flatMap Function.ids, σ.Apart n) :
    σ.Reports []
      ⟨[], fs.flatMap fun f => (Stmt.judgeAll ((c.fill e).context f) f.body).diagnostics⟩
      ⟨[], fs.flatMap fun f => (Stmt.judgeAll ((c.fill e').context f) f.body).diagnostics⟩ := by
  simp only [← (c.sameHeaders e e').context rfl]
  refine reports_of_inside (l := fs.flatMap Function.ids) (fun d hd => ?_) hfs
  obtain ⟨f, hf, hd⟩ := List.mem_flatMap.1 hd
  obtain ⟨hmem, hfault⟩ := Stmt.inside_all _ f.body d hd
  exact ⟨List.mem_flatMap.2 ⟨f, hf, List.mem_append_right _ hmem⟩, hfault⟩

theorem reports_headers (c : Hole) (e e' : Expr) (haside : ∀ n ∈ c.aside, σ.Apart n) :
    σ.Reports [] ⟨[], Function.allRedeclared [] (c.fill e).functions⟩
      ⟨[], Function.allRedeclared [] (c.fill e').functions⟩ := by
  rw [(c.sameHeaders e e').allRedeclared]
  refine reports_of_inside (l := (c.fill e').functions.flatMap fun f => f.header.ids)
    (fun d hd => ?_) fun n hn => haside n ?_
  · obtain ⟨⟨f, hf, hmem⟩, hfault⟩ := Function.located_allRedeclared hd
    exact ⟨List.mem_flatMap.2 ⟨f, hf, hmem⟩, hfault⟩
  · obtain ⟨f, hf, hn⟩ := List.mem_flatMap.1 hn
    rcases List.mem_append.1 hf with hf | hf
    · have hn := List.mem_flatMap.2 ⟨f, hf, f.header_ids_subset hn⟩
      simp [aside, hn]
    · rcases List.mem_cons.1 hf with rfl | hf
      · have hn : n ∈ c.function.header.ids := hn
        simp [aside, hn]
      · have hn := List.mem_flatMap.2 ⟨f, hf, f.header_ids_subset hn⟩
        simp [aside, hn]

theorem diagnostics_fill (c : Hole) (e : Expr) : (c.fill e).diagnostics =
    Function.allRedeclared [] (c.fill e).functions ++
      (c.before.flatMap (fun f => (Stmt.judgeAll ((c.fill e).context f) f.body).diagnostics) ++
        ((Stmt.judgeAll ((c.fill e).context c.function) (c.filled e).body).diagnostics ++
          c.after.flatMap
            fun f => (Stmt.judgeAll ((c.fill e).context f) f.body).diagnostics)) ++
      (faultIf (!(c.fill e).hasMain) ⟨c.id, 0, 0⟩ .noMain).diagnostics := by
  have hmain : (if (c.fill e).hasMain then [] else [⟨⟨c.id, 0, 0⟩, .noMain⟩]) =
      (faultIf (!(c.fill e).hasMain) ⟨c.id, 0, 0⟩ .noMain).diagnostics := by
    cases (c.fill e).hasMain <;> rfl
  rw [← hmain, diagnostics]
  simp only [fill, List.flatMap_append, List.flatMap_cons]
  rfl

theorem reports (c : Hole) {e e' : Expr}
    (h : e.Swapped σ ((c.fill e).context c.function) ds e')
    (hpath : ∀ n ∈ c.path, σ.Around n) (haside : ∀ n ∈ c.aside, σ.Apart n)
    (hi : σ.keepsIndices →
      ∀ i ∈ c.inner.indices, ((c.fill e).context c.function).KeepsIndex e e' i) :
    σ.Reports ds ⟨[], (c.fill e).diagnostics⟩ ⟨[], (c.fill e').diagnostics⟩ := by
  obtain ⟨hid, hbefore, hafter, -, hfront, hback, hinner⟩ : σ.Apart c.id ∧
      (∀ n ∈ c.before.flatMap Function.ids, σ.Apart n) ∧
      (∀ n ∈ c.after.flatMap Function.ids, σ.Apart n) ∧
      (∀ n ∈ c.function.header.ids, σ.Apart n) ∧ (∀ n ∈ Stmt.idsAll c.front, σ.Apart n) ∧
      (∀ n ∈ Stmt.idsAll c.back, σ.Apart n) ∧ ∀ n ∈ c.inner.aside, σ.Apart n := by
    simpa only [aside, List.forall_mem_cons, List.forall_mem_append, and_assoc] using haside
  have hbody := Stmt.reports_all (c.inner.reports h hpath hinner hi) hfront hback
  have hmain : σ.Reports [] (faultIf (!(c.fill e).hasMain) ⟨c.id, 0, 0⟩ .noMain)
      (faultIf (!(c.fill e).hasMain) ⟨c.id, 0, 0⟩ .noMain) :=
    reports_rule hid _ _
  have hbodies := (reports_others c e e' hbefore).before
    (hbody.behind (reports_others c e e' hafter))
  have hall := ((reports_headers c e e' haside).before hbodies).behind hmain
  have hsame := c.sameHeaders e e'
  rw [diagnostics_fill c e, diagnostics_fill c e', ← hsame.hasMain,
    ← hsame.context (rfl : c.function.header = c.function.header)]
  exact ⟨hall.inside, hall.outside, hall.beside⟩

end Program.Hole

/-- A name without a meaning has the error type, about which all rules are silent. -/
theorem Expr.swapped_undeclared {σ : Swap} {Γ : Context} {e : Expr} {m : Mark} {x : Ident}
    (hold : σ.old = e.ids) (hnew : σ.new = (Expr.name m x).ids) (hx : Γ.meaning x.name = none) :
    e.Swapped σ Γ [⟨x.mark, .undeclared x.name⟩] (.name m x) := by
  have htype : ((Expr.name m x).judge Γ).type = .error := by
    simp only [Expr.judge, Context.judgeName, hx]
    rfl
  have hdiagnostics : ((Expr.name m x).judge Γ).report.diagnostics =
      [⟨x.mark, .undeclared x.name⟩] := by
    simp only [Expr.judge, Context.judgeName, hx]
    rfl
  have hids : (Expr.name m x).ids = [x.mark.id, m.id] := rfl
  have hinside : ∀ d ∈ (e.judge Γ).report.diagnostics, d.mark.id ∈ σ.old := fun d hd =>
    hold ▸ (e.inside_judge d hd).1
  refine ⟨⟨?_, fun _ => ?_, ?_⟩, ⟨Or.inl ⟨hold ▸ e.mark_mem_ids, htype⟩, fun _ => Or.inl htype⟩,
    fun _ => Or.inl htype⟩
  · rw [hdiagnostics, hnew, hids]
    simp
  · rw [hdiagnostics, hnew, hids]
    simp
  · rw [hdiagnostics, hnew, hids, eq_comm, List.filter_eq_nil_iff.2 fun d hd => ?_]
    · simp
    · simp [hinside d hd]

/-- Whatever expression is replaced by a name that is declared nowhere, the name is reported once,
and beside the nodes that enclose it the same is reported as before. At those nodes, too, nothing is
reported that was not reported before, unless an index around the replaced expression, or that
expression itself, has lost a wrong type. -/
theorem Program.errors_do_not_cascade (c : Program.Hole) (e : Expr) (m : Mark) (x : Ident)
    (hids : ((Expr.name m x).ids ++ (c.fill e).ids).Nodup) (hx : (c.fill e).Undeclared x.name) :
    ∃ s s', (Pass.analyze (c.fill e)).run .fresh = (.ok (), s) ∧
      (Pass.analyze (c.fill (.name m x))).run .fresh = (.ok (), s') ∧
      s'.diagnostics.filter (·.mark.id ∈ (Expr.name m x).ids) = [⟨x.mark, .undeclared x.name⟩] ∧
      s'.diagnostics.filter
          (fun d => d.mark.id ∉ (Expr.name m x).ids ∧ d.mark.id ∉ c.path) =
        s.diagnostics.filter (fun d => d.mark.id ∉ e.ids ∧ d.mark.id ∉ c.path) ∧
      ((∀ i ∈ c.inner.indices,
          ((c.fill e).context c.function).KeepsIndex e (.name m x) i) →
        s'.diagnostics.filter (·.mark.id ∉ (Expr.name m x).ids) <+
          s.diagnostics.filter (·.mark.id ∉ e.ids)) := by
  obtain ⟨hname, hfill, hdisjoint⟩ := List.nodup_append.1 hids
  obtain ⟨haround, -, hapart⟩ := List.nodup_append.1 ((c.ids_fill e).nodup_iff.1 hfill)
  have hout : ∀ n ∈ c.path ++ c.aside, n ∉ e.ids ∧ n ∉ (Expr.name m x).ids := by
    intro n hn
    refine ⟨fun he => hapart n hn n he rfl, fun hnew => ?_⟩
    exact hdisjoint n hnew n ((c.ids_fill e).mem_iff.2 (List.mem_append_left _ hn)) rfl
  have hfilled : (c.fill (.name m x)).ids.Nodup := by
    refine (c.ids_fill _).nodup_iff.2 (List.nodup_append.2 ⟨haround, hname, ?_⟩)
    exact fun n hn n' hn' he => (hout n hn).2 (he ▸ hn')
  obtain ⟨s, hrun, hs⟩ := Program.analyze_fresh hfill
  obtain ⟨s', hrun', hs'⟩ := Program.analyze_fresh hfilled
  have hfunction : c.filled e ∈ (c.fill e).functions := by simp [Hole.fill]
  have hmeaning : ((c.fill e).context (c.filled e)).meaning x.name = none := hx.meaning hfunction
  let σ : Swap := ⟨e.ids, (Expr.name m x).ids, c.path,
    ∀ i ∈ c.inner.indices, ((c.fill e).context c.function).KeepsIndex e (.name m x) i⟩
  have hreports := c.reports (σ := σ) (Expr.swapped_undeclared rfl rfl hmeaning)
    (fun n hn => ⟨hn, hout n (List.mem_append_left _ hn)⟩)
    (fun n hn => hout n (List.mem_append_right _ hn)) fun h => h
  rw [← hs.diagnostics, ← hs'.diagnostics] at hreports
  exact ⟨s, s', hrun, hrun', hreports.inside, hreports.beside, hreports.outside⟩

/-- An integer that is set to an element of an array of characters, without the element's index. -/
def Program.Hole.elementOfText : Program.Hole :=
  let mark (n : Nat) : Mark := ⟨n, 0, 0⟩
  { id := 0
    before := []
    function := {
      mark := mark 1
      name := ⟨mark 2, "main"⟩
      params := []
      result := none
      declarations := [⟨[⟨mark 3, "a"⟩], ⟨mark 4, .array 2 .char⟩⟩,
        ⟨[⟨mark 5, "i"⟩], ⟨mark 6, .base .int⟩⟩]
      body := [] }
    front := []
    inner := .assignValue (mark 12) (.name (mark 8) ⟨mark 7, "i"⟩)
      (.element (mark 11) ⟨mark 9, "a"⟩ .here)
    back := []
    after := [] }

/-- An index that is an integer is replaced; that the assignment is wrong was reported before. -/
theorem Program.undeclared_index_of_text :
    let c := Program.Hole.elementOfText
    let e := Expr.literal ⟨10, 0, 0⟩ (.int 0)
    let m : Mark := ⟨14, 0, 0⟩
    let x : Ident := ⟨⟨13, 0, 0⟩, "q"⟩
    ((Expr.name m x).ids ++ (c.fill e).ids).Nodup ∧ (c.fill e).Undeclared x.name ∧
      ∃ s s', (Pass.analyze (c.fill e)).run .fresh = (.ok (), s) ∧
        (Pass.analyze (c.fill (.name m x))).run .fresh = (.ok (), s') ∧
        s'.diagnostics.filter (·.mark.id ∈ (Expr.name m x).ids) =
          [⟨x.mark, .undeclared x.name⟩] ∧
        s'.diagnostics.filter
            (fun d => d.mark.id ∉ (Expr.name m x).ids ∧ d.mark.id ∉ c.path) =
          s.diagnostics.filter (fun d => d.mark.id ∉ e.ids ∧ d.mark.id ∉ c.path) ∧
        s'.diagnostics.filter (·.mark.id ∉ (Expr.name m x).ids) <+
          s.diagnostics.filter (·.mark.id ∉ e.ids) := by
  intro c e m x
  have hids : ((Expr.name m x).ids ++ (c.fill e).ids).Nodup := by decide
  have hx : (c.fill e).Undeclared x.name := by decide
  obtain ⟨s, s', hrun, hrun', hinside, hbeside, houtside⟩ :=
    Program.errors_do_not_cascade c e m x hids hx
  have hindex : ∀ i ∈ c.inner.indices,
      ((c.fill e).context c.function).KeepsIndex e (.name m x) i := by
    intro i hi hbase hwrong
    rw [List.mem_singleton.1 hi] at hwrong
    cases hwrong
  exact ⟨hids, hx, s, s', hrun, hrun', hinside, hbeside, houtside hindex⟩

/-- An index that is a boolean is replaced. The element is a character then, so that the assignment
is wrong is reported only now. -/
theorem Program.mistake_behind_mistake :
    ¬ ∀ (c : Program.Hole) (e : Expr) (m : Mark) (x : Ident),
      ((Expr.name m x).ids ++ (c.fill e).ids).Nodup → (c.fill e).Undeclared x.name →
      let s := ((Pass.analyze (c.fill e)).run .fresh).2
      let s' := ((Pass.analyze (c.fill (.name m x))).run .fresh).2
      s'.diagnostics.filter (·.mark.id ∈ (Expr.name m x).ids) = [⟨x.mark, .undeclared x.name⟩] ∧
        s'.diagnostics.filter (·.mark.id ∉ (Expr.name m x).ids) <+
          s.diagnostics.filter (·.mark.id ∉ e.ids) := by
  intro h
  obtain ⟨-, houtside⟩ := h .elementOfText (.literal ⟨10, 0, 0⟩ (.bool true)) ⟨14, 0, 0⟩
    ⟨⟨13, 0, 0⟩, "q"⟩ (by decide) (by decide)
  revert houtside
  decide +kernel

end Asl
