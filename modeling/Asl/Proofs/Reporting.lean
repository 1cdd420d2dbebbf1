import Asl.Proofs.Reuse
import Asl.Proofs.Typing.Sparing
import Asl.Proofs.Typing.Undeclared

/-!
# Each mistake is reported once, and where it is made

Where the nodes of a program are distinct, no two diagnostics of an analysis are alike, and each is
at a node of the program with the offsets of that node. What is declared twice is reported first,
function by function, then what is wrong with the bodies, again function by function, and a missing
entry point last. A name that stands in a body is reported as undeclared exactly if nothing declares
it.
-/
open scoped List

namespace Asl

theorem Function.count_entries_le (f : Function) (m : Mark) :
    (f.entries.map fun e => e.ident.mark).count m + [f.name.mark].count m ≤
      f.headerMarks.count m := by
  have hparams : f.params.map (fun q => q.name.mark) <+ f.params.flatMap Parameter.marks := by
    rw [List.map_eq_flatMap]
    exact List.Sublist.flatMap_right _ fun q _ => (List.nil_sublist _).cons_cons _
  have hdeclarations : f.declarations.flatMap (fun d => d.names.map Ident.mark) <+
      f.declarations.flatMap Declaration.marks :=
    List.Sublist.flatMap_right _ fun d _ => List.sublist_append_left _ _
  have hentries : f.entries.map (fun e => e.ident.mark) =
      f.params.map (fun q => q.name.mark) ++
        f.declarations.flatMap (fun d => d.names.map Ident.mark) := by
    simp only [entries, List.map_append, List.map_map, List.map_flatMap, Declaration.entries]
    rfl
  have h₁ := hparams.count_le m
  have h₂ := hdeclarations.count_le m
  have hheader : f.headerMarks = [f.mark] ++ ([f.name.mark] ++ f.params.flatMap Parameter.marks) ++
      (f.result.map (·.mark)).toList ++ f.declarations.flatMap Declaration.marks := rfl
  rw [hentries, hheader]
  simp only [List.count_append]
  omega

theorem Entry.redeclared_sublist (taken : List String) (es : List Entry) :
    redeclared taken es <+ es.map fun e => ⟨e.ident.mark, .redeclared e.name⟩ := by
  induction es generalizing taken with
  | nil => exact List.Sublist.refl _
  | cons e es ih =>
    rw [redeclared]
    split
    · exact (ih _).cons_cons _
    · exact (ih _).cons _

theorem Function.redeclared_sublist (taken : List String) (f : Function) :
    f.redeclared taken <+ (f.entries ++ [f.entry]).map
      fun e => ⟨e.ident.mark, .redeclared e.name⟩ := by
  rw [List.map_append]
  refine (Entry.redeclared_sublist [] f.entries).append ?_
  split
  · exact List.Sublist.refl _
  · exact List.nil_sublist _

theorem Function.count_redeclared_le (taken : List String) (f : Function) (d : Diagnostic) :
    (f.redeclared taken).count d ≤ f.headerMarks.count d.mark := by
  have hmarks := ((f.redeclared_sublist taken).map Diagnostic.mark).count_le d.mark
  have hentries := f.count_entries_le d.mark
  simp only [List.map_append, List.map_map, List.count_append] at hmarks
  exact Nat.le_trans List.count_le_count_map (Nat.le_trans hmarks hentries)

namespace Program

variable {p : Program}

theorem count_functions_le (p : Program) (taken : List String) (fs : List Function)
    (d : Diagnostic) : (Function.allRedeclared taken fs).count d +
      (fs.flatMap fun f => (p.report f).diagnostics).count d ≤
        (fs.flatMap Function.marks).count d.mark := by
  induction fs generalizing taken with
  | nil => exact Nat.zero_le _
  | cons f fs ih =>
    have hheader := f.count_redeclared_le taken d
    have hbody : (p.report f).diagnostics.count d ≤ (Stmt.marksAll f.body).count d.mark :=
      Stmt.spared_all d (p.context f) f.body
    have htail := ih (f.name.name :: taken)
    simp only [Function.allRedeclared, List.flatMap_cons, Function.marks, List.count_append]
    omega

/-- The marks at which a program can be reported about; that of the program itself has no offsets.
-/
def marks (p : Program) : List Mark := ⟨p.id, 0, 0⟩ :: p.functions.flatMap Function.marks

theorem nodup_ids_marks (hp : p.ids.Nodup) : (p.marks.map Mark.id).Nodup := by
  rw [marks, List.map_cons, p.map_id_marks]
  exact hp

theorem count_diagnostics_le (p : Program) (d : Diagnostic) :
    p.diagnostics.count d ≤ p.marks.count d.mark := by
  have hmain : (if p.hasMain then [] else [⟨⟨p.id, 0, 0⟩, .noMain⟩]).count d ≤
      [(⟨p.id, 0, 0⟩ : Mark)].count d.mark := by
    split
    · exact Nat.zero_le _
    · exact List.count_le_count_map
  have hfunctions := p.count_functions_le [] p.functions d
  have hmarks : p.marks = [⟨p.id, 0, 0⟩] ++ p.functions.flatMap Function.marks := rfl
  rw [hmarks, diagnostics]
  simp only [List.count_append]
  exact Nat.le_trans (Nat.add_le_add hfunctions hmain) (Nat.le_of_eq (Nat.add_comm _ _))

theorem mark_mem_marks {d : Diagnostic} (hd : d ∈ p.diagnostics) : d.mark ∈ p.marks :=
  List.count_pos_iff.1 (Nat.lt_of_lt_of_le (List.count_pos_iff.2 hd) (p.count_diagnostics_le d))

theorem nodup_diagnostics (hp : p.ids.Nodup) :
    (p.diagnostics.map fun d => (d.mark.id, d.fault)).Nodup := by
  have hmarks : p.marks.Nodup := (nodup_ids_marks hp).of_map
  have hnodup : p.diagnostics.Nodup := List.nodup_iff_count_le_one.2 fun d =>
    Nat.le_trans (p.count_diagnostics_le d) (List.nodup_iff_count_le_one.1 hmarks _)
  refine hnodup.map_on fun d hd d' hd' heq => ?_
  obtain ⟨hid, hfault⟩ := Prod.mk.inj heq
  have hmark := List.inj_on_of_nodup_map (nodup_ids_marks hp) (mark_mem_marks hd)
    (mark_mem_marks hd') hid
  obtain ⟨m, f⟩ := d
  obtain ⟨m', f'⟩ := d'
  cases hmark
  cases hfault
  rfl

end Program

/-- All of some diagnostics are at nodes of a function, and have the offsets of their nodes. -/
def Function.Locates (f : Function) (ds : List Diagnostic) : Prop := ∀ d ∈ ds, d.mark ∈ f.marks

theorem Function.locates_redeclared (taken : List String) (f : Function) :
    f.Locates (f.redeclared taken) := by
  intro d hd
  have hcount := Nat.lt_of_lt_of_le (List.count_pos_iff.2 hd) (f.count_redeclared_le taken d)
  exact List.mem_append_left _ (List.count_pos_iff.1 hcount)

theorem Function.locates_report (p : Program) (f : Function) :
    f.Locates (p.report f).diagnostics := by
  intro d hd
  have hle : (p.report f).diagnostics.count d ≤ (Stmt.marksAll f.body).count d.mark :=
    Stmt.spared_all d (p.context f) f.body
  have hcount := Nat.lt_of_lt_of_le (List.count_pos_iff.2 hd) hle
  exact List.mem_append_right _ (List.count_pos_iff.1 hcount)

theorem Function.fault_of_mem_allRedeclared {taken : List String} {fs : List Function}
    {d : Diagnostic} (hd : d ∈ allRedeclared taken fs) : ∃ x, d.fault = .redeclared x := by
  induction fs generalizing taken with
  | nil => cases hd
  | cons f fs ih =>
    rcases List.mem_append.1 hd with hd | hd
    · obtain ⟨e, -, rfl⟩ := List.mem_map.1 ((f.redeclared_sublist taken).subset hd)
      exact ⟨e.name, rfl⟩
    · exact ih hd

theorem Function.exists_allRedeclared_eq (taken : List String) (fs : List Function) :
    ∃ dss, allRedeclared taken fs = dss.flatten ∧ List.Forall₂ Locates fs dss := by
  induction fs generalizing taken with
  | nil => exact ⟨[], rfl, .nil⟩
  | cons f fs ih =>
    obtain ⟨dss, heq, hdss⟩ := ih (f.name.name :: taken)
    refine ⟨f.redeclared taken :: dss, ?_, .cons (f.locates_redeclared taken) hdss⟩
    rw [allRedeclared, heq, List.flatten_cons]

def Function.uses (f : Function) : List Ident := Subject.names (Stmt.subjectsAll f.body)

theorem Subject.map_names_sublist (ss : List Subject) :
    (names ss).map (·.mark.id) <+ ss.map (·.mark.id) := by
  induction ss with
  | nil => exact List.Sublist.refl _
  | cons s ss ih =>
    cases s with
    | name x => exact ih.cons_cons _
    | expr e => exact ih.cons _
    | target x => exact ih.cons _

theorem filter_key_eq {α β : Type} [DecidableEq β] {g : α → β} {l : List α} {a : α}
    (hn : (l.map g).Nodup) (ha : a ∈ l) : l.filter (fun b => g b = g a) = [a] := by
  induction l with
  | nil => cases ha
  | cons b l ih =>
    rw [List.map_cons, List.nodup_cons] at hn
    rcases List.mem_cons.1 ha with rfl | ha
    · have hrest : l.filter (fun b => g b = g a) = [] := by
        refine List.filter_eq_nil_iff.2 fun b hb h => hn.1 ?_
        exact List.mem_map.2 ⟨b, hb, of_decide_eq_true h⟩
      rw [List.filter_cons_of_pos (by simp), hrest]
    · have hne : g b ≠ g a := fun h => hn.1 (h ▸ List.mem_map.2 ⟨a, ha, rfl⟩)
      rw [List.filter_cons_of_neg (by simpa using hne), ih hn.2 ha]

namespace Program

variable {p : Program}

def occurrences (p : Program) : List (Function × Ident) :=
  p.functions.flatMap fun f => f.uses.map fun x => (f, x)

theorem nodup_occurrences (hp : p.ids.Nodup) :
    (p.occurrences.map fun o => o.2.mark.id).Nodup := by
  have hbody : ∀ f : Function, f.uses.map (·.mark.id) <+ f.ids := by
    intro f
    have hnotes : (p.report f).notes = (Stmt.subjectsAll f.body).map (Subject.note (p.context f)) :=
      (Stmt.about_all (p.context f) f.body).notes
    have hnodes := p.nodes_report f
    rw [Report.nodes, hnotes, List.map_map] at hnodes
    exact ((Subject.map_names_sublist _).trans hnodes).trans (List.sublist_append_right _ _)
  have hids := (List.nodup_cons.1 hp).2
  rw [occurrences, List.map_flatMap]
  simp only [List.map_map]
  exact hids.sublist (List.Sublist.flatMap_right _ fun f _ => hbody f)

theorem undeclared_diagnostics (p : Program) :
    p.diagnostics.filter (·.fault.isUndeclared) =
      (p.occurrences.filter fun o => (p.meaning o.1 o.2.name).isNone).map
        fun o => ⟨o.2.mark, .undeclared o.2.name⟩ := by
  have hdeclarations : (Function.allRedeclared [] p.functions).filter (·.fault.isUndeclared) =
      [] := by
    refine List.filter_eq_nil_iff.2 fun d hd => ?_
    obtain ⟨x, hfault⟩ := Function.fault_of_mem_allRedeclared hd
    rw [hfault]
    exact Bool.false_ne_true
  have hmain : (if p.hasMain then [] else [(⟨⟨p.id, 0, 0⟩, .noMain⟩ : Diagnostic)]).filter
      (·.fault.isUndeclared) = [] := by
    split <;> rfl
  have hbody : ∀ f, ((p.report f).diagnostics.filter (·.fault.isUndeclared)) =
      (p.context f).undeclared f.uses := fun f => Stmt.undeclared_all (p.context f) f.body
  have hbodies : (p.functions.flatMap fun f => (p.report f).diagnostics).filter
      (·.fault.isUndeclared) = p.functions.flatMap fun f => (p.context f).undeclared f.uses := by
    rw [List.filter_flatMap]
    simp only [hbody]
  change List.filter _ (_ ++ (p.functions.flatMap fun f => (p.report f).diagnostics) ++ _) = _
  rw [List.filter_append, List.filter_append, hdeclarations, hbodies, hmain, List.nil_append,
    List.append_nil, occurrences, List.filter_flatMap, List.map_flatMap]
  simp only [List.filter_map, List.map_map]
  rfl

/-- A name in a body is reported as undeclared once if nothing declares it, and else not at all. -/
theorem undeclared_at (hp : p.ids.Nodup) {f : Function} (hf : f ∈ p.functions) {x : Ident}
    (hx : x ∈ f.uses) :
    p.diagnostics.filter (fun d => d.mark.id = x.mark.id && d.fault.isUndeclared) =
      if p.meaning f x.name = none then [⟨x.mark, .undeclared x.name⟩] else [] := by
  have hmem : (f, x) ∈ p.occurrences :=
    List.mem_flatMap.2 ⟨f, hf, List.mem_map.2 ⟨x, hx, rfl⟩⟩
  have hone := filter_key_eq (nodup_occurrences hp) hmem
  rw [← List.filter_filter, undeclared_diagnostics, List.filter_map, List.filter_comm]
  change List.map _ (List.filter _ (p.occurrences.filter fun o => o.2.mark.id = x.mark.id)) = _
  rw [hone]
  cases hmeaning : p.meaning f x.name with
  | none => simp [hmeaning]
  | some m => simp [hmeaning]

/-- What is reported in a fresh session: nothing twice, and all of it at nodes of the program with
their offsets. The first pass reports function by function what is declared again, and the second
what is wrong with the bodies; undeclared names are reported where they stand. -/
theorem reported_in_fresh (hp : p.ids.Nodup) :
    ∃ s₁ s, (Pass.declareProgram p).run .fresh = (.ok (), s₁) ∧
      (Pass.judgeProgram p).run s₁ = (.ok (), s) ∧
      (Pass.analyze p).run .fresh = (.ok (), s) ∧
      (s.diagnostics.map fun d => (d.mark.id, d.fault)).Nodup ∧
      (∃ dss₁ dss, s₁.diagnostics = dss₁.flatten ∧
        s.diagnostics = s₁.diagnostics ++ dss.flatten ++
          (if p.hasMain then [] else [⟨⟨p.id, 0, 0⟩, .noMain⟩]) ∧
        List.Forall₂ Function.Locates p.functions dss₁ ∧
        List.Forall₂ Function.Locates p.functions dss) ∧
      ∀ f ∈ p.functions, ∀ x ∈ f.uses,
        s.diagnostics.filter (fun d => d.mark.id = x.mark.id && d.fault.isUndeclared) =
          if p.meaning f x.name = none then [⟨x.mark, .undeclared x.name⟩] else [] := by
  obtain ⟨s, hrun, hs⟩ := analyze_fresh hp
  obtain ⟨_, s₁, hdeclare, hjudge⟩ := Attempt.run_bind_eq_ok.1 hrun
  obtain ⟨_, s₁', hdeclare', hm, -⟩ := Pass.yields_declareProgram Session.sound_fresh p
  rw [hdeclare] at hdeclare'
  cases hdeclare'
  have hfirst : s₁.diagnostics = Function.allRedeclared [] p.functions :=
    congrArg View.diagnostics hm.view
  obtain ⟨dss₁, hdss₁, hlocates⟩ := Function.exists_allRedeclared_eq [] p.functions
  refine ⟨s₁, s, hdeclare, hjudge, hrun, ?_,
    ⟨dss₁, p.functions.map fun f => (p.report f).diagnostics,
    hfirst.trans hdss₁, ?_, hlocates, ?_⟩, fun f hf x hx => ?_⟩
  · rw [hs.diagnostics]
    exact nodup_diagnostics hp
  · rw [hs.diagnostics, hfirst, ← List.flatMap_def]
    rfl
  · rw [List.forall₂_map_right_iff, List.forall₂_same]
    exact fun f _ => f.locates_report p
  · rw [hs.diagnostics]
    exact undeclared_at hp hf hx

/-- The name that the program does not declare is reported once, at its own node. -/
theorem reported_straying : Program.straying.ids.Nodup ∧
    ∃ s, (Pass.analyze straying).run .fresh = (.ok (), s) ∧
      (s.diagnostics.map fun d => (d.mark.id, d.fault)).Nodup ∧
      s.diagnostics.filter (fun d => d.mark.id = 3 && d.fault.isUndeclared) =
        [⟨⟨3, 0, 0⟩, .undeclared "a"⟩] := by
  have hids : Program.straying.ids.Nodup := by decide
  obtain ⟨_, s, -, -, hrun, hnodup, -, hnames⟩ := reported_in_fresh hids
  have hname := hnames _ List.mem_cons_self ⟨⟨3, 0, 0⟩, "a"⟩ List.mem_cons_self
  exact ⟨hids, s, hrun, hnodup, hname.trans (if_pos (by decide))⟩

end Program

end Asl
