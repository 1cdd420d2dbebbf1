import Asl.Proofs.Reuse
import Asl.Proofs.Typing.Subjects

/-!
# The decorations of a program

After an analysis, every subject of a body has a type and says whether it is a place. The error type
is never given in silence: a subject that has it has a fault inside. That it may be trusted takes
contexts whose names mean things that can be declared, and those of a program are such.
-/
namespace Asl

section

variable {Γ : Context}

theorem Context.isPlace_judgeName (x : Ident) : (Γ.judgeName x).isPlace = true ↔
    Γ.meaning x.name = none ∨ ∃ role t, Γ.meaning x.name = some (role, t) ∧ role ≠ .function := by
  unfold judgeName
  cases Γ.meaning x.name with
  | none => simp [Judgement.of]
  | some m =>
    obtain ⟨role, t⟩ := m
    simp [Judgement.of]

theorem Context.declared_judgeName (hΓ : Γ.Proper) {x : Ident}
    (h : (Γ.judgeName x).type ≠ .error) : (Γ.judgeName x).type.Declared := by
  unfold judgeName at h ⊢
  split
  · rename_i role t hx
    exact hΓ _ _ _ hx
  · rename_i hx
    rw [hx] at h
    exact absurd rfl h

theorem Context.isPlace_judgeElement (hΓ : Γ.Proper) (m im : Mark) (base : Ident)
    (index : Judgement) :
    (judgeElement m base (Γ.judgeName base) index im).isPlace = true ↔
      (judgeElement m base (Γ.judgeName base) index im).type ≠ .error := by
  simp only [judgeElement]
  split
  · simp [Judgement.of]
  · rename_i hgood
    rw [Bool.or_eq_true, Bool.or_eq_true, decide_eq_true_eq, not_or, not_or] at hgood
    obtain ⟨⟨herror, hviolates⟩, -⟩ := hgood
    have hdeclared := declared_judgeName hΓ herror
    rw [Bool.not_eq_true, Ty.violates_eq_false_iff herror] at hviolates
    refine iff_of_true rfl ?_
    cases htype : (Γ.judgeName base).type with
    | array n t =>
      rw [htype] at hdeclared
      exact hdeclared.elem.declared.ne_error
    | _ =>
      rw [htype] at hviolates
      cases hviolates

theorem Context.isPlace_judgeUnary (m : Mark) (op : UnaryOp) (operand : Judgement) :
    (judgeUnary m op operand).isPlace = false := by
  simp only [judgeUnary]
  split <;> rfl

theorem Context.isPlace_judgeBinary (m : Mark) (op : BinaryOp) (lhs rhs : Judgement) :
    (judgeBinary m op lhs rhs).isPlace = false := by
  simp only [judgeBinary]
  split_ifs <;> rfl

theorem Context.isPlace_judgeMax (m : Mark) (ts : List Ty) (parts : Report) :
    (judgeMax m ts parts).isPlace = false := by
  unfold judgeMax
  split_ifs <;> rfl

end

namespace Subject

/-- What decides whether a subject is a place: names that are not those of functions are places,
elements that have a type, and in parentheses what is a place itself; nothing else is. -/
def IsPlace (meaning : String → Option (Role × Ty)) (s : Session) : Subject → Prop
  | .name x | .expr (.name _ x) | .target (.name _ x) =>
      meaning x.name = none ∨ ∃ role t, meaning x.name = some (role, t) ∧ role ≠ .function
  | .expr (.element m _ _) | .target (.element m _ _) => s.typeOf m.id ≠ .ok .error
  | .expr (.paren _ inner) => s.attributes.isPlace inner.mark.id = .ok true
  | .expr _ => False

variable {Γ : Context}

theorem honest_judge (hΓ : Γ.Proper) (s : Subject) : (s.judge Γ).Honest := by
  cases s with
  | name x => exact Context.honest_judgeName hΓ x
  | expr e => exact e.honest hΓ
  | target x => exact x.honest hΓ

theorem inside_judge (s : Subject) : (s.judge Γ).report.Inside s.ids := by
  cases s with
  | name x => exact Context.inside_judgeName List.mem_cons_self
  | expr e => exact e.inside_judge
  | target x => exact x.inside_judge

theorem exists_fault_of_error (hΓ : Γ.Proper) {s : Subject} (h : (s.judge Γ).type = .error) :
    ∃ d ∈ (s.judge Γ).report.diagnostics, d.mark.id ∈ s.ids := by
  have hne : (s.judge Γ).report.diagnostics ≠ [] := fun hd => s.honest_judge hΓ hd h
  obtain ⟨d, hd⟩ := List.exists_mem_of_ne_nil _ hne
  exact ⟨d, hd, (s.inside_judge d hd).1⟩

theorem isPlace_judge_iff (hΓ : Γ.Proper) {s : Session} {sub : Subject}
    (hown : s.typeOf sub.mark.id = .ok (sub.judge Γ).type)
    (hinner : ∀ e, sub.inner? = some e →
      s.attributes.isPlace e.mark.id = .ok (e.judge Γ).isPlace) :
    (sub.judge Γ).isPlace = true ↔ sub.IsPlace Γ.meaning s := by
  have helement : ∀ m im base index,
      s.typeOf m.id = .ok (Context.judgeElement m base (Γ.judgeName base) index im).type →
      ((Context.judgeElement m base (Γ.judgeName base) index im).isPlace = true ↔
        s.typeOf m.id ≠ .ok .error) := by
    intro m im base index h
    rw [Context.isPlace_judgeElement hΓ, h]
    simp
  cases sub with
  | name x => exact Context.isPlace_judgeName x
  | target x =>
    cases x with
    | name m x => exact Context.isPlace_judgeName x
    | element m base index => exact helement _ _ _ _ hown
  | expr e =>
    cases e with
    | literal m v => exact iff_of_false Bool.false_ne_true id
    | name m x => exact Context.isPlace_judgeName x
    | element m base index => exact helement _ _ _ _ hown
    | call m callee args => exact iff_of_false Bool.false_ne_true id
    | paren m inner =>
      have h := hinner inner rfl
      change (inner.judge Γ).isPlace = true ↔ s.attributes.isPlace inner.mark.id = .ok true
      rw [h]
      simp
    | unary m op operand =>
      refine iff_of_false (fun h => ?_) id
      rw [judge, Expr.judge, Context.isPlace_judgeUnary] at h
      cases h
    | binary m op lhs rhs =>
      refine iff_of_false (fun h => ?_) id
      rw [judge, Expr.judge, Context.isPlace_judgeBinary] at h
      cases h
    | max m args =>
      refine iff_of_false (fun h => ?_) id
      rw [judge, Expr.judge, Context.isPlace_judgeMax] at h
      cases h

end Subject

namespace Program

variable {p : Program}

structure Noted (p : Program) (s : Session) : Prop where
  type : ∀ n t, s.typeOf n = .ok t ↔ (n, t) ∈ p.functions.flatMap Function.notedTypes ++
    p.functions.flatMap fun f => (p.report f).types
  place : ∀ n b, s.attributes.isPlace n = .ok b ↔
    (n, b) ∈ p.functions.flatMap fun f => (p.report f).places

theorem analyze_notes (hp : p.ids.Nodup) :
    ∃ s, (Pass.analyze p).run .fresh = (.ok (), s) ∧ s.diagnostics = p.diagnostics ∧ p.Noted s := by
  obtain ⟨s, hrun, hs⟩ := analyze_fresh hp
  obtain ⟨_, s', hrun', hm, -⟩ := Pass.yields_analyze Session.sound_fresh rfl hp
  rw [hrun] at hrun'
  cases hrun'
  refine ⟨s, hrun, hs.diagnostics, fun n t => ?_, fun n b => ?_⟩
  · rw [Session.typeOf_eq_ok_iff, hm.view, View.typeOf_analyzed]
    refine ⟨fun h => (mem_of_writeAll h).resolve_left nofun, writeAll_of_mem (nodup_noted hp)⟩
  · rw [Session.isPlace_eq_ok_iff, hm.view, View.isPlace_analyzed]
    exact ⟨fun h => (mem_of_writeAll h).resolve_left nofun, writeAll_of_mem (nodup_places hp)⟩

theorem about_report (p : Program) (f : Function) :
    (p.report f).About (p.context f) (Stmt.subjectsAll f.body) := Stmt.about_all _ _

variable {s : Session} {f : Function} {sub : Subject}

theorem Noted.subject (hs : p.Noted s) (hf : f ∈ p.functions)
    (hsub : sub ∈ Stmt.subjectsAll f.body) :
    s.typeOf sub.mark.id = .ok (sub.judge (p.context f)).type ∧
      s.attributes.isPlace sub.mark.id = .ok (sub.judge (p.context f)).isPlace := by
  have hnote : sub.note (p.context f) ∈ (p.report f).notes := by
    rw [(p.about_report f).notes]
    exact List.mem_map.2 ⟨sub, hsub, rfl⟩
  refine ⟨(hs.type _ _).2 (List.mem_append_right _ ?_), (hs.place _ _).2 ?_⟩
  · exact List.mem_flatMap.2 ⟨f, hf, List.mem_map.2 ⟨_, hnote, rfl⟩⟩
  · exact List.mem_flatMap.2 ⟨f, hf, List.mem_map.2 ⟨_, hnote, rfl⟩⟩

theorem notedTypes_ne_error {w : NodeId × Ty} (hw : w ∈ f.notedTypes) : w.2 ≠ .error := by
  rcases List.mem_append.1 hw with hw | hw
  · have hspec : ∃ spec, w.2 = .ofSpec spec := by
      simp only [Function.writtenTypes, List.mem_append, List.mem_map, Option.mem_toList,
        Option.map_eq_some_iff] at hw
      rcases hw with (⟨q, -, rfl⟩ | ⟨d, -, rfl⟩) | ⟨t, -, rfl⟩
      · exact ⟨_, rfl⟩
      · exact ⟨_, rfl⟩
      · exact ⟨_, rfl⟩
    obtain ⟨spec, hspec⟩ := hspec
    rw [hspec]
    exact (Ty.Declared.value (.spec spec)).ne_error
  · rw [List.mem_singleton.1 hw]
    exact f.declared_type.ne_error

theorem Noted.exists_subject_of_error (hs : p.Noted s) {n : NodeId}
    (hn : s.typeOf n = .ok .error) : ∃ f ∈ p.functions, ∃ sub ∈ Stmt.subjectsAll f.body,
      sub.mark.id = n ∧ (sub.judge (p.context f)).type = .error := by
  rcases List.mem_append.1 ((hs.type n .error).1 hn) with h | h
  · obtain ⟨f, -, hw⟩ := List.mem_flatMap.1 h
    exact absurd rfl (notedTypes_ne_error hw)
  · obtain ⟨f, hf, hw⟩ := List.mem_flatMap.1 h
    obtain ⟨note, hnote, heq⟩ := List.mem_map.1 hw
    rw [(p.about_report f).notes] at hnote
    obtain ⟨sub, hsub, rfl⟩ := List.mem_map.1 hnote
    exact ⟨f, hf, sub, hsub, congrArg Prod.fst heq, congrArg Prod.snd heq⟩

/-- The error type is decorated nowhere but at subjects that have a diagnostic inside, and every
subject of a body is decorated with a type and with whether it is a place. -/
theorem decorated_in_fresh (hp : p.ids.Nodup) :
    ∃ s, (Pass.analyze p).run .fresh = (.ok (), s) ∧
      (∀ n, s.typeOf n = .ok .error → ∃ f ∈ p.functions, ∃ sub ∈ Stmt.subjectsAll f.body,
        sub.mark.id = n ∧ ∃ d ∈ s.diagnostics, d.mark.id ∈ sub.ids) ∧
      ∀ f ∈ p.functions, ∀ sub ∈ Stmt.subjectsAll f.body, ∃ t b,
        s.typeOf sub.mark.id = .ok t ∧ s.attributes.isPlace sub.mark.id = .ok b ∧
          (b = true ↔ sub.IsPlace (p.meaning f) s) := by
  obtain ⟨s, hrun, hdiagnostics, hs⟩ := analyze_notes hp
  refine ⟨s, hrun, fun n hn => ?_, fun f hf sub hsub => ?_⟩
  · obtain ⟨f, hf, sub, hsub, rfl, herror⟩ := hs.exists_subject_of_error hn
    obtain ⟨d, hd, hmem⟩ := Subject.exists_fault_of_error (p.proper_context f) herror
    refine ⟨f, hf, sub, hsub, rfl, d, ?_, hmem⟩
    rw [hdiagnostics, diagnostics]
    refine List.mem_append_left _ (List.mem_append_right _ (List.mem_flatMap.2 ⟨f, hf, ?_⟩))
    exact (p.about_report f).faults sub hsub hd
  · obtain ⟨htype, hplace⟩ := hs.subject hf hsub
    refine ⟨_, _, htype, hplace, ?_⟩
    refine Subject.isPlace_judge_iff (p.proper_context f) htype fun e he => ?_
    exact (hs.subject hf ((p.about_report f).inner sub hsub e he)).2

/-- The name that the program does not declare is a place, and the literal beside it is not. -/
theorem decorated_straying : Program.straying.ids.Nodup ∧
    ∃ s, (Pass.analyze straying).run .fresh = (.ok (), s) ∧
      s.attributes.isPlace 3 = .ok true ∧ s.attributes.isPlace 5 = .ok false := by
  have hids : Program.straying.ids.Nodup := by decide
  obtain ⟨s, hrun, -, hsubjects⟩ := decorated_in_fresh hids
  have hbody := hsubjects _ List.mem_cons_self
  obtain ⟨-, b, -, hname, hb⟩ := hbody (.name ⟨⟨3, 0, 0⟩, "a"⟩) List.mem_cons_self
  obtain ⟨-, c, -, hliteral, hc⟩ := hbody (.expr (.literal ⟨5, 0, 0⟩ (.int 1)))
    (List.mem_cons_of_mem _ (List.mem_cons_of_mem _ List.mem_cons_self))
  have hplace : b = true := hb.2 (Or.inl rfl)
  have hnot : c = false := Bool.eq_false_iff.2 hc.1
  rw [hplace] at hname
  rw [hnot] at hliteral
  exact ⟨hids, s, hrun, hname, hliteral⟩

end Program

end Asl
