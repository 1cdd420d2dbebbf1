import Asl.Proofs.Lowering.Renamed
import Asl.Proofs.Meaning.Programs
import Asl.Proofs.Source

/-!
# Names do not matter

What the compiler says of a program, and the code that it makes of it, depends on which names are
equal and not on what they are: a program whose identifiers are renamed has the same diagnostics and
the same code, with the new names where the old ones stood. No name that lowering makes up is one
that a program can have, so nothing is captured.
-/
namespace Asl

variable {ρ : String → String} {p : Program}

theorem mapM_map_of_forall {α α' β β' ε ε' : Type} {g : α → Except ε β} {g' : α' → Except ε' β'}
    {k : α → α'} {F : β → β'} {E : ε → ε'} {as : List α}
    (h : ∀ a ∈ as, g' (k a) = ((g a).map F).mapError E) :
    (as.map k).mapM g' = ((as.mapM g).map (List.map F)).mapError E := by
  induction as with
  | nil => rfl
  | cons a as ih =>
    obtain ⟨ha, has⟩ := List.forall_mem_cons.1 h
    rw [List.map_cons, List.mapM_cons, List.mapM_cons, ha, ih has]
    cases g a with
    | error e => rfl
    | ok b => cases as.mapM g <;> rfl

theorem Operand.eq_name_of_text {o : Operand} {x : String} (hx : isIdentifier x = true)
    (h : o.text = x) : o = .name x := by
  cases o with
  | temp n => exact absurd h (text_temp_ne_of_isIdentifier hx n)
  | name y => exact congrArg Operand.name h
  | result => exact absurd h.symm (ne_resultName_of_isIdentifier hx)

namespace Program

theorem Renaming.named (hρ : p.Renaming ρ) : (p.rename ρ).Named := by
  intro f' hf'
  obtain ⟨f, hf, rfl⟩ := List.mem_map.1 hf'
  have hfree : ∀ x ∈ f.names, isIdentifier (ρ x) = true :=
    fun x hx => (hρ.free x (Function.names_subset hf hx)).identifier
  refine ⟨hfree _ List.mem_cons_self, fun q' hq' => ?_, fun d' hd' x' hx' => ?_⟩
  · obtain ⟨q, hq, rfl⟩ := List.mem_map.1 hq'
    exact hfree _ (Function.entry_mem_names (List.mem_append_left _ (List.mem_map_of_mem hq)))
  · obtain ⟨d, hd, rfl⟩ := List.mem_map.1 hd'
    obtain ⟨x, hx, rfl⟩ := List.mem_map.1 hx'
    exact hfree _ (Function.entry_mem_names (List.mem_append_right _
      (List.mem_flatMap.2 ⟨d, hd, List.mem_map_of_mem hx⟩)))

theorem Named.meaning_temp (h : p.Named) {f : Function} (hf : f ∈ p.functions) (n : Nat) :
    p.meaning f (Operand.temp n).text = none := by
  cases hm : p.meaning f (Operand.temp n).text with
  | none => rfl
  | some m => exact absurd rfl (Operand.text_temp_ne_of_isIdentifier (h.meaning hf hm) n)

theorem Renaming.lowering (hρ : p.Renaming ρ) (hp : p.Named)
    (hnames : ∀ x ∈ p.names, isIdentifier x = true) {s t : Session} (htypes : t.typeOf = s.typeOf)
    {f : Function} (hf : f ∈ p.functions) :
    (p.lowering s f).Renames ρ ((p.rename ρ).lowering t (f.rename ρ)) p.names where
  meaning := (hρ.context hf).meaning
  identifier x hx := ⟨hnames x hx, (hρ.free x hx).identifier⟩
  temp n := ⟨hp.meaning_temp hf n, hρ.named.meaning_temp (List.mem_map_of_mem hf) n⟩
  typeOf := htypes
  result := f.resultType_rename

theorem Renaming.lowered (hρ : p.Renaming ρ) (hp : p.Named)
    (hnames : ∀ x ∈ p.names, isIdentifier x = true) {s t : Session}
    (htypes : t.typeOf = s.typeOf) : (p.rename ρ).lowered t =
      ((p.lowered s).map (Assembly.rename ρ)).mapError (LowerError.rename ρ) := by
  have hsubs : ∀ f ∈ p.functions,
      Lower.subroutine ((p.rename ρ).lowering t (f.rename ρ)) (f.rename ρ).type (f.rename ρ) =
        ((Lower.subroutine (p.lowering s f) f.type f).map
          (Subroutine.rename ρ)).mapError (LowerError.rename ρ) := by
    intro f hf
    rw [Function.type_rename]
    exact Lower.subroutine_rename
      ((hρ.lowering hp hnames htypes hf).mono (Function.names_subset hf))
  have hall : (p.rename ρ).functions.mapM
      (fun f => Lower.subroutine ((p.rename ρ).lowering t f) f.type f) =
        ((p.functions.mapM fun f => Lower.subroutine (p.lowering s f) f.type f).map
          (List.map (Subroutine.rename ρ))).mapError (LowerError.rename ρ) :=
    mapM_map_of_forall hsubs
  rw [Program.lowered, hall, Program.lowered]
  cases p.functions.mapM fun f => Lower.subroutine (p.lowering s f) f.type f <;> rfl

end Program

/-- Whatever names the identifiers of a source program are given, as long as they stay distinct and
`main` stays: its analysis reports the same with the new names, and if it reports nothing, its code
is the same with the new names. An operand has the text of a name, before or after, only if it is
the variable of that name. -/
theorem renaming_changes_names_alone {source : String} (h : parse source = .ok p)
    (hρ : p.Renaming ρ) :
    (∀ x ∈ p.names, ∀ o : Operand,
      (o.text = x → o = .name x) ∧ (o.text = ρ x → o = .name (ρ x))) ∧
      ∃ s t, p.analyze = .ok s ∧ (p.rename ρ).analyze = .ok t ∧
        t.diagnostics = s.diagnostics.map (Diagnostic.rename ρ) ∧
        (s.diagnostics = [] →
          ∃ a, s.lower p = .ok a ∧ t.lower (p.rename ρ) = .ok (a.rename ρ)) := by
  obtain ⟨hids, hplain, hnamed⟩ := parse_eq_ok h
  have hnames : ∀ x ∈ p.names, isIdentifier x = true :=
    fun x hx => (Program.names_free h x hx).identifier
  have hids' : (p.rename ρ).ids.Nodup := by rwa [Program.ids_rename]
  obtain ⟨s, hrun, hs⟩ := Program.analyze_fresh hids
  obtain ⟨t, hrun', ht⟩ := Program.analyze_fresh hids'
  have hdiagnostics : t.diagnostics = s.diagnostics.map (Diagnostic.rename ρ) := by
    rw [ht.diagnostics, hρ.diagnostics, hs.diagnostics]
  refine ⟨fun x hx o => ⟨fun ho => ?_, fun ho => ?_⟩, s, t, ?_, ?_, hdiagnostics, fun hnone => ?_⟩
  · exact Operand.eq_name_of_text (hnames x hx) ho
  · exact Operand.eq_name_of_text (hρ.free x hx).identifier ho
  · rw [Program.analyze, hrun]
  · rw [Program.analyze, hrun']
  · obtain ⟨a, ha, -⟩ := hs.lower_typed hplain hnone
    have hnone' : t.diagnostics = [] := by rw [hdiagnostics, hnone, List.map_nil]
    have hlowered := hρ.lowered hnamed hnames (hρ.typeOf hids hrun hrun')
    rw [← hs.lower, ← ht.lower, ha] at hlowered
    refine ⟨a, ?_, ?_⟩
    · simp only [Session.lower, hnone, ha]
      rfl
    · simp only [Session.lower, hnone', hlowered]
      rfl

/-- Every variable of `main` in `scalingSource` gets a name that looks like a made up one, or the
old name of another variable. -/
def newName (x : String) : String :=
  if x = "v" then "t1" else if x = "s" then "v" else x

set_option maxRecDepth 20000 in
theorem scalingSource_renamed : ∃ p s t a, parse scalingSource = .ok p ∧ p.Renaming newName ∧
    p.analyze = .ok s ∧ s.lower p = .ok a ∧ (p.rename newName).analyze = .ok t ∧
      t.lower (p.rename newName) = .ok (a.rename newName) := by
  have hchars : scalingSource.toList = _ := String.toList_ofList
  have hok : (compile scalingSource).toOption.isSome = true := by
    rw [compile, check, parse, tokens, hchars]
    decide +kernel
  have hnames : (parse scalingSource).toOption.map Program.names =
      some ["f", "a", "k", "a", "k", "main", "v", "s", "v", "s", "f", "v", "s"] := by
    rw [parse, tokens, hchars]
    decide +kernel
  obtain ⟨a, ha⟩ := exists_code_of_isSome hok
  obtain ⟨p, s, hp, hs, -, hnone, -⟩ := compile_eq_ok ha
  rw [hp] at hnames
  have hnames : p.names = _ := Option.some.inj hnames
  have hdistinct : ∀ x ∈ "main" :: p.names, ∀ y ∈ "main" :: p.names,
      newName x = newName y → x = y := by
    rw [hnames]
    decide +kernel
  have hfree : ∀ x ∈ p.names, FreeName (newName x) := by
    rw [hnames]
    decide +kernel
  have hρ : p.Renaming newName := ⟨by decide, fun x hx y hy => hdistinct x hx y hy, hfree⟩
  obtain ⟨-, s', t, hs', ht, -, hlower⟩ := renaming_changes_names_alone hp hρ
  rw [hs] at hs'
  cases hs'
  obtain ⟨b, hb, hb'⟩ := hlower hnone
  exact ⟨p, s, t, b, hp, hρ, hs, hb, ht, hb'⟩

end Asl
