import Asl.Proofs.Lowering.Wrapped
import Asl.Proofs.Source
import Asl.Proofs.Typing.Located
import Mathlib.Data.List.Perm.Subperm

/-!
# Separate compilation

What a function is lowered to depends on the function and on the signatures of the functions that it
calls. So it does not matter which program the function stands in, in which place, and what else the
program consists of; and what an analysis says of a function does not depend on the statements of
another one.
-/
open scoped List

namespace Asl

open Mark (erased)

def Program.signature (p : Program) (x : String) : Option Ty :=
  (p.functions.find? (·.name.name = x)).map Function.type

theorem Program.meaning?_entries (p : Program) (x : String) :
    Entry.meaning? p.entries x = (p.signature x).map (Role.function, ·) := by
  rw [entries, Entry.meaning?_entry, signature, Option.map_map]
  rfl

theorem Function.local_meaning {f : Function} {x : String} {role : Role} {t : Ty}
    (h : Entry.meaning? f.entries x = some (role, t)) :
    role ≠ .function ∧ t.isFunction = false := by
  obtain ⟨e, he, -, rfl, rfl⟩ := Entry.exists_of_meaning? h
  rcases List.mem_append.1 he with he | he
  · obtain ⟨p, -, rfl⟩ := List.mem_map.1 he
    exact ⟨nofun, (Ty.OfValue.spec _).not_function⟩
  · obtain ⟨d, -, he⟩ := List.mem_flatMap.1 he
    obtain ⟨y, -, rfl⟩ := List.mem_map.1 he
    exact ⟨nofun, (Ty.OfValue.spec _).not_function⟩

/-- Two functions of two programs that declare the same inside and give back the same, where the
first calls functions with the same signatures in both. -/
structure Function.Alike (p q : Program) (f g : Function) : Prop where
  inside : Entry.meaning? g.entries = Entry.meaning? f.entries
  result : g.resultType = f.resultType
  signature : ∀ x ∈ f.callees, q.signature x = p.signature x

namespace Function.Alike

variable {p q : Program} {f g : Function}

theorem of_mapMark (h : g.mapMark erased = f.mapMark erased)
    (hcallees : ∀ x ∈ f.callees, q.signature x = p.signature x) : Alike p q f g where
  inside := by
    funext x
    rw [← Entry.meaning?_mapMark (f := erased) g.entries, ← entries_mapMark, h, entries_mapMark,
      Entry.meaning?_mapMark]
  result := by rw [← resultType_mapMark erased g, h, resultType_mapMark]
  signature := hcallees

theorem meaning_callee (h : Alike p q f g) {x : String} (hx : x ∈ f.callees) :
    q.meaning g x = p.meaning f x := by
  rw [Program.meaning, Program.meaning, h.inside, Program.meaning?_entries,
    Program.meaning?_entries, h.signature x hx]

theorem sameCalls_context (h : Alike p q f g) :
    (p.context f).SameCalls (q.context g) f.callees where
  proper := p.proper_context f
  role x role t hx := by
    rcases Option.or_eq_some_iff.1 hx with hlocal | ⟨-, hglobal⟩
    · obtain ⟨hrole, ht⟩ := local_meaning hlocal
      exact iff_of_false hrole (by rw [ht]; exact Bool.false_ne_true)
    · rw [Program.entries, Entry.meaning?_entry] at hglobal
      obtain ⟨k, -, hk⟩ := Option.map_eq_some_iff.1 hglobal
      cases hk
      exact iff_of_true rfl rfl
  value x role t hx hrole := by
    rcases Option.or_eq_some_iff.1 hx with hlocal | ⟨-, hglobal⟩
    · change (Entry.meaning? g.entries x).or _ = (Entry.meaning? f.entries x).or _
      rw [h.inside, hlocal, Option.some_or, Option.some_or]
    · rw [Program.entries, Entry.meaning?_entry] at hglobal
      obtain ⟨k, -, hk⟩ := Option.map_eq_some_iff.1 hglobal
      cases hk
      exact absurd rfl hrole
  callee _ hx := h.meaning_callee hx
  result := h.result
  given := by
    rcases f.resultType_eq with hvoid | hvalue
    · change f.resultType.isFunction = false
      rw [hvoid]
      rfl
    · exact hvalue.not_function

theorem isParameter_eq (p : Program) (s : Session) (f : Function) (x : String) :
    Lower.isParameter (p.lowering s f) x =
      (Entry.meaning? f.entries x).any fun m => m.1 = .parameter := by
  change ((Entry.meaning? f.entries x).or (Entry.meaning? p.entries x)).any _ = _
  cases Entry.meaning? f.entries x with
  | some found => rfl
  | none =>
    rw [Program.meaning?_entries]
    cases p.signature x <;> rfl

theorem sameCalls_lowering (h : Alike p q f g) (s t : Session) :
    (p.lowering s f).SameCalls (q.lowering t g) f.callees where
  parameter x := by rw [isParameter_eq, isParameter_eq, h.inside]
  callee _ hx := h.meaning_callee hx

theorem judge_eq (h : Alike p q f g) (hf : ∀ s ∈ f.body, s.Ok (p.context f)) :
    Stmt.judgeAll (q.context g) f.body = Stmt.judgeAll (p.context f) f.body :=
  Stmt.judgeAll_eq_of_ok hf h.sameCalls_context

end Function.Alike

def Program.translation (p : Program) (s : Session) (f : Function) : Except LowerError Subroutine :=
  Lower.subroutine (p.lowering s f) f.type f

theorem Program.Analyzed.translation_eq {p q : Program} {s t : Session} (hs : p.Analyzed s)
    (ht : q.Analyzed t) {f g : Function} (hf : f ∈ p.functions) (hg : g ∈ q.functions)
    (hok : ∀ s ∈ f.body, s.Ok (p.context f)) (h : g.mapMark erased = f.mapMark erased)
    (hcallees : ∀ x ∈ f.callees, q.signature x = p.signature x) :
    q.translation t g = p.translation s f := by
  have halike : Function.Alike p q f g := .of_mapMark h hcallees
  have htype : g.type = f.type := by
    rw [← Function.type_mapMark erased g, h, Function.type_mapMark]
  have hnotes : (p.lowering s f).Reads (Stmt.judgeAll (q.context g) f.body) := by
    rw [halike.judge_eq hok]
    exact hs.note f hf
  have hfunction : Lower.function (q.lowering t g) f.type g =
      Lower.function (p.lowering s f) f.type f :=
    Lower.function_sameText (halike.sameCalls_lowering s t) halike.result
      (Function.sameText_of_mapMark h) f.type (fun d hd => hs.typeOf_declaration hf hd)
      (fun d hd => ht.typeOf_declaration hg hd) hnotes (ht.note g hg)
  rw [translation, translation, htype, Lower.subroutine, Lower.subroutine, hfunction]

structure Program.Accepted (p : Program) : Prop where
  distinct : p.ids.Nodup
  silent : ∃ s, p.analyze = .ok s ∧ s.diagnostics = []

structure Program.Emits (p : Program) (a : Assembly) : Prop where
  distinct : p.ids.Nodup
  code : ∃ s, p.analyze = .ok s ∧ s.lower p = .ok a

namespace Program

variable {p : Program} {a : Assembly}

theorem accepted_iff : p.Accepted ↔ p.ids.Nodup ∧ p.WellTyped := by
  constructor
  · rintro ⟨hids, s, hanalyze, hnone⟩
    obtain ⟨s', hanalyze', hs⟩ := Program.analyze_eq_ok hids
    cases hanalyze.symm.trans hanalyze'
    exact ⟨hids, p.diagnostics_eq_nil_iff.1 (hs.diagnostics ▸ hnone)⟩
  · rintro ⟨hids, htyped⟩
    obtain ⟨s, hanalyze, hs⟩ := Program.analyze_eq_ok hids
    exact ⟨hids, s, hanalyze, hs.diagnostics.trans (p.diagnostics_eq_nil_iff.2 htyped)⟩

theorem mapM_eq_ok_iff {α β ε : Type} {g : α → Except ε β} {xs : List α} {ys : List β} :
    xs.mapM g = .ok ys ↔ xs.map g = ys.map .ok := by
  induction xs generalizing ys with
  | nil =>
    rw [List.mapM_nil, List.map_nil, eq_comm (a := []), List.map_eq_nil_iff]
    exact ⟨fun h => (Except.ok.inj h).symm, fun h => h ▸ rfl⟩
  | cons x xs ih =>
    have hstep : (x :: xs).mapM g = .ok ys ↔
        ∃ y zs, g x = .ok y ∧ xs.mapM g = .ok zs ∧ y :: zs = ys := by
      rw [List.mapM_cons]
      cases g x with
      | error e => exact iff_of_false nofun nofun
      | ok y => cases xs.mapM g <;> simp [bind, Except.bind, pure, Except.pure]
    rw [hstep, List.map_cons, eq_comm (b := List.map _ _), List.map_eq_cons_iff]
    simp only [ih]
    constructor
    · rintro ⟨y, zs, hy, hzs, rfl⟩
      exact ⟨y, zs, rfl, hy.symm, hzs.symm⟩
    · rintro ⟨y, zs, rfl, hy, hzs⟩
      exact ⟨y, zs, hy.symm, hzs.symm, rfl⟩

theorem emits_iff (hids : p.ids.Nodup) : p.Emits a ↔ ∃ s, p.analyze = .ok s ∧ p.Analyzed s ∧
    s.diagnostics = [] ∧ p.functions.map (p.translation s) = a.subroutines.map .ok := by
  have hlowered : ∀ s, p.Analyzed s → (((Pass.lowerProgram p).run s).1 = .ok a ↔
      p.functions.map (p.translation s) = a.subroutines.map .ok) := by
    intro s hs
    rw [← mapM_eq_ok_iff, hs.lower, lowered]
    change (p.functions.mapM (p.translation s)).map _ = _ ↔ _
    cases p.functions.mapM (p.translation s) with
    | error e => exact iff_of_false (fun h => by cases h) (fun h => by cases h)
    | ok subs =>
      refine ⟨fun h => ?_, fun h => ?_⟩
      · cases h
        rfl
      · cases h
        rfl
  constructor
  · rintro ⟨-, s, hanalyze, hlower⟩
    obtain ⟨s', hanalyze', hs⟩ := Program.analyze_eq_ok hids
    cases hanalyze.symm.trans hanalyze'
    refine ⟨s, hanalyze, hs, ?_⟩
    cases hds : s.diagnostics with
    | cons d ds =>
      simp only [Session.lower, hds] at hlower
      cases hlower
    | nil =>
      simp only [Session.lower, hds] at hlower
      cases hrun : ((Pass.lowerProgram p).run s).1 with
      | error e =>
        rw [hrun] at hlower
        cases hlower
      | ok b =>
        rw [hrun] at hlower
        cases hlower
        exact ⟨rfl, (hlowered s hs).1 hrun⟩
  · rintro ⟨s, hanalyze, hs, hnone, hsubs⟩
    refine ⟨hids, s, hanalyze, ?_⟩
    simp only [Session.lower, hnone, (hlowered s hs).2 hsubs]
    rfl

theorem Emits.wellTyped (h : p.Emits a) : p.WellTyped := by
  obtain ⟨s, -, hs, hnone, -⟩ := (emits_iff h.distinct).1 h
  exact p.diagnostics_eq_nil_iff.1 (hs.diagnostics ▸ hnone)

theorem Accepted.emits (h : p.Accepted) (hplain : p.Plain) : ∃ a, p.Emits a := by
  obtain ⟨s, hanalyze, hs⟩ := Program.analyze_eq_ok h.distinct
  obtain ⟨s', hanalyze', hnone⟩ := h.silent
  cases hanalyze.symm.trans hanalyze'
  obtain ⟨a, ha, -⟩ := hs.lower_typed hplain hnone
  refine ⟨a, h.distinct, s, hanalyze, ?_⟩
  simp only [Session.lower, hnone, ha]
  rfl

theorem Emits.subroutine_eq {p q : Program} {a b : Assembly} (hp : p.Emits a) (hq : q.Emits b)
    {i j : Nat} {f g : Function} (hf : p.functions[i]? = some f) (hg : q.functions[j]? = some g)
    (h : g.mapMark erased = f.mapMark erased)
    (hcallees : ∀ x ∈ f.callees, q.signature x = p.signature x) :
    ∃ sub, a.subroutines[i]? = some sub ∧ b.subroutines[j]? = some sub := by
  obtain ⟨s, -, hs, -, ha⟩ := (emits_iff hp.distinct).1 hp
  obtain ⟨t, -, ht, -, hb⟩ := (emits_iff hq.distinct).1 hq
  have hmem := List.mem_of_getElem? hf
  have htranslation := hs.translation_eq ht hmem (List.mem_of_getElem? hg)
    (hp.wellTyped.body f hmem) h hcallees
  have hsub := congrArg (·[i]?) ha
  have hsub' := congrArg (·[j]?) hb
  simp only [List.getElem?_map, hf, hg, Option.map_some] at hsub hsub'
  obtain ⟨sub, hi, hok⟩ := Option.map_eq_some_iff.1 hsub.symm
  obtain ⟨sub', hj, hok'⟩ := Option.map_eq_some_iff.1 hsub'.symm
  rw [htranslation, ← hok] at hok'
  cases hok'
  exact ⟨sub, hi, hj⟩

/-- Functions of a program in any order, with its entry point and all functions that they call. -/
structure Part (p : Program) (fs : List Function) : Prop where
  subperm : fs <+~ p.functions
  removed : ∀ g ∈ p.functions, g ∉ fs →
    g.name.name ≠ "main" ∧ ∀ f ∈ fs, g.name.name ∉ f.callees

namespace Part

variable {fs : List Function}

theorem nodup_names (h : p.Part fs) (hp : p.WellTyped) : (fs.map (·.name.name)).Nodup := by
  obtain ⟨gs, hperm, hsub⟩ := h.subperm
  exact (hperm.map _).nodup_iff.1 (hp.functions.sublist (hsub.map _))

theorem nodup_ids (h : p.Part fs) (hp : p.ids.Nodup) : (Program.mk p.id fs).ids.Nodup := by
  obtain ⟨gs, hperm, hsub⟩ := h.subperm
  have hids : (p.id :: gs.flatMap Function.ids).Nodup := hp.sublist ((hsub.flatMap _).cons_cons _)
  exact ((hperm.flatMap_right Function.ids).cons p.id).nodup_iff.1 hids

theorem find?_eq_some {fs : List Function} (h : (fs.map (·.name.name)).Nodup) {g : Function}
    (hg : g ∈ fs) : fs.find? (·.name.name = g.name.name) = some g := by
  cases hfind : fs.find? (·.name.name = g.name.name) with
  | none =>
    have hnot := List.find?_eq_none.1 hfind g hg
    simp at hnot
  | some k =>
    have hname : k.name.name = g.name.name := by simpa using List.find?_some hfind
    exact congrArg some (List.inj_on_of_nodup_map h (List.mem_of_find?_eq_some hfind) hg hname)

theorem signature_eq (h : p.Part fs) (hp : p.WellTyped) {f : Function} (hf : f ∈ fs) :
    ∀ x ∈ f.callees, (Program.mk p.id fs).signature x = p.signature x := by
  intro x hx
  have hsubset := h.subperm.subset
  rw [signature, signature]
  refine congrArg (Option.map Function.type) ?_
  cases hfind : p.functions.find? (·.name.name = x) with
  | none =>
    rw [List.find?_eq_none] at hfind ⊢
    exact fun g hg => hfind g (hsubset hg)
  | some g =>
    have hname : g.name.name = x := by simpa using List.find?_some hfind
    have hg : g ∈ fs := by
      by_contra hnot
      exact (h.removed g (List.mem_of_find?_eq_some hfind) hnot).2 f hf (hname ▸ hx)
    rw [← hname]
    exact find?_eq_some (h.nodup_names hp) hg

theorem wellTyped (h : p.Part fs) (hp : p.WellTyped) : (Program.mk p.id fs).WellTyped := by
  have hsubset := h.subperm.subset
  refine ⟨fun f hf => hp.inside f (hsubset hf), h.nodup_names hp, ?_, fun f hf => ?_⟩
  · obtain ⟨f, hf, hname, hmain⟩ := hp.main
    refine ⟨f, ?_, hname, hmain⟩
    by_contra hnot
    exact (h.removed f hf hnot).1 hname
  · have halike : Function.Alike p ⟨p.id, fs⟩ f f := ⟨rfl, rfl, h.signature_eq hp hf⟩
    have hbody := hp.body f (hsubset hf)
    have hsilent := (Stmt.diagnostics_judgeAll fun s _ =>
      s.diagnostics_judge (p.proper_context f)).2 hbody
    rw [← halike.judge_eq hbody] at hsilent
    exact (Stmt.diagnostics_judgeAll fun s _ =>
      s.diagnostics_judge (Program.proper_context _ f)).1 hsilent

theorem accepted (h : p.Part fs) (hp : p.Accepted) : (Program.mk p.id fs).Accepted := by
  obtain ⟨hids, htyped⟩ := accepted_iff.1 hp
  exact accepted_iff.2 ⟨h.nodup_ids hids, h.wellTyped htyped⟩

theorem emits (h : p.Part fs) (hp : p.Emits a) : ∃ b code, (Program.mk p.id fs).Emits b ∧
    a.subroutines = p.functions.map code ∧ b.subroutines = fs.map code := by
  obtain ⟨s, hanalyze, hs, hnone, ha⟩ := (emits_iff hp.distinct).1 hp
  have htyped := hp.wellTyped
  obtain ⟨hids', t, hanalyze', hnone'⟩ := h.accepted ⟨hp.distinct, s, hanalyze, hnone⟩
  obtain ⟨t', ht', ht⟩ := Program.analyze_eq_ok hids'
  cases hanalyze'.symm.trans ht'
  let code (f : Function) : Subroutine := (p.translation s f).toOption.getD ⟨"", [], [], []⟩
  have hcode : ∀ f ∈ p.functions, p.translation s f = .ok (code f) := by
    intro f hf
    have hmem : p.translation s f ∈ p.functions.map (p.translation s) := List.mem_map.2 ⟨f, hf, rfl⟩
    rw [ha] at hmem
    obtain ⟨sub, -, hsub⟩ := List.mem_map.1 hmem
    change _ = Except.ok ((p.translation s f).toOption.getD _)
    rw [← hsub]
    rfl
  refine ⟨⟨fs.map code⟩, code, (emits_iff hids').2 ⟨t, hanalyze', ht, hnone', ?_⟩, ?_, rfl⟩
  · rw [List.map_map]
    refine List.map_congr_left fun f hf => ?_
    have hmem := h.subperm.subset hf
    rw [hs.translation_eq ht hmem hf (htyped.body f hmem) rfl (h.signature_eq htyped hf)]
    exact hcode f hmem
  · refine List.map_injective_iff.2 (fun x y h => Except.ok.inj h) (Eq.trans ha.symm ?_)
    rw [List.map_map]
    exact List.map_congr_left hcode

end Part

def withBody (p : Program) (i : Nat) (body : List Stmt) : Program :=
  { p with functions := p.functions.modify i fun f => { f with body := body } }

theorem getElem?_withBody_self (p : Program) (i : Nat) (body : List Stmt) :
    (p.withBody i body).functions[i]? = p.functions[i]?.map fun f => { f with body := body } :=
  List.getElem?_modify_eq ..

theorem getElem?_withBody_ne (p : Program) {i k : Nat} (h : i ≠ k) (body : List Stmt) :
    (p.withBody i body).functions[k]? = p.functions[k]? :=
  List.getElem?_modify_ne _ _ h

theorem sameHeaders_withBody (p : Program) (i : Nat) (body : List Stmt) :
    p.SameHeaders (p.withBody i body) := by
  refine List.ext_getElem? fun k => ?_
  rw [List.getElem?_map, List.getElem?_map]
  by_cases hk : i = k
  · rw [← hk, getElem?_withBody_self, Option.map_map]
    rfl
  · rw [getElem?_withBody_ne p hk]

theorem not_mem_ids_of_ne (hp : p.ids.Nodup) {i j : Nat} (hij : i ≠ j) {f g : Function}
    (hf : p.functions[i]? = some f) (hg : p.functions[j]? = some g) : ∀ n ∈ f.ids, n ∉ g.ids := by
  intro n hn hn'
  have hdisjoint := (List.nodup_flatMap.1 (List.nodup_cons.1 hp).2).2
  rw [List.pairwise_iff_getElem] at hdisjoint
  obtain ⟨hi, rfl⟩ := List.getElem?_eq_some_iff.1 hf
  obtain ⟨hj, rfl⟩ := List.getElem?_eq_some_iff.1 hg
  rcases Nat.lt_or_gt_of_ne hij with hlt | hlt
  · exact hdisjoint i j hi hj hlt hn hn'
  · exact hdisjoint j i hj hi hlt hn' hn

theorem filter_body_eq_nil (hp : p.ids.Nodup) {i j : Nat} (hij : i ≠ j) {f g : Function}
    (hf : p.functions[i]? = some f) (hg : p.functions[j]? = some g) (Γ : Context) :
    (Stmt.judgeAll Γ f.body).diagnostics.filter (·.mark.id ∈ g.ids) = [] := by
  rw [List.filter_eq_nil_iff]
  intro d hd hmem
  have hin : d.mark.id ∈ f.ids := List.mem_append_right _ (Stmt.inside_all Γ f.body d hd).1
  exact not_mem_ids_of_ne hp hij hf hg _ hin (of_decide_eq_true hmem)

theorem filter_diagnostics_withBody (hp : p.ids.Nodup) {i : Nat} {body : List Stmt}
    (hq : (p.withBody i body).ids.Nodup) {j : Nat} (hij : i ≠ j) {g : Function}
    (hg : p.functions[j]? = some g) :
    (p.withBody i body).diagnostics.filter (·.mark.id ∈ g.ids) =
      p.diagnostics.filter (·.mark.id ∈ g.ids) := by
  have hsame := p.sameHeaders_withBody i body
  have hbodies : (p.withBody i body).functions.map (fun f =>
      (Stmt.judgeAll ((p.withBody i body).context f) f.body).diagnostics.filter
        (·.mark.id ∈ g.ids)) = p.functions.map fun f =>
      (Stmt.judgeAll (p.context f) f.body).diagnostics.filter (·.mark.id ∈ g.ids) := by
    refine List.ext_getElem? fun k => ?_
    rw [List.getElem?_map, List.getElem?_map]
    by_cases hk : i = k
    · subst hk
      have hbody := p.getElem?_withBody_self i body
      cases hf : p.functions[i]? with
      | none =>
        rw [hf] at hbody
        rw [hbody]
        rfl
      | some f =>
        rw [hf] at hbody
        have hg' := (p.getElem?_withBody_ne hij body).trans hg
        rw [hbody, Option.map_some, Option.map_some, Option.map_some,
          filter_body_eq_nil hp hij hf hg, filter_body_eq_nil hq hij hbody hg']
    · rw [p.getElem?_withBody_ne hk]
      exact congrArg (p.functions[k]?.map ·) (funext fun f => by rw [hsame.context rfl])
  rw [diagnostics, diagnostics, ← hsame.allRedeclared, ← hsame.hasMain]
  simp only [List.filter_append, List.filter_flatMap]
  simp only [List.flatMap_def, hbodies]
  rfl

end Program

/-- A function with the same text in two programs that give code has the same subroutine in both, if
the functions that it calls have the same signatures. So a part of an accepted program, in any
order, is accepted and gives the same subroutines for its functions. And of any two programs that
differ in the statements of one function, an analysis says the same of every other function. -/
theorem separate_compilation :
    (∀ (p q : Program) (a b : Assembly), p.Emits a → q.Emits b →
      ∀ (i j : Nat) (f g : Function), p.functions[i]? = some f → q.functions[j]? = some g →
        g.mapMark erased = f.mapMark erased → (∀ x ∈ f.callees, q.signature x = p.signature x) →
          ∃ sub, a.subroutines[i]? = some sub ∧ b.subroutines[j]? = some sub) ∧
    (∀ (p : Program) (fs : List Function), p.Accepted → p.Part fs →
      (Program.mk p.id fs).Accepted ∧ ∀ a, p.Emits a → ∃ b code, (Program.mk p.id fs).Emits b ∧
        a.subroutines = p.functions.map code ∧ b.subroutines = fs.map code) ∧
    ∀ (p : Program) (i : Nat) (body : List Stmt), p.ids.Nodup → (p.withBody i body).ids.Nodup →
      ∃ s t, p.analyze = .ok s ∧ (p.withBody i body).analyze = .ok t ∧
        ∀ j g, i ≠ j → p.functions[j]? = some g →
          t.diagnostics.filter (·.mark.id ∈ g.ids) =
            s.diagnostics.filter (·.mark.id ∈ g.ids) := by
  refine ⟨?_, ?_, ?_⟩
  · intro p q a b hp hq i j f g hf hg htext hcallees
    exact hp.subroutine_eq hq hf hg htext hcallees
  · intro p fs hp hfs
    exact ⟨hfs.accepted hp, fun a ha => hfs.emits ha⟩
  · intro p i body hp hq
    obtain ⟨s, hanalyze, hs⟩ := Program.analyze_eq_ok hp
    obtain ⟨t, hanalyze', ht⟩ := Program.analyze_eq_ok hq
    refine ⟨s, t, hanalyze, hanalyze', fun j g hij hg => ?_⟩
    rw [hs.diagnostics, ht.diagnostics]
    exact Program.filter_diagnostics_withBody hp hq hij hg

def Program.spared : Program :=
  { Program.scaling with
    functions := Program.scaling.functions ++
      [⟨⟨37, 0, 0⟩, ⟨⟨38, 0, 0⟩, "spare"⟩, [], none, [], []⟩] }

/-- The spare function is left out, and the other two change places. The one that calls the other
keeps its subroutine, and its diagnostics when the other one loses its statements. -/
theorem spared_compiled_apart :
    let p := Program.spared
    let fs := Program.scaling.functions.reverse
    p.Accepted ∧ p.Part fs ∧ p.ids.Nodup ∧ (p.withBody 0 []).ids.Nodup ∧
      ∃ a b code, p.Emits a ∧ (Program.mk p.id fs).Emits b ∧
        a.subroutines = p.functions.map code ∧ b.subroutines = fs.map code ∧
        (∃ sub, a.subroutines[1]? = some sub ∧ b.subroutines[0]? = some sub) ∧
        ∃ s t main, p.analyze = .ok s ∧ (p.withBody 0 []).analyze = .ok t ∧
          p.functions[1]? = some main ∧ t.diagnostics.filter (·.mark.id ∈ main.ids) =
            s.diagnostics.filter (·.mark.id ∈ main.ids) := by
  intro p fs
  have hids : p.ids.Nodup := by decide
  have hids' : (p.withBody 0 []).ids.Nodup := by decide
  have hp : p.Accepted := Program.accepted_iff.2 ⟨hids, p.diagnostics_eq_nil_iff.1 (by decide)⟩
  have hplain : p.Plain := by
    intro f hf t ht
    simp only [p, Program.spared, Program.scaling, List.cons_append, List.nil_append,
      List.mem_cons, List.not_mem_nil, or_false] at hf
    rcases hf with rfl | rfl | rfl <;> cases ht
    exact ⟨.float, rfl⟩
  have hpart : p.Part fs := by
    refine ⟨?_, fun g hg hnot => ?_⟩
    · exact (List.reverse_perm _).subperm.trans (List.sublist_append_left _ _).subperm
    · rcases List.mem_append.1 hg with hg | hg
      · exact absurd (List.mem_reverse.2 hg) hnot
      · rw [List.mem_singleton.1 hg]
        exact ⟨by decide, by decide⟩
  obtain ⟨a, ha⟩ := hp.emits hplain
  obtain ⟨halike, hparts, hbodies⟩ := separate_compilation
  obtain ⟨b, code, hb, hcode, hcode'⟩ := (hparts p fs hp hpart).2 a ha
  obtain ⟨s, t, hs, ht, hsame⟩ := hbodies p 0 [] hids hids'
  exact ⟨hp, hpart, hids, hids', a, b, code, ha, hb, hcode, hcode',
    halike p _ a b ha hb 1 0 _ _ rfl rfl rfl (by decide), s, t, _, hs, ht, rfl,
    hsame 1 _ (by decide) rfl⟩

end Asl
