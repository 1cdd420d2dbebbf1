import Asl.Proofs.Session.Analysis
import Asl.Proofs.Tree.Renamed
import Mathlib.Data.List.Find
import Mathlib.Data.Set.Operations

/-!
# Judging renamed trees

The rules of types look at names only to find out what they mean. A tree with other names, judged
where the new names mean what the old ones did, therefore has the same types and places, the same
notes, and the same diagnostics but for the names in them. A program and its renaming by names that
stay distinct are analysed alike.
-/
namespace Asl

def Fault.rename (ρ : String → String) : Fault → Fault
  | .redeclared name => .redeclared (ρ name)
  | .undeclared name => .undeclared (ρ name)
  | .notCallable name => .notCallable (ρ name)
  | .notArray name => .notArray (ρ name)
  | .argumentCount name expected found => .argumentCount (ρ name) expected found
  | .argumentType position name => .argumentType position (ρ name)
  | .noValue name => .noValue (ρ name)
  | f => f

def Diagnostic.rename (ρ : String → String) (d : Diagnostic) : Diagnostic :=
  ⟨d.mark, d.fault.rename ρ⟩

def Report.rename (ρ : String → String) (r : Report) : Report :=
  ⟨r.notes, r.diagnostics.map (Diagnostic.rename ρ)⟩

def Judgement.rename (ρ : String → String) (j : Judgement) : Judgement :=
  { j with report := j.report.rename ρ }

def Judgements.rename (ρ : String → String) (js : Judgements) : Judgements :=
  { js with report := js.report.rename ρ }

variable {ρ : String → String}

namespace Report

theorem rename_empty : empty.rename ρ = empty := rfl

theorem rename_append (r s : Report) : (r ++ s).rename ρ = r.rename ρ ++ s.rename ρ := by
  change Report.mk _ _ = Report.mk _ _
  rw [diagnostics_append, List.map_append]
  rfl

theorem rename_note (m : Mark) (t : Ty) (b : Bool) : (note m t b).rename ρ = note m t b := rfl

theorem rename_fault (m : Mark) (f : Fault) : (fault m f).rename ρ = fault m (f.rename ρ) := rfl

theorem rename_faultIf (b : Bool) (m : Mark) (f : Fault) :
    (faultIf b m f).rename ρ = faultIf b m (f.rename ρ) := by
  cases b <;> rfl

end Report

open Report

theorem Judgement.rename_of (m : Mark) (t : Ty) (b : Bool) (parts : Report) :
    (Judgement.of m t b parts).rename ρ = .of m t b (parts.rename ρ) := by
  rw [rename, Judgement.of, rename_append, rename_note]
  rfl

/-- The new names mean in the second context what the old names mean in the first. -/
structure Context.Renames (ρ : String → String) (Γ Γ' : Context) (names : List String) : Prop where
  meaning : ∀ x ∈ names, Γ'.meaning (ρ x) = Γ.meaning x
  result : Γ'.result = Γ.result

namespace Context

variable {Γ Γ' : Context} {names names' : List String}

theorem Renames.mono (h : Γ.Renames ρ Γ' names) (hsub : names' ⊆ names) : Γ.Renames ρ Γ' names' :=
  ⟨fun x hx => h.meaning x (hsub hx), h.result⟩

theorem Renames.append (h : Γ.Renames ρ Γ' (names ++ names')) :
    Γ.Renames ρ Γ' names ∧ Γ.Renames ρ Γ' names' :=
  ⟨h.mono (List.subset_append_left _ _), h.mono (List.subset_append_right _ _)⟩

theorem Renames.tail {x : String} (h : Γ.Renames ρ Γ' (x :: names)) : Γ.Renames ρ Γ' names :=
  h.mono (List.subset_cons_self _ _)

theorem judgeName_rename {x : Ident} (h : Γ.Renames ρ Γ' (x.name :: names)) :
    Γ'.judgeName (x.rename ρ) = (Γ.judgeName x).rename ρ := by
  have hmeaning : Γ'.meaning (x.rename ρ).name = Γ.meaning x.name :=
    h.meaning x.name List.mem_cons_self
  rw [judgeName, hmeaning, judgeName]
  cases Γ.meaning x.name with
  | none => rw [Judgement.rename_of, rename_fault, Ident.rename, Fault.rename]
  | some found => rw [Judgement.rename_of, rename_empty, Ident.rename]

theorem judgeElement_rename (m : Mark) (base : Ident) (array index : Judgement) (im : Mark) :
    judgeElement m (base.rename ρ) (array.rename ρ) (index.rename ρ) im =
      (judgeElement m base array index im).rename ρ := by
  simp only [judgeElement, apply_ite (Judgement.rename ρ), Judgement.rename_of, rename_append,
    rename_faultIf]
  rfl

theorem argumentFaults_rename (callee : String) (position : Nat) (args : List (Mark × Ty))
    (ps : List Ty) : argumentFaults (ρ callee) position args ps =
      (argumentFaults callee position args ps).rename ρ := by
  induction args generalizing position ps with
  | nil => cases ps <;> rfl
  | cons arg args ih =>
    cases ps with
    | nil => rfl
    | cons p ps =>
      rw [argumentFaults, argumentFaults, ih, rename_append, rename_faultIf]
      rfl

theorem judgeCall_rename (callee : Ident) (asValue : Bool) (f : Ty) (args : List (Mark × Ty)) :
    judgeCall (callee.rename ρ) asValue f args =
      ((judgeCall callee asValue f args).1, (judgeCall callee asValue f args).2.rename ρ) := by
  have hfaults := argumentFaults_rename (ρ := ρ) callee.name 1 args f.params
  unfold judgeCall
  split
  · rfl
  split
  · rfl
  split
  · simp only [Ident.rename, hfaults, rename_append, rename_faultIf, rename_fault, Fault.rename]
  · simp only [Ident.rename, hfaults, rename_append, rename_faultIf, Fault.rename]

theorem judgeUnary_rename (m : Mark) (op : UnaryOp) (operand : Judgement) :
    judgeUnary m op (operand.rename ρ) = (judgeUnary m op operand).rename ρ := by
  have htype : (operand.rename ρ).type = operand.type := rfl
  simp only [judgeUnary, htype]
  split
  · rw [Judgement.rename_of]
    rfl
  · rw [Judgement.rename_of, rename_append, rename_fault]
    rfl
  · rw [Judgement.rename_of, rename_append, rename_fault]
    rfl

theorem judgeBinary_rename (m : Mark) (op : BinaryOp) (lhs rhs : Judgement) :
    judgeBinary m op (lhs.rename ρ) (rhs.rename ρ) = (judgeBinary m op lhs rhs).rename ρ := by
  simp only [judgeBinary, apply_ite (Judgement.rename ρ), Judgement.rename_of, rename_append,
    rename_faultIf]
  rfl

theorem judgeMax_rename (m : Mark) (types : List Ty) (parts : Report) :
    judgeMax m types (parts.rename ρ) = (judgeMax m types parts).rename ρ := by
  simp only [judgeMax, apply_ite (Judgement.rename ρ), Judgement.rename_of, rename_append,
    rename_fault]
  rfl

end Context

open Context

variable {Γ Γ' : Context}

theorem Expr.judgeAll_rename {es : List Expr}
    (h : ∀ e ∈ es, Γ.Renames ρ Γ' e.names → (e.rename ρ).judge Γ' = (e.judge Γ).rename ρ)
    (hΓ : Γ.Renames ρ Γ' (Expr.namesAll es)) :
    Expr.judgeAll Γ' (Expr.renameAll ρ es) = (Expr.judgeAll Γ es).rename ρ := by
  induction es with
  | nil => rfl
  | cons e es ih =>
    obtain ⟨he, hes⟩ := List.forall_mem_cons.1 h
    obtain ⟨hΓe, hΓes⟩ := hΓ.append
    rw [renameAll, judgeAll, he hΓe, ih hes hΓes, mark_rename, judgeAll]
    exact congrArg (Judgements.mk _) (rename_append _ _).symm

theorem Expr.judge_rename (e : Expr) (h : Γ.Renames ρ Γ' e.names) :
    (e.rename ρ).judge Γ' = (e.judge Γ).rename ρ := by
  induction e using Expr.ind with
  | literal m v => exact (Judgement.rename_of m v.type false empty).symm
  | name m x =>
    rw [rename, judge, judgeName_rename h, judge, Judgement.rename_of]
    rfl
  | element m base index ih =>
    rw [rename, judge, judgeName_rename h, ih h.tail, mark_rename, judgeElement_rename, judge]
  | call m callee args ih =>
    have hargs := judgeAll_rename ih h.tail
    simp only [rename, judge, judgeName_rename h, hargs, Judgement.rename_of, rename_append]
    rw [Judgement.rename, Judgements.rename, judgeCall_rename]
  | paren m inner ih =>
    rw [rename, judge, ih h, judge, Judgement.rename_of]
    rfl
  | unary m op operand ih => rw [rename, judge, ih h, judgeUnary_rename, judge]
  | binary m op lhs rhs ihl ihr =>
    obtain ⟨hl, hr⟩ := h.append
    rw [rename, judge, ihl hl, ihr hr, judgeBinary_rename, judge]
  | max m args ih =>
    rw [rename, judge, judgeAll_rename ih h, judge, ← judgeMax_rename]
    rfl

theorem Target.judge_rename (x : Target) (h : Γ.Renames ρ Γ' x.names) :
    (x.rename ρ).judge Γ' = (x.judge Γ).rename ρ := by
  cases x with
  | name m x =>
    rw [rename, judge, judgeName_rename h, judge, Judgement.rename_of]
    rfl
  | element m base index =>
    rw [rename, judge, judgeName_rename h, index.judge_rename h.tail, Expr.mark_rename,
      judgeElement_rename, judge]

theorem Expr.judgeCondition_rename (e : Expr) (i : String) (h : Γ.Renames ρ Γ' e.names) :
    (e.rename ρ).judgeCondition Γ' i = (e.judgeCondition Γ i).rename ρ := by
  rw [judgeCondition, judgeCondition, e.judge_rename h, mark_rename, rename_append, rename_faultIf]
  rfl

theorem Expr.judgeRange_rename (es : List Expr) (h : Γ.Renames ρ Γ' (Expr.namesAll es)) :
    Expr.judgeRange Γ' (Expr.renameAll ρ es) = (Expr.judgeRange Γ es).rename ρ := by
  induction es with
  | nil => rfl
  | cons e es ih =>
    obtain ⟨he, hes⟩ := h.append
    rw [renameAll, judgeRange, e.judge_rename he, ih hes, mark_rename, judgeRange, rename_append,
      rename_append, rename_faultIf]
    rfl

theorem Stmt.judgeAll_rename {ss : List Stmt}
    (h : ∀ s ∈ ss, Γ.Renames ρ Γ' s.names → (s.rename ρ).judge Γ' = (s.judge Γ).rename ρ)
    (hΓ : Γ.Renames ρ Γ' (Stmt.namesAll ss)) :
    Stmt.judgeAll Γ' (Stmt.renameAll ρ ss) = (Stmt.judgeAll Γ ss).rename ρ := by
  induction ss with
  | nil => rfl
  | cons s ss ih =>
    obtain ⟨hs, hss⟩ := List.forall_mem_cons.1 h
    obtain ⟨hΓs, hΓss⟩ := hΓ.append
    rw [renameAll, judgeAll, hs hΓs, ih hss hΓss, judgeAll, rename_append]

theorem Stmt.judge_rename (s : Stmt) (h : Γ.Renames ρ Γ' s.names) :
    (s.rename ρ).judge Γ' = (s.judge Γ).rename ρ := by
  induction s using Stmt.ind with
  | assign m target value =>
    obtain ⟨ht, hv⟩ := h.append
    simp only [rename, judge, target.judge_rename ht, value.judge_rename hv, Target.mark_rename,
      rename_append, rename_faultIf]
    rfl
  | ifThen m condition body ih =>
    obtain ⟨hc, hb⟩ := h.append
    rw [rename, judge, condition.judgeCondition_rename _ hc, judgeAll_rename ih hb, judge,
      rename_append]
  | ifElse m condition body otherwise ihb iho =>
    obtain ⟨hc, hbo⟩ := h.append
    obtain ⟨hb, ho⟩ := hbo.append
    rw [rename, judge, condition.judgeCondition_rename _ hc, judgeAll_rename ihb hb,
      judgeAll_rename iho ho, judge, rename_append, rename_append]
  | while_ m condition body ih =>
    obtain ⟨hc, hb⟩ := h.append
    rw [rename, judge, condition.judgeCondition_rename _ hc, judgeAll_rename ih hb, judge,
      rename_append]
  | for_ m control range body ih =>
    obtain ⟨hr, hb⟩ := h.tail.append
    have hlength := Expr.length_renameAll (ρ := ρ) range
    have hempty : (Expr.renameAll ρ range).isEmpty = range.isEmpty := by
      cases range <;> rfl
    simp only [rename, judge, judgeName_rename h, Expr.judgeRange_rename range hr,
      judgeAll_rename ih hb, hlength, hempty, rename_append, rename_faultIf]
    rfl
  | call m callee args =>
    have hargs := Expr.judgeAll_rename (fun e _ => e.judge_rename) h.tail
    simp only [rename, judge, judgeName_rename h, hargs, rename_append]
    rw [Judgement.rename, Judgements.rename, judgeCall_rename]
  | read m target =>
    simp only [rename, judge, target.judge_rename h, Target.mark_rename, rename_append,
      rename_faultIf]
    rfl
  | write m value =>
    simp only [rename, judge, value.judge_rename h, Expr.mark_rename, rename_append,
      rename_faultIf]
    rfl
  | writeText m raw => rfl
  | ret m value =>
    cases value with
    | none =>
      simp only [rename, Option.map_none, judge, h.result, rename_faultIf]
      rfl
    | some value =>
      simp only [rename, Option.map_some, judge, value.judge_rename h, h.result, rename_append,
        rename_faultIf]
      rfl

/-- A renaming of the identifiers of a program keeps the name of the entry point, keeps names apart
and gives names that a text can have. -/
structure Program.Renaming (p : Program) (ρ : String → String) : Prop where
  main : ρ "main" = "main"
  injective : Set.InjOn ρ {x | x ∈ "main" :: p.names}
  free : ∀ x ∈ p.names, FreeName (ρ x)

theorem Function.names_subset {p : Program} {f : Function} (hf : f ∈ p.functions) :
    f.names ⊆ p.names :=
  fun _ hx => List.mem_flatMap.2 ⟨f, hf, hx⟩

theorem Function.entry_mem_names {f : Function} {e : Entry} (he : e ∈ f.entries) :
    e.name ∈ f.names :=
  List.mem_cons_of_mem _ (List.mem_append_left _ (List.mem_map_of_mem he))

section

variable {N : Set String}

theorem mem_map_rename (hρ : Set.InjOn ρ N) {taken : List String} (ht : ∀ y ∈ taken, y ∈ N)
    {x : String} (hx : x ∈ N) : ρ x ∈ taken.map ρ ↔ x ∈ taken := by
  constructor
  · intro h
    obtain ⟨y, hy, heq⟩ := List.mem_map.1 h
    rwa [← hρ (ht y hy) hx heq]
  · exact List.mem_map_of_mem

theorem Entry.redeclared_rename (hρ : Set.InjOn ρ N) {taken : List String} {es : List Entry}
    (ht : ∀ y ∈ taken, y ∈ N) (hes : ∀ e ∈ es, e.name ∈ N) :
    redeclared (taken.map ρ) (es.map (Entry.rename ρ)) =
      (redeclared taken es).map (Diagnostic.rename ρ) := by
  induction es generalizing taken with
  | nil => rfl
  | cons e es ih =>
    obtain ⟨he, hes⟩ := List.forall_mem_cons.1 hes
    have hname : (e.rename ρ).name = ρ e.name := rfl
    have hrest := ih (List.forall_mem_cons.2 ⟨he, ht⟩) hes
    rw [List.map_cons] at hrest
    rw [List.map_cons, redeclared, redeclared, hname, hrest, List.map_append]
    simp only [mem_map_rename hρ ht he]
    split <;> rfl

theorem Function.allRedeclared_rename (hρ : Set.InjOn ρ N) {taken : List String}
    {fs : List Function} (ht : ∀ y ∈ taken, y ∈ N) (hfs : ∀ f ∈ fs, ∀ x ∈ f.names, x ∈ N) :
    allRedeclared (taken.map ρ) (fs.map (Function.rename ρ)) =
      (allRedeclared taken fs).map (Diagnostic.rename ρ) := by
  induction fs generalizing taken with
  | nil => rfl
  | cons f fs ih =>
    obtain ⟨hf, hfs⟩ := List.forall_mem_cons.1 hfs
    have hmem : f.name.name ∈ N := hf _ List.mem_cons_self
    have hname : (f.rename ρ).name.name = ρ f.name.name := rfl
    have hnone : ∀ y ∈ ([] : List String), y ∈ N := fun _ h => absurd h List.not_mem_nil
    have hinside := Entry.redeclared_rename hρ hnone fun e he => hf _ (entry_mem_names he)
    have hrest := ih (List.forall_mem_cons.2 ⟨hmem, ht⟩) hfs
    rw [List.map_nil] at hinside
    rw [List.map_cons] at hrest
    rw [List.map_cons, allRedeclared, redeclared, entries_rename, hinside, hname, hrest,
      allRedeclared, redeclared, List.map_append, List.map_append]
    simp only [mem_map_rename hρ ht hmem]
    split <;> rfl

end

theorem Session.typeOf_eq_of_view {s t : Session} {n : NodeId}
    (h : t.view.typeOf n = s.view.typeOf n) :
    t.typeOf n = s.typeOf n := by
  change ((t.attributes.get n).type).map t.types.denote =
    ((s.attributes.get n).type).map s.types.denote at h
  rw [Session.typeOf, Session.typeOf, AttributeTable.type, AttributeTable.type]
  cases hs : (s.attributes.get n).type <;> cases ht : (t.attributes.get n).type
  · rfl
  · rw [hs, ht] at h
    cases h
  · rw [hs, ht] at h
    cases h
  · rw [hs, ht] at h
    exact congrArg Except.ok (Option.some.inj h)

namespace Program

variable {p : Program}

theorem Renaming.context (hρ : p.Renaming ρ) {f : Function} (hf : f ∈ p.functions) :
    (p.context f).Renames ρ ((p.rename ρ).context (f.rename ρ)) p.names where
  meaning x hx := by
    have hx : x ∈ "main" :: p.names := List.mem_cons_of_mem _ hx
    have hinside : ∀ e ∈ f.entries, ρ e.name = ρ x → e.name = x := by
      intro e he heq
      have hname := Function.names_subset hf (Function.entry_mem_names he)
      exact hρ.injective (List.mem_cons_of_mem _ hname) hx heq
    have houtside : ∀ e ∈ p.entries, ρ e.name = ρ x → e.name = x := by
      intro e he heq
      obtain ⟨g, hg, rfl⟩ := List.mem_map.1 he
      have hname := Function.names_subset hg List.mem_cons_self
      exact hρ.injective (List.mem_cons_of_mem _ hname) hx heq
    change (Entry.meaning? _ _).or (Entry.meaning? _ _) = p.meaning f x
    rw [Function.entries_rename, entries_rename, Entry.meaning?_rename hinside,
      Entry.meaning?_rename houtside]
    rfl
  result := f.resultType_rename

theorem Renaming.report (hρ : p.Renaming ρ) {f : Function} (hf : f ∈ p.functions) :
    (p.rename ρ).report (f.rename ρ) = (p.report f).rename ρ := by
  have hbody : Stmt.namesAll f.body ⊆ p.names := by
    intro x hx
    exact Function.names_subset hf (List.mem_cons_of_mem _ (List.mem_append_right _ hx))
  exact Stmt.judgeAll_rename (fun s _ => s.judge_rename) ((hρ.context hf).mono hbody)

theorem Renaming.hasMain (hρ : p.Renaming ρ) : (p.rename ρ).hasMain = p.hasMain := by
  have hname : ∀ f ∈ p.functions,
      decide ((f.rename ρ).name.name = "main") = decide (f.name.name = "main") := by
    intro f hf
    have hmem : f.name.name ∈ "main" :: p.names :=
      List.mem_cons_of_mem _ (Function.names_subset hf List.mem_cons_self)
    refine decide_eq_decide.2 ⟨fun h => ?_, fun h => ?_⟩
    · exact hρ.injective hmem List.mem_cons_self (h.trans hρ.main.symm)
    · exact (congrArg ρ h).trans hρ.main
  have hfind : p.functions.find? ((fun f => decide (f.name.name = "main")) ∘ Function.rename ρ) =
      p.functions.find? (·.name.name = "main") := List.find?_congr hname
  rw [Program.hasMain, rename, List.find?_map, hfind, Program.hasMain]
  cases p.functions.find? (·.name.name = "main") with
  | none => rfl
  | some f =>
    change ((f.rename ρ).params.isEmpty && decide (f.resultType = .void)) = _
    rw [Function.rename, List.isEmpty_map]

theorem Renaming.diagnostics (hρ : p.Renaming ρ) :
    (p.rename ρ).diagnostics = p.diagnostics.map (Diagnostic.rename ρ) := by
  have hnames : ∀ f ∈ p.functions, ∀ x ∈ f.names, x ∈ {x | x ∈ "main" :: p.names} :=
    fun f hf x hx => List.mem_cons_of_mem _ (Function.names_subset hf hx)
  have hnone : ∀ y ∈ ([] : List String), y ∈ {x | x ∈ "main" :: p.names} :=
    fun _ h => absurd h List.not_mem_nil
  have hredeclared := Function.allRedeclared_rename hρ.injective hnone hnames
  rw [List.map_nil] at hredeclared
  have hbodies : (p.rename ρ).functions.flatMap
      (fun f => (Stmt.judgeAll ((p.rename ρ).context f) f.body).diagnostics) =
        (p.functions.flatMap fun f => (Stmt.judgeAll (p.context f) f.body).diagnostics).map
          (Diagnostic.rename ρ) := by
    rw [rename, List.flatMap_map, List.map_flatMap]
    refine List.flatMap_congr fun f hf => ?_
    exact congrArg Report.diagnostics (hρ.report hf)
  rw [Program.diagnostics, hbodies, hρ.hasMain, Program.diagnostics, List.map_append,
    List.map_append, ← hredeclared]
  cases p.hasMain <;> rfl

theorem view_of_analyze {s : Session} (h : p.ids.Nodup)
    (hs : (Pass.analyze p).run .fresh = (.ok (), s)) :
    s.view = Session.fresh.view.analyzed p := by
  obtain ⟨_, s', hrun, hm, -⟩ := Pass.yields_analyze Session.sound_fresh rfl h
  rw [hs] at hrun
  cases hrun
  exact hm.view

theorem Renaming.typeOf (hρ : p.Renaming ρ) (h : p.ids.Nodup) {s t : Session}
    (hs : (Pass.analyze p).run .fresh = (.ok (), s))
    (ht : (Pass.analyze (p.rename ρ)).run .fresh = (.ok (), t)) : t.typeOf = s.typeOf := by
  have hids : (p.rename ρ).ids.Nodup := by rwa [ids_rename]
  have hnoted : (p.rename ρ).functions.flatMap Function.notedTypes =
      p.functions.flatMap Function.notedTypes := by
    rw [rename, List.flatMap_map]
    refine List.flatMap_congr fun f _ => ?_
    rw [Function.notedTypes, Function.type_rename, Function.notedTypes, Function.writtenTypes,
      Function.rename, List.map_map, List.map_map]
    rfl
  have htypes : (p.rename ρ).functions.flatMap (fun f => ((p.rename ρ).report f).types) =
      p.functions.flatMap fun f => (p.report f).types := by
    rw [rename, List.flatMap_map]
    refine List.flatMap_congr fun f hf => ?_
    change ((p.rename ρ).report (f.rename ρ)).types = _
    rw [hρ.report hf]
    rfl
  have hview : t.view.typeOf = s.view.typeOf := by
    rw [view_of_analyze hids ht, view_of_analyze h hs, View.typeOf_analyzed, View.typeOf_analyzed,
      hnoted, htypes]
  funext n
  exact Session.typeOf_eq_of_view (congrFun hview n)

end Program

end Asl
