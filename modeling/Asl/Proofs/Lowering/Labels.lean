import Asl.Proofs.Lowering.Text
import Asl.Proofs.Tree.Nodes
import Mathlib.Data.List.Nodup

/-!
# Labels of lowered code

The labels of branches and those of loops are numbered apart, each number is taken once, and the
labels of a part have the numbers that were taken while it was lowered. So no label stands twice in
the code of a function.
-/
namespace Asl

def Code.labels : Code → List Label
  | [] => []
  | .label l :: code => l :: Code.labels code
  | _ :: code => Code.labels code

@[simp] theorem Code.labels_append (a b : Code) :
    Code.labels (a ++ b) = Code.labels a ++ Code.labels b := by
  induction a with
  | nil => rfl
  | cons i a ih => cases i <;> simp only [List.cons_append, Code.labels, ih]

def Counters.taken (c : Counters) : LabelKind → Nat
  | .else | .endif | .endmax => c.branches
  | _ => c.loops

/-- Labels that stand once, with numbers that were taken between two counts. -/
structure Labelled (c c' : Counters) (ls : List Label) : Prop where
  le : ∀ k, c.taken k ≤ c'.taken k
  nodup : ls.Nodup
  above : ∀ l ∈ ls, c.taken l.kind < l.number
  below : ∀ l ∈ ls, l.number ≤ c'.taken l.kind

namespace Labelled

variable {c c' c'' : Counters} {ls ls' : List Label}

theorem refl (c : Counters) : Labelled c c [] :=
  ⟨fun _ => Nat.le_refl _, List.nodup_nil, (by rintro _ ⟨⟩), (by rintro _ ⟨⟩)⟩

theorem temps (c : Counters) (n : Nat) : Labelled c { c with temps := n } [] :=
  ⟨fun k => by cases k <;> exact Nat.le_refl _, List.nodup_nil, (by rintro _ ⟨⟩), (by rintro _ ⟨⟩)⟩

theorem append (h : Labelled c c' ls) (h' : Labelled c' c'' ls') :
    Labelled c c'' (ls ++ ls') where
  le k := Nat.le_trans (h.le k) (h'.le k)
  nodup := by
    refine List.nodup_append.2 ⟨h.nodup, h'.nodup, ?_⟩
    intro l hl l' hl' heq
    have hbelow := h.below l hl
    have habove := h'.above l' hl'
    rw [← heq] at habove
    omega
  above l hl := by
    rcases List.mem_append.1 hl with hl | hl
    · exact h.above l hl
    · exact Nat.lt_of_le_of_lt (h.le l.kind) (h'.above l hl)
  below l hl := by
    rcases List.mem_append.1 hl with hl | hl
    · exact Nat.le_trans (h.below l hl) (h'.le l.kind)
    · exact h'.below l hl

theorem fresh {kinds : List LabelKind} (hkinds : kinds.Nodup) {n : Nat}
    (hle : ∀ k, c.taken k ≤ c'.taken k)
    (h : ∀ k ∈ kinds, c.taken k < n ∧ n ≤ c'.taken k) :
    Labelled c c' (kinds.map (⟨·, n⟩)) where
  le := hle
  nodup := hkinds.map fun k l hkl => (Label.mk.inj hkl).1
  above l hl := by
    obtain ⟨k, hk, rfl⟩ := List.mem_map.1 hl
    exact (h k hk).1
  below l hl := by
    obtain ⟨k, hk, rfl⟩ := List.mem_map.1 hl
    exact (h k hk).2

theorem branch (c : Counters) {kinds : List LabelKind} (hkinds : kinds.Nodup)
    (h : ∀ k ∈ kinds, k ∈ [LabelKind.else, .endif, .endmax]) :
    Labelled c { c with branches := c.branches + 1 } (kinds.map (⟨·, c.branches + 1⟩)) := by
  refine fresh hkinds (fun k => by cases k <;> simp [Counters.taken]) fun k hk => ?_
  have hmem := h k hk
  simp only [List.mem_cons, List.not_mem_nil, or_false] at hmem
  rcases hmem with rfl | rfl | rfl <;> exact ⟨Nat.lt_succ_self _, Nat.le_refl _⟩

theorem loop (c : Counters) {kinds : List LabelKind} (hkinds : kinds.Nodup)
    (h : ∀ k ∈ kinds, k ∉ [LabelKind.else, .endif, .endmax]) :
    Labelled c { c with loops := c.loops + 1 } (kinds.map (⟨·, c.loops + 1⟩)) := by
  refine fresh hkinds (fun k => by cases k <;> simp [Counters.taken]) fun k hk => ?_
  have hnot := h k hk
  cases k with
  | «else» => simp at hnot
  | endif => simp at hnot
  | endmax => simp at hnot
  | _ => exact ⟨Nat.lt_succ_self _, Nat.le_refl _⟩

end Labelled

namespace Lower

open Attempt (fail)

def Gives {α : Type} (m : Lower α) (c : Counters) (Q : α → Counters → Prop) : Prop :=
  ∀ a c', m.run c = (.ok a, c') → Q a c'

section

variable {α β : Type} {c : Counters}

theorem Gives.bind {m : Lower α} {f : α → Lower β} {Q : α → Counters → Prop}
    {R : β → Counters → Prop} (hm : Gives m c Q)
    (hf : ∀ a c', Q a c' → Gives (f a) c' R) : Gives (m >>= f) c R := by
  intro b c'' h
  obtain ⟨a, c', hrun, hrest⟩ := Attempt.run_bind_eq_ok.1 h
  exact hf a c' (hm a c' hrun) b c'' hrest

theorem gives_pure {a : α} {Q : α → Counters → Prop} (h : Q a c) : Gives (pure a) c Q := by
  intro b c' hrun
  cases hrun
  exact h

theorem gives_fail {e : LowerError} {Q : α → Counters → Prop} : Gives (fail e) c Q := by
  intro b c' hrun
  cases hrun

theorem Gives.mono {m : Lower α} {Q R : α → Counters → Prop} (hm : Gives m c Q)
    (h : ∀ a c', Q a c' → R a c') : Gives m c R :=
  fun a c' hrun => h a c' (hm a c' hrun)

theorem gives_freshTemp (c : Counters) : Gives freshTemp c fun o c' =>
    o = .temp (c.temps + 1) ∧ c' = { c with temps := c.temps + 1 } := by
  intro o c' hrun
  cases hrun
  exact ⟨rfl, rfl⟩

theorem gives_freshBranch (c : Counters) : Gives freshBranch c fun n c' =>
    n = c.branches + 1 ∧ c' = { c with branches := c.branches + 1 } := by
  intro n c' hrun
  cases hrun
  exact ⟨rfl, rfl⟩

theorem gives_freshLoop (c : Counters) : Gives freshLoop c fun n c' =>
    n = c.loops + 1 ∧ c' = { c with loops := c.loops + 1 } := by
  intro n c' hrun
  cases hrun
  exact ⟨rfl, rfl⟩

theorem gives_typeOf (Λ : Lowering) (n : NodeId) (c : Counters) :
    Gives (typeOf Λ n) c fun t c' => Λ.typeOf n = .ok t ∧ c' = c := by
  intro t c' hrun
  unfold typeOf at hrun
  cases hn : Λ.typeOf n with
  | error e =>
    rw [hn] at hrun
    cases hrun
  | ok u =>
    rw [hn] at hrun
    cases hrun
    exact ⟨rfl, rfl⟩

theorem gives_known {Λ : Lowering} {n : NodeId} {t : Ty} (h : Λ.typeOf n = .ok t) :
    Gives (typeOf Λ n) c fun u c' => t = u ∧ c = c' := by
  refine (gives_typeOf Λ n c).mono fun u c' hres => ?_
  obtain ⟨hu, hc'⟩ := hres
  refine ⟨?_, hc'.symm⟩
  rw [h] at hu
  exact Except.ok.inj hu

theorem Gives.branch {p : Prop} [Decidable p] {m m' : Lower α} {rest : α → Lower β}
    {R : β → Counters → Prop} (h : Gives ((if p then m else m') >>= rest) c R) :
    Gives (if p then m >>= rest else m' >>= rest) c R := by
  by_cases hp : p
  · rw [if_pos hp] at h ⊢
    exact h
  · rw [if_neg hp] at h ⊢
    exact h

end

/-! ## Labelled code -/

/-- The labels of the code that a piece of lowering gives are some that are known already, and some
that were numbered by it. -/
def Labels {α : Type} (known : List Label) (code : α → Code) (m : Lower α) : Prop :=
  ∀ c, Gives m c fun a c' => ∃ ls, Labelled c c' ls ∧
    ∀ l, (code a).labels.count l ≤ (known ++ ls).count l

section

variable {α β : Type} {known : List Label}

theorem labels_pure_of_count {code : α → Code} {a : α}
    (h : ∀ l, (code a).labels.count l ≤ known.count l) : Labels known code (pure a) := by
  intro c
  refine gives_pure ⟨[], .refl c, ?_⟩
  rw [List.append_nil]
  exact h

theorem labels_pure {code : α → Code} {a : α} (h : (code a).labels = known) :
    Labels known code (pure a) :=
  labels_pure_of_count fun l => by simp only [h, Nat.le_refl]

theorem labels_fail {code : α → Code} {e : LowerError} : Labels known code (fail e) :=
  fun _ => gives_fail

theorem Labels.bind {code : α → Code} {code' : β → Code} {m : Lower α} {f : α → Lower β}
    (hm : Labels [] code m) (hf : ∀ a, Labels (known ++ (code a).labels) code' (f a)) :
    Labels known code' (m >>= f) := by
  intro c
  refine (hm c).bind fun a c' hres => (hf a c').mono fun b c'' h => ?_
  obtain ⟨ls, hls, hcount⟩ := hres
  obtain ⟨ls', hls', hcount'⟩ := h
  refine ⟨ls ++ ls', hls.append hls', fun l => ?_⟩
  have hfirst := hcount l
  have hsecond := hcount' l
  simp only [List.count_append, List.nil_append] at hfirst hsecond ⊢
  omega

theorem Labels.fresh {code : α → Code} {f : Operand → Lower α}
    (hf : ∀ o, Labels known code (f o)) : Labels known code (freshTemp >>= f) := by
  intro c
  refine (gives_freshTemp c).bind fun o c' hres => (hf o c').mono fun a c'' h => ?_
  obtain ⟨_, hc'⟩ := hres
  obtain ⟨ls, hls, hcount⟩ := h
  rw [hc'] at hls
  exact ⟨ls, (Labelled.temps c (c.temps + 1)).append hls, hcount⟩

theorem Labels.typed {Λ : Lowering} {n : NodeId} {code : α → Code} {f : Ty → Lower α}
    (hf : ∀ t, Labels known code (f t)) : Labels known code (typeOf Λ n >>= f) := by
  intro c
  refine (gives_typeOf Λ n c).bind fun t c' hres => ?_
  obtain ⟨_, hc'⟩ := hres
  rw [hc']
  exact hf t c

theorem Labels.branch {code : α → Code} {f : Nat → Lower α} (kinds : List LabelKind)
    (hnodup : kinds.Nodup) (hkinds : ∀ k ∈ kinds, k ∈ [LabelKind.else, .endif, .endmax])
    (hf : ∀ n, Labels (known ++ kinds.map (⟨·, n⟩)) code (f n)) :
    Labels known code (freshBranch >>= f) := by
  intro c
  refine (gives_freshBranch c).bind fun n c' hres => (hf n c').mono fun a c'' h => ?_
  obtain ⟨hn, hc'⟩ := hres
  obtain ⟨ls, hls, hcount⟩ := h
  rw [hc'] at hls
  rw [hn, List.append_assoc] at hcount
  exact ⟨_, (Labelled.branch c hnodup hkinds).append hls, hcount⟩

theorem Labels.loop {code : α → Code} {f : Nat → Lower α} (kinds : List LabelKind)
    (hnodup : kinds.Nodup) (hkinds : ∀ k ∈ kinds, k ∉ [LabelKind.else, .endif, .endmax])
    (hf : ∀ n, Labels (known ++ kinds.map (⟨·, n⟩)) code (f n)) :
    Labels known code (freshLoop >>= f) := by
  intro c
  refine (gives_freshLoop c).bind fun n c' hres => (hf n c').mono fun a c'' h => ?_
  obtain ⟨hn, hc'⟩ := hres
  obtain ⟨ls, hls, hcount⟩ := h
  rw [hc'] at hls
  rw [hn, List.append_assoc] at hcount
  exact ⟨_, (Labelled.loop c hnodup hkinds).append hls, hcount⟩

end

/-! ## Expressions -/

section

variable (Λ : Lowering)

theorem toFloat_labels (v : Operand) (t : Ty) : Labels [] Prod.fst (toFloat v t) := by
  unfold toFloat
  split
  · exact .fresh fun _ => labels_pure rfl
  · exact labels_pure rfl

theorem coerce_labels (v : Operand) (t expected : Ty) :
    Labels [] Prod.fst (coerce v t expected) := by
  unfold coerce
  split
  · exact toFloat_labels v t
  · exact labels_pure rfl

theorem arrayBase_labels (array : Operand) : Labels [] Prod.fst (arrayBase Λ array) := by
  unfold arrayBase
  split
  · exact .fresh fun _ => labels_pure rfl
  · exact labels_pure rfl

theorem reference_labels (array : Operand) : Labels [] Prod.fst (reference Λ array) := by
  unfold reference
  split
  · exact labels_pure rfl
  · exact .fresh fun _ => labels_pure rfl

theorem operation_labels (op : BinaryOp) (ns : Numbers) (dst a b : Operand) :
    Labels [] id (operation op ns dst a b) := by
  cases op with
  | mod => exact .fresh fun _ => .fresh fun _ => labels_pure rfl
  | _ => exact labels_pure rfl

theorem calleeType_labels (x : String) : Labels [] (fun _ => []) (calleeType Λ x) := by
  unfold calleeType
  split
  · exact labels_fail
  · split
    · exact labels_pure rfl
    · exact labels_fail

@[simp] theorem labels_callCode (returnsValue : Bool) (pushes : Code) (x : String) (n : Nat) :
    (callCode returnsValue pushes x n).labels = pushes.labels := by
  have hdrops : Code.labels (List.replicate n (.pop none)) = [] := by
    induction n with
    | zero => rfl
    | succ n ih => simp only [List.replicate_succ, Code.labels, ih]
  cases returnsValue <;> simp [callCode, Code.labels, hdrops]

variable {Λ}

theorem arguments_labels (callee : String) (params : List Ty) {args : List Expr}
    (h : ∀ a ∈ args, Labels [] Prod.fst (expr Λ a)) :
    Labels [] id (arguments Λ callee params args) := by
  induction args generalizing params with
  | nil => cases params <;> exact labels_pure rfl
  | cons a args ih =>
    obtain ⟨ha, hargs⟩ := List.forall_mem_cons.1 h
    cases params with
    | nil => exact labels_fail
    | cons p ps =>
      refine .typed fun t => ha.bind fun r => ?_
      have hrest : ∀ q : Code × Operand, Labels ([] ++ r.1.labels ++ q.1.labels) id (do
          let more ← arguments Λ callee ps args
          return r.1 ++ q.1 ++ .push (some q.2) :: more) := by
        intro q
        refine (ih ps hargs).bind fun more => labels_pure ?_
        simp [Code.labels]
      simp only
      split
      · exact (reference_labels Λ r.2).bind hrest
      · exact (coerce_labels r.2 t p).bind hrest

theorem maxRest_labels (t : Ty) (best : Operand) {args : List Expr}
    (h : ∀ a ∈ args, Labels [] Prod.fst (expr Λ a)) :
    Labels [] id (maxRest Λ t best args) := by
  induction args with
  | nil => exact labels_pure rfl
  | cons a args ih =>
    obtain ⟨ha, hargs⟩ := List.forall_mem_cons.1 h
    refine .typed fun u => ha.bind fun r => (coerce_labels _ u t).bind fun q => .fresh fun _ => ?_
    refine .branch [.endmax] (by simp) (by simp) fun n => (ih hargs).bind fun more => ?_
    refine labels_pure ?_
    simp [Code.labels]

theorem expr_labels (e : Expr) : Labels [] Prod.fst (expr Λ e) := by
  induction e using Expr.ind with
  | literal m v => exact .fresh fun _ => labels_pure rfl
  | name m x => exact labels_pure rfl
  | element m base index ih =>
    refine ih.bind fun r => (arrayBase_labels Λ _).bind fun q => .fresh fun _ => ?_
    refine labels_pure ?_
    simp [Code.labels]
  | call m callee args ih =>
    refine (calleeType_labels Λ callee.name).bind fun f => ?_
    split
    · exact labels_fail
    · refine (arguments_labels _ _ ih).bind fun pushes => .fresh fun _ => labels_pure ?_
      simp [Code.labels]
  | paren m inner ih => exact ih
  | unary m op operand ih =>
    refine ih.bind fun r => ?_
    cases op with
    | plus => exact labels_pure (rfl)
    | not =>
      refine .fresh fun _ => labels_pure ?_
      simp [Code.labels]
    | minus =>
      refine .typed fun _ => .fresh fun _ => labels_pure ?_
      simp [Code.labels]
  | binary m op lhs rhs ihl ihr =>
    refine ihl.bind fun r => ihr.bind fun q => .typed fun t => .typed fun u => ?_
    refine (coerce_labels _ t _).bind fun _ => (coerce_labels _ u _).bind fun _ => ?_
    refine .fresh fun _ => ?_
    refine (operation_labels op _ _ _ _).bind fun code => labels_pure ?_
    simp
  | max m args ih =>
    cases args with
    | nil => exact .typed fun _ => labels_fail
    | cons first rest =>
      obtain ⟨hfirst, hrest⟩ := List.forall_mem_cons.1 ih
      refine .typed fun t => .fresh fun best => .typed fun u => hfirst.bind fun _ => ?_
      refine (coerce_labels _ u t).bind fun _ => (maxRest_labels t best hrest).bind fun more => ?_
      refine labels_pure ?_
      simp [Code.labels]

/-! ## Statements -/

theorem place_labels (x : Target) : Labels [] Prod.fst (place Λ x) := by
  cases x with
  | name m x => exact labels_pure rfl
  | element m base index =>
    refine (expr_labels index).bind fun _ => (arrayBase_labels Λ _).bind fun _ => ?_
    exact labels_pure ((by simp))

@[simp] theorem labels_store (p : Place) (v : Operand) (code : Code) :
    Code.labels (p.store v :: code) = code.labels := by
  cases p <;> rfl

theorem labels_copyElements (dst src index elem : Operand) (size : Nat) :
    (copyElements dst src index elem size).labels = [] := by
  unfold copyElements
  induction List.range size with
  | nil => rfl
  | cons k ks ih => simp [Code.labels, ih]

theorem copyArray_labels (dst : String) (size : Nat) (value : Expr) :
    Labels [] id (copyArray Λ dst size value) := by
  have hrest : ∀ r : Code × Operand, Labels ([] ++ r.1.labels) id (do
      let a ← arrayBase Λ r.2
      let b ← arrayBase Λ (.name dst)
      let index ← freshTemp
      let elem ← freshTemp
      return r.1 ++ a.1 ++ b.1 ++ copyElements b.2 a.2 index elem size) := by
    intro r
    refine (arrayBase_labels Λ _).bind fun _ => (arrayBase_labels Λ _).bind fun _ => ?_
    refine .fresh fun _ => .fresh fun _ => labels_pure ?_
    simp [labels_copyElements]
  unfold copyArray
  split
  · exact (expr_labels _).bind hrest
  · exact (expr_labels _).bind hrest
  · exact labels_fail.bind hrest

theorem assign_labels (target : Target) (value : Expr) :
    Labels [] id (assign Λ target value) := by
  refine .typed fun t => ?_
  split
  · cases target with
    | name m x => exact copyArray_labels x.name _ value
    | element m base index => exact labels_fail
  · refine .typed fun u => (place_labels target).bind fun _ => (expr_labels value).bind fun _ => ?_
    refine (coerce_labels _ u t).bind fun _ => labels_pure ?_
    simp [Code.labels]

theorem materialize_labels (v : Operand) : Labels [] Prod.fst (materialize v) := by
  unfold materialize
  split
  · exact labels_pure rfl
  · exact .fresh fun _ => labels_pure rfl

theorem immediate_labels (n : Int) : Labels [] Prod.fst (immediate n) :=
  .fresh fun _ => labels_pure rfl

theorem bounds_labels (es : List Expr) : Labels [] Prod.fst (bounds Λ es) := by
  induction es with
  | nil => exact labels_pure rfl
  | cons e es ih =>
    refine (expr_labels e).bind fun _ => (materialize_labels _).bind fun _ => ih.bind fun _ => ?_
    exact labels_pure ((by simp))

theorem loopBounds_labels (vs : List Operand) :
    Labels [] (fun q => q.elim [] Prod.fst) (loopBounds vs) := by
  rcases vs with _ | ⟨a, _ | ⟨b, _ | ⟨c, rest⟩⟩⟩
  · exact labels_pure rfl
  · refine (immediate_labels 0).bind fun _ => (immediate_labels 1).bind fun _ => ?_
    exact labels_pure ((by simp))
  · exact (immediate_labels 1).bind fun _ => labels_pure rfl
  · exact labels_pure rfl

theorem test_labels (step : Operand) : Labels [] Prod.fst (direction.test step) := by
  refine (immediate_labels 0).bind fun _ => .fresh fun _ => labels_pure ?_
  simp [Code.labels]

theorem direction_labels (step : Operand) (written : Option Expr) :
    Labels [] Prod.fst (direction step written) := by
  unfold direction
  split
  · split
    · exact labels_pure rfl
    · split
      · exact labels_pure rfl
      · exact test_labels step
  · exact test_labels step

theorem labels_writeChars (t : Operand) (cs : List Char) : (writeChars t cs).labels = [] := by
  rw [writeChars_eq]
  induction Glyph.ofText cs with
  | nil => rfl
  | cons glyph glyphs ih =>
    rw [List.flatMap_cons, Code.labels_append, ih, List.append_nil]
    cases glyph <;> rfl

theorem stmts_labels_of {ss : List Stmt} (h : ∀ s ∈ ss, Labels [] id (stmt Λ s)) :
    Labels [] id (stmts Λ ss) := by
  induction ss with
  | nil => exact labels_pure rfl
  | cons s ss ih =>
    obtain ⟨hs, hss⟩ := List.forall_mem_cons.1 h
    exact hs.bind fun _ => (ih hss).bind fun _ => labels_pure ((by simp))

/-- A loop whose direction is found out as it is chosen to be, from the operand of its step. -/
def forLoop (Λ : Lowering) (control : Ident) (range : List Expr) (body : List Stmt)
    (choose : Operand → Lower (Code × Direction)) : Lower Code := do
  let (evaluate, values) ← bounds Λ range
  match ← loopBounds values with
  | none => return []
  | some (defaults, start, stop, step) => do
      let (sign, dir) ← choose step
      let n ← freshLoop
      let condition ← freshTemp
      let inner ← stmts Λ body
      let i := Operand.name control.name
      return evaluate ++ defaults ++ sign ++ .copy i start :: .label ⟨.for, n⟩ ::
        loopTest n condition i stop dir ++ .jumpUnless condition ⟨.endfor, n⟩ :: inner ++
        [.binary (.add .whole) i i step, .jump ⟨.for, n⟩, .label ⟨.endfor, n⟩]

theorem stmt_for (m : Mark) (control : Ident) (range : List Expr) (body : List Stmt) :
    stmt Λ (.for m control range body) = forLoop Λ control range body (direction · range[2]?) :=
  rfl

theorem forLoop_labels (control : Ident) (range : List Expr) {body : List Stmt}
    {choose : Operand → Lower (Code × Direction)}
    (hchoose : ∀ step, Labels [] Prod.fst (choose step))
    (ih : ∀ s ∈ body, Labels [] id (stmt Λ s)) :
    Labels [] id (forLoop Λ control range body choose) := by
  refine (bounds_labels range).bind fun r => (loopBounds_labels r.2).bind fun q => ?_
  cases q with
  | none => exact labels_pure_of_count fun l => Nat.zero_le _
  | some q =>
    refine (hchoose _).bind fun d => ?_
    obtain ⟨sign, dir⟩ := d
    cases dir with
    | up =>
      refine .loop [.for, .endfor] (by simp) (by simp) fun n => .fresh fun _ => ?_
      refine (stmts_labels_of ih).bind fun inner => labels_pure_of_count fun l => ?_
      simp [Code.labels, loopTest, List.count_cons]
    | down =>
      refine .loop [.for, .endfor] (by simp) (by simp) fun n => .fresh fun _ => ?_
      refine (stmts_labels_of ih).bind fun inner => labels_pure_of_count fun l => ?_
      simp [Code.labels, loopTest, List.count_cons]
    | tested isUp =>
      refine .loop [.for, .forDown, .forTest, .endfor] (by simp) (by simp)
        fun n => .fresh fun _ => ?_
      refine (stmts_labels_of ih).bind fun inner => labels_pure_of_count fun l => ?_
      simp [Code.labels, loopTest, List.count_cons]

theorem stmt_labels (s : Stmt) : Labels [] id (stmt Λ s) := by
  induction s using Stmt.ind with
  | assign m target value => exact assign_labels target value
  | ifThen m condition body ih =>
    refine (expr_labels condition).bind fun r => ?_
    refine .branch [.endif] (by simp) (by simp) fun n => (stmts_labels_of ih).bind fun yes => ?_
    refine labels_pure_of_count fun l => ?_
    simp [Code.labels, List.count_cons]
  | ifElse m condition body otherwise ihb iho =>
    refine (expr_labels condition).bind fun r => ?_
    refine .branch [.else, .endif] (by simp) (by simp) fun n => ?_
    refine (stmts_labels_of ihb).bind fun yes => (stmts_labels_of iho).bind fun no => ?_
    refine labels_pure_of_count fun l => ?_
    simp [Code.labels, List.count_cons]
    omega
  | while_ m condition body ih =>
    refine .loop [.while, .endwhile] (by simp) (by simp) fun n => ?_
    refine (expr_labels condition).bind fun r => (stmts_labels_of ih).bind fun inner => ?_
    refine labels_pure_of_count fun l => ?_
    simp [Code.labels, List.count_cons]
    omega
  | for_ m control range body ih =>
    rw [stmt_for]
    exact forLoop_labels control range (fun step => direction_labels step _) ih
  | call m callee args =>
    refine (calleeType_labels Λ callee.name).bind fun f => ?_
    refine (arguments_labels _ _ fun a _ => expr_labels a).bind fun pushes => ?_
    refine labels_pure ?_
    split <;> simp [Code.labels]
  | read m target =>
    refine .typed fun t => (place_labels target).bind fun hres => ?_
    obtain ⟨before, p⟩ := hres
    cases p with
    | scalar x => exact labels_pure ((by simp [Code.labels]))
    | element base index => exact .fresh fun _ => labels_pure ((by simp [Code.labels]))
  | write m value =>
    refine .typed fun t => (expr_labels value).bind fun _ => labels_pure ?_
    simp [Code.labels]
  | writeText m raw => exact .fresh fun _ => labels_pure ((labels_writeChars _ _))
  | ret m value =>
    cases value with
    | none => exact labels_pure rfl
    | some value =>
      refine .typed fun t => (expr_labels value).bind fun _ => ?_
      refine (coerce_labels _ _ _).bind fun _ => ?_
      exact labels_pure ((by simp [Code.labels]))

theorem locals_labels (ds : List Declaration) : Labels [] (fun _ => []) (locals Λ ds) := by
  induction ds with
  | nil => exact labels_pure rfl
  | cons d ds ih => exact .typed fun _ => ih.bind fun _ => labels_pure rfl

@[simp] theorem labels_closed (isProcedure : Bool) (code : Code) :
    (closed isProcedure code).labels = code.labels := by
  unfold closed
  split <;> simp [Code.labels]

theorem nodup_labels {t : Ty} {f : Function} {sub : Subroutine}
    (h : subroutine Λ t f = .ok sub) : sub.code.labels.Nodup := by
  have hfunction : Labels [] Subroutine.code (function Λ t f) := by
    refine (locals_labels f.declarations).bind fun vars => ?_
    refine (stmts_labels_of fun s _ => stmt_labels s).bind fun code => labels_pure ?_
    simp [Code.labels]
  obtain ⟨ls, hls, hcount⟩ := hfunction ⟨0, 0, 0⟩ sub _ (Prod.ext h rfl)
  refine List.nodup_iff_count_le_one.2 fun l => Nat.le_trans (hcount l) ?_
  exact List.nodup_iff_count_le_one.1 hls.nodup l

end

end Lower

end Asl
