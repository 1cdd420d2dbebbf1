import Asl.Proofs.Lowering.Labels
import Asl.Proofs.Token.Lines
import Asl.Proofs.Tree.Renamed

/-!
# Constants of lowered code

The code of a tree loads the literals of the tree, the glyphs of its texts, and whole numbers of its
own that are not negative. If the tokens of the tree can be written, then no constant of its code is
negative, no float among them is infinite, and no character has a line feed in its raw text.
-/
namespace Asl

theorem Expr.mem_kindsAll_of_mem {es : List Expr} {e : Expr} {k : TokenKind} (he : e ∈ es)
    (hk : k ∈ e.kinds) : k ∈ commaSeparated (Expr.kindsAll es) := by
  rw [Expr.kindsAll_eq_map]
  exact mem_commaSeparated (List.mem_map_of_mem he) hk

theorem Stmt.mem_kindsAll_of_mem {ss : List Stmt} {s : Stmt} {k : TokenKind} (hs : s ∈ ss)
    (hk : k ∈ s.kinds) : k ∈ Stmt.kindsAll ss := by
  rw [Stmt.kindsAll_eq_flatMap]
  exact List.mem_flatMap.2 ⟨s, hs, hk⟩

def Constant.Written : Constant → Prop
  | .int n => 0 ≤ n
  | .float x => ∃ rank, rank < Binary64.limit ∧ x = .finite false rank
  | .char raw => '\n' ∉ raw.toList

theorem RawChar.no_line_feed {cs : List Char} (h : RawChar cs) : '\n' ∉ cs := by
  cases h with
  | plain _ _ hc => exact fun hmem => hc (List.mem_singleton.1 hmem).symm
  | escaped hc =>
    intro hmem
    rcases List.mem_cons.1 hmem with hmem | hmem
    · cases hmem
    · exact hc (List.mem_singleton.1 hmem).symm

theorem Literal.constantOf_written {v : Literal} (h : v.token.Written) :
    (Lower.constantOf v).Written := by
  cases v with
  | int n => exact h.1
  | float x => exact h
  | bool b => cases b <;> simp [Lower.constantOf, Constant.Written]
  | char raw => exact RawChar.no_line_feed h

theorem Glyph.no_line_feed {cs : List Char} (h : '\n' ∉ cs) :
    ∀ raw, .char raw ∈ Glyph.ofText cs → '\n' ∉ raw.toList := by
  fun_induction Glyph.ofText cs with
  | case1 => simp
  | case2 cs ih => simp_all
  | case3 cs ih => simp_all
  | case4 cs ih => simp_all
  | case5 cs ih => simp_all
  | case6 c cs _ _ _ _ ih => simp_all [Ne.symm]

@[simp] def Instr.Plain : Instr → Prop
  | .constant _ value => value.Written
  | _ => True

def Code.Plain (code : Code) : Prop := ∀ i ∈ code, i.Plain

namespace Code

@[simp] theorem plain_nil : Code.Plain [] := by rintro _ ⟨⟩

@[simp] theorem plain_cons {i : Instr} {code : Code} :
    Code.Plain (i :: code) ↔ i.Plain ∧ code.Plain := List.forall_mem_cons

@[simp] theorem plain_append {a b : Code} : Code.Plain (a ++ b) ↔ a.Plain ∧ b.Plain :=
  List.forall_mem_append

theorem plain_flatMap {α : Type} {f : α → Code} {xs : List α} (h : ∀ x ∈ xs, (f x).Plain) :
    Code.Plain (xs.flatMap f) := List.forall_mem_flatMap.2 h

end Code

namespace Lower

open Attempt (fail)

/-- The constants in the code that a piece of lowering gives can be written. -/
def Writes {α : Type} (code : α → Code) (m : Lower α) : Prop :=
  ∀ c, Gives m c fun a _ => (code a).Plain

section

variable {α β : Type} {code : α → Code} {code' : β → Code} {m : Lower α} {f : α → Lower β}

theorem writes_pure {a : α} (h : (code a).Plain) : Writes code (pure a) := fun _ => gives_pure h

theorem writes_fail {e : LowerError} : Writes code (fail e) := fun _ => gives_fail

theorem Writes.bind (hm : Writes code m) (hf : ∀ a, (code a).Plain → Writes code' (f a)) :
    Writes code' (m >>= f) :=
  fun c => (hm c).bind fun a c' ha => hf a ha c'

theorem Writes.behind (hf : ∀ a, Writes code' (f a)) : Writes code' (m >>= f) := by
  have hm : Writes (fun _ => []) m := fun _ _ _ _ => Code.plain_nil
  exact hm.bind fun a _ => hf a

end

section

variable {Λ : Lowering}

theorem toFloat_writes (v : Operand) (t : Ty) : Writes Prod.fst (toFloat v t) := by
  unfold toFloat
  split
  · exact .behind fun _ => writes_pure (by simp)
  · exact writes_pure (by simp)

theorem coerce_writes (v : Operand) (t expected : Ty) : Writes Prod.fst (coerce v t expected) := by
  unfold coerce
  split
  · exact toFloat_writes v t
  · exact writes_pure (by simp)

theorem arrayBase_writes (array : Operand) : Writes Prod.fst (arrayBase Λ array) := by
  unfold arrayBase
  split
  · exact .behind fun _ => writes_pure (by simp)
  · exact writes_pure (by simp)

theorem reference_writes (array : Operand) : Writes Prod.fst (reference Λ array) := by
  unfold reference
  split
  · exact writes_pure (by simp)
  · exact .behind fun _ => writes_pure (by simp)

theorem operation_writes (op : BinaryOp) (ns : Numbers) (dst a b : Operand) :
    Writes id (operation op ns dst a b) := by
  cases op with
  | mod => exact .behind fun _ => .behind fun _ => writes_pure (by simp)
  | _ => exact writes_pure (by simp)

theorem plain_callCode (returnsValue : Bool) {pushes : Code} (h : pushes.Plain) (x : String)
    (n : Nat) : (callCode returnsValue pushes x n).Plain := by
  have hdrops : Code.Plain (List.replicate n (.pop none)) := fun i hi => by
    rw [List.eq_of_mem_replicate hi]
    trivial
  cases returnsValue <;> simp [callCode, h, hdrops]

theorem arguments_writes (callee : String) (params : List Ty) {args : List Expr}
    (h : ∀ a ∈ args, Writes Prod.fst (expr Λ a)) : Writes id (arguments Λ callee params args) := by
  induction args generalizing params with
  | nil => cases params <;> exact writes_pure (by simp)
  | cons a args ih =>
    obtain ⟨ha, hargs⟩ := List.forall_mem_cons.1 h
    cases params with
    | nil => exact writes_fail
    | cons p ps =>
      refine .behind fun t => ha.bind fun r hr => ?_
      have hrest : ∀ q : Code × Operand, q.1.Plain → Writes id (do
          let more ← arguments Λ callee ps args
          return r.1 ++ q.1 ++ .push (some q.2) :: more) :=
        fun q hq => (ih ps hargs).bind fun more hmore => writes_pure (by simpa [hr, hq] using hmore)
      simp only
      split
      · exact (reference_writes r.2).bind hrest
      · exact (coerce_writes r.2 t p).bind hrest

theorem maxRest_writes (t : Ty) (best : Operand) {args : List Expr}
    (h : ∀ a ∈ args, Writes Prod.fst (expr Λ a)) : Writes id (maxRest Λ t best args) := by
  induction args with
  | nil => exact writes_pure (by simp)
  | cons a args ih =>
    obtain ⟨ha, hargs⟩ := List.forall_mem_cons.1 h
    refine .behind fun u => ha.bind fun r hr => (coerce_writes _ u t).bind fun q hq => ?_
    refine .behind fun _ => .behind fun n => (ih hargs).bind fun more hmore => writes_pure ?_
    simpa [hr, hq] using hmore

theorem expr_writes {e : Expr} (h : ∀ k ∈ e.kinds, k.Written) : Writes Prod.fst (expr Λ e) := by
  induction e using Expr.ind with
  | literal m v =>
    have hv := Literal.constantOf_written (List.forall_mem_singleton.1 h)
    exact .behind fun _ => writes_pure (by simpa using hv)
  | name m x => exact writes_pure (by simp)
  | element m base index ih =>
    have hindex := ih fun k hk => h k (by simp [Expr.kinds, inBrackets, hk])
    refine hindex.bind fun r hr => (arrayBase_writes _).bind fun q hq => .behind fun _ => ?_
    exact writes_pure (by simp [hr, hq])
  | call m callee args ih =>
    have hargs : ∀ a ∈ args, Writes Prod.fst (expr Λ a) := fun a ha =>
      ih a ha fun k hk => h k (by simp [Expr.kinds, inParens, Expr.mem_kindsAll_of_mem ha hk])
    refine .behind fun f => ?_
    split
    · exact writes_fail
    · refine (arguments_writes _ _ hargs).bind fun pushes hpushes => .behind fun _ => ?_
      exact writes_pure (by simpa using plain_callCode true hpushes _ _)
  | paren m inner ih => exact ih fun k hk => h k (by simp [Expr.kinds, inParens, hk])
  | unary m op operand ih =>
    refine (ih fun k hk => h k (List.mem_cons_of_mem _ hk)).bind fun r hr => ?_
    cases op with
    | plus => exact writes_pure hr
    | not => exact .behind fun _ => writes_pure (by simp [hr])
    | minus => exact .behind fun _ => .behind fun _ => writes_pure (by simp [hr])
  | binary m op lhs rhs ihl ihr =>
    refine (ihl fun k hk => h k (by simp [Expr.kinds, hk])).bind fun r hr => ?_
    refine (ihr fun k hk => h k (by simp [Expr.kinds, hk])).bind fun q hq => ?_
    refine .behind fun t => .behind fun u => (coerce_writes _ t _).bind fun _ ha => ?_
    refine (coerce_writes _ u _).bind fun _ hb => .behind fun _ => ?_
    refine (operation_writes op _ _ _ _).bind fun code hcode => writes_pure ?_
    simpa [hr, hq, ha, hb] using hcode
  | max m args ih =>
    have hargs : ∀ a ∈ args, Writes Prod.fst (expr Λ a) := fun a ha =>
      ih a ha fun k hk => h k (by simp [Expr.kinds, inParens, Expr.mem_kindsAll_of_mem ha hk])
    cases args with
    | nil => exact .behind fun _ => writes_fail
    | cons first rest =>
      obtain ⟨hfirst, hrest⟩ := List.forall_mem_cons.1 hargs
      refine .behind fun t => .behind fun best => .behind fun u => hfirst.bind fun r hr => ?_
      refine (coerce_writes _ u t).bind fun q hq => (maxRest_writes t best hrest).bind ?_
      exact fun more hmore => writes_pure (by simpa [hr, hq] using hmore)

theorem exprs_writes {es : List Expr} (h : ∀ k ∈ commaSeparated (es.map Expr.kinds), k.Written) :
    ∀ e ∈ es, Writes Prod.fst (expr Λ e) := fun _ he =>
  expr_writes fun k hk => h k (mem_commaSeparated (List.mem_map_of_mem he) hk)

theorem place_writes {x : Target} (h : ∀ k ∈ x.kinds, k.Written) : Writes Prod.fst (place Λ x) := by
  cases x with
  | name m x => exact writes_pure (by simp)
  | element m base index =>
    have hindex : ∀ k ∈ index.kinds, k.Written := fun k hk =>
      h k (by simp [Target.kinds, inBrackets, hk])
    refine (expr_writes hindex).bind fun r hr => (arrayBase_writes _).bind fun q hq => ?_
    exact writes_pure (by simp [hr, hq])

theorem plain_store (p : Place) (v : Operand) : (p.store v).Plain := by
  cases p <;> trivial

theorem plain_copyElements (dst src index elem : Operand) (size : Nat) :
    (copyElements dst src index elem size).Plain :=
  Code.plain_flatMap fun k _ => by simp [Constant.Written]

theorem copyArray_writes (dst : String) (size : Nat) {value : Expr}
    (h : ∀ k ∈ value.kinds, k.Written) : Writes id (copyArray Λ dst size value) := by
  have hrest : ∀ r : Code × Operand, r.1.Plain → Writes id (do
      let a ← arrayBase Λ r.2
      let b ← arrayBase Λ (.name dst)
      let index ← freshTemp
      let elem ← freshTemp
      return r.1 ++ a.1 ++ b.1 ++ copyElements b.2 a.2 index elem size) := by
    intro r hr
    refine (arrayBase_writes _).bind fun a ha => (arrayBase_writes _).bind fun b hb => ?_
    refine .behind fun _ => .behind fun _ => writes_pure ?_
    simp [hr, ha, hb, plain_copyElements]
  unfold copyArray
  split
  · exact (expr_writes h).bind hrest
  · exact (expr_writes h).bind hrest
  · exact writes_fail.bind hrest

theorem assign_writes {target : Target} {value : Expr} (ht : ∀ k ∈ target.kinds, k.Written)
    (hv : ∀ k ∈ value.kinds, k.Written) : Writes id (assign Λ target value) := by
  refine .behind fun t => ?_
  split
  · cases target with
    | name m x => exact copyArray_writes x.name _ hv
    | element m base index => exact writes_fail
  · refine .behind fun u => (place_writes ht).bind fun p hp => (expr_writes hv).bind fun r hr => ?_
    refine (coerce_writes _ u t).bind fun q hq => writes_pure ?_
    have hcode : (p.1 ++ r.1 ++ q.1).Plain := by simp [hp, hr, hq]
    exact Code.plain_append.2 ⟨hcode, List.forall_mem_singleton.2 (plain_store _ _)⟩

theorem materialize_writes (v : Operand) : Writes Prod.fst (materialize v) := by
  unfold materialize
  split
  · exact writes_pure (by simp)
  · exact .behind fun _ => writes_pure (by simp)

theorem immediate_writes {n : Int} (h : 0 ≤ n) : Writes Prod.fst (immediate n) :=
  .behind fun _ => writes_pure (by simp [Constant.Written, h])

theorem bounds_writes {es : List Expr} (h : ∀ e ∈ es, Writes Prod.fst (expr Λ e)) :
    Writes Prod.fst (bounds Λ es) := by
  induction es with
  | nil => exact writes_pure (by simp)
  | cons e es ih =>
    obtain ⟨he, hes⟩ := List.forall_mem_cons.1 h
    refine he.bind fun r hr => (materialize_writes _).bind fun q hq => ?_
    refine (ih hes).bind fun _ hmore => ?_
    exact writes_pure (by simp [hr, hq, hmore])

theorem loopBounds_writes (vs : List Operand) :
    Writes (fun q => q.elim [] Prod.fst) (loopBounds vs) := by
  have hone := immediate_writes Int.one_nonneg
  rcases vs with _ | ⟨a, _ | ⟨b, _ | ⟨c, rest⟩⟩⟩
  · exact writes_pure (by simp)
  · refine (immediate_writes (Int.le_refl 0)).bind fun _ hzero => hone.bind fun _ h => ?_
    exact writes_pure (by simp [hzero, h])
  · exact hone.bind fun _ h => writes_pure (by simp [h])
  · exact writes_pure (by simp)

theorem direction_writes (step : Operand) (written : Option Expr) :
    Writes Prod.fst (direction step written) := by
  have htest : Writes Prod.fst (direction.test step) :=
    (immediate_writes (Int.le_refl 0)).bind fun _ hzero => .behind fun _ =>
      writes_pure (by simp [hzero])
  unfold direction
  split
  · split
    · exact writes_pure (by simp)
    · split
      · exact writes_pure (by simp)
      · exact htest
  · exact htest

theorem plain_loopTest (n : Nat) (condition control stop : Operand) (d : Direction) :
    (loopTest n condition control stop d).Plain := by
  cases d <;> simp [loopTest]

theorem plain_writeChars (t : Operand) {cs : List Char} (h : '\n' ∉ cs) :
    (writeChars t cs).Plain := by
  rw [writeChars_eq]
  refine Code.plain_flatMap fun glyph hglyph => ?_
  cases glyph with
  | char raw => simpa [Glyph.code, Constant.Written] using Glyph.no_line_feed h raw hglyph
  | line => simp [Glyph.code]

theorem stmts_writes_of {ss : List Stmt} (h : ∀ s ∈ ss, Writes id (stmt Λ s)) :
    Writes id (stmts Λ ss) := by
  induction ss with
  | nil => exact writes_pure (by simp)
  | cons s ss ih =>
    obtain ⟨hs, hss⟩ := List.forall_mem_cons.1 h
    exact hs.bind fun _ ha => (ih hss).bind fun _ hb => writes_pure (Code.plain_append.2 ⟨ha, hb⟩)

theorem for_writes (m : Mark) (control : Ident) {range : List Expr} {body : List Stmt}
    (hrange : ∀ e ∈ range, Writes Prod.fst (expr Λ e))
    (hbody : ∀ s ∈ body, Writes id (stmt Λ s)) :
    Writes id (stmt Λ (.for m control range body)) := by
  refine (bounds_writes hrange).bind fun r hr => (loopBounds_writes r.2).bind fun q hq => ?_
  cases q with
  | none => exact writes_pure (by simp)
  | some q =>
    have hdefaults : q.1.Plain := hq
    refine (direction_writes _ _).bind fun d hd => .behind fun n => .behind fun _ => ?_
    refine (stmts_writes_of hbody).bind fun inner hinner => writes_pure ?_
    simpa [hr, hdefaults, hd, plain_loopTest] using hinner

theorem stmt_writes {s : Stmt} (h : ∀ k ∈ s.kinds, k.Written) : Writes id (stmt Λ s) := by
  induction s using Stmt.ind with
  | assign m target value =>
    exact assign_writes (fun k hk => h k (by simp [Stmt.kinds, hk]))
      fun k hk => h k (by simp [Stmt.kinds, hk])
  | ifThen m condition body ih =>
    have hbody : ∀ s ∈ body, Writes id (stmt Λ s) := fun s hs => ih s hs fun k hk => h k <| by
      simp [Stmt.kinds, Stmt.mem_kindsAll_of_mem hs hk]
    refine (expr_writes fun k hk => h k (by simp [Stmt.kinds, hk])).bind fun r hr => ?_
    refine .behind fun n => (stmts_writes_of hbody).bind fun yes hyes => writes_pure ?_
    simpa [hr] using hyes
  | ifElse m condition body otherwise ihb iho =>
    have hbody : ∀ s ∈ body, Writes id (stmt Λ s) := fun s hs => ihb s hs fun k hk => h k <| by
      simp [Stmt.kinds, Stmt.mem_kindsAll_of_mem hs hk]
    have hother : ∀ s ∈ otherwise, Writes id (stmt Λ s) :=
      fun s hs => iho s hs fun k hk => h k <| by
      simp [Stmt.kinds, Stmt.mem_kindsAll_of_mem hs hk]
    refine (expr_writes fun k hk => h k (by simp [Stmt.kinds, hk])).bind fun r hr => ?_
    refine .behind fun n => (stmts_writes_of hbody).bind fun yes hyes => ?_
    refine (stmts_writes_of hother).bind fun no hno => writes_pure ?_
    simp only [id_eq] at hyes hno
    simp [hr, hyes, hno]
  | while_ m condition body ih =>
    have hbody : ∀ s ∈ body, Writes id (stmt Λ s) := fun s hs => ih s hs fun k hk => h k <| by
      simp [Stmt.kinds, Stmt.mem_kindsAll_of_mem hs hk]
    refine .behind fun n => (expr_writes fun k hk => h k (by simp [Stmt.kinds, hk])).bind ?_
    refine fun r hr => (stmts_writes_of hbody).bind fun inner hinner => writes_pure ?_
    simpa [hr] using hinner
  | for_ m control range body ih =>
    refine for_writes m control (exprs_writes fun k hk => h k ?_) fun s hs =>
      ih s hs fun k hk => h k ?_
    · simp [Stmt.kinds, inParens, hk]
    · simp [Stmt.kinds, Stmt.mem_kindsAll_of_mem hs hk]
  | call m callee args =>
    have hargs : ∀ a ∈ args, Writes Prod.fst (expr Λ a) := exprs_writes fun k hk => h k <| by
      simp [Stmt.kinds, inParens, hk]
    refine .behind fun f => (arguments_writes _ _ hargs).bind fun pushes hpushes => writes_pure ?_
    have hcall := plain_callCode (!f.isProcedure) hpushes callee.name args.length
    split <;> simpa using hcall
  | read m target =>
    refine .behind fun t => (place_writes fun k hk => h k (by simp [Stmt.kinds, hk])).bind ?_
    rintro ⟨before, p⟩ hbefore
    replace hbefore : before.Plain := hbefore
    cases p with
    | scalar x => exact writes_pure (by simp [hbefore])
    | element base index => exact .behind fun _ => writes_pure (by simp [hbefore])
  | write m value =>
    refine .behind fun t => (expr_writes fun k hk => h k (by simp [Stmt.kinds, hk])).bind ?_
    exact fun r hr => writes_pure (by simp [hr])
  | writeText m raw =>
    have hraw : (TokenKind.text raw).Written := h _ (by simp [Stmt.kinds])
    exact .behind fun _ => writes_pure (plain_writeChars _ (RawText.no_line_feed hraw))
  | ret m value =>
    cases value with
    | none => exact writes_pure (by simp)
    | some value =>
      refine .behind fun t => (expr_writes fun k hk => h k (by simp [Stmt.kinds, hk])).bind ?_
      exact fun r hr => (coerce_writes _ _ _).bind fun q hq => writes_pure (by simp [hr, hq])

theorem subroutine_plain {t : Ty} {f : Function} {sub : Subroutine}
    (hf : ∀ k ∈ f.kinds, k.Written) (h : subroutine Λ t f = .ok sub) : sub.code.Plain := by
  have hbody : ∀ s ∈ f.body, Writes id (stmt Λ s) := fun s hs => stmt_writes fun k hk => hf k <| by
    simp [Function.kinds, Stmt.mem_kindsAll_of_mem hs hk]
  have hfunction : Writes Subroutine.code (function Λ t f) := by
    refine .behind fun vars => (stmts_writes_of hbody).bind fun code hcode => writes_pure ?_
    simp only [closed]
    split
    · simpa using hcode
    · exact hcode
  exact hfunction ⟨0, 0, 0⟩ sub _ (Prod.ext h rfl)

end

end Lower

end Asl
