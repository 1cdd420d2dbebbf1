import Asl.Proofs.Sample.Expressions

/-!
# Drawn statements

Where a vocabulary describes a context, every statement that is drawn is in order, can be written
down, and nests within the depth that it is drawn with. The names of a vocabulary are variables, so
they can be stored into, and one of them is an integer, so a counted loop always has a variable to
count with.
-/
namespace Asl

inductive Target.Within (n : Nat) : Target → Prop
  | name {m : Mark} {x : Ident} : Within n (.name m x)
  | element {m : Mark} {base : Ident} {index : Expr} :
      index.Within n → Within n (.element m base index)

/-- At most `n` conditions and loops stand around each other, and the expressions of a statement
nest within `d`. -/
inductive Stmt.Within (d : Nat) : Nat → Stmt → Prop
  | assign {n : Nat} {m : Mark} {target : Target} {value : Expr} :
      target.Within d → value.Within d → Within d n (.assign m target value)
  | ifThen {n : Nat} {m : Mark} {condition : Expr} {body : List Stmt} :
      condition.Within d → (∀ s ∈ body, Within d n s) → Within d (n + 1) (.ifThen m condition body)
  | ifElse {n : Nat} {m : Mark} {condition : Expr} {body otherwise : List Stmt} :
      condition.Within d → (∀ s ∈ body, Within d n s) → (∀ s ∈ otherwise, Within d n s) →
        Within d (n + 1) (.ifElse m condition body otherwise)
  | while_ {n : Nat} {m : Mark} {condition : Expr} {body : List Stmt} :
      condition.Within d → (∀ s ∈ body, Within d n s) → Within d (n + 1) (.while m condition body)
  | for_ {n : Nat} {m : Mark} {control : Ident} {range : List Expr} {body : List Stmt} :
      (∀ e ∈ range, e.Within d) → (∀ s ∈ body, Within d n s) →
        Within d (n + 1) (.for m control range body)
  | call {n : Nat} {m : Mark} {callee : Ident} {args : List Expr} :
      (∀ e ∈ args, e.Within d) → Within d n (.call m callee args)
  | read {n : Nat} {m : Mark} {target : Target} : target.Within d → Within d n (.read m target)
  | write {n : Nat} {m : Mark} {value : Expr} : value.Within d → Within d n (.write m value)
  | writeText {n : Nat} {m : Mark} {raw : String} : Within d n (.writeText m raw)
  | leave {n : Nat} {m : Mark} : Within d n (.ret m none)
  | ret {n : Nat} {m : Mark} {value : Expr} : value.Within d → Within d n (.ret m (some value))

namespace Sample

open Draw

structure DrawnStmt (Γ : Context) (n : Nat) (s : Stmt) : Prop where
  ok : s.Ok Γ
  written : ∀ k ∈ s.kinds, k.Written
  within : s.Within maxDepth n

variable {Γ : Context} {n : Nat} {role : Role} {V : Vocabulary}

theorem written_body {ss : List Stmt} (h : ∀ s ∈ ss, DrawnStmt Γ n s) :
    ∀ k ∈ Stmt.kindsAll ss, k.Written := by
  rw [Stmt.kindsAll_eq_flatMap, List.forall_mem_flatMap]
  exact fun s hs => (h s hs).written

theorem drawn_assign {x : String} {value : Expr} {t : Ty} (hrole : role ≠ .function)
    (hx : Named Γ x role t) (h : Drawn Γ maxDepth value t) : DrawnStmt Γ n (assign x value) where
  ok := .assign (.name hx.meaning hrole) h.typed (.same t)
  written := List.forall_mem_cons.2
    ⟨hx.free, List.forall_mem_cons.2 ⟨trivial, written_concat h.written trivial⟩⟩
  within := .assign .name h.within

theorem drawn_assignElement {a : String} {size : Nat} {index value : Expr} {t : Ty}
    (ha : Named Γ a role (.array size t)) (hindex : Drawn Γ maxDepth index .int)
    (h : Drawn Γ maxDepth value t) : DrawnStmt Γ n (assignElement a index value) where
  ok := .assign (.element ha.meaning hindex.typed) h.typed (.same t)
  written := by
    have htarget : ∀ k ∈ .ident a :: inBrackets index.kinds, k.Written :=
      List.forall_mem_cons.2 ⟨ha.free, written_inBrackets hindex.written⟩
    refine List.forall_mem_append.2 ⟨htarget, List.forall_mem_cons.2 ⟨trivial, ?_⟩⟩
    exact written_concat h.written trivial
  within := .assign (.element hindex.within) h.within

theorem drawn_read {x : String} {t : BaseType} (hrole : role ≠ .function)
    (hx : Named Γ x role (.ofBase t)) : DrawnStmt Γ n (.read .blank (.name .blank (ident x))) where
  ok := .read (.name hx.meaning hrole) (Primitive.ofBase t)
  written := List.forall_mem_cons.2 ⟨trivial, List.forall_mem_cons.2
    ⟨hx.free, List.forall_mem_singleton.2 trivial⟩⟩
  within := .read .name

theorem drawn_write {value : Expr} {t : BaseType} (h : Drawn Γ maxDepth value (.ofBase t)) :
    DrawnStmt Γ n (.write .blank value) where
  ok := .write h.typed (Primitive.ofBase t)
  written := List.forall_mem_cons.2 ⟨trivial, written_concat h.written trivial⟩
  within := .write h.within

theorem drawn_writeText {raw : String} (h : RawText raw.toList) :
    DrawnStmt Γ n (.writeText .blank raw) where
  ok := .writeText .blank raw
  written := List.forall_mem_cons.2 ⟨trivial, List.forall_mem_cons.2
    ⟨h, List.forall_mem_singleton.2 trivial⟩⟩
  within := .writeText

theorem drawn_callFill (hV : V.Describes Γ) (hcalls : V.calls = true) {value : Expr}
    (h : Drawn Γ maxDepth value .int) : DrawnStmt Γ n (callFill value) := by
  obtain ⟨role, harray⟩ := hV.filled hcalls
  have hargs : List.Forall₂ (Drawn Γ maxDepth) [nameExpr "a0", value]
      [.array arraySize .int, .int] := .cons (drawn_name harray) (.cons h .nil)
  constructor
  · exact .call (hV.fill hcalls).meaning (hargs.imp fun _ _ h => h.typed)
      (.cons (.same _) (.cons (.same _) .nil))
  · exact List.forall_mem_cons.2
      ⟨(hV.fill hcalls).free, written_concat (written_arguments hargs) trivial⟩
  · exact .call (within_of_drawn hargs)

theorem drawn_ret {value : Expr} {t : Ty} (h : Drawn Γ maxDepth value t) (hfits : Fits t Γ.result) :
    DrawnStmt Γ n (.ret .blank (some value)) where
  ok := .ret h.typed hfits
  written := List.forall_mem_cons.2 ⟨trivial, written_concat h.written trivial⟩
  within := .ret h.within

section

variable {condition : Expr} {body otherwise : List Stmt}

theorem drawn_ifThen (hc : Drawn Γ maxDepth condition .bool)
    (hb : ∀ s ∈ body, DrawnStmt Γ n s) : DrawnStmt Γ (n + 1) (.ifThen .blank condition body) where
  ok := .ifThen hc.typed fun s hs => (hb s hs).ok
  written := by
    refine List.forall_mem_cons.2 ⟨trivial, List.forall_mem_append.2 ⟨hc.written, ?_⟩⟩
    exact List.forall_mem_cons.2 ⟨trivial, written_concat (written_body hb) trivial⟩
  within := .ifThen hc.within fun s hs => (hb s hs).within

theorem drawn_ifElse (hc : Drawn Γ maxDepth condition .bool)
    (hb : ∀ s ∈ body, DrawnStmt Γ n s) (ho : ∀ s ∈ otherwise, DrawnStmt Γ n s) :
    DrawnStmt Γ (n + 1) (.ifElse .blank condition body otherwise) where
  ok := .ifElse hc.typed (fun s hs => (hb s hs).ok) fun s hs => (ho s hs).ok
  written := by
    refine List.forall_mem_cons.2 ⟨trivial, List.forall_mem_append.2 ⟨hc.written, ?_⟩⟩
    refine List.forall_mem_cons.2 ⟨trivial, List.forall_mem_append.2 ⟨written_body hb, ?_⟩⟩
    exact List.forall_mem_cons.2 ⟨trivial, written_concat (written_body ho) trivial⟩
  within := .ifElse hc.within (fun s hs => (hb s hs).within) fun s hs => (ho s hs).within

theorem drawn_while (hc : Drawn Γ maxDepth condition .bool)
    (hb : ∀ s ∈ body, DrawnStmt Γ n s) : DrawnStmt Γ (n + 1) (.while .blank condition body) where
  ok := .while_ hc.typed fun s hs => (hb s hs).ok
  written := by
    refine List.forall_mem_cons.2 ⟨trivial, List.forall_mem_append.2 ⟨hc.written, ?_⟩⟩
    exact List.forall_mem_cons.2 ⟨trivial, written_concat (written_body hb) trivial⟩
  within := .while_ hc.within fun s hs => (hb s hs).within

theorem drawn_for {x : String} {range : List Expr} (hx : Named Γ x role .int)
    (hcount : 1 ≤ range.length ∧ range.length ≤ 3)
    (hrange : ∀ e ∈ range, Drawn Γ maxDepth e .int) (hb : ∀ s ∈ body, DrawnStmt Γ n s) :
    DrawnStmt Γ (n + 1) (.for .blank (ident x) range body) where
  ok := .for_ hx.meaning hcount.1 hcount.2 (fun e he => (hrange e he).typed)
    fun s hs => (hb s hs).ok
  written := by
    have hparens := written_inParens (written_commaSeparated fun e he => (hrange e he).written)
    refine List.forall_mem_cons.2 ⟨trivial, List.forall_mem_cons.2 ⟨hx.free, ?_⟩⟩
    refine List.forall_mem_cons.2 ⟨trivial, List.forall_mem_cons.2 ⟨trivial, ?_⟩⟩
    refine List.forall_mem_append.2 ⟨hparens, List.forall_mem_cons.2 ⟨trivial, ?_⟩⟩
    exact written_concat (written_body hb) trivial
  within := .for_ (fun e he => (hrange e he).within) fun s hs => (hb s hs).within

end

theorem always_writeOf (hV : V.Describes Γ) (t : BaseType) :
    Always (writeOf V t) (DrawnStmt Γ n) :=
  always_bind (always_expr hV 2 t) fun e he => always_pure (drawn_write (he.mono (by decide)))

theorem always_simple (hV : V.Describes Γ) (k : Nat) : Always (simple V k) (DrawnStmt Γ n) := by
  unfold simple
  split
  · refine always_then fun t => always_bind (always_name hV t) fun x hx => ?_
    cases x with
    | none => exact always_writeOf hV t
    | some x =>
      obtain ⟨role, hrole, hnamed⟩ := hx x rfl
      exact always_bind (always_expr hV maxDepth t) fun e he =>
        always_pure (drawn_assign hrole hnamed he)
  · exact always_then fun t => always_writeOf hV t
  · exact always_bind always_rawText fun raw hraw => always_pure (drawn_writeText hraw)
  · refine always_bind (always_name hV .int) fun x hx => ?_
    cases x with
    | none => exact always_writeOf hV .int
    | some x =>
      obtain ⟨role, hrole, hnamed⟩ := hx x rfl
      exact always_pure (drawn_read hrole hnamed)
  · split
    · rename_i a ha
      obtain ⟨role, hnamed⟩ := hV.array a ha
      refine always_bind (always_expr hV 1 .int) fun index hindex => ?_
      refine always_bind (always_expr hV maxDepth .int) fun value hvalue => always_pure ?_
      exact drawn_assignElement hnamed (hindex.mono (by decide)) hvalue
    · exact always_writeOf hV .float
  · split
    · rename_i hcalls
      refine always_bind (always_expr hV 2 .int) fun e he => always_pure ?_
      exact drawn_callFill hV hcalls (he.mono (by decide))
    · exact always_writeOf hV .int

theorem always_block {p : Stmt → Prop} {one : Draw Stmt} (hone : Always one p) (most : Nat) :
    Always (block most one) fun ss => ∀ s ∈ ss, p s :=
  always_then fun more => (always_replicate hone (more + 1)).mono fun _ h => h.2

theorem always_control (hV : V.Describes Γ) : Always (oneOf? (V.names .int)) fun x =>
    ∃ role, Named Γ (x.getD "n") role .int := by
  refine (always_oneOf? _).mono fun x hx => ?_
  rcases hx with ⟨-, hnone⟩ | ⟨y, hy, rfl⟩
  · exact absurd hnone hV.control
  · obtain ⟨role, -, hnamed⟩ := hV.names .int y hy
    exact ⟨role, hnamed⟩

theorem always_stmt (hV : V.Describes Γ) (most depth : Nat) :
    Always (stmt V most depth) (DrawnStmt Γ depth) := by
  induction depth with
  | zero => exact always_then fun k => always_simple hV k
  | succ depth ih =>
    have hbody := always_block ih most
    have hcondition : Always (expr V 2 .bool) fun e => Drawn Γ maxDepth e .bool :=
      (always_expr hV 2 .bool).mono fun e he => he.mono (by decide)
    refine always_then fun k => ?_
    -- Only here are bodies drawn, and with one depth less.
    split
    · refine always_bind hcondition fun e he => always_bind hbody fun yes hyes => ?_
      refine always_then fun b => ?_
      split
      · exact always_bind hbody fun no hno => always_pure (drawn_ifElse he hyes hno)
      · exact always_pure (drawn_ifThen he hyes)
    · refine always_bind hcondition fun e he => always_bind hbody fun ss hss => ?_
      exact always_pure (drawn_while he hss)
    · refine always_bind (always_control hV) fun x hx => ?_
      obtain ⟨role, hnamed⟩ := hx
      refine always_bind (always_below (by decide)) fun more hmore => ?_
      refine always_bind (always_replicate (always_expr hV 1 .int) (more + 1)) fun range hr => ?_
      refine always_bind hbody fun ss hss => always_pure ?_
      refine drawn_for hnamed (by omega) (fun e he => ?_) hss
      exact (hr.2 e he).mono (by decide)
    · exact always_simple hV _

end Sample

end Asl
