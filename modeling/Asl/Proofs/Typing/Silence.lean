import Asl.Proofs.Tree.Holes
import Asl.Proofs.Typing.Located
import Mathlib.Data.List.Forall2

/-!
# Errors do not cascade

An expression is swapped for another one, of which nothing is known but that its type is the error
type. Every part of the tree around it then keeps its type, or has the error type too, about which
the rules are silent. So the swap brings no diagnostics outside of the new expression, though it may
silence some that were there. The nodes that do not enclose it keep the diagnostics that they had.

There is one exception. An element of an array that is named by an index of a wrong type has the
error type, and one whose index has the error type has the type of the array's elements. So a swap
may give an element a type that it did not have before, if it takes away a wrong type from its
index.
-/
open scoped List

namespace Asl

open Report

/-- A swap of an expression for another: their nodes, the nodes that enclose them, and whether no
index of an array loses a wrong type. -/
structure Swap where
  old : List NodeId
  new : List NodeId
  path : List NodeId
  keepsIndices : Prop

namespace Swap

variable {σ : Swap} {Γ : Context}

/-- A node around the expressions that are swapped. -/
def Apart (σ : Swap) (n : NodeId) : Prop := n ∉ σ.old ∧ n ∉ σ.new

/-- A node that encloses the expressions that are swapped. -/
def Around (σ : Swap) (n : NodeId) : Prop := n ∈ σ.path ∧ σ.Apart n

/-- What two reports, before and after a swap, have to do with each other: the diagnostics inside of
the new expression are `ds`, there are no new ones outside of it, and those beside it and beside the
nodes that enclose it stay what they were. -/
structure Reports (σ : Swap) (ds : List Diagnostic) (r r' : Report) : Prop where
  inside : r'.diagnostics.filter (·.mark.id ∈ σ.new) = ds
  outside : σ.keepsIndices →
    r'.diagnostics.filter (·.mark.id ∉ σ.new) <+ r.diagnostics.filter (·.mark.id ∉ σ.old)
  beside : r'.diagnostics.filter (fun d => d.mark.id ∉ σ.new ∧ d.mark.id ∉ σ.path) =
    r.diagnostics.filter (fun d => d.mark.id ∉ σ.old ∧ d.mark.id ∉ σ.path)

theorem Reports.append {ds ds' : List Diagnostic} {r r' u u' : Report} (h : σ.Reports ds r r')
    (h' : σ.Reports ds' u u') : σ.Reports (ds ++ ds') (r ++ u) (r' ++ u') where
  inside := by rw [diagnostics_append, List.filter_append, h.inside, h'.inside]
  outside hσ := by
    rw [diagnostics_append, diagnostics_append, List.filter_append, List.filter_append]
    exact (h.outside hσ).append (h'.outside hσ)
  beside := by
    rw [diagnostics_append, diagnostics_append, List.filter_append, List.filter_append, h.beside,
      h'.beside]

theorem Reports.before {ds : List Diagnostic} {r r' u u' : Report} (h : σ.Reports [] r r')
    (h' : σ.Reports ds u u') : σ.Reports ds (r ++ u) (r' ++ u') := h.append h'

theorem Reports.behind {ds : List Diagnostic} {r r' u u' : Report} (h : σ.Reports ds r r')
    (h' : σ.Reports [] u u') : σ.Reports ds (r ++ u) (r' ++ u') := by
  have happend := h.append h'
  rwa [List.append_nil] at happend

/-- What is silent after the swap may have said anything before, at the nodes of the old expression
and at those that enclose it. -/
theorem reports_silent {r r' : Report}
    (hr : ∀ d ∈ r.diagnostics, d.mark.id ∈ σ.old ∨ d.mark.id ∈ σ.path) (h : r'.diagnostics = []) :
    σ.Reports [] r r' where
  inside := by rw [h, List.filter_nil]
  outside _ := by
    rw [h, List.filter_nil]
    exact List.nil_sublist _
  beside := by
    rw [h, List.filter_nil, eq_comm, List.filter_eq_nil_iff]
    intro d hd
    simpa [or_iff_not_imp_left] using hr d hd

theorem reports_empty : σ.Reports [] empty empty := reports_silent (fun _ hd => by cases hd) rfl

theorem reports_of_apart {r : Report} (hr : ∀ d ∈ r.diagnostics, σ.Apart d.mark.id) :
    σ.Reports [] r r where
  inside := List.filter_eq_nil_iff.2 fun d hd => by simpa using (hr d hd).2
  outside _ := by
    have hold : r.diagnostics.filter (·.mark.id ∉ σ.old) = r.diagnostics :=
      List.filter_eq_self.2 fun d hd => by simpa using (hr d hd).1
    rw [hold]
    exact List.filter_sublist
  beside := List.filter_congr fun d hd => by simp [(hr d hd).1, (hr d hd).2]

theorem reports_of_inside {l : List NodeId} {r : Report} (hr : r.Inside l)
    (hl : ∀ n ∈ l, σ.Apart n) : σ.Reports [] r r :=
  reports_of_apart fun d hd => hl _ (hr d hd).1

theorem reports_rule {m : Mark} (hm : σ.Apart m.id) (b : Bool) (f : Fault) :
    σ.Reports [] (faultIf b m f) (faultIf b m f) := by
  cases b with
  | false => exact reports_empty
  | true => exact reports_of_apart (List.forall_mem_singleton.2 hm)

theorem reports_faultIf {m : Mark} (hm : σ.Around m.id) {b b' : Bool} {f f' : Fault}
    (h : σ.keepsIndices → b' = true → b = true ∧ f' = f) :
    σ.Reports [] (faultIf b m f) (faultIf b' m f') := by
  obtain ⟨hpath, hold, hnew⟩ := hm
  have hquiet : ∀ (b : Bool) (f : Fault), ∀ d ∈ (faultIf b m f).diagnostics, d.mark = m := by
    intro b f d hd
    cases b with
    | false => cases hd
    | true => rw [List.mem_singleton.1 hd]
  cases b' with
  | false => exact reports_silent (fun d hd => Or.inr (hquiet b f d hd ▸ hpath)) rfl
  | true =>
    refine ⟨?_, fun hσ => ?_, ?_⟩
    · exact List.filter_eq_nil_iff.2 (List.forall_mem_singleton.2 (by simpa using hnew))
    · obtain ⟨rfl, rfl⟩ := h hσ rfl
      exact (reports_rule ⟨hold, hnew⟩ true f').outside hσ
    · rw [List.filter_eq_nil_iff.2 fun d hd => ?_, List.filter_eq_nil_iff.2 fun d hd => ?_]
      · simp [hquiet b f d hd, hpath]
      · simp [hquiet true f' d hd, hpath]

theorem reports_name {x : Ident} (hx : σ.Apart x.mark.id) :
    σ.Reports [] (Γ.judgeName x).report (Γ.judgeName x).report :=
  reports_of_inside (Context.inside_judgeName List.mem_cons_self) (List.forall_mem_singleton.2 hx)

/-- The marks and types of two expressions, before and after a swap. They are those that are
swapped, or they enclose them, or they have nothing to do with the swap. -/
structure Fits (σ : Swap) (a a' : Mark × Ty) : Prop where
  mark : a.1.id ∈ σ.old ∧ a'.2 = .error ∨ a'.1 = a.1 ∧ σ.Around a.1.id ∨ a' = a ∧ σ.Apart a.1.id
  type : σ.keepsIndices → a'.2 = .error ∨ a'.2 = a.2

theorem fits_of_apart {a : Mark × Ty} (ha : σ.Apart a.1.id) : σ.Fits a a :=
  ⟨Or.inr (Or.inr ⟨rfl, ha⟩), fun _ => Or.inr rfl⟩

theorem Fits.faultIf {a a' : Mark × Ty} (h : σ.Fits a a') (admits : Ty → Bool) (f : Fault) :
    σ.Reports [] (faultIf (a.2.violates admits) a.1 f) (faultIf (a'.2.violates admits) a'.1 f) := by
  have hsilent : a'.2 = .error → a'.2.violates admits = false := fun he => by
    rw [he, Ty.violates]
    rfl
  rcases h.mark with ⟨hold, he⟩ | ⟨hm, ha⟩ | ⟨rfl, ha⟩
  · rw [hsilent he]
    refine reports_silent (fun d hd => Or.inl ?_) rfl
    cases hb : a.2.violates admits with
    | false => rw [hb] at hd; cases hd
    | true => rw [hb] at hd; rw [List.mem_singleton.1 hd]; exact hold
  · rw [hm]
    refine reports_faultIf ha fun hσ hv => ?_
    rcases h.type hσ with he | he
    · rw [hsilent he] at hv
      cases hv
    · exact ⟨he ▸ hv, rfl⟩
  · exact reports_rule ha _ f

/-- The judgements of two expressions with their marks, before and after a swap. -/
structure Judges (σ : Swap) (ds : List Diagnostic) (m : Mark) (j : Judgement) (m' : Mark)
    (j' : Judgement) : Prop where
  report : σ.Reports ds j.report j'.report
  fits : σ.Fits (m, j.type) (m', j'.type)
  place : σ.keepsIndices → j'.type = .error ∨ j'.isPlace = j.isPlace

theorem judges_of {ds : List Diagnostic} {m : Mark} {t t' : Ty} {b b' : Bool}
    {parts parts' : Report} (hm : σ.Around m.id) (h : σ.Reports ds parts parts')
    (ht : σ.keepsIndices → t' = .error ∨ t' = t ∧ b' = b) :
    σ.Judges ds m (.of m t b parts) m (.of m t' b' parts') where
  report := h.behind (reports_silent (fun _ hd => by cases hd) rfl)
  fits := ⟨Or.inr (Or.inl ⟨rfl, hm⟩), fun hσ => (ht hσ).imp_right And.left⟩
  place hσ := (ht hσ).imp_right And.right

theorem judges_element {ds : List Diagnostic} {m im im' : Mark} {base : Ident} {j j' : Judgement}
    (hm : σ.Around m.id) (hb : σ.Apart base.mark.id) (h : σ.Judges ds im j im' j')
    (hi : σ.keepsIndices → (Γ.judgeName base).type.isArray = true →
      j.type.violates (· = .int) = true → j'.type.violates (· = .int) = true) :
    σ.Judges ds m (Context.judgeElement m base (Γ.judgeName base) j im) m
      (Context.judgeElement m base (Γ.judgeName base) j' im') := by
  have hparts := (((reports_name (Γ := Γ) hb).before h.report).behind
    (reports_rule hb ((Γ.judgeName base).type.violates Ty.isArray) (.notArray base.name))).behind
    (h.fits.faultIf (· = .int) .indexType)
  have hsame : σ.keepsIndices → (Γ.judgeName base).type.isArray = true →
      j'.type.violates (· = .int) = j.type.violates (· = .int) := by
    intro hσ harray
    rcases h.fits.type hσ with he | he
    · have hgood : j'.type.violates (· = .int) = false := by
        rw [Ty.violates, show j'.type = .error from he]
        rfl
      rw [hgood, eq_comm, ← Bool.not_eq_true]
      exact fun hv => absurd (hi hσ harray hv) (by rw [hgood]; decide)
    · rw [show j'.type = j.type from he]
  simp only [Context.judgeElement]
  split
  · rename_i hbroken
    split
    · exact judges_of hm hparts fun _ => Or.inl rfl
    · rename_i hfine
      have harray : (Γ.judgeName base).type.isArray = true := by
        simp only [Ty.violates, Bool.or_eq_true, not_or] at hfine
        simpa [hfine.1.1] using hfine.1.2
      refine judges_of hm hparts fun hσ => absurd hbroken ?_
      rwa [← hsame hσ harray]
  · split
    · exact judges_of hm hparts fun _ => Or.inl rfl
    · exact judges_of hm hparts fun _ => Or.inr ⟨rfl, rfl⟩

theorem reports_argumentFaults (callee : String) {args args' : List (Mark × Ty)}
    (h : List.Forall₂ σ.Fits args args') (k : Nat) (ps : List Ty) :
    σ.Reports [] (Context.argumentFaults callee k args ps)
      (Context.argumentFaults callee k args' ps) := by
  induction h generalizing k ps with
  | nil => exact reports_empty
  | cons ha _ ih =>
    cases ps with
    | nil => exact reports_empty
    | cons p ps => exact (ha.faultIf p.accepts _).before (ih (k + 1) ps)

theorem reports_call {callee : Ident} (hc : σ.Apart callee.mark.id) (asValue : Bool) (f : Ty)
    {args args' : List (Mark × Ty)} (h : List.Forall₂ σ.Fits args args') :
    σ.Reports [] (Context.judgeCall callee asValue f args).2
        (Context.judgeCall callee asValue f args').2 ∧
      (Context.judgeCall callee asValue f args').1 =
        (Context.judgeCall callee asValue f args).1 := by
  have hcount : σ.Reports []
      (faultIf (f.params.length ≠ args.length) callee.mark
        (.argumentCount callee.name f.params.length args.length))
      (faultIf (f.params.length ≠ args'.length) callee.mark
        (.argumentCount callee.name f.params.length args'.length)) := by
    rw [h.length_eq]
    exact reports_rule hc _ _
  have hfaults := hcount.before (reports_argumentFaults callee.name h 1 f.params)
  simp only [Context.judgeCall]
  split
  · exact ⟨reports_empty, rfl⟩
  · split
    · exact ⟨reports_rule hc true _, rfl⟩
    · split
      · exact ⟨hfaults.before (reports_rule hc true _), rfl⟩
      · exact ⟨hfaults, rfl⟩

end Swap

/-! ## Operators

An operator may add one fault to what its operands brought to light.
-/

namespace Ty

def unary (op : UnaryOp) (t : Ty) : Ty := (ofUnary? op t).getD (if op = .not then .bool else .error)

theorem unary_not (t : Ty) : unary .not t = .bool := by
  rw [unary, ofUnary?]
  split <;> rfl

def binary (op : BinaryOp) (t u : Ty) : Ty :=
  if !op.isArithmetic then .bool
  else if t = .error || u = .error || !admits op t u then .error else .join [t, u]

def max (ts : List Ty) : Ty :=
  if ts.length < 2 || ts.any (· = .error) then .error
  else if ts.all isNumeric then .join ts else if ts.all (· = .char) then .char else .error

def maxBroken (ts : List Ty) : Bool :=
  ts.length < 2 || !ts.any (· = .error) && !ts.all isNumeric && !ts.all (· = .char)

def maxFault (ts : List Ty) : Fault := if ts.length < 2 then .maxCount ts.length else .maxTypes

end Ty

namespace Context

theorem judgeUnary_eq (m : Mark) (op : UnaryOp) (j : Judgement) :
    judgeUnary m op j = .of m (.unary op j.type) false
      (j.report ++ faultIf (Ty.ofUnary? op j.type).isNone m (.operandTypes op.token.spelling)) := by
  unfold judgeUnary Ty.unary
  cases Ty.ofUnary? op j.type with
  | some t =>
    change _ = Judgement.of m t false (j.report ++ empty)
    rw [append_empty]
  | none => cases op <;> rfl

theorem judgeBinary_eq (m : Mark) (op : BinaryOp) (l r : Judgement) :
    judgeBinary m op l r = .of m (.binary op l.type r.type) false (l.report ++ r.report ++
      faultIf (!(l.type = .error || r.type = .error) && !Ty.admits op l.type r.type) m
        (.operandTypes op.token.spelling)) := by
  simp only [judgeBinary, Ty.binary]
  split
  · rfl
  · by_cases hl : l.type = .error <;> by_cases hr : r.type = .error <;>
      cases Ty.admits op l.type r.type <;> simp [hl, hr]

theorem judgeMax_eq (m : Mark) (ts : List Ty) (parts : Report) :
    judgeMax m ts parts =
      .of m (.max ts) false (parts ++ faultIf (Ty.maxBroken ts) m (Ty.maxFault ts)) := by
  have hquiet : parts ++ faultIf false m (Ty.maxFault ts) = parts := append_empty parts
  unfold judgeMax Ty.max Ty.maxBroken
  by_cases hcount : ts.length < 2
  · simp [hcount, Ty.maxFault, faultIf]
  · cases ts.any (· = .error)
    · cases ts.all Ty.isNumeric
      · cases ts.all (· = .char)
        · simp [hcount, Ty.maxFault, faultIf]
        · simp [hcount, hquiet]
      · simp [hcount, hquiet]
    · simp [hcount, hquiet]

end Context

namespace Swap

variable {σ : Swap}

theorem judges_unary {ds : List Diagnostic} {m om om' : Mark} (op : UnaryOp) {j j' : Judgement}
    (hm : σ.Around m.id) (h : σ.Judges ds om j om' j') :
    σ.Judges ds m (Context.judgeUnary m op j) m (Context.judgeUnary m op j') := by
  have htype : σ.keepsIndices → j'.type = .error ∨ j'.type = j.type := h.fits.type
  have hfault : σ.Reports []
      (faultIf (Ty.ofUnary? op j.type).isNone m (.operandTypes op.token.spelling))
      (faultIf (Ty.ofUnary? op j'.type).isNone m (.operandTypes op.token.spelling)) := by
    refine reports_faultIf hm fun hσ hb => ⟨?_, rfl⟩
    rcases htype hσ with he | he
    · rw [he] at hb
      cases op <;> cases hb
    · rwa [he] at hb
  rw [Context.judgeUnary_eq, Context.judgeUnary_eq]
  refine judges_of hm (h.report.behind hfault) fun hσ => ?_
  rcases htype hσ with he | he
  · rw [he]
    cases op with
    | not => exact Or.inr ⟨by rw [Ty.unary_not, Ty.unary_not], rfl⟩
    | plus => exact Or.inl rfl
    | minus => exact Or.inl rfl
  · exact Or.inr ⟨by rw [he], rfl⟩

theorem judges_binary {ds ds' : List Diagnostic} {m lm lm' rm rm' : Mark} (op : BinaryOp)
    {l l' r r' : Judgement} (hm : σ.Around m.id) (hl : σ.Judges ds lm l lm' l')
    (hr : σ.Judges ds' rm r rm' r') :
    σ.Judges (ds ++ ds') m (Context.judgeBinary m op l r) m (Context.judgeBinary m op l' r') := by
  have htypes : σ.keepsIndices → (l'.type = .error ∨ r'.type = .error) ∨
      l'.type = l.type ∧ r'.type = r.type := by
    intro hσ
    rcases hl.fits.type hσ with hle | hle
    · exact Or.inl (Or.inl hle)
    · exact (hr.fits.type hσ).imp Or.inr fun hre => ⟨hle, hre⟩
  rw [Context.judgeBinary_eq, Context.judgeBinary_eq]
  refine judges_of hm ((hl.report.append hr.report).behind (reports_faultIf hm fun hσ hb => ?_))
    fun hσ => ?_
  · rcases htypes hσ with he | ⟨hle, hre⟩
    · rcases he with he | he <;> simp [he] at hb
    · rw [hle, hre] at hb
      exact ⟨hb, rfl⟩
  · rcases htypes hσ with he | ⟨hle, hre⟩
    · rw [Ty.binary, Ty.binary]
      split
      · exact Or.inr ⟨rfl, rfl⟩
      · refine Or.inl (if_pos ?_)
        rcases he with he | he <;> simp [he]
    · exact Or.inr ⟨by rw [hle, hre], rfl⟩

theorem types_of_fits {args args' : List (Mark × Ty)} (h : List.Forall₂ σ.Fits args args')
    (hσ : σ.keepsIndices) : (args'.map Prod.snd).any (· = .error) = true ∨
      args'.map Prod.snd = args.map Prod.snd := by
  induction h with
  | nil => exact Or.inr rfl
  | cons ha _ ih =>
    rcases ha.type hσ with he | he
    · exact Or.inl (by simp [he])
    · rcases ih with ih | ih
      · refine Or.inl ?_
        rw [List.map_cons, List.any_cons, ih, Bool.or_true]
      · exact Or.inr (by rw [List.map_cons, List.map_cons, ih, he])

theorem judges_max {ds : List Diagnostic} {m : Mark} {args args' : List (Mark × Ty)}
    {parts parts' : Report} (hm : σ.Around m.id) (hargs : List.Forall₂ σ.Fits args args')
    (h : σ.Reports ds parts parts') :
    σ.Judges ds m (Context.judgeMax m (args.map Prod.snd) parts) m
      (Context.judgeMax m (args'.map Prod.snd) parts') := by
  have hlength : (args'.map Prod.snd).length = (args.map Prod.snd).length := by
    rw [List.length_map, List.length_map, hargs.length_eq]
  have htypes := types_of_fits hargs
  generalize args.map Prod.snd = ts at hlength htypes
  generalize args'.map Prod.snd = ts' at hlength htypes
  rw [Context.judgeMax_eq, Context.judgeMax_eq]
  refine judges_of hm (h.behind (reports_faultIf hm fun hσ hb => ?_)) fun hσ => ?_
  · rcases htypes hσ with he | rfl
    · -- Among operands with an error, only their number can be at fault.
      have hcount : ts'.length < 2 := by simpa [Ty.maxBroken, he] using hb
      rw [Ty.maxBroken, Ty.maxFault, Ty.maxFault, ← hlength]
      simp [hcount]
    · exact ⟨hb, rfl⟩
  · rcases htypes hσ with he | rfl
    · exact Or.inl (if_pos (by rw [he, Bool.or_true]))
    · exact Or.inr ⟨rfl, rfl⟩

end Swap

end Asl
