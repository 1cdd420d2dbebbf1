import Asl.Proofs.Token.Written
import Asl.Proofs.Tree.Declared
import Asl.Proofs.Tree.Kinds

/-!
# Trees that can be written down

What the tokens of a tree need so that a text can have them. Operators and punctuation can always
be written down; the declarations of a function can if its names are free and its arrays are not too
large.
-/
namespace Asl

theorem BinaryOp.written_token (op : BinaryOp) : op.token.Written := by cases op <;> trivial

theorem UnaryOp.written_token (op : UnaryOp) : op.token.Written := by cases op <;> trivial

theorem written_commaSeparated {α : Type} {g : α → List TokenKind} {xs : List α}
    (h : ∀ x ∈ xs, ∀ k ∈ g x, k.Written) : ∀ k ∈ commaSeparated (xs.map g), k.Written := by
  by_cases hxs : xs = []
  · subst hxs
    exact fun k hk => absurd hk List.not_mem_nil
  · refine commaSeparated_induct (P := fun ks => ∀ k ∈ ks, k.Written) h ?_ hxs
    intro x hx ks hks
    exact List.forall_mem_append.2 ⟨h x hx, List.forall_mem_cons.2 ⟨trivial, hks⟩⟩

theorem written_concat {ks : List TokenKind} {last : TokenKind} (h : ∀ k ∈ ks, k.Written)
    (hlast : last.Written) : ∀ k ∈ ks ++ [last], k.Written :=
  List.forall_mem_append.2 ⟨h, List.forall_mem_singleton.2 hlast⟩

theorem written_inParens {ks : List TokenKind} (h : ∀ k ∈ ks, k.Written) :
    ∀ k ∈ inParens ks, k.Written :=
  List.forall_mem_cons.2 ⟨trivial, written_concat h trivial⟩

theorem written_inBrackets {ks : List TokenKind} (h : ∀ k ∈ ks, k.Written) :
    ∀ k ∈ inBrackets ks, k.Written :=
  List.forall_mem_cons.2 ⟨trivial, written_concat h trivial⟩

/-- An array has no more elements than a literal can say. -/
def TypeSpec.Small : TypeSpec → Prop
  | .base _ => True
  | .array size _ => (size : Int) < integerBound

instance : DecidablePred TypeSpec.Small
  | .base _ => inferInstanceAs (Decidable True)
  | .array _ _ => inferInstanceAs (Decidable (_ < _))

theorem TypeSpec.written_kinds {t : TypeSpec} (h : t.Small) : ∀ k ∈ t.kinds, k.Written := by
  cases t with
  | base b => exact List.forall_mem_singleton.2 trivial
  | array size elem =>
    have hsize : (TokenKind.int size).Written := ⟨Int.natCast_nonneg size, h⟩
    simp only [TypeSpec.kinds, List.forall_mem_cons, List.not_mem_nil, false_implies, implies_true,
      and_true]
    exact ⟨trivial, trivial, hsize, trivial, trivial, trivial⟩

theorem Function.written_kinds {f : Function} (hf : f.Formed)
    (hnames : ∀ x ∈ f.name.name :: f.entries.map Entry.name, FreeName x)
    (hparams : ∀ q ∈ f.params, q.type.spec.Small)
    (hdeclarations : ∀ d ∈ f.declarations, d.type.spec.Small)
    (hbody : ∀ k ∈ Stmt.kindsAll f.body, k.Written) : ∀ k ∈ f.kinds, k.Written := by
  obtain ⟨hname, hentries⟩ := List.forall_mem_cons.1 hnames
  have hps : ∀ q ∈ f.params, ∀ k ∈ q.kinds, k.Written := by
    intro q hq
    have hentry : q.entry ∈ f.entries := List.mem_append_left _ (List.mem_map_of_mem hq)
    have hfree : FreeName q.name.name := hentries _ (List.mem_map_of_mem hentry)
    exact List.forall_mem_cons.2 ⟨hfree, List.forall_mem_cons.2
      ⟨trivial, TypeSpec.written_kinds (hparams q hq)⟩⟩
  have hds : ∀ d ∈ f.declarations, ∀ k ∈ d.kinds, k.Written := by
    intro d hd
    have hfree : ∀ x ∈ d.names, ∀ k ∈ [TokenKind.ident x.name], k.Written := by
      intro x hx
      have hentry : ⟨x, .variable, .ofSpec d.type.spec⟩ ∈ f.entries :=
        List.mem_append_right _ (List.mem_flatMap.2 ⟨d, hd, List.mem_map_of_mem hx⟩)
      exact List.forall_mem_singleton.2 (hentries _ (List.mem_map_of_mem hentry))
    refine List.forall_mem_cons.2 ⟨trivial, List.forall_mem_append.2
      ⟨written_commaSeparated hfree, List.forall_mem_cons.2 ⟨trivial, ?_⟩⟩⟩
    exact TypeSpec.written_kinds (hdeclarations d hd)
  have hresult : ∀ k ∈ TypeNote.resultKinds f.result, k.Written := by
    cases hr : f.result with
    | none => exact fun k hk => absurd hk List.not_mem_nil
    | some t =>
      obtain ⟨b, hb⟩ := hf.result t hr
      rw [TypeNote.resultKinds, hb]
      exact List.forall_mem_cons.2 ⟨trivial, TypeSpec.written_kinds trivial⟩
  refine List.forall_mem_cons.2 ⟨trivial, List.forall_mem_cons.2 ⟨hname, ?_⟩⟩
  refine List.forall_mem_append.2 ⟨written_inParens (written_commaSeparated hps), ?_⟩
  refine List.forall_mem_append.2 ⟨hresult, List.forall_mem_append.2 ⟨?_, ?_⟩⟩
  · exact List.forall_mem_flatMap.2 hds
  · exact written_concat hbody trivial

end Asl
