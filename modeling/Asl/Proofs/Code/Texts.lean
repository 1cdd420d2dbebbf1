import Asl.Code.Listing
import Asl.Proofs.Token.Words
import Std.Data.String.ToNat

/-!
# Texts of operands and labels

Code refers to places and labels by their texts. The texts of temporaries, of the slot for the value
of a function and of identifiers are all different, and so are the texts of labels.
-/
namespace Asl

theorem ne_resultName_of_isIdentifier {x : String} (h : isIdentifier x = true) :
    x ≠ resultName := by
  intro hx
  rw [hx] at h
  revert h
  decide

namespace Operand

theorem toList_text_temp (n : Nat) : (temp n).text.toList = '%' :: 't' :: n.repr.toList := by
  simp [text]

theorem text_temp_injective {m n : Nat} (h : (temp m).text = (temp n).text) : m = n := by
  have hlist := congrArg String.toList h
  rw [toList_text_temp, toList_text_temp] at hlist
  have hdigits := List.cons.inj (List.cons.inj hlist).2
  exact Nat.repr_injective (String.toList_injective hdigits.2)

theorem text_temp_ne_resultName (n : Nat) : (temp n).text ≠ resultName := by
  intro h
  have hlist := congrArg String.toList h
  rw [toList_text_temp] at hlist
  have hhead := congrArg List.head? hlist
  revert hhead
  simp [resultName]

theorem head?_of_isIdentifier {x : String} (h : isIdentifier x = true) :
    x.toList.head? ≠ some '%' := by
  obtain ⟨c, cs, hx, hc, -⟩ := exists_of_isIdentifier h
  rw [hx]
  intro heq
  cases Option.some.inj heq
  revert hc
  decide

theorem text_temp_ne_of_isIdentifier {x : String} (h : isIdentifier x = true) (n : Nat) :
    (temp n).text ≠ x := by
  intro hx
  refine head?_of_isIdentifier h ?_
  rw [← hx, toList_text_temp]
  rfl

end Operand

theorem isDigit_of_mem_repr {n : Nat} {c : Char} (h : c ∈ n.repr.toList) : c.isDigit = true := by
  rw [Nat.repr_eq_ofList_toDigits, String.toList_ofList] at h
  exact Nat.isDigit_of_mem_toDigits (by decide) (by decide) h

theorem takeWhile_append_repr {a : String} (ha : ∀ c ∈ a.toList, c.isDigit = false) (n : Nat) :
    (a ++ n.repr).toList.takeWhile (fun c => !c.isDigit) = a.toList := by
  have hdigits : n.repr.toList.takeWhile (fun c => !c.isDigit) = [] := by
    cases hn : n.repr.toList with
    | nil => rfl
    | cons d ds =>
      have hd : d.isDigit = true := isDigit_of_mem_repr (n := n) (by simp [hn])
      simp [hd]
  rw [String.toList_append, List.takeWhile_append_of_pos (by simpa using ha), hdigits,
    List.append_nil]

theorem LabelKind.text_no_digit (k : LabelKind) : ∀ c ∈ k.text.toList, c.isDigit = false := by
  cases k <;> simp [text]

theorem LabelKind.text_injective {k l : LabelKind} (h : k.text = l.text) : k = l := by
  revert h
  cases k <;> cases l <;> decide

theorem Label.text_injective {l m : Label} (h : l.text = m.text) : l = m := by
  obtain ⟨k, n⟩ := l
  obtain ⟨k', n'⟩ := m
  have htext : k.text ++ n.repr = k'.text ++ n'.repr := h
  have hfront := congrArg (fun t : String => t.toList.takeWhile fun c => !c.isDigit) htext
  simp only [takeWhile_append_repr k.text_no_digit, takeWhile_append_repr k'.text_no_digit]
    at hfront
  have hkind := LabelKind.text_injective (String.toList_injective hfront)
  subst hkind
  have hback := congrArg String.toList htext
  rw [String.toList_append, String.toList_append] at hback
  have hnumber := String.toList_injective (List.append_cancel_left hback)
  rw [Nat.repr_injective hnumber]

end Asl
