import Asl.Proofs.Token.Lexed

/-!
# Numerals

The digits of a whole number have the number as their value, and the plain layout of a number has
digits on both sides of its point and the value of the number's shortest numeral. So the spelling of
a number that is not negative is read back as the number.
-/
namespace Asl

theorem isDigit_of_mem_toDigits {n : Nat} {c : Char} (h : c ∈ Nat.toDigits 10 n) :
    isDigit c = true := by
  have hc : c.isDigit = true := Nat.isDigit_of_mem_toDigits (by decide) (by decide) h
  simpa only [Char.isDigit, isDigit, Char.le_def, Bool.and_eq_true, decide_eq_true_eq, ge_iff_le]
    using hc

theorem isDigit_of_mem_zeros {k : Nat} {c : Char} (h : c ∈ List.replicate k '0') :
    isDigit c = true := by
  rw [List.eq_of_mem_replicate h]
  decide

namespace Decimal

theorem ofDigitChars_zeros (k : Nat) (cs : List Char) :
    Nat.ofDigitChars 10 (List.replicate k '0' ++ cs) 0 = Nat.ofDigitChars 10 cs 0 := by
  induction k with
  | zero => rfl
  | succ k ih =>
    rw [List.replicate_succ, List.cons_append, Nat.ofDigitChars_cons]
    exact ih

theorem ofDigitChars_append_zeros (cs : List Char) (k : Nat) :
    Nat.ofDigitChars 10 (cs ++ List.replicate k '0') 0 =
      Nat.ofDigitChars 10 cs 0 * Nat.pow 10 k := by
  induction k with
  | zero => rw [List.replicate_zero, List.append_nil]; exact (Nat.mul_one _).symm
  | succ k ih =>
    have hlast (n : Nat) : Nat.ofDigitChars 10 ['0'] n = 10 * n := rfl
    have hpow : Nat.pow 10 (k + 1) = Nat.pow 10 k * 10 := rfl
    rw [List.replicate_succ', ← List.append_assoc, Nat.ofDigitChars_append, ih, hlast, hpow,
      Nat.mul_comm, Nat.mul_assoc]

theorem ofDigitChars_toDigits (n : Nat) : Nat.ofDigitChars 10 (Nat.toDigits 10 n) 0 = n :=
  Nat.ofDigitChars_toDigits (by decide) (by decide)

theorem toDigits_ne_nil (n : Nat) : Nat.toDigits 10 n ≠ [] := Nat.toDigits_ne_nil

theorem ofDecimal_parts (negative : Bool) (d : Decimal) :
    Binary64.ofDecimal negative (ofParts d.parts.1 d.parts.2) = Binary64.ofDecimal negative d := by
  rcases d with ⟨n, e⟩
  cases e with
  | ofNat e =>
    have hdigits : Nat.ofDigitChars 10 ((if n = 0 then Nat.toDigits 10 n
        else Nat.toDigits 10 n ++ List.replicate e '0') ++ ['0']) 0 = n * Nat.pow 10 e * 10 := by
      split
      · rename_i hn
        rw [hn, Nat.zero_mul]
        rfl
      · have hone : ['0'] = List.replicate 1 '0' := rfl
        rw [hone, ofDigitChars_append_zeros, ofDigitChars_append_zeros, ofDigitChars_toDigits]
    change Binary64.ofDecimal negative
      ⟨Nat.ofDigitChars 10 ((if n = 0 then _ else _) ++ ['0']) 0, -1⟩ = _
    rw [hdigits, Binary64.ofDecimal_shift]
    change Binary64.ofRatio negative (n * Nat.pow 10 e * 1) 1 =
      Binary64.ofRatio negative (n * Nat.pow 10 e) 1
    rw [Nat.mul_one]
  | negSucc e =>
    have hlength : e + 1 ≤ (List.replicate (e + 1 + 1 - (Nat.toDigits 10 n).length) '0' ++
        Nat.toDigits 10 n).length := by
      rw [List.length_append, List.length_replicate]
      omega
    simp only [parts, ofParts, List.take_append_drop, ofDigitChars_zeros, ofDigitChars_toDigits,
      List.length_drop]
    rw [Nat.sub_sub_self hlength]
    rfl

theorem parts_digits (d : Decimal) : d.parts.1 ≠ [] ∧ d.parts.2 ≠ [] ∧
    (∀ c ∈ d.parts.1, isDigit c = true) ∧ ∀ c ∈ d.parts.2, isDigit c = true := by
  rcases d with ⟨n, e⟩
  cases e with
  | ofNat e =>
    refine ⟨?_, List.cons_ne_nil _ _, fun c hc => ?_, fun c hc => ?_⟩
    · change (if n = 0 then _ else _) ≠ []
      split
      · exact toDigits_ne_nil n
      · exact List.append_ne_nil_of_left_ne_nil (toDigits_ne_nil n) _
    · change c ∈ (if n = 0 then _ else _) at hc
      split at hc
      · exact isDigit_of_mem_toDigits hc
      · rcases List.mem_append.1 hc with hc | hc
        · exact isDigit_of_mem_toDigits hc
        · exact isDigit_of_mem_zeros hc
    · cases List.mem_singleton.1 hc
      decide
  | negSucc e =>
    have hpadded : ∀ c ∈ List.replicate (e + 1 + 1 - (Nat.toDigits 10 n).length) '0' ++
        Nat.toDigits 10 n, isDigit c = true := by
      intro c hc
      rcases List.mem_append.1 hc with hc | hc
      · exact isDigit_of_mem_zeros hc
      · exact isDigit_of_mem_toDigits hc
    have hlength : e + 1 < (List.replicate (e + 1 + 1 - (Nat.toDigits 10 n).length) '0' ++
        Nat.toDigits 10 n).length := by
      rw [List.length_append, List.length_replicate]
      omega
    refine ⟨fun h => ?_, fun h => ?_, fun c hc => hpadded c (List.mem_of_mem_take hc),
      fun c hc => hpadded c (List.mem_of_mem_drop hc)⟩
    · have hzero := congrArg List.length h
      simp only [parts, List.length_take, List.length_nil] at hzero
      omega
    · have hzero := congrArg List.length h
      simp only [parts, List.length_drop, List.length_nil] at hzero
      omega

theorem ofDecimal_trim (negative : Bool) (d : Decimal) :
    Binary64.ofDecimal negative d.trim = Binary64.ofDecimal negative d := by
  fun_induction trim d with
  | case1 d h ih =>
    rw [ih, ← Binary64.ofDecimal_shift, Nat.div_mul_cancel (Nat.dvd_of_mod_eq_zero h.2)]
  | case2 d _ => rfl

theorem decimalOf_append {whole fraction : List Char} (h : ∀ c ∈ whole, isDigit c = true) :
    decimalOf (whole ++ '.' :: fraction) = ofParts whole fraction := by
  have hpoint : isDigit '.' = false := by decide
  rw [decimalOf, List.takeWhile_append_of_pos h, List.dropWhile_append_of_pos h,
    List.takeWhile_cons, List.dropWhile_cons, hpoint]
  simp

end Decimal

theorem Binary64.ofDecimal_text {rank : Nat} (h : rank < limit) :
    ofDecimal false (decimalOf (text (.finite false rank)).toList) = .finite false rank := by
  have htext : (text (.finite false rank)).toList =
      (decimal rank).parts.1 ++ '.' :: (decimal rank).parts.2 := String.toList_ofList
  obtain ⟨-, -, hwhole, -⟩ := (decimal rank).parts_digits
  have hshortest : ofDecimal false (shortest rank) = .finite false rank :=
    eq_of_beq (readsAs_shortest h)
  rw [htext, Decimal.decimalOf_append hwhole, Decimal.ofDecimal_parts, decimal,
    Decimal.ofDecimal_trim, hshortest]

namespace Rule

theorem reads_integer {n : Int} (hn : TokenKind.Written (.int n)) {rest : List Char}
    (hrest : ∀ d, rest.head? = some d → TokenKind.grows d (.int n) = false) :
    Rule.integer.Reads (.int n) rest := by
  obtain ⟨hpos, hlt⟩ := hn
  obtain ⟨m, rfl⟩ := Int.eq_ofNat_of_zero_le hpos
  have hlt : m < integerBound := Int.ofNat_lt.1 hlt
  have hspelling : (TokenKind.int m).spelling.toList = Nat.toDigits 10 m := by
    have h : (TokenKind.int m).spelling = Nat.repr m := rfl
    rw [h, Nat.repr_eq_ofList_toDigits, String.toList_ofList]
  have hdigits : ∀ c ∈ Nat.toDigits 10 m, isDigit c = true := fun c => isDigit_of_mem_toDigits
  have hrun : runLength isDigit (Nat.toDigits 10 m ++ rest) = (Nat.toDigits 10 m).length := by
    refine runLength_append hdigits fun d hd => ?_
    exact (Bool.or_eq_false_iff.1 (hrest d hd)).1
  have hlength : 0 < (Nat.toDigits 10 m).length :=
    List.length_pos_iff.2 (Decimal.toDigits_ne_nil m)
  constructor
  · rw [hspelling]
    exact hrun
  · rw [hspelling]
    exact hlength
  · intro r hr
    rw [hspelling]
    obtain ⟨c, cs, hcs⟩ := List.exists_cons_of_length_pos hlength
    have hc : isDigit c = true := hdigits c (by rw [hcs]; exact List.mem_cons_self)
    by_cases hstarts : r.starts c = true
    · rcases starts_digit hc hstarts with rfl | rfl
      · exact absurd rfl hr
      · -- Behind the digits there is no point.
        simp only [reach, hrun, List.drop_left]
        split
        · rename_i hpoint
          have hdot := hrest '.' rfl
          simp [TokenKind.grows] at hdot
        · exact hlength
    · rw [hcs, List.cons_append]
      exact reach_lt_of_not_starts (Nat.succ_pos _) hstarts
  · rw [hspelling]
    simp only [kind, Decimal.ofDigitChars_toDigits, if_pos hlt]
  · rfl

theorem reads_decimal {x : Binary64} (hx : TokenKind.Written (.float x)) {rest : List Char}
    (hrest : ∀ d, rest.head? = some d → TokenKind.grows d (.float x) = false) :
    Rule.decimal.Reads (.float x) rest := by
  obtain ⟨rank, hrank, rfl⟩ := hx
  have hspelling : (TokenKind.float (.finite false rank)).spelling.toList =
      (Binary64.decimal rank).parts.1 ++ '.' :: (Binary64.decimal rank).parts.2 :=
    String.toList_ofList
  have hvalue := Binary64.ofDecimal_text hrank
  change Binary64.ofDecimal false (decimalOf (TokenKind.float _).spelling.toList) = _ at hvalue
  obtain ⟨hne, hne', hwhole, hfraction⟩ := (Binary64.decimal rank).parts_digits
  generalize (Binary64.decimal rank).parts.1 = whole at *
  generalize (Binary64.decimal rank).parts.2 = fraction at *
  have hpoint : ∀ d, ('.' :: (fraction ++ rest)).head? = some d → isDigit d = false := by
    rintro _ ⟨⟩
    decide
  have hrun := runLength_append hwhole hpoint
  have hrun' := runLength_append hfraction hrest
  have hlength : 0 < whole.length := List.length_pos_iff.2 hne
  have hlength' : 0 < fraction.length := List.length_pos_iff.2 hne'
  have htotal : (whole ++ '.' :: fraction).length = whole.length + 1 + fraction.length := by
    rw [List.length_append, List.length_cons]
    omega
  constructor
  · rw [hspelling, htotal, List.append_assoc, List.cons_append]
    simp only [reach, hrun, List.drop_left, hrun']
    rw [if_neg]
    simp only [Bool.or_eq_true, decide_eq_true_eq]
    omega
  · rw [hspelling, htotal]
    omega
  · intro r hr
    rw [hspelling, htotal, List.append_assoc, List.cons_append]
    obtain ⟨c, cs, hcs⟩ := List.exists_cons_of_length_pos hlength
    have hc : isDigit c = true := hwhole c (by rw [hcs]; exact List.mem_cons_self)
    by_cases hstarts : r.starts c = true
    · rcases starts_digit hc hstarts with rfl | rfl
      · simp only [reach, hrun]
        omega
      · exact absurd rfl hr
    · rw [hcs, List.cons_append]
      exact reach_lt_of_not_starts (by omega) hstarts
  · simp only [kind, hvalue]
  · rfl

end Rule

end Asl
