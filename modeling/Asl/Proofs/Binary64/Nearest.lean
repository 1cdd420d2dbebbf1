import Asl.Binary64.Basic

/-!
# Rounding to the nearest number

A quotient is rounded to the number that is nearest to it, and halfway between two numbers to the
one of even rank. The ranks go on past the largest finite number as if exponents had no bound: a
quotient overflows when its nearest number is not finite.
-/
namespace Asl.Binary64

/-- How far a natural number is from a quotient, in parts of which the denominator makes one. -/
def offBy (num den n : Nat) : Nat := (num - n * den) + (n * den - num)

/-- The number of a rank is as near to a quotient as any, and of even rank if another is as near. -/
structure Nearest (num den rank : Nat) : Prop where
  closest : ∀ other, offBy (num * unit) den (scaled rank) ≤ offBy (num * unit) den (scaled other)
  even : ∀ other, other ≠ rank →
    offBy (num * unit) den (scaled other) = offBy (num * unit) den (scaled rank) → rank % 2 = 0

theorem roundHalfEven_closest (num : Nat) {den : Nat} (hden : 0 < den) (n : Nat) :
    offBy num den (roundHalfEven num den) ≤ offBy num den n := by
  have hdiv := Nat.div_add_mod num den
  have hmod := Nat.mod_lt num hden
  rw [Nat.mul_comm] at hdiv
  -- Every other number is on one side of the two that enclose the quotient.
  have hside : n * den ≤ num / den * den ∨ (num / den + 1) * den ≤ n * den := by
    by_cases hn : n ≤ num / den
    · exact Or.inl (Nat.mul_le_mul_right den hn)
    · exact Or.inr (Nat.mul_le_mul_right den (Nat.lt_of_not_le hn))
  have hnext : (num / den + 1) * den = num / den * den + den := Nat.succ_mul _ _
  have htie : num / den % 2 = 0 ∨ num / den % 2 = 1 := Nat.mod_two_eq_zero_or_one _
  simp only [roundHalfEven, offBy]
  split
  · omega
  · split
    · omega
    · rcases htie with h | h
      · rw [h, Nat.add_zero]
        omega
      · rw [h]
        omega

theorem roundHalfEven_even {num den n : Nat} (hden : 0 < den) (hne : n ≠ roundHalfEven num den)
    (h : offBy num den n = offBy num den (roundHalfEven num den)) :
    roundHalfEven num den % 2 = 0 := by
  have hdiv := Nat.div_add_mod num den
  have hmod := Nat.mod_lt num hden
  rw [Nat.mul_comm] at hdiv
  have hnext : (num / den + 1) * den = num / den * den + den := Nat.succ_mul _ _
  simp only [roundHalfEven, offBy] at hne h ⊢
  split at hne
  · rename_i hlow
    rw [if_pos hlow] at h
    have hside : (n + 1) * den ≤ num / den * den ∨ (num / den + 1) * den ≤ n * den := by
      by_cases hn : n < num / den
      · exact Or.inl (Nat.mul_le_mul_right den hn)
      · exact Or.inr (Nat.mul_le_mul_right den (by omega))
    rw [Nat.succ_mul] at hside
    omega
  · rename_i hlow
    split at hne
    · rename_i hhigh
      rw [if_neg hlow, if_pos hhigh] at h
      have hside : n * den ≤ num / den * den ∨ (num / den + 1 + 1) * den ≤ n * den := by
        by_cases hn : n ≤ num / den
        · exact Or.inl (Nat.mul_le_mul_right den hn)
        · exact Or.inr (Nat.mul_le_mul_right den (by omega))
      rw [Nat.succ_mul, hnext] at hside
      omega
    · rename_i hhigh
      rw [if_neg hlow, if_neg hhigh]
      omega

theorem roundHalfEven_between {num den low high : Nat} (hden : 0 < den) (hlow : low * den ≤ num)
    (hhigh : num < high * den) :
    low ≤ roundHalfEven num den ∧ roundHalfEven num den ≤ high := by
  have hl : low ≤ num / den := (Nat.le_div_iff_mul_le hden).2 hlow
  have hh : num / den < high := (Nat.div_lt_iff_lt_mul hden).2 hhigh
  simp only [roundHalfEven]
  split
  · omega
  · split
    · omega
    · omega

theorem stepsPerBinade_pos : 0 < stepsPerBinade := Nat.two_pow_pos 52

theorem scaled_add {doubled steps : Nat} (hle : steps ≤ 2 * stepsPerBinade)
    (hge : doubled = 0 ∨ stepsPerBinade ≤ steps) :
    scaled (doubled * stepsPerBinade + steps) = steps * Nat.pow 2 doubled := by
  have hpos := stepsPerBinade_pos
  by_cases hlt : steps < stepsPerBinade
  · obtain rfl : doubled = 0 := by omega
    have hdoublings : doublings (0 * stepsPerBinade + steps) = 0 := by
      simp [doublings, Nat.div_eq_of_lt hlt]
    rw [scaled, hdoublings]
    simp [significand, hlt]
  · obtain ⟨more, rfl⟩ := Nat.exists_eq_add_of_le (Nat.le_of_not_lt hlt)
    have hsum : doubled * stepsPerBinade + (stepsPerBinade + more) =
        more + stepsPerBinade * (doubled + 1) := by
      rw [Nat.mul_succ, Nat.mul_comm]
      omega
    have hnot : ¬more + stepsPerBinade * (doubled + 1) < stepsPerBinade := by
      rw [Nat.mul_succ]
      omega
    rw [hsum, scaled, doublings, significand, if_neg hnot, Nat.add_mul_div_left _ _ hpos,
      Nat.add_mul_mod_self_left]
    by_cases hmore : more < stepsPerBinade
    · rw [Nat.div_eq_of_lt hmore, Nat.mod_eq_of_lt hmore, Nat.zero_add, Nat.add_sub_cancel]
    · -- The last step of a size is the first of the next size.
      obtain rfl : more = stepsPerBinade := by omega
      have hpow : Nat.pow 2 (doubled + 1) = Nat.pow 2 doubled * 2 := rfl
      rw [Nat.div_self hpos, Nat.mod_self, Nat.add_zero, Nat.add_comm 1, Nat.add_sub_cancel, hpow,
        ← Nat.mul_assoc, Nat.mul_two, Nat.add_mul]

theorem exists_steps (rank : Nat) : ∃ doubled steps, rank = doubled * stepsPerBinade + steps ∧
    steps < 2 * stepsPerBinade ∧ (doubled = 0 ∨ stepsPerBinade ≤ steps) := by
  have hpos := stepsPerBinade_pos
  have hdiv := Nat.div_add_mod rank stepsPerBinade
  have hmod := Nat.mod_lt rank hpos
  cases hbinade : rank / stepsPerBinade with
  | zero =>
    rw [hbinade] at hdiv
    exact ⟨0, rank, by omega, by omega, Or.inl rfl⟩
  | succ doubled =>
    rw [hbinade, Nat.mul_succ, Nat.mul_comm] at hdiv
    exact ⟨doubled, stepsPerBinade + rank % stepsPerBinade, by omega, by omega,
      Or.inr (by omega)⟩

theorem scaled_lt_succ (rank : Nat) : scaled rank < scaled (rank + 1) := by
  obtain ⟨doubled, steps, rfl, hlt, hge⟩ := exists_steps rank
  rw [scaled_add (by omega) hge, Nat.add_assoc, scaled_add (by omega) (by omega)]
  exact Nat.mul_lt_mul_of_pos_right (Nat.lt_succ_self steps) (Nat.two_pow_pos doubled)

theorem scaled_strictMono {rank other : Nat} (h : rank < other) : scaled rank < scaled other := by
  induction h with
  | refl => exact scaled_lt_succ rank
  | step _ ih => exact Nat.lt_trans ih (scaled_lt_succ _)

/-- The number of any rank is a multiple of a step, or lies below the first number with this step.
-/
theorem scaled_cases (doubled rank : Nat) : (∃ steps, scaled rank = steps * Nat.pow 2 doubled) ∨
    0 < doubled ∧ scaled rank < stepsPerBinade * Nat.pow 2 doubled := by
  obtain ⟨doubled', steps, rfl, hlt, hge⟩ := exists_steps rank
  by_cases hle : doubled ≤ doubled'
  · obtain ⟨more, rfl⟩ := Nat.exists_eq_add_of_le hle
    refine Or.inl ⟨steps * Nat.pow 2 more, ?_⟩
    have hpow : Nat.pow 2 (doubled + more) = Nat.pow 2 doubled * Nat.pow 2 more :=
      Nat.pow_add 2 doubled more
    rw [scaled_add (by omega) hge, hpow, Nat.mul_assoc, Nat.mul_comm (Nat.pow 2 more)]
  · have hbelow : doubled' * stepsPerBinade + steps <
        doubled * stepsPerBinade + stepsPerBinade := by
      have hmul := Nat.mul_le_mul_right stepsPerBinade (Nat.lt_of_not_le hle)
      rw [Nat.succ_mul] at hmul
      omega
    have hfirst := scaled_strictMono hbelow
    rw [scaled_add (by omega) (Or.inr (Nat.le_refl _))] at hfirst
    exact Or.inr ⟨by omega, hfirst⟩

/-- A quotient is less than two intervals of the steps that its logarithm gives, and at least one
interval if the steps have doubled. -/
theorem quotient_bounds {num den doubled : Nat} (hden : 0 < den)
    (hdoubled : doubled = (num / den).log2 - 52) :
    num < 2 * stepsPerBinade * (den * Nat.pow 2 doubled) ∧
      (0 < doubled → stepsPerBinade * (den * Nat.pow 2 doubled) ≤ num) := by
  constructor
  · have hpow : Nat.pow 2 (53 + doubled) = 2 * stepsPerBinade * Nat.pow 2 doubled :=
      Nat.pow_add 2 53 doubled
    have hlog : num / den < Nat.pow 2 (53 + doubled) :=
      Nat.lt_of_lt_of_le Nat.lt_log2_self (Nat.pow_le_pow_right (by decide) (by omega))
    rwa [hpow, Nat.div_lt_iff_lt_mul hden, Nat.mul_assoc, Nat.mul_comm _ den] at hlog
  · intro hpos
    have hne : num / den ≠ 0 := by
      intro hzero
      rw [hzero, Nat.log2_zero] at hdoubled
      omega
    have hpow : Nat.pow 2 (52 + doubled) = stepsPerBinade * Nat.pow 2 doubled :=
      Nat.pow_add 2 52 doubled
    have hlog : Nat.pow 2 (52 + doubled) ≤ num / den := (Nat.le_log2 hne).1 (by omega)
    rwa [hpow, Nat.le_div_iff_mul_le hden, Nat.mul_assoc, Nat.mul_comm _ den] at hlog

/-- The rank of a quotient is a whole number of doubled steps, the one nearest to the quotient; once
steps have doubled, the quotient lies above the numbers with smaller steps. -/
theorem exists_doubled (num : Nat) {den : Nat} (hden : 0 < den) :
    ∃ doubled steps, steps = roundHalfEven (num * unit) (den * Nat.pow 2 doubled) ∧
      rankOfRatio num den = doubled * stepsPerBinade + steps ∧
      scaled (rankOfRatio num den) = steps * Nat.pow 2 doubled ∧
      (0 < doubled → stepsPerBinade * (den * Nat.pow 2 doubled) ≤ num * unit) := by
  obtain ⟨doubled, hdoubled⟩ : ∃ doubled, doubled = (num * unit / den).log2 - 52 := ⟨_, rfl⟩
  obtain ⟨hhigh, hlow⟩ := quotient_bounds hden hdoubled
  have hsize : 0 < den * Nat.pow 2 doubled := Nat.mul_pos hden (Nat.two_pow_pos doubled)
  have hrank : rankOfRatio num den = doubled * stepsPerBinade +
      roundHalfEven (num * unit) (den * Nat.pow 2 doubled) := by
    rw [rankOfRatio, hdoubled]
  refine ⟨doubled, _, rfl, hrank, ?_, hlow⟩
  rw [hrank]
  by_cases hd : doubled = 0
  · have hzero : 0 * (den * Nat.pow 2 doubled) ≤ num * unit := by omega
    exact scaled_add (roundHalfEven_between hsize hzero hhigh).2 (Or.inl hd)
  · obtain ⟨hge, hle⟩ := roundHalfEven_between hsize (hlow (by omega)) hhigh
    exact scaled_add hle (Or.inr hge)

theorem offBy_steps (num den doubled steps : Nat) :
    offBy num den (steps * Nat.pow 2 doubled) = offBy num (den * Nat.pow 2 doubled) steps := by
  rw [offBy, offBy, Nat.mul_assoc, Nat.mul_comm (Nat.pow 2 doubled)]

theorem offBy_lt_of_below {num den doubled n : Nat} (hden : 0 < den)
    (hnum : stepsPerBinade * (den * Nat.pow 2 doubled) ≤ num)
    (hn : n < stepsPerBinade * Nat.pow 2 doubled) :
    offBy num (den * Nat.pow 2 doubled) (roundHalfEven num (den * Nat.pow 2 doubled)) <
      offBy num den n := by
  have hsize : 0 < den * Nat.pow 2 doubled := Nat.mul_pos hden (Nat.two_pow_pos doubled)
  have hfirst := roundHalfEven_closest num hsize stepsPerBinade
  have hmul := Nat.mul_lt_mul_of_pos_right hn hden
  rw [Nat.mul_assoc, Nat.mul_comm (Nat.pow 2 doubled)] at hmul
  apply Nat.lt_of_le_of_lt hfirst
  simp only [offBy]
  omega

theorem scaled_injective {rank other : Nat} (h : scaled rank = scaled other) : rank = other := by
  rcases Nat.lt_trichotomy rank other with hlt | heq | hlt
  · exact absurd h (Nat.ne_of_lt (scaled_strictMono hlt))
  · exact heq
  · exact absurd h (Nat.ne_of_gt (scaled_strictMono hlt))

theorem nearest_rankOfRatio (num : Nat) {den : Nat} (hden : 0 < den) :
    Nearest num den (rankOfRatio num den) := by
  obtain ⟨doubled, steps, hsteps, hrank, hscaled, hlow⟩ := exists_doubled num hden
  have hsize : 0 < den * Nat.pow 2 doubled := Nat.mul_pos hden (Nat.two_pow_pos doubled)
  constructor
  · intro other
    rw [hscaled, offBy_steps, hsteps]
    obtain ⟨steps', hother⟩ | ⟨hd, hother⟩ := scaled_cases doubled other
    · rw [hother, offBy_steps]
      exact roundHalfEven_closest _ hsize steps'
    · exact Nat.le_of_lt (offBy_lt_of_below hden (hlow hd) hother)
  · intro other hne heq
    rw [hscaled, offBy_steps, hsteps] at heq
    obtain ⟨steps', hother⟩ | ⟨hd, hother⟩ := scaled_cases doubled other
    · rw [hother, offBy_steps] at heq
      have hne' : steps' ≠ roundHalfEven (num * unit) (den * Nat.pow 2 doubled) := by
        intro hsame
        rw [hsame, ← hsteps, ← hscaled] at hother
        exact hne (scaled_injective hother)
      have heven := roundHalfEven_even hsize hne' heq
      have hbinade : stepsPerBinade % 2 = 0 := by decide
      rw [← hsteps] at heven
      rw [hrank, Nat.add_mod, Nat.mul_mod, hbinade, heven, Nat.mul_zero]
    · exact absurd heq (Nat.ne_of_gt (offBy_lt_of_below hden (hlow hd) hother))

theorem Nearest.unique {num den rank rank' : Nat} (hden : 0 < den) (h : Nearest num den rank)
    (h' : Nearest num den rank') : rank = rank' := by
  -- Between two even ranks that are equally near there is one that is nearer.
  have hless {rank rank' : Nat} (h : Nearest num den rank) (h' : Nearest num den rank') :
      ¬rank < rank' := by
    intro hlt
    have hsame := Nat.le_antisymm (h.closest rank') (h'.closest rank)
    have heven := h.even rank' (Nat.ne_of_gt hlt) hsame.symm
    have heven' := h'.even rank (Nat.ne_of_lt hlt) hsame
    have hbetween := h.closest (rank + 1)
    have hleft := Nat.mul_lt_mul_of_pos_right (scaled_lt_succ rank) hden
    have hright := Nat.mul_lt_mul_of_pos_right
      (scaled_strictMono (show rank + 1 < rank' by omega)) hden
    simp only [offBy] at hsame hbetween
    omega
  exact Nat.le_antisymm (Nat.le_of_not_lt (hless h' h)) (Nat.le_of_not_lt (hless h h'))

end Asl.Binary64
