/-!
# Double-precision numbers

The non-negative finite numbers of the 64-bit binary format are the first `2047 * 2 ^ 52` values of
a strictly increasing sequence: zero, the subnormal steps, and then each power-of-two interval cut
into `2 ^ 52` equal steps. A number is therefore its sign and its rank in that sequence, and
rounding a quotient of natural numbers to it is exact integer arithmetic: no machine operation on
floating-point numbers is used anywhere.
-/
namespace Asl

/-- A decimal numeral: `digits * 10 ^ exponent`. -/
structure Decimal where
  digits : Nat
  exponent : Int
deriving DecidableEq, Repr, Inhabited

/-- A number of the 64-bit binary format; all undefined results are one value. -/
inductive Binary64
  | finite (negative : Bool) (rank : Nat)
  | infinite (negative : Bool)
  | undefined
deriving DecidableEq, Repr, Inhabited

namespace Binary64

def stepsPerBinade : Nat := Nat.pow 2 52

/-- The exponent of the smallest positive value, without its sign. -/
@[irreducible] def unitExponent : Nat := 1074

/-- All values are multiples of `1 / unit`. -/
def unit : Nat := Nat.pow 2 unitExponent

theorem unit_pos : 0 < unit := by decide +kernel

/-- The rank that overflows: one past the largest finite number. -/
def limit : Nat := 2047 * stepsPerBinade

/-- How often the step has doubled at a rank. -/
def doublings (rank : Nat) : Nat := rank / stepsPerBinade - 1

/-- The value of a rank counted in its own steps. -/
def significand (rank : Nat) : Nat :=
  if rank < stepsPerBinade then rank else stepsPerBinade + rank % stepsPerBinade

/-- The value of a rank is `scaled rank / unit`. -/
def scaled (rank : Nat) : Nat := significand rank * Nat.pow 2 (doublings rank)

/-- The nearest natural number to a quotient; a half goes to the even neighbour. -/
def roundHalfEven (num den : Nat) : Nat :=
  let low := num / den
  let twice := 2 * (num % den)
  if twice < den then low
  else if den < twice then low + 1
  else low + low % 2

theorem roundHalfEven_exact (n : Nat) {d : Nat} (hd : 0 < d) : roundHalfEven (n * d) d = n := by
  simp [roundHalfEven, Nat.mul_div_cancel _ hd, hd]

theorem roundHalfEven_scale (num den : Nat) {k : Nat} (hk : 0 < k) :
    roundHalfEven (k * num) (k * den) = roundHalfEven num den := by
  have hm : k * num % (k * den) = k * (num % den) := Nat.mul_mod_mul_left k num den
  have hlt (a b : Nat) : 2 * (k * a) < k * b ↔ 2 * a < b := by
    rw [Nat.mul_left_comm]; exact Nat.mul_lt_mul_left hk
  have hgt (a b : Nat) : k * b < 2 * (k * a) ↔ b < 2 * a := by
    rw [Nat.mul_left_comm 2]; exact Nat.mul_lt_mul_left hk
  simp only [roundHalfEven, Nat.mul_div_mul_left num den hk, hm, hlt, hgt]

/-- The rank nearest to a quotient, which may be `limit` or more. -/
def rankOfRatio (num den : Nat) : Nat :=
  let up := (num * unit / den).log2 - 52
  up * stepsPerBinade + roundHalfEven (num * unit) (den * Nat.pow 2 up)

theorem rankOfRatio_scale (num den : Nat) {k : Nat} (hk : 0 < k) :
    rankOfRatio (k * num) (k * den) = rankOfRatio num den := by
  simp only [rankOfRatio, Nat.mul_assoc, Nat.mul_div_mul_left _ _ hk, roundHalfEven_scale _ _ hk]

/-- The number nearest to a quotient with a sign; beyond the largest finite number it is infinite.
-/
def ofRatio (negative : Bool) (num den : Nat) : Binary64 :=
  let rank := rankOfRatio num den
  if rank < limit then .finite negative rank else .infinite negative

theorem ofRatio_scale (negative : Bool) (num den : Nat) {k : Nat} (hk : 0 < k) :
    ofRatio negative (k * num) (k * den) = ofRatio negative num den := by
  simp only [ofRatio, rankOfRatio_scale _ _ hk]

theorem log2_eq {n k : Nat} (hl : Nat.pow 2 k ≤ n) (hu : n < Nat.pow 2 (k + 1)) :
    n.log2 = k := by
  have hn : n ≠ 0 := fun h => by
    have hp : 0 < Nat.pow 2 k := Nat.two_pow_pos k
    omega
  have h₁ : k ≤ n.log2 := (Nat.le_log2 hn).2 hl
  have h₂ : n.log2 < k + 1 := (Nat.log2_lt hn).2 hu
  omega

theorem rankOfRatio_scaled (rank : Nat) : rankOfRatio (scaled rank) unit = rank := by
  have hunit := unit_pos
  have hup : (scaled rank).log2 - 52 = doublings rank := by
    by_cases h : rank < stepsPerBinade
    · have hd : doublings rank = 0 := by simp [doublings, Nat.div_eq_of_lt h]
      have hs : scaled rank = rank := by simp [scaled, significand, h, hd]
      rw [hs, hd]
      by_cases h0 : rank = 0
      · subst h0; rfl
      · have : rank.log2 < 52 := (Nat.log2_lt h0).2 h
        omega
    · have hm : rank % stepsPerBinade < Nat.pow 2 52 := Nat.mod_lt _ (Nat.two_pow_pos 52)
      have hs : scaled rank =
          (Nat.pow 2 52 + rank % stepsPerBinade) * Nat.pow 2 (doublings rank) := by
        simp only [scaled, significand, if_neg h]
        rfl
      have hp : 0 < Nat.pow 2 (doublings rank) := Nat.two_pow_pos _
      have hadd (k : Nat) : Nat.pow 2 (k + doublings rank) =
          Nat.pow 2 k * Nat.pow 2 (doublings rank) :=
        Nat.pow_add 2 k _
      rw [hs, log2_eq (k := 52 + doublings rank)]
      · omega
      · rw [hadd]
        exact Nat.mul_le_mul_right _ (by omega)
      · rw [Nat.add_right_comm, hadd]
        have h53 : Nat.pow 2 (52 + 1) = 2 * Nat.pow 2 52 := rfl
        exact Nat.mul_lt_mul_of_pos_right (by omega) hp
  have hround : roundHalfEven (scaled rank * unit) (unit * Nat.pow 2 (doublings rank)) =
      significand rank := by
    rw [scaled, Nat.mul_assoc, Nat.mul_comm (Nat.pow 2 (doublings rank)) unit]
    exact roundHalfEven_exact _ (Nat.mul_pos hunit (Nat.two_pow_pos _))
  simp only [rankOfRatio, Nat.mul_div_cancel _ hunit, hup, hround]
  by_cases h : rank < stepsPerBinade
  · simp [doublings, significand, h, Nat.div_eq_of_lt h]
  · have h₁ := Nat.div_add_mod rank stepsPerBinade
    have h₂ : 1 ≤ rank / stepsPerBinade :=
      (Nat.le_div_iff_mul_le (Nat.two_pow_pos 52)).2 (by rw [Nat.one_mul]; exact Nat.le_of_not_lt h)
    obtain ⟨k, hk⟩ := Nat.exists_eq_add_of_le' h₂
    simp only [doublings, significand, h, if_false, hk, Nat.add_sub_cancel] at h₁ ⊢
    rw [Nat.mul_add, Nat.mul_one, Nat.mul_comm] at h₁
    omega

theorem ofRatio_scaled (negative : Bool) {rank : Nat} (h : rank < limit) :
    ofRatio negative (scaled rank) unit = .finite negative rank := by
  simp [ofRatio, rankOfRatio_scaled, h]

example : ofRatio false 1 2 = .finite false (1022 * stepsPerBinade) := by decide +kernel

def ofDecimal (negative : Bool) (d : Decimal) : Binary64 :=
  match d.exponent with
  | .ofNat e => ofRatio negative (d.digits * Nat.pow 10 e) 1
  | .negSucc e => ofRatio negative d.digits (Nat.pow 10 (e + 1))

theorem ofDecimal_neg (negative : Bool) (n e : Nat) :
    ofDecimal negative ⟨n, -(e : Int)⟩ = ofRatio negative n (Nat.pow 10 e) := by
  cases e with
  | zero =>
    change ofRatio negative (n * 1) 1 = _
    rw [Nat.mul_one]
  | succ e => rfl

theorem ofDecimal_shift (negative : Bool) (n : Nat) (e : Int) :
    ofDecimal negative ⟨n * 10, e⟩ = ofDecimal negative ⟨n, e + 1⟩ := by
  match e with
  | .ofNat e =>
    change ofRatio negative (n * 10 * Nat.pow 10 e) 1 = ofRatio negative (n * (Nat.pow 10 e * 10)) 1
    rw [Nat.mul_assoc, Nat.mul_comm 10]
  | .negSucc 0 =>
    change ofRatio negative (n * 10) (10 * 1) = ofRatio negative (n * 1) 1
    rw [Nat.mul_comm, Nat.mul_one n]
    exact ofRatio_scale negative n 1 (by omega)
  | .negSucc (e + 1) =>
    change ofRatio negative (n * 10) (Nat.pow 10 (e + 1) * 10) =
      ofRatio negative n (Nat.pow 10 (e + 1))
    rw [Nat.mul_comm, Nat.mul_comm (Nat.pow 10 (e + 1))]
    exact ofRatio_scale negative n _ (by omega)

/-- The number nearest to the sum of a natural number and a non-negative number. -/
def addNat (n : Nat) : Binary64 → Binary64
  | .finite _ rank => ofRatio false (n * unit + scaled rank) unit
  | x => x

end Binary64

end Asl
