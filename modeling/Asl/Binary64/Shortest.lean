import Asl.Binary64.Basic

/-!
# The shortest numeral of a number

Among the decimal numerals that round to a given rank there is a least number of digits. A grid of
numerals with `n` digits has two neighbours of the value, and one of them rounds to the rank if any
numeral of the grid does; so the grids are tried from one digit up, and of two hits the nearer one
is taken, the upper one when they are equally near. Seventeen digits are always enough; the exact
numeral stands behind them, so that the result reads back whatever is known about that.
-/
namespace Asl.Binary64

def digitCount (n : Nat) : Nat := (Nat.toDigits 10 n).length

def leadingExponent (num den : Nat) : Int :=
  if den ≤ num then digitCount (num / den) - 1 else -(digitCount ((den - 1) / num) : Int)

/-- A quotient in units of `10 ^ e`, as a quotient. -/
def inUnits (num den : Nat) : Int → Nat × Nat
  | .ofNat e => (num, den * Nat.pow 10 e)
  | .negSucc e => (num * Nat.pow 10 (e + 1), den)

/-- Whether a numeral rounds to the positive number of a rank. -/
def readsAs (rank : Nat) (d : Decimal) : Bool := ofDecimal false d == .finite false rank

/-- The nearer numeral of the two neighbours in the grid of `10 ^ e` that rounds to the rank. -/
def neighbour? (rank : Nat) (e : Int) : Option Decimal :=
  let (num, den) := inUnits (scaled rank) unit e
  let low : Decimal := ⟨num / den, e⟩
  let high : Decimal := ⟨num / den + 1, e⟩
  match readsAs rank low, readsAs rank high with
  | true, true => if 2 * (num % den) < den then some low else some high
  | true, false => some low
  | false, true => some high
  | false, false => none

/-- The value of a rank written out: a power of two below one is a power of five over one of ten. -/
def exactDecimal (rank : Nat) : Decimal :=
  ⟨scaled rank * Nat.pow 5 unitExponent, -(unitExponent : Int)⟩

/-- The numeral with the fewest digits that rounds to a rank. -/
def shortest (rank : Nat) : Decimal :=
  if rank = 0 then ⟨0, 0⟩
  else
    let lead := leadingExponent (scaled rank) unit
    ((List.range 17).findSome? fun (n : Nat) => neighbour? rank (lead - n)).getD (exactDecimal rank)

theorem readsAs_of_neighbour? {rank : Nat} {e : Int} {d : Decimal}
    (h : neighbour? rank e = some d) : readsAs rank d = true := by
  revert h
  simp only [neighbour?]
  generalize hl : readsAs rank ⟨_, e⟩ = l
  generalize hh : readsAs rank ⟨_ + 1, e⟩ = r
  cases l <;> cases r <;> simp only [reduceCtorEq, false_implies, Option.some.injEq] <;> intro h
  · exact h ▸ hh
  · exact h ▸ hl
  · split at h <;> cases h
    · exact hl
    · exact hh

theorem ten_pow (n : Nat) : Nat.pow 10 n = Nat.pow 5 n * Nat.pow 2 n := Nat.mul_pow 5 2 n

theorem five_pow_pos (n : Nat) : 0 < Nat.pow 5 n := Nat.pow_pos (by omega)

theorem ofDecimal_places (negative : Bool) (n e : Nat) :
    ofDecimal negative ⟨n * Nat.pow 5 e, -(e : Int)⟩ = ofRatio negative n (Nat.pow 2 e) := by
  rw [ofDecimal_neg, ten_pow, Nat.mul_comm, ofRatio_scale _ _ _ (five_pow_pos e)]

theorem readsAs_exactDecimal {rank : Nat} (h : rank < limit) :
    readsAs rank (exactDecimal rank) = true := by
  have hscaled := ofRatio_scaled false h
  rw [unit] at hscaled
  rw [readsAs, exactDecimal, ofDecimal_places, hscaled]
  exact beq_self_eq_true _

theorem readsAs_shortest {rank : Nat} (h : rank < limit) : readsAs rank (shortest rank) = true := by
  by_cases hr : rank = 0
  · subst hr
    decide +kernel
  · simp only [shortest, hr, if_false]
    generalize hf : List.findSome? _ _ = found
    cases found with
    | none => exact readsAs_exactDecimal h
    | some d =>
      obtain ⟨n, _, hn⟩ := List.exists_of_findSome?_eq_some hf
      exact readsAs_of_neighbour? hn

end Asl.Binary64
