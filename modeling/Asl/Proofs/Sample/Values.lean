import Asl.Proofs.Token.Written
import Asl.Sample.Program
import Asl.Typing

/-!
# Drawn values

What every outcome of a draw satisfies, one rule for each way of drawing. From these rules, every
literal that a sample program can hold has the type that it was drawn for and can be written down:
a drawn float is far below the largest finite number, and drawn raw texts are made of whole units.
-/
namespace Asl

namespace Draw

variable {α β : Type} {p : α → Prop} {q : β → Prop} {d : Draw α}

theorem always_of_forall (h : ∀ a, p a) : Always d p := fun _ => h _

theorem Always.mono {r : α → Prop} (hd : Always d p) (h : ∀ a, p a → r a) : Always d r :=
  fun s => h _ (hd s)

/-- A draw whose outcome is only looked at by the draws after it. -/
theorem always_then {f : α → Draw β} (h : ∀ a, Always (f a) q) : Always (d >>= f) q :=
  always_bind (p := fun _ => True) (always_of_forall fun _ => trivial) fun a _ => h a

theorem always_byte : Always byte (· < 256) := fun s => (s.byte s.drawn).toNat_lt

theorem always_oneOf {first : α} {others : List α} (h : ∀ a ∈ first :: others, p a) :
    Always (oneOf first others) p := by
  refine always_bind (always_below (Nat.succ_pos _)) fun k hk => always_pure (h _ ?_)
  have hlt : k < (first :: others).length := hk
  rw [List.getD_eq_getElem?_getD, List.getElem?_eq_getElem hlt, Option.getD_some]
  exact List.getElem_mem hlt

theorem always_oneOf? (xs : List α) :
    Always (oneOf? xs) fun o => (o = none ∧ xs = []) ∨ ∃ x ∈ xs, o = some x := by
  cases xs with
  | nil => exact always_pure (Or.inl ⟨rfl, rfl⟩)
  | cons x xs =>
    refine always_bind (always_oneOf fun a ha => ha) fun a ha => ?_
    exact always_pure (Or.inr ⟨a, ha, rfl⟩)

theorem always_replicate (hd : Always d p) (n : Nat) :
    Always (replicate d n) fun xs => xs.length = n ∧ ∀ x ∈ xs, p x := by
  induction n with
  | zero => exact always_pure ⟨rfl, fun x hx => absurd hx List.not_mem_nil⟩
  | succ n ih =>
    refine always_bind hd fun x hx => always_bind ih fun xs hxs => ?_
    exact always_pure ⟨congrArg Nat.succ hxs.1, List.forall_mem_cons.2 ⟨hx, hxs.2⟩⟩

end Draw

namespace Binary64

theorem roundHalfEven_le (num den : Nat) : roundHalfEven num den ≤ num / den + 1 := by
  simp only [roundHalfEven]
  split
  · omega
  · split
    · omega
    · omega

theorem rankOfRatio_le {num den k : Nat} (h : num * unit / den < Nat.pow 2 (k + 53)) :
    rankOfRatio num den ≤ (k + 2) * stepsPerBinade := by
  generalize hq : num * unit / den = q at h
  have hup : q.log2 - 52 ≤ k := by
    by_cases hzero : q = 0
    · rw [hzero]
      exact Nat.zero_le k
    · have hlog := (Nat.log2_lt hzero).2 h
      omega
  have hround : roundHalfEven (num * unit) (den * Nat.pow 2 (q.log2 - 52)) ≤
      2 * stepsPerBinade := by
    have hlt : q < Nat.pow 2 (q.log2 - 52) * (2 * stepsPerBinade) := by
      have hpow : Nat.pow 2 (q.log2 - 52 + 53) =
          Nat.pow 2 (q.log2 - 52) * (2 * stepsPerBinade) := Nat.pow_add 2 _ 53
      rw [← hpow]
      refine Nat.lt_of_lt_of_le Nat.lt_log2_self (Nat.pow_le_pow_right (by decide) ?_)
      omega
    have hdiv : num * unit / (den * Nat.pow 2 (q.log2 - 52)) < 2 * stepsPerBinade := by
      rw [← Nat.div_div_eq_div_mul, hq]
      exact Nat.div_lt_of_lt_mul hlt
    exact Nat.le_trans (roundHalfEven_le _ _) hdiv
  simp only [rankOfRatio, hq]
  rw [Nat.add_mul]
  exact Nat.add_le_add (Nat.mul_le_mul_right _ hup) hround

theorem scaled_lt (rank : Nat) :
    scaled rank < 2 * stepsPerBinade * Nat.pow 2 (doublings rank) := by
  refine Nat.mul_lt_mul_of_pos_right ?_ (Nat.two_pow_pos _)
  have hmod : rank % stepsPerBinade < stepsPerBinade := Nat.mod_lt _ (Nat.two_pow_pos 52)
  rw [significand]
  split
  · omega
  · omega

theorem pow_mul_unit (k : Nat) : Nat.pow 2 k * unit = Nat.pow 2 (k + 1021 + 53) := by
  have hexponent : unitExponent = 1074 := by rw [unitExponent]
  have hadd : Nat.pow 2 (k + unitExponent) = Nat.pow 2 k * unit := Nat.pow_add 2 k unitExponent
  rw [← hadd, hexponent]

theorem ofRatio_eq_of_lt {num den k : Nat} (h : num * unit / den < Nat.pow 2 k * unit)
    (hk : k ≤ 1023) :
    ∃ rank, rank ≤ (k + 1023) * stepsPerBinade ∧ ofRatio false num den = .finite false rank := by
  rw [pow_mul_unit] at h
  have hle := rankOfRatio_le h
  have hlimit : rankOfRatio num den < limit :=
    Nat.lt_of_le_of_lt hle (Nat.mul_lt_mul_of_pos_right (by omega) (Nat.two_pow_pos 52))
  exact ⟨rankOfRatio num den, hle, if_pos hlimit⟩

theorem scaled_lt_of_le {rank k : Nat} (h : rank ≤ (k + 1023) * stepsPerBinade) :
    scaled rank < Nat.pow 2 (k + 1) * unit := by
  have hdoublings : doublings rank ≤ k + 1022 := by
    rw [Nat.mul_comm] at h
    exact Nat.sub_le_sub_right (Nat.div_le_of_le_mul h) 1
  have hpow : Nat.pow 2 (53 + (k + 1022)) = 2 * stepsPerBinade * Nat.pow 2 (k + 1022) :=
    Nat.pow_add 2 53 _
  have hsum : k + 1 + 1021 + 53 = 53 + (k + 1022) := by omega
  rw [pow_mul_unit, hsum, hpow]
  refine Nat.lt_of_lt_of_le (scaled_lt rank) ?_
  exact Nat.mul_le_mul_left _ (Nat.pow_le_pow_right (by decide) hdoublings)

theorem addNat_hundredths {whole n : Nat} (hwhole : whole < 256) (hn : n < 100) :
    ∃ rank, rank < limit ∧ addNat whole (ofRatio false n 100) = .finite false rank := by
  have hhundredths : n * unit / 100 < Nat.pow 2 0 * unit := by
    rw [Nat.one_mul]
    exact Nat.div_lt_of_lt_mul (Nat.mul_lt_mul_of_pos_right hn unit_pos)
  obtain ⟨part, hpart, heq⟩ := ofRatio_eq_of_lt hhundredths (by decide)
  have hsum : (whole * unit + scaled part) * unit / unit < Nat.pow 2 9 * unit := by
    rw [Nat.mul_div_cancel _ unit_pos]
    have hbelow : scaled part < 2 * unit := scaled_lt_of_le hpart
    have hmul := Nat.mul_lt_mul_of_pos_right hwhole unit_pos
    change whole * unit + scaled part < 512 * unit
    omega
  obtain ⟨rank, hrank, hadd⟩ := ofRatio_eq_of_lt hsum (by decide)
  refine ⟨rank, Nat.lt_of_le_of_lt hrank ?_, ?_⟩
  · exact Nat.mul_lt_mul_of_pos_right (by decide) (Nat.two_pow_pos 52)
  · rw [heq]
    exact hadd

end Binary64

namespace Sample

open Draw

theorem always_charText : Always charText fun raw => RawChar raw.toList := by
  refine always_oneOf fun raw hraw => ?_
  simp only [List.mem_cons, List.not_mem_nil, or_false] at hraw
  rcases hraw with rfl | rfl | rfl | rfl | rfl | rfl | rfl
  · exact .plain (by decide) (by decide) (by decide)
  · exact .plain (by decide) (by decide) (by decide)
  · exact .plain (by decide) (by decide) (by decide)
  · exact .plain (by decide) (by decide) (by decide)
  · exact .plain (by decide) (by decide) (by decide)
  · exact .escaped (by decide)
  · exact .escaped (by decide)

theorem always_floatValue : Always floatValue fun x => (TokenKind.float x).Written := by
  refine always_bind always_byte fun whole hwhole => ?_
  refine always_bind (always_below (by decide)) fun hundredths hhundredths => always_pure ?_
  exact Binary64.addNat_hundredths hwhole hhundredths

theorem always_literal (t : BaseType) :
    Always (literal t) fun v => v.type = .ofBase t ∧ v.token.Written := by
  cases t with
  | int =>
    refine always_bind always_byte fun n hn => always_pure ⟨rfl, Int.natCast_nonneg n, ?_⟩
    exact Int.lt_trans (Int.ofNat_lt.2 hn) (by decide)
  | float => exact always_bind always_floatValue fun x hx => always_pure ⟨rfl, hx⟩
  | bool => exact always_then fun b => always_pure ⟨rfl, trivial⟩
  | char => exact always_bind always_charText fun raw hraw => always_pure ⟨rfl, hraw⟩

theorem rawText_join {pieces : List String} (h : ∀ s ∈ pieces, RawText s.toList) :
    RawText (String.join pieces).toList := by
  induction pieces with
  | nil => rfl
  | cons s pieces ih =>
    obtain ⟨hs, hpieces⟩ := List.forall_mem_cons.1 h
    rw [String.join_cons, String.toList_append]
    exact hs.append (ih hpieces)

theorem always_rawText : Always rawText fun raw => RawText raw.toList := by
  refine always_then fun length => ?_
  refine always_bind (p := fun pieces => ∀ s ∈ pieces, RawText s.toList) ?_ fun pieces hpieces => ?_
  · refine (always_replicate (always_oneOf ?_) _).mono fun _ h => h.2
    decide +kernel
  · exact always_pure (rawText_join hpieces)

end Sample

end Asl
