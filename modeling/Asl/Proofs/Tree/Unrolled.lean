import Asl.Proofs.Tree.Described

/-!
# How deep parsers call each other

The grammar is unrolled to so many levels of calls, with any readers whatever below. A call either
leaves fewer tokens to the one that is called, or it goes from a construct to one of lower rank. So
as many levels as there are ranks are enough for each token that is left and once more, and what is
below them makes no difference: reading ends. The parser that passes a token is only called behind
the tokens that have been passed and where a token is left, so it may do anything elsewhere.

Unrolled as deep as each construct needs where it stands, the grammar is a fixed point: these
readers do the same when they are called by the grammar once more.
-/
namespace Asl.Parser

open Attempt (fail)

variable {α : Type} {c₀ : Cursor} {n : Nat}

namespace Readers

variable {k k' : Readers}

theorem agree_zero (hk : k.Passing c₀) (hk' : k'.Passing c₀) : k.Agree k' c₀ 0 := by
  refine ⟨hk, hk', fun r c _ hdepth => ?_⟩
  have hpos := r.rank_pos
  rw [Construct.depth] at hdepth
  omega

theorem Passing.unrolled (hk : k.Passing c₀) (n : Nat) : (k.unrolled n).Passing c₀ := by
  induction n with
  | zero => exact hk
  | succ n ih => exact ih

theorem Passing.agree (hk : k.Passing c₀) (hk' : k'.Passing c₀) {i j : Nat} (hi : n ≤ i)
    (hj : n ≤ j) : (k.unrolled i).Agree (k'.unrolled j) c₀ n := by
  induction n generalizing i j with
  | zero => exact agree_zero (hk.unrolled i) (hk'.unrolled j)
  | succ n ih =>
    obtain ⟨i, rfl⟩ := Nat.exists_eq_add_of_lt hi
    obtain ⟨j, rfl⟩ := Nat.exists_eq_add_of_lt hj
    exact (ih (Nat.le_add_right n i) (Nat.le_add_right n j)).next

/-- Below all levels nothing is read. -/
def bottom : Readers := ⟨Parser.advance, fun _ => fail .unexpectedEnd⟩

/-- The grammar, unrolled as deep as each construct needs. -/
def limit : Readers := ⟨Parser.advance, fun r c => (bottom.unrolled (r.depth c)).parse r c⟩

theorem limit_agree (c₀ : Cursor) (n : Nat) : limit.Agree (bottom.unrolled n) c₀ n := by
  have hbottom : bottom.Passing c₀ := fun _ _ _ => rfl
  refine ⟨fun _ _ _ => rfl, hbottom.unrolled n, fun r c hbefore hdepth => ?_⟩
  have hmeets := (hbottom.agree hbottom (Nat.le_refl (r.depth c)) hdepth).parse r c hbefore
    (Nat.le_refl _)
  exact hmeets.of_run rfl rfl

theorem limit_meets (r : Construct α) (c : Cursor) :
    Meets c (limit.parse r) (limit.parse r) (r.description c) := by
  have hmeets := (limit_agree c (r.depth c)).parse r c ⟨[], [], .refl c⟩ (Nat.le_refl _)
  exact hmeets.of_run rfl hmeets.same

theorem limit_once (r : Construct α) : limit.once r = limit.parse r := by
  apply Attempt.ext
  intro c
  have hstart : c.Before c := ⟨[], [], .refl c⟩
  have hbelow := limit_agree c (r.depth c)
  have habove := limit_agree c (r.depth c + 1)
  exact (hbelow.next.parse r c hstart (Nat.le_succ _)).same.trans
    (habove.parse r c hstart (Nat.le_succ _)).same.symm

theorem next_limit : limit.next = limit := by
  rw [next]
  exact congrArg (Readers.mk Parser.advance) (funext fun _ => funext limit_once)

theorem Passing.agree_limit (hk : k.Passing c₀) (n : Nat) : (k.unrolled n).Agree limit c₀ n := by
  induction n with
  | zero => exact agree_zero hk fun _ _ _ => rfl
  | succ n ih =>
    rw [← next_limit]
    exact ih.next

end Readers

end Asl.Parser
