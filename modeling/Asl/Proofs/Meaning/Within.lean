import Asl.Proofs.Meaning.Expressions

/-!
# Runs inside a part of the code

A machine may run inside a part of its code only, until it comes to a place outside. Take the same
machine with that part alone, at the same place and behind nothing but returns: wherever it can go,
the machine goes inside the part. So what is known of all machines says of each of them that it does
not leave the code in question.
-/
namespace Asl

variable {D : Domain}

namespace Machine

/-- The machine comes from one configuration to another, over places from `lo` to below `hi`. -/
inductive Within (M : Machine D) (lo hi : Nat) : Config D → Config D → Prop
  | here {c : Config D} : Within M lo hi c c
  | step {c d e : Config D} : lo ≤ c.pc → c.pc < hi → M.step c = some d → Within M lo hi d e →
      Within M lo hi c e

namespace Within

variable {M : Machine D} {lo hi lo' hi' : Nat} {c d e : Config D}

theorem trans (h : M.Within lo hi c d) (h' : M.Within lo hi d e) : M.Within lo hi c e := by
  induction h with
  | here => exact h'
  | step hlo hhi hstep _ ih => exact .step hlo hhi hstep (ih h')

theorem mono (h : M.Within lo hi c d) (hlo : lo' ≤ lo) (hhi : hi ≤ hi') :
    M.Within lo' hi' c d := by
  induction h with
  | here => exact .here
  | step hle hlt hstep _ ih =>
    exact .step (Nat.le_trans hlo hle) (Nat.lt_of_lt_of_le hlt hhi) hstep ih

theorem one (hlo : lo ≤ c.pc) (hhi : c.pc < hi) (hstep : M.step c = some d) :
    M.Within lo hi c d := .step hlo hhi hstep .here

theorem of_execute {i : Instr} (hget : M.code[c.pc]? = some i) (hexec : M.execute i c = some d)
    (hle : lo ≤ c.pc) (hlt : c.pc < hi) : M.Within lo hi c d := by
  refine one hle hlt ?_
  rw [Machine.step, hget, Option.bind_some, hexec]

theorem reaches (h : M.Within lo hi c d) : M.Reaches c d := by
  induction h with
  | here => exact .refl M _
  | step _ _ hstep _ ih => exact (Reaches.one hstep).trans ih

end Within

/-- The machine with a part of its code, at the same place and behind returns. -/
def part (M : Machine D) (pc : Nat) (code : Code) : Machine D :=
  { M with code := List.replicate pc .ret ++ code }

section

variable {M : Machine D} {Γ : Context} {pc : Nat} {code : Code} {c d : Config D}

theorem part_at (M : Machine D) (pc : Nat) (code : Code) :
    Code.At (M.part pc code).code pc code :=
  ⟨List.replicate pc .ret, [], (List.append_nil _).symm, List.length_replicate⟩

theorem labels_part (M : Machine D) (pc : Nat) (code : Code) :
    (M.part pc code).code.labels = code.labels := by
  have hreturns : Code.labels (List.replicate pc .ret) = [] := by
    induction pc with
    | zero => rfl
    | succ pc ih => exact ih
  rw [part, Code.labels_append, hreturns, List.nil_append]

theorem nodup_labels_of_at (hM : M.code.labels.Nodup) (hat : Code.At M.code pc code) :
    code.labels.Nodup := by
  obtain ⟨front, back, hcode, -⟩ := hat
  rw [hcode, Code.labels_append, Code.labels_append] at hM
  exact (List.nodup_append.1 (List.nodup_append.1 hM).1).2.1

theorem Suits.part (hM : M.Suits Γ) (hat : Code.At M.code pc code) : (M.part pc code).Suits Γ where
  labels := by
    rw [labels_part]
    exact nodup_labels_of_at hM.labels hat
  names := hM.names
  headers := hM.headers

theorem getElem?_part (hat : Code.At M.code pc code) {q : Nat} {i : Instr} (hret : i ≠ .ret)
    (h : (M.part pc code).code[q]? = some i) :
    pc ≤ q ∧ q < pc + code.length ∧ M.code[q]? = some i := by
  obtain ⟨front, back, hcode, hpc⟩ := hat
  rw [part] at h
  have hle : pc ≤ q := by
    by_contra hlt
    have hfront : (List.replicate pc Instr.ret ++ code)[q]? = some .ret := by
      rw [List.getElem?_append_left (by simpa using hlt),
        List.getElem?_replicate_of_lt (Nat.lt_of_not_le hlt)]
    rw [hfront] at h
    exact hret (Option.some.inj h).symm
  rw [List.getElem?_append_right (by simpa using hle), List.length_replicate] at h
  have hlt : q - pc < code.length := (List.getElem?_eq_some_iff.1 h).1
  refine ⟨hle, by omega, ?_⟩
  rw [hcode, List.append_assoc, List.getElem?_append_right (by omega), hpc,
    List.getElem?_append_left hlt]
  exact h

theorem find?_part (hM : M.code.labels.Nodup) (hat : Code.At M.code pc code) {l : Label} {q : Nat}
    (h : (M.part pc code).find? l = some q) : M.find? l = some q := by
  obtain ⟨hlt, hlabel, -⟩ := List.findIdx?_eq_some_iff_getElem.1 h
  have hget := List.getElem?_eq_getElem hlt
  generalize (M.part pc code).code[q] = i at hlabel hget
  cases i with
  | label l' =>
    rw [Label.text_injective (of_decide_eq_true hlabel)] at hget
    obtain ⟨-, -, hwhole⟩ := getElem?_part (i := .label l) hat (by rintro ⟨⟩) hget
    obtain ⟨hq, hthere⟩ := List.getElem?_eq_some_iff.1 hwhole
    have hat' : Code.At M.code q (.label l :: M.code.drop (q + 1)) := by
      refine ⟨M.code.take q, [], ?_, List.length_take_of_le (Nat.le_of_lt hq)⟩
      rw [List.append_nil, ← hthere, List.getElem_cons_drop, List.take_append_drop]
    exact find?_of_at hM hat'
  | _ => cases hlabel

theorem step_of_part (hM : M.code.labels.Nodup) (hat : Code.At M.code pc code)
    (h : (M.part pc code).step c = some d) :
    pc ≤ c.pc ∧ c.pc < pc + code.length ∧ M.step c = some d := by
  obtain ⟨i, hi, hexec⟩ := Option.bind_eq_some_iff.1 h
  have hret : i ≠ .ret := by
    rintro rfl
    cases hexec
  obtain ⟨hle, hlt, hwhole⟩ := getElem?_part hat hret hi
  have hjump {l : Label} (hl : (M.part pc code).jump l c = some d) : M.jump l c = some d := by
    obtain ⟨q, hq, rfl⟩ := Option.map_eq_some_iff.1 hl
    exact Option.map_eq_some_iff.2 ⟨q, find?_part hM hat hq, rfl⟩
  refine ⟨hle, hlt, ?_⟩
  rw [step, hwhole, Option.bind_some]
  cases i with
  | jump l => exact hjump hexec
  | jumpUnless o l =>
    have hsame : (M.part pc code).interpretation = M.interpretation := rfl
    simp only [execute, hsame] at hexec ⊢
    by_cases ho : M.interpretation.holds (c.get o) = true
    · rw [if_pos ho] at hexec ⊢
      exact hexec
    · rw [if_neg ho] at hexec ⊢
      exact hjump hexec
  | push src | pop src => cases src <;> exact hexec
  | _ => exact hexec

theorem Reaches.within (hM : M.code.labels.Nodup) (hat : Code.At M.code pc code)
    (h : (M.part pc code).Reaches c d) : M.Within pc (pc + code.length) c d := by
  obtain ⟨n, hn⟩ := h
  induction n generalizing c with
  | zero =>
    cases hn
    exact .here
  | succ n ih =>
    rw [run] at hn
    obtain ⟨e, hstep, hrest⟩ := Option.bind_eq_some_iff.1 hn
    obtain ⟨hle, hlt, hwhole⟩ := step_of_part hM hat hstep
    exact .step hle hlt hwhole (ih hrest)

theorem Follows.within {α : Type} {n : Nat} {a : α} {u : State D}
    {Q : α → State D → Config D → Prop} (hM : M.code.labels.Nodup) (hat : Code.At M.code pc code)
    (h : (M.part pc code).Follows n c (.ok a, u) Q) :
    ∃ d, M.Within pc (pc + code.length) c d ∧ Q a u d := by
  obtain ⟨d, hreach, hq⟩ := h
  exact ⟨d, hreach.within hM hat, hq⟩

end

end Machine

end Asl
