import Asl.Proofs.Code.Texts
import Asl.Proofs.Lowering.Labels
import Asl.Proofs.Meaning.Machine
import Asl.Proofs.Meaning.Tree

/-!
# Code that follows a tree

A machine follows an act if it comes to a configuration that shows the state behind the act, jams
where the act is stuck, and runs for as many steps as an act that ran out of fuel had rounds. The
machine keeps every register but those of temporaries that were taken meanwhile, so an operand can
be used long after it was given a value.
-/
namespace Asl

variable {D : Domain} {α β : Type}

def Code.At (whole : Code) (pc : Nat) (part : Code) : Prop :=
  ∃ front back, whole = front ++ part ++ back ∧ front.length = pc

namespace Code.At

variable {whole a b : Code} {pc : Nat} {i : Instr}

theorem left (h : Code.At whole pc (a ++ b)) : Code.At whole pc a := by
  obtain ⟨front, back, hwhole, hpc⟩ := h
  exact ⟨front, b ++ back, by rw [hwhole]; simp only [List.append_assoc], hpc⟩

theorem right (h : Code.At whole pc (a ++ b)) : Code.At whole (pc + a.length) b := by
  obtain ⟨front, back, hwhole, hpc⟩ := h
  refine ⟨front ++ a, back, by rw [hwhole]; simp only [List.append_assoc], ?_⟩
  rw [List.length_append, hpc]

theorem head (h : Code.At whole pc (i :: a)) : whole[pc]? = some i := by
  obtain ⟨front, back, hwhole, hpc⟩ := h
  rw [hwhole, ← hpc, List.append_assoc, List.getElem?_append_right (Nat.le_refl _), Nat.sub_self]
  rfl

theorem tail (h : Code.At whole pc (i :: a)) : Code.At whole (pc + 1) a := right (a := [i]) h

end Code.At

theorem Code.label_mem_labels {code : Code} {l : Label} (h : .label l ∈ code) :
    l ∈ code.labels := by
  induction code with
  | nil => cases h
  | cons i code ih =>
    rcases List.mem_cons.1 h with heq | h
    · rw [← heq]
      exact List.mem_cons_self
    · have hmem := ih h
      cases i with
      | label l' => exact List.mem_cons_of_mem _ hmem
      | _ => exact hmem

theorem Machine.find?_of_at {M : Machine D} (hM : M.code.labels.Nodup) {pc : Nat} {l : Label}
    {rest : Code} (h : Code.At M.code pc (.label l :: rest)) : M.find? l = some pc := by
  obtain ⟨front, back, hcode, hpc⟩ := h
  have hfront : front.findIdx? (·.isLabel l.text) = none := by
    refine List.findIdx?_eq_none_iff.2 fun i hi => ?_
    cases i with
    | label l' =>
      refine decide_eq_false fun htext => ?_
      have hl := Code.label_mem_labels hi
      rw [Label.text_injective htext] at hl
      rw [hcode, Code.labels_append, Code.labels_append, List.append_assoc] at hM
      exact (List.nodup_append.1 hM).2.2 l hl l (by simp [Code.labels]) rfl
    | _ => rfl
  have hhere : (Instr.label l).isLabel l.text = true := decide_eq_true rfl
  rw [find?, hcode, List.append_assoc, List.findIdx?_append, hfront, List.cons_append,
    List.findIdx?_cons, hhere]
  simp [hpc]

namespace Machine

variable {M : Machine D} {n : Nat} {c d e : Config D} {s t u : State D}

def Follows (M : Machine D) (n : Nat) (c : Config D) (r : Except Stop α × State D)
    (Q : α → State D → Config D → Prop) : Prop :=
  match r with
  | (.ok a, s) => ∃ d, M.Reaches c d ∧ Q a s d
  | (.error .stuck, _) => M.Jams c
  | (.error .outOfFuel, _) => (M.run n c).isSome = true

theorem Jams.of_reaches (h : M.Reaches c d) (hd : M.Jams d) : M.Jams c := by
  obtain ⟨e, he, hnot, hstep⟩ := hd
  exact ⟨e, h.trans he, hnot, hstep⟩

theorem isSome_run_of_reaches (h : M.Reaches c d) (hd : (M.run n d).isSome = true) :
    (M.run n c).isSome = true := by
  obtain ⟨m, hm⟩ := h
  have hboth : (M.run (m + n) c).isSome = true := by rw [run_add, hm, Option.bind_some, hd]
  exact run_eq_some_of_le hboth (Nat.le_add_left n m)

section

variable {r : Except Stop α × State D} {Q R : α → State D → Config D → Prop}

theorem Follows.of_reaches (h : M.Reaches c d) (hd : M.Follows n d r Q) : M.Follows n c r Q := by
  rcases r with ⟨⟨_ | _⟩ | a, s⟩
  · exact Jams.of_reaches h hd
  · exact isSome_run_of_reaches h hd
  · obtain ⟨e, he, hq⟩ := hd
    exact ⟨e, h.trans he, hq⟩

theorem Follows.onward (h : M.Follows n c r Q)
    (hQ : ∀ a s d, Q a s d → ∃ e, M.Reaches d e ∧ R a s e) : M.Follows n c r R := by
  rcases r with ⟨⟨_ | _⟩ | a, s⟩
  · exact h
  · exact h
  · obtain ⟨d, hd, hq⟩ := h
    obtain ⟨e, he, hr⟩ := hQ a s d hq
    exact ⟨e, hd.trans he, hr⟩

theorem Follows.mono (h : M.Follows n c r Q) (hQ : ∀ a s d, Q a s d → R a s d) :
    M.Follows n c r R :=
  h.onward fun a s d hq => ⟨d, .refl M d, hQ a s d hq⟩

theorem Follows.of_le {m : Nat} (h : M.Follows n c r Q) (hle : m ≤ n) : M.Follows m c r Q := by
  rcases r with ⟨⟨_ | _⟩ | a, s⟩
  · exact h
  · exact run_eq_some_of_le h hle
  · exact h

theorem follows_pure {a : α} (h : Q a s c) : M.Follows n c ((pure a : Act D α).run s) Q :=
  ⟨c, .refl M c, h⟩

theorem Follows.bind {m : Act D α} {f : α → Act D β} {R : β → State D → Config D → Prop}
    (hm : M.Follows n c (m.run s) Q)
    (hf : ∀ a t d, Q a t d → M.Follows n d ((f a).run t) R) :
    M.Follows n c ((m >>= f).run s) R := by
  rw [Attempt.run_bind]
  generalize m.run s = r at hm
  rcases r with ⟨⟨_ | _⟩ | a, t⟩
  · exact hm
  · exact hm
  · obtain ⟨d, hd, hq⟩ := hm
    exact .of_reaches hd (hf a t d hq)

end

theorem reaches_of_execute {i : Instr} (hi : M.code[c.pc]? = some i)
    (hexec : M.execute i c = some d) : M.Reaches c d := by
  refine .one ?_
  rw [step, hi, Option.bind_some, hexec]

theorem jams_of_execute {i : Instr} (hi : M.code[c.pc]? = some i) (hret : i ≠ .ret)
    (hexec : M.execute i c = none) : M.Jams c := by
  refine ⟨c, .refl M c, ?_, ?_⟩
  · intro hhalted
    rcases hhalted with h | h
    · rw [hi] at h
      cases h
    · rw [hi] at h
      exact hret (Option.some.inj h)
  · rw [step, hi, Option.bind_some, hexec]

theorem follows_perform {i : Instr} {E : Effect D α} {k : α → Config D → Config D}
    (hi : M.code[c.pc]? = some i) (hret : i ≠ .ret) (hexec : M.execute i c = c.after E k)
    (hworld : c.world = s.world) :
    M.Follows n c ((Act.perform E).run s) fun a t d =>
      t.frame = s.frame ∧ d = (k a { c with world := t.world }).next := by
  unfold Attempt.run Act.perform
  rw [Config.after, hworld] at hexec
  cases hE : E s.world with
  | none =>
    rw [hE] at hexec
    exact jams_of_execute hi hret hexec
  | some r =>
    rw [hE] at hexec
    exact ⟨_, reaches_of_execute hi hexec, rfl, rfl⟩

end Machine

namespace Machine

variable {M : Machine D} {c : Config D} {l : Label} {o : Operand} {pc : Nat} {rest behind : Code}

theorem passes (hat : Code.At M.code c.pc (.label l :: rest)) : M.Reaches c c.next :=
  reaches_of_execute hat.head rfl

theorem jumps (hM : M.code.labels.Nodup) (hat : Code.At M.code c.pc (.jump l :: rest))
    (hl : Code.At M.code pc (.label l :: behind)) : M.Reaches c { c with pc := pc } := by
  apply reaches_of_execute hat.head
  simp only [execute, jump, find?_of_at hM hl, Option.map_some]

theorem enters (hat : Code.At M.code c.pc (.jumpUnless o l :: rest))
    (ho : M.interpretation.holds (c.get o) = true) : M.Reaches c c.next := by
  apply reaches_of_execute hat.head
  simp only [execute, ho, if_true]

theorem skips (hM : M.code.labels.Nodup) (hat : Code.At M.code c.pc (.jumpUnless o l :: rest))
    (hl : Code.At M.code pc (.label l :: behind))
    (ho : M.interpretation.holds (c.get o) = false) : M.Reaches c { c with pc := pc } := by
  apply reaches_of_execute hat.head
  simp only [execute, ho, jump, find?_of_at hM hl, Option.map_some, Bool.false_eq_true, if_false]

end Machine

/-- Every register is kept but those of temporaries above a number. -/
def Kept (lo : Nat) (R R' : String → D.Value) : Prop :=
  ∀ r, (∀ k, lo < k → (Operand.temp k).text ≠ r) → R' r = R r

/-- The registers of identifiers show the frame. -/
structure Config.Shows (c : Config D) (s : State D) : Prop where
  frame : ∀ x, isIdentifier x = true → c.registers x = s.frame x
  world : c.world = s.world

/-- An operand that keeps its value while temporaries above a number are written. -/
inductive Operand.Stable (lo : Nat) : Operand → Prop
  | temp {k : Nat} : k ≤ lo → Stable lo (.temp k)
  | name {x : String} : isIdentifier x = true → Stable lo (.name x)

theorem Operand.Stable.mono {o : Operand} {lo hi : Nat} (h : o.Stable lo) (hle : lo ≤ hi) :
    o.Stable hi := by
  cases h with
  | temp hk => exact .temp (Nat.le_trans hk hle)
  | name hx => exact .name hx

theorem Operand.Stable.ne {o : Operand} {lo k : Nat} (h : o.Stable lo) (hk : lo < k) :
    (Operand.temp k).text ≠ o.text := by
  cases h with
  | temp hj =>
    intro heq
    have hsame := Operand.text_temp_injective heq
    omega
  | name hx => exact Operand.text_temp_ne_of_isIdentifier hx k

/-- The machine has run through a piece of code without a change to a name. -/
structure Moved (lo : Nat) (code : Code) (c : Config D) (s : State D) (d : Config D)
    (t : State D) : Prop where
  pc : d.pc = c.pc + code.length
  frame : t.frame = s.frame
  kept : Kept lo c.registers d.registers
  world : d.world = t.world

structure Advanced (lo : Nat) (code : Code) (c : Config D) (s : State D) (d : Config D)
    (t : State D) : Prop extends Moved lo code c s d t where
  stack : d.stack = c.stack

theorem Kept.refl (lo : Nat) (R : String → D.Value) : Kept lo R R := fun _ _ => rfl

theorem Kept.trans {lo lo' : Nat} {R R' R'' : String → D.Value} (h : Kept lo R R')
    (h' : Kept lo' R' R'') (hle : lo ≤ lo') : Kept lo R R'' := by
  intro r hr
  rw [h' r fun k hk => hr k (Nat.lt_of_le_of_lt hle hk), h r hr]

theorem Kept.set {lo k : Nat} (hk : lo < k) (R : String → D.Value) (v : D.Value) :
    Kept lo R (Function.update R (Operand.temp k).text v) := by
  intro r hr
  exact Function.update_of_ne (hr k hk).symm v R

theorem Kept.identifier {lo : Nat} {R R' : String → D.Value} (h : Kept lo R R') {x : String}
    (hx : isIdentifier x = true) : R' x = R x :=
  h x fun k _ => Operand.text_temp_ne_of_isIdentifier hx k

section

variable {M : Machine D} {lo lo' : Nat} {a b : Code} {c d e : Config D} {s t u : State D}

namespace Moved

theorem trans (h : Moved lo a c s d t) (h' : Moved lo' b d t e u) (hle : lo ≤ lo') :
    Moved lo (a ++ b) c s e u where
  pc := by rw [h'.pc, h.pc, List.length_append, Nat.add_assoc]
  frame := h'.frame.trans h.frame
  kept := h.kept.trans h'.kept hle
  world := h'.world

theorem shows (h : Moved lo a c s d t) (hs : c.Shows s) : d.Shows t where
  frame x hx := by rw [h.kept.identifier hx, hs.frame x hx, h.frame]
  world := h.world

theorem get (h : Moved lo a c s d t) {o : Operand} (ho : o.Stable lo) : d.get o = c.get o :=
  h.kept o.text fun _ hk => ho.ne hk

theorem codeAt (h : Moved lo a c s d t) (hat : Code.At M.code c.pc (a ++ b)) :
    Code.At M.code d.pc b := by
  rw [h.pc]
  exact hat.right

end Moved

theorem Advanced.refl (lo : Nat) (hs : c.Shows s) : Advanced lo [] c s c s :=
  ⟨⟨rfl, rfl, .refl lo _, hs.world⟩, rfl⟩

theorem Advanced.trans (h : Advanced lo a c s d t) (h' : Advanced lo' b d t e u) (hle : lo ≤ lo') :
    Advanced lo (a ++ b) c s e u :=
  ⟨h.toMoved.trans h'.toMoved hle, h'.stack.trans h.stack⟩

end

namespace Config

@[simp] theorem get_set (c : Config D) (o : Operand) (v : D.Value) : (c.set o v).get o = v := by
  simp only [get, set, Function.update_self]

end Config

namespace Machine

variable {M : Machine D} {n lo k : Nat} {c : Config D} {s : State D} {i : Instr} {rest : Code}

theorem computes {E : Effect D D.Value} (hat : Code.At M.code c.pc (i :: rest)) (hret : i ≠ .ret)
    (hexec : M.execute i c = c.after E fun v d => d.set (.temp k) v) (hk : lo < k)
    (hs : c.Shows s) : M.Follows n c ((Act.perform E).run s) fun v t d =>
      Advanced lo [i] c s d t ∧ d.get (.temp k) = v := by
  refine (follows_perform hat.head hret hexec hs.world).mono fun v t d hres => ?_
  obtain ⟨hframe, hd⟩ := hres
  rw [hd]
  exact ⟨⟨⟨rfl, hframe, .set hk _ v, rfl⟩, rfl⟩, Config.get_set _ _ v⟩

theorem performs {E : Effect D α} (hat : Code.At M.code c.pc (i :: rest)) (hret : i ≠ .ret)
    (hexec : M.execute i c = c.after E fun _ d => d) (hs : c.Shows s) :
    M.Follows n c ((Act.perform E).run s) fun _ t d => Advanced lo [i] c s d t := by
  apply (follows_perform hat.head hret hexec hs.world).mono
  rintro _ t d ⟨hframe, hd⟩
  rw [hd]
  exact ⟨⟨rfl, hframe, .refl lo _, rfl⟩, rfl⟩

theorem moves {v : D.Value} (hat : Code.At M.code c.pc (i :: rest))
    (hexec : M.execute i c = some (c.set (.temp k) v).next) (hk : lo < k) (hs : c.Shows s) :
    ∃ d, M.Reaches c d ∧ Advanced lo [i] c s d s ∧ d.get (.temp k) = v :=
  ⟨_, reaches_of_execute hat.head hexec, ⟨⟨rfl, rfl, .set hk _ v, hs.world⟩, rfl⟩,
    Config.get_set _ _ v⟩

end Machine

end Asl
