/-!
# Attempts

An attempt changes a state and then gives a value or fails. A failure keeps the state as it was
when the attempt failed, so that what has been done before a failure can still be seen. Reading a
token list, running a pass of the compiler and generating code are attempts on different states.
-/
namespace Asl

def Attempt (ε σ α : Type) : Type := σ → Except ε α × σ

namespace Attempt

variable {ε σ α β : Type}

def run (p : Attempt ε σ α) (s : σ) : Except ε α × σ := p s

def fail (e : ε) : Attempt ε σ α := fun s => (.error e, s)

def ofExcept (r : Except ε α) : Attempt ε σ α := fun s => (r, s)

def get : Attempt ε σ σ := fun s => (.ok s, s)

def set (s : σ) : Attempt ε σ Unit := fun _ => (.ok (), s)

def modify (f : σ → σ) : Attempt ε σ Unit := fun s => (.ok (), f s)

instance : Monad (Attempt ε σ) where
  pure a := fun s => (.ok a, s)
  bind p f := fun s =>
    match p s with
    | (.ok a, t) => f a t
    | (.error e, t) => (.error e, t)

@[simp] theorem run_pure (a : α) (s : σ) : (pure a : Attempt ε σ α).run s = (.ok a, s) := rfl

@[simp] theorem run_fail (e : ε) (s : σ) : (fail e : Attempt ε σ α).run s = (.error e, s) := rfl

@[simp] theorem run_ofExcept (r : Except ε α) (s : σ) : (ofExcept r).run s = (r, s) := rfl

@[simp] theorem run_get (s : σ) : (get : Attempt ε σ σ).run s = (.ok s, s) := rfl

@[simp] theorem run_set (t s : σ) : (set t : Attempt ε σ Unit).run s = (.ok (), t) := rfl

@[simp] theorem run_modify (f : σ → σ) (s : σ) :
    (modify f : Attempt ε σ Unit).run s = (.ok (), f s) := rfl

theorem run_bind (p : Attempt ε σ α) (f : α → Attempt ε σ β) (s : σ) :
    (p >>= f).run s = match p.run s with
      | (.ok a, t) => (f a).run t
      | (.error e, t) => (.error e, t) := rfl

theorem ext {p q : Attempt ε σ α} (h : ∀ s, p.run s = q.run s) : p = q := funext h

instance : LawfulMonad (Attempt ε σ) :=
  LawfulMonad.mk' _
    (fun p => by
      apply ext
      intro s
      change (match p s with
        | (.ok a, t) => (Except.ok a, t)
        | (.error e, t) => (.error e, t)) = p s
      rcases p s with ⟨_ | _, t⟩ <;> rfl)
    (fun _ _ => rfl)
    (fun p f g => by
      apply ext
      intro s
      simp only [run_bind]
      rcases p.run s with ⟨_ | _, t⟩ <;> rfl)

theorem run_bind_eq_ok {p : Attempt ε σ α} {f : α → Attempt ε σ β} {s t : σ} {b : β} :
    (p >>= f).run s = (.ok b, t) ↔ ∃ a m, p.run s = (.ok a, m) ∧ (f a).run m = (.ok b, t) := by
  rw [run_bind]
  rcases p.run s with ⟨_ | a, m⟩
  · simp
  · exact ⟨fun h => ⟨a, m, rfl, h⟩, fun ⟨_, _, h, h'⟩ => by cases h; exact h'⟩

theorem run_bind_eq_error {p : Attempt ε σ α} {f : α → Attempt ε σ β} {s t : σ} {e : ε} :
    (p >>= f).run s = (.error e, t) ↔
      p.run s = (.error e, t) ∨ ∃ a m, p.run s = (.ok a, m) ∧ (f a).run m = (.error e, t) := by
  rw [run_bind]
  rcases p.run s with ⟨_ | a, m⟩
  · simp
  · constructor
    · exact fun h => Or.inr ⟨a, m, rfl, h⟩
    · rintro (h | ⟨_, _, h, h'⟩)
      · cases h
      · cases h; exact h'

end Attempt

end Asl
