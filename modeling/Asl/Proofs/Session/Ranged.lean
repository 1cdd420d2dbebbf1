import Asl.Proofs.Session.Judging

/-!
# Scopes in range

Scopes are numbered in the order in which they are opened, and none is ever given up. So a number
that was handed out stays the number of a scope, whatever passes are run later. The first scope of
all is that of the first program that is declared.
-/
namespace Asl

namespace View

/-- The active scopes and those that nodes were noted to open have all been opened. -/
structure Ranged (v : View) : Prop where
  stack : ∀ k ∈ v.stack, k < v.scopes.length
  scopeOf : ∀ n k, v.scopeOf n = some k → k < v.scopes.length

theorem ranged_fresh : Session.fresh.view.Ranged where
  stack k hk := absurd hk List.not_mem_nil
  scopeOf n k hk := by
    simp [Session.view, Session.fresh, AttributeTable.empty, AttributeTable.get] at hk

theorem length_declared (b : View) (root : NodeId) (fs : List Function) :
    (b.declared root fs).scopes.length = b.scopes.length + (fs.length + 1) := by
  simp only [declared, List.length_append, List.length_cons, List.length_map]

theorem Ranged.declared {b : View} (hb : b.Ranged) (root : NodeId) (fs : List Function) :
    (b.declared root fs).Ranged := by
  have hlt : b.scopes.length < (b.declared root fs).scopes.length := by
    rw [length_declared]
    exact Nat.lt_add_of_pos_right (Nat.succ_pos _)
  refine ⟨fun k hk => ?_, fun n k hk => ?_⟩
  · rcases List.mem_cons.1 hk with rfl | hk
    · exact hlt
    · exact Nat.lt_trans (hb.stack k hk) hlt
  · refine writeAll_forall (P := (· < _)) (fun m j hj => ?_) (fun x hx => ?_) hk
    · exact Nat.lt_trans (hb.scopeOf m j hj) hlt
    · rcases List.mem_cons.1 hx with rfl | hx
      · exact hlt
      · obtain ⟨y, hy, rfl⟩ := List.mem_map.1 hx
        rw [length_declared]
        exact Nat.lt_of_lt_of_eq (List.mem_zipIdx hy).2.1 (by omega)

theorem Ranged.enter {v : View} (h : v.Ranged) {k : ScopeId} (hk : k < v.scopes.length) :
    (v.enter k).Ranged where
  stack := List.forall_mem_cons.2 ⟨hk, h.stack⟩
  scopeOf := h.scopeOf

theorem Ranged.leave {v : View} (h : v.Ranged) : v.leave.Ranged where
  stack k hk := h.stack k (List.mem_of_mem_tail hk)
  scopeOf := h.scopeOf

theorem head?_declared (b : View) (root : NodeId) (fs : List Function) :
    (b.declared root fs).scopes.head? =
      b.scopes.head?.or (some (Entry.meaning? (fs.map Function.entry))) := by
  rw [declared, List.head?_append, List.head?_cons]

end View

end Asl
