import MultithreadMayhem.BoundedBuffer.Histories
import MultithreadMayhem.SemBuffer.Histories

/-!
# The two bounded buffers are interchangeable

Both implement the atomic buffer, so a history of one is a history of the other,
and the two stop after the same histories.
-/

namespace MultithreadMayhem.Buffer

open Foundation Pthread

variable {T : Type} [Fintype T] [DecidableEq T]

/-- The two buffers have the same histories. After such a history the one can be stuck, at once or
after further accesses, exactly when the other can. In both buffers the gets of a history are those
of the calls: a thread between two calls has been returned the values of its gets. -/
theorem interchangeable {cap : ℕ} (hcap : 0 < cap) (mem₁ mem₂ : ℕ → Int) (ops : T → List Op)
    (h : List (Access T Int)) :
    let M := BoundedBuffer.bufferSystem (programs T) cap mem₁ () (callers ops)
    let N := SemBuffer.bufferSystem (programs T) cap mem₂ () (callers ops)
    ((∃ s, M.Reachable s ∧ s.shared.history = h) ↔ ∃ s, N.Reachable s ∧ s.shared.history = h) ∧
    ((∃ s, M.Reachable s ∧ s.shared.history = h ∧
        ¬ CanStep (BoundedBuffer.code (programs T)) s) ↔
      ∃ s, N.Reachable s ∧ s.shared.history = h ∧ ¬ CanStep (SemBuffer.code (programs T)) s) ∧
    ((∃ s s', M.Reachable s ∧ s.shared.history = h ∧ M.Path (fun _ => True) s s' ∧
        ¬ CanStep (BoundedBuffer.code (programs T)) s') ↔
      ∃ s s', N.Reachable s ∧ s.shared.history = h ∧ N.Path (fun _ => True) s s' ∧
        ¬ CanStep (SemBuffer.code (programs T)) s') ∧
    (∀ s, M.Reachable s → ∀ t p, s.status t = .running (.client p) →
      p.returned = BoundedQueue.takenBy t s.shared.history) ∧
    ∀ s, N.Reachable s → ∀ t p, s.status t = .running (.client p) →
      p.returned = BoundedQueue.takenBy t s.shared.history := by
  intro M N
  have hM := BoundedBuffer.implements_atomic hcap mem₁ ops
  have hN := SemBuffer.implements_atomic hcap mem₂ ops
  exact ⟨(hM.history_iff h).trans (hN.history_iff h).symm,
    (hM.stuck_iff h).trans (hN.stuck_iff h).symm,
    (hM.continues_iff h).trans (hN.continues_iff h).symm,
    fun _ hs _ _ => BoundedBuffer.returned_eq hs, fun _ hs _ _ => SemBuffer.returned_eq rfl hs⟩

theorem interchangeable_handed_over :
    let ops : Fin 2 → List Op := fun t => if t = 0 then [.put 7] else [.get]
    ∃ s, (SemBuffer.bufferSystem (programs (Fin 2)) 1 (fun _ => 0) () (callers ops)).Reachable s ∧
      s.shared.history = [.put 0 7, .get 1 7] := by
  intro ops
  refine (interchangeable Nat.one_pos (fun _ => 0) (fun _ => 0) ops _).1.mp ?_
  exact ⟨_, System.reachable_of_run (List.replicate 8 (Label.run 0) ++ List.replicate 8 (Label.run 1))
    rfl, rfl⟩

end MultithreadMayhem.Buffer
