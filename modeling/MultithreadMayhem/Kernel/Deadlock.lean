import MultithreadMayhem.Foundation.LockOrder
import MultithreadMayhem.Kernel.Switch

/-!
# No deadlock among the locks of `proc.c`

`wait_lock` comes first, then the locks of the table in the order of the slots, then
`pid_lock`. The scheduler keeps this order since it holds the lock of a lower slot
only while it takes that of a higher one.
-/

namespace MultithreadMayhem.Kernel

open Foundation

variable {n nofile : ℕ} {C : Type} [DecidableEq C] {b : C} {s : State n C}

/-- The CPUs that are about to take a lock of `proc.c`, and the CPUs that hold the locks. -/
def State.locks (nofile : ℕ) (s : State n C) : LockTable C (Lock n) where
  wants := fun c l => l.isKernel = true ∧ ∃ f rest x next, s.stack (s.running c) = f :: rest ∧
    code (s.ctx nofile c x) f = .acquire l next
  holder := s.holder

theorem Sound.ordered (h : Sound s) : (s.locks nofile).Ordered Lock.rank := by
  rintro c l ⟨hl, f, rest, x, next, hs, ha⟩ l' hl'
  have hd := h.disciplined hs ha
  have hmem := (h.holder l' c).mp hl'
  rw [hs, held_cons] at hmem
  exact hd.2.2.2 hl l' hmem

/-- No CPU waits for itself, each chain of CPUs that wait for each other's locks ends at a CPU that
does not wait for a lock of `proc.c`, and no CPU takes such a lock twice. -/
theorem no_deadlock_of_reachable (hs : (kernel n nofile b).Reachable s) :
    (∀ c, ¬Relation.TransGen (s.locks nofile).Waits c c) ∧
      (WellFounded fun c' c => (s.locks nofile).Waits c c') ∧
      (∀ c, ∃ c', Relation.ReflTransGen (s.locks nofile).Waits c c' ∧ ¬(s.locks nofile).Spins c') ∧
      ∀ c l, (s.locks nofile).wants c l → s.holder l ≠ some c := by
  have hordered : (s.locks nofile).Ordered Lock.rank := (Sound.of_reachable hs).ordered
  have hbound (c : C) (l : Lock n) (_ : (s.locks nofile).wants c l) : l.rank < n + 3 := l.rank_lt
  exact ⟨hordered.acyclic hbound, hordered.wellFounded hbound, hordered.exists_end hbound,
    fun c l => hordered.not_holder⟩

theorem no_deadlock_of_reachable_contended : ∃ s : State 1 (Fin 2), (kernel 1 0 0).Reachable s ∧
    (s.locks 0).Waits 1 0 ∧
    ∃ c, Relation.ReflTransGen (s.locks 0).Waits 1 c ∧ ¬(s.locks 0).Spins c := by
  -- the first CPU boots a table with one slot and dispatches the first process; the second CPU
  -- scans the table meanwhile
  let labels : List (Fin 2 × Choice) :=
    List.replicate 14 (0, .run) ++ (0, .alloc 0) :: List.replicate 15 (0, .run) ++
      List.replicate 3 (1, .run)
  have hrun : ∃ s : State 1 (Fin 2),
      (kernel 1 0 0).run (kernel 1 0 0).init labels = some s ∧
        s.stack (s.running 1) = [.scheduler (.acquire 0 none)] ∧ s.holder (.proc 0) = some 0 :=
    ⟨_, rfl, rfl, rfl⟩
  obtain ⟨s, hs, hstack, hholder⟩ := hrun
  have hr := System.reachable_of_run _ hs
  exact ⟨s, hr, ⟨.proc 0, ⟨rfl, _, _, .run, _, hstack, rfl⟩, hholder⟩,
    (no_deadlock_of_reachable hr).2.2.1 1⟩

end MultithreadMayhem.Kernel
