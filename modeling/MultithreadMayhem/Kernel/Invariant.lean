import MultithreadMayhem.Kernel.Stack

/-!
# The invariant of the kernel

`Sound` collects what holds in every reachable state: the stacks are well formed,
the locks that a CPU holds are those of the stack it executes, a CPU that executes
a process has its scheduler waiting for that process, and the state of every slot
fits what the threads are doing with it.
-/

namespace MultithreadMayhem.Kernel

variable {n : ℕ} {C : Type}

/-- The locks of the executed stacks are the locks that the CPUs hold. -/
structure Locked (s : State n C) : Prop where
  stack : ∀ t, StackOk t (s.stack t)
  holder : ∀ l c, s.holder l = some c ↔ l ∈ held (s.stack (s.running c))
  nodup : ∀ c, (held (s.stack (s.running c))).Nodup
  noff : ∀ c, s.noff c = (held (s.stack (s.running c))).card

/-- A CPU executes its scheduler, or a process that its scheduler waits for. -/
structure Cpus (s : State n C) : Prop where
  mode : ∀ c, s.running c = .cpu c ∨
    ∃ q, s.running c = .proc q ∧ s.stack (.cpu c) = [.scheduler (.clearProc q)]
  me : ∀ c, s.me c = bottomCurrent (s.stack (.cpu c))
  one : ∀ c c', s.running c = s.running c' → c = c'

def State.Idle (s : State n C) (q : Fin n) : Prop := ∀ c, s.running c ≠ .proc q

/-- The states of the slots fit what the threads are doing. -/
structure Procs (s : State n C) : Prop where
  running : ∀ c q, s.running c = .proc q →
    RunOk (leavingTop (s.stack (.proc q))) (s.shared.states q)
  dispatched : ∀ q, s.Idle q → s.shared.states q = .running →
    ∃ c, Kernel.dispatched (s.stack (.cpu c)) = some q
  resumable : ∀ q, s.Idle q → (s.shared.states q = .runnable ∨ s.shared.states q = .sleeping ∨
    s.shared.states q = .running) → Resumable q (s.stack (.proc q))
  idle : ∀ c q, Kernel.dispatched (s.stack (.cpu c)) = some q → s.Idle q
  known : ∀ c, ∀ e ∈ Kernel.known (s.stack (s.running c)), s.shared.states e.1 = e.2
  built : ∀ t, ∀ j ∈ Kernel.built (s.stack t), s.shared.states j = .used
  builtOnce : ∀ t, (Kernel.built (s.stack t)).Nodup
  builtBy : ∀ t t' j, j ∈ Kernel.built (s.stack t) → j ∈ Kernel.built (s.stack t') → t = t'
  readied : ∀ t, ∀ j ∈ Kernel.readied (s.stack t), s.stack (.proc j) = [.forkret j .release]

structure Sound (s : State n C) : Prop extends Locked s, Cpus s, Procs s

namespace Sound

variable {s : State n C} {c c' : C} {q : Fin n}

theorem holder_of_mem (h : Sound s) {l : Lock n} (hl : l ∈ held (s.stack (s.running c))) :
    s.holder l = some c := (h.holder l c).mpr hl

theorem cpu_eq (h : Sound s) {l : Lock n} (hl : l ∈ held (s.stack (s.running c)))
    (hl' : l ∈ held (s.stack (s.running c'))) : c = c' :=
  Option.some.inj ((h.holder_of_mem hl).symm.trans (h.holder_of_mem hl'))

theorem cpu_of_leaving (h : Sound s) (hr : s.running c = .proc q)
    (hl : leavingTop (s.stack (.proc q)) = true) : Lock.proc q ∈ held (s.stack (s.running c)) := by
  obtain ⟨q', hq', hmem⟩ := leaving_locked (h.stack _) hl
  cases hq'
  rwa [hr]

theorem running_or_locked (h : Sound s) (hr : s.running c = .proc q) :
    s.shared.states q = .running ∨ Lock.proc q ∈ held (s.stack (s.running c)) := by
  have hrun := h.running c q hr
  cases hl : leavingTop (s.stack (.proc q)) with
  | true => exact .inr (h.cpu_of_leaving hr hl)
  | false =>
    rw [hl] at hrun
    exact .inl hrun

theorem idle_of_used (h : Sound s)
    (hq : s.shared.states q = .used ∨ s.shared.states q = .unused) : s.Idle q := by
  intro c hr
  have hrun := h.running c q hr
  cases hl : leavingTop (s.stack (.proc q)) with
  | true =>
    rw [hl] at hrun
    obtain hst | hst | hst := hrun <;> rw [hst] at hq <;> obtain hq | hq := hq <;> cases hq
  | false =>
    rw [hl] at hrun
    rw [show s.shared.states q = .running from hrun] at hq
    obtain hq | hq := hq <;> cases hq

theorem idle_of_locked (h : Sound s) (hl : Lock.proc q ∈ held (s.stack (s.running c)))
    (hc : s.running c ≠ .proc q) (hq : s.shared.states q ≠ .running) : s.Idle q := by
  intro c' hr
  obtain hrun | hl' := h.running_or_locked hr
  · exact hq hrun
  · rw [h.cpu_eq hl hl'] at hc
    exact hc hr

theorem not_leaving (h : Sound s) (hr : s.running c = .proc q)
    (hl : leavingTop (s.stack (.proc q)) = false) : s.shared.states q = .running := by
  have hrun := h.running c q hr
  rw [hl] at hrun
  exact hrun

theorem running_of_dispatched (h : Sound s) (hd : Kernel.dispatched (s.stack (.cpu c)) = some q) :
    s.running c = .cpu c := by
  obtain hc | ⟨q', _, hstack⟩ := h.mode c
  · exact hc
  · rw [hstack] at hd
    cases hd

end Sound

end MultithreadMayhem.Kernel
