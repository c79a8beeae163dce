import MultithreadMayhem.Kernel.Tidy

/-!
# A child inherits from its parent only

When `kfork` gives the new process to the others, its files, its directory, its size and
its name are those of the parent, and all else is as `allocproc` makes it. Nothing of an
earlier process in the same slot shows.
-/

namespace MultithreadMayhem.Kernel

open Foundation

variable {n nofile : ℕ} {C : Type} [DecidableEq C] {s : State n C}

/-- In every reachable state, a child that `kfork` is about to let go of has what its parent has,
and an unused slot has nothing. -/
theorem child_inherits {b : C} (hs : (kernel n nofile b).Reachable s) :
    (∀ c p np pid, s.Top c (.kfork p (.release np pid)) →
      (∀ fd < nofile, (s.shared.image np).ofile fd = (s.shared.image p).ofile fd) ∧
      (s.shared.image np).cwd = (s.shared.image p).cwd ∧
      (s.shared.image np).sz = (s.shared.image p).sz ∧
      (s.shared.image np).name = (s.shared.image p).name ∧
      (s.shared.proc np).chan = none ∧ (s.shared.proc np).xstate = 0 ∧
      (s.shared.image np).syscalls = 0 ∧ (s.shared.proc np).priority = 31 ∧
      (s.shared.proc np).isThread = 0 ∧ (s.shared.proc np).tgid = (s.shared.proc np).pid) ∧
    ∀ j, s.holder (.proc j) = none → s.shared.states j = .unused →
      (s.shared.image j).trapframe = none ∧ (s.shared.image j).pagetable = none ∧
      (s.shared.image j).sz = 0 ∧ s.shared.parent j = none ∧ (s.shared.proc j).chan = none ∧
      (s.shared.proc j).xstate = 0 ∧ (s.shared.image j).cwd = none ∧
      ∀ fd < nofile, (s.shared.image j).ofile fd = none := by
  have ht : Tidy nofile s := .of_reachable hs
  constructor
  · intro c p np pid hc
    obtain ⟨hnew, hsz, hfiles, hcwd, hname⟩ := ht.made c _ np hc rfl
    exact ⟨hfiles, hcwd, hsz, hname, hnew.chan, hnew.xstate, hnew.syscalls, hnew.priority,
      hnew.isThread, hnew.tgid⟩
  · intro j _ hj
    have hc := ht.unused j hj
    exact ⟨hc.trapframe, hc.pagetable, hc.sz, hc.parent, hc.chan, hc.xstate, hc.noFiles.2,
      hc.noFiles.1⟩

def openedFile : Image :=
  { Image.blank with ofile := fun fd => if fd = 0 then some 5 else none, cwd := some 1, name := "init" }

def openThenFork : List (Unit × Choice) :=
  steps 14 ++ ((), .alloc 0) :: steps 23 ++ ((), .ret 0) :: steps 3 ++ ((), .ret 0) :: steps 4 ++
    trapWith 15 0 0 :: steps 3 ++ ((), .image openedFile) :: ((), .ret 0) :: steps 3 ++
    trapWith 1 0 0 :: steps 20 ++ ((), .alloc 0) :: steps 11

theorem child_inherits_opened : ∃ (s : State 2 Unit) (p np : Fin 2) (pid : Int),
    (kernel 2 1 ()).Reachable s ∧ s.Top () (.kfork p (.release np pid)) ∧
      (s.shared.image p).ofile 0 = some 5 ∧ (s.shared.image np).ofile 0 = some 5 ∧
      (s.shared.proc np).priority = 31 := by
  have hrun : ((kernel 2 1 ()).run (kernel 2 1 ()).init openThenFork).any fun s =>
      ((s.stack (s.running ())).head?.bind Frame.forked).any fun r =>
        decide ((s.shared.image r.1).ofile 0 = some 5) := by
    decide +kernel
  obtain ⟨s, hs, hrun⟩ := (Option.any_eq_true _ _).mp hrun
  have hr := System.reachable_of_run _ hs
  obtain ⟨⟨p, np, pid⟩, hforked, hfile⟩ := (Option.any_eq_true _ _).mp hrun
  cases hstack : s.stack (s.running ()) with
  | nil =>
    rw [hstack] at hforked
    cases hforked
  | cons f rest =>
    rw [hstack] at hforked
    obtain rfl := Frame.eq_release hforked
    have hfile := of_decide_eq_true hfile
    obtain ⟨hfiles, -, -, -, -, -, -, hpriority, -, -⟩ :=
      (child_inherits hr).1 () p np pid ⟨rest, hstack⟩
    exact ⟨s, p, np, pid, hr, ⟨rest, hstack⟩, hfile, (hfiles 0 Nat.one_pos).trans hfile, hpriority⟩

end MultithreadMayhem.Kernel
