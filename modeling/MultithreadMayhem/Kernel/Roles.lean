import MultithreadMayhem.Kernel.Discipline

/-!
# What a frame knows and does about process states

The state of a slot is changed in seven ways only: a sleeper is woken, a runnable
process is dispatched, a free slot is allocated, a zombie is reaped, a new process
is given up or made runnable by its maker, and a process leaves the CPU. `Change`
lists them. Between the statements that do so, a frame relies on what it has read
under a lock that it still holds (`knows`), and the maker of a new process on the
fact that nobody else uses the slot (`builds`).
-/

namespace MultithreadMayhem.Kernel

variable {n : ℕ} {C : Type}

def Shared.states (sh : Shared n) (j : Fin n) : Procstate := (sh.proc j).state

/-- The process that a function hands to its caller as a new one. -/
def Fn.makes (v : Val n) : Fn n → Multiset (Fin n)
  | .allocproc =>
    match v with
    | .proc (some p) => {p}
    | _ => 0
  | _ => 0

namespace Frame

/-- States that the frame has read or written under a lock that it holds. -/
def knows : Frame n → List (Fin n × Procstate)
  | allocproc (.allocpid p) | allocproc (.allocating p) | allocproc (.setPid p _)
  | allocproc (.init p) => [(p, .unused)]
  | scheduler (.loop _ (some b)) | scheduler (.acquire _ (some b)) | scheduler (.test _ (some b))
  | scheduler (.releaseSlot _ (some b)) | scheduler (.setState b) => [(b, .runnable)]
  | scheduler (.releaseBest p _) => [(p, .runnable)]
  | scheduler (.setProc b) | scheduler (.swtch b) => [(b, .running)]
  | kwait _ _ (.copyout pp _) | kwait _ _ (.freeproc pp _) => [(pp, .zombie)]
  | _ => []

/-- The new process that the frame is making: its slot is in state `USED`. -/
def builds : Frame n → Multiset (Fin n)
  | allocproc (.trapframe p) | allocproc (.pagetable p) | allocproc (.context p)
  | allocproc (.freeproc p) | allocproc (.done (some p)) => {p}
  | userinit (.setInitproc (some p)) | userinit (.setCwd (some p)) | userinit (.setState p) => {p}
  | kfork _ (.uvmcopy np) | kfork _ (.freeproc np) | kfork _ (.setSz np)
  | kfork _ (.copyTrapframe np) | kfork _ (.setA0 np) | kfork _ (.filedup np _)
  | kfork _ (.idup np) | kfork _ (.copyName np) | kfork _ (.readPid np) | kfork _ (.release np _)
  | kfork _ (.acquireWait np _) | kfork _ (.setParent np _) | kfork _ (.releaseWait np _)
  | kfork _ (.reacquire np _) | kfork _ (.setState np _) => {np}
  | _ => 0

def ready : Frame n → Multiset (Fin n)
  | allocproc (.trapframe _) | allocproc (.pagetable _) | allocproc (.context _)
  | allocproc (.freeproc _) => 0
  | f => f.builds

/-- The current process has left the state `RUNNING` and is on its way to `swtch`. -/
def leaving : Frame n → Bool
  | yield _ .sched | sleep _ _ _ .sched | kexit _ _ .releaseWait | kexit _ _ .sched
  | sched _ .testLock | sched _ .testLocks | sched _ .testState | sched _ .testIntr
  | sched _ .swtch => true
  | _ => false

def dispatching : Frame n → Option (Fin n)
  | scheduler (.setProc b) | scheduler (.swtch b) => some b
  | _ => none

def current : Frame n → Option (Fin n)
  | scheduler (.swtch b) | scheduler (.clearProc b) => some b
  | _ => none

structure Alike (f g : Frame n) : Prop where
  builds : g.builds = f.builds
  ready : g.ready = f.ready
  leaving : g.leaving = f.leaving
  dispatching : g.dispatching = f.dispatching
  current : g.current = f.current

theorem knows_locked {f : Frame n} {e : Fin n × Procstate} (he : e ∈ f.knows) :
    Lock.proc e.1 ∈ f.locks := by
  unfold knows at he
  split at he <;>
    first
    | (obtain rfl := List.mem_singleton.mp he
       simp [locks, AllocprocPc.locks, SchedulerPc.locks, KwaitPc.locks])
    | cases he

theorem ready_subset (f : Frame n) : f.ready ⊆ f.builds := by
  unfold ready
  split
  · exact Multiset.zero_subset _
  · exact Multiset.zero_subset _
  · exact Multiset.zero_subset _
  · exact Multiset.zero_subset _
  · exact fun _ h => h

theorem cases_leaving {f : Frame n} (h : f.leaving = true) :
    (∃ p, f = .yield p .sched) ∨ (∃ p ch lk, f = .sleep p ch lk .sched) ∨
      (∃ p status, f = .kexit p status .releaseWait ∨ f = .kexit p status .sched) ∨
      ∃ p pc, f = .sched p pc := by
  cases f with
  | yield p pc =>
    cases pc with
    | sched => exact .inl ⟨p, rfl⟩
    | _ => cases h
  | sleep p ch lk pc =>
    cases pc with
    | sched => exact .inr (.inl ⟨p, ch, lk, rfl⟩)
    | _ => cases h
  | kexit p status pc =>
    cases pc with
    | releaseWait => exact .inr (.inr (.inl ⟨p, status, .inl rfl⟩))
    | sched => exact .inr (.inr (.inl ⟨p, status, .inr rfl⟩))
    | _ => cases h
  | sched p pc => exact .inr (.inr (.inr ⟨p, pc, rfl⟩))
  | _ => cases h

end Frame

/-- The states that a process may have while it leaves the CPU, and the one it has otherwise. -/
def RunOk (leaving : Bool) (st : Procstate) : Prop :=
  if leaving then st = .runnable ∨ st = .sleeping ∨ st = .zombie else st = .running

/-- What a statement of the thread `t` that takes the frame `f` to `g` does to the states. -/
inductive Change (t : Thread n C) (f g : Frame n) (st st' : Fin n → Procstate) : Prop
  | same (hst : st' = st) (hfg : f.Alike g)
  | wake (j : Fin n) (hj : st j = .sleeping) (hst : st' = Function.update st j .runnable)
      (hf : f.leaving = false) (hfg : f.Alike g)
  | dispatch (j : Fin n) (hj : st j = .runnable) (hst : st' = Function.update st j .running)
      (hf : f = .scheduler (.setState j)) (hg : g = .scheduler (.setProc j))
  | alloc (j : Fin n) (hj : st j = .unused) (hst : st' = Function.update st j .used)
      (hf : f = .allocproc (.init j)) (hg : g = .allocproc (.trapframe j))
  | reap (j : Fin n) (hj : st j = .zombie) (hst : st' = Function.update st j .unused)
      (hf : f.leaving = false) (hfg : f.Alike g)
  | abandon (j : Fin n) (hj : st j = .used) (hst : st' = Function.update st j .unused)
      (hfn : f.fn ≠ .idle) (hl : f.leaving = false ∧ g.leaving = false)
      (hb : f.builds = {j} ∧ g.builds = 0)
  | publish (j : Fin n) (hj : st j = .used) (hst : st' = Function.update st j .runnable)
      (hfn : f.fn ≠ .idle) (hl : f.leaving = false ∧ g.leaving = false)
      (hb : f.builds = {j} ∧ g.builds = 0) (hr : f.ready = {j})
  | leave (j : Fin n) (st₁ : Procstate) (hj : st j = .running)
      (hst : st' = Function.update st j st₁) (ht : t = .proc j) (hfn : f.fn ≠ .idle)
      (hl : f.leaving = false ∧ g.leaving = true) (hok : RunOk true st₁)
      (hb : f.builds = 0 ∧ g.builds = 0)

/-- What the frame `f` of the thread `t` may rely on. -/
structure Frame.Relies (x : Ctx n) (t : Thread n C) (f : Frame n) : Prop where
  on : f.fn.On t
  knows : ∀ e ∈ f.knows, x.shared.states e.1 = e.2
  builds : ∀ j ∈ f.builds, x.shared.states j = .used
  running : ∀ p, t = .proc p → RunOk f.leaving (x.shared.states p)
  sched : ∀ p pc, f = .sched p pc → f.leaving = true → x.holding (.proc p) = true ∧ x.noff = 1

/-- What an action of the frame `f` of the thread `t` does to process states and to the part that
the thread plays for them. -/
def Act.Plays (x : Ctx n) (t : Thread n C) (f : Frame n) : Act n → Prop
  | .acquire _ next | .release _ next => f.Alike next ∧ next.knows ⊆ f.knows
  | .exec sh next => Change t f next x.shared.states sh.states ∧
      (∀ j, sh.proc j ≠ x.shared.proc j → Lock.proc j ∈ f.locks) ∧
      ∀ e ∈ next.knows, sh.states e.1 = e.2
  | .call callee next => next.builds = f.builds ∧ next.ready = f.ready ∧ next.knows ⊆ f.knows ∧
      next.current = f.current ∧ f.dispatching = none ∧ callee.builds = 0 ∧ callee.knows = [] ∧
      callee.leaving = f.leaving
  | .ret v => f.builds = f.fn.makes v ∧ f.ready = f.fn.makes v ∧ f.leaving = false
  | .iret => f.builds = 0 ∧ f.leaving = false
  | .setProc p next =>
      (∃ b, f = .scheduler (.setProc b) ∧ p = some b ∧ next = .scheduler (.swtch b)) ∨
      (∃ b, f = .scheduler (.clearProc b) ∧ p = none ∧ next = .scheduler (.release b))
  | .setContext p next => f = .allocproc (.context p) ∧ next = .allocproc (.done (some p))
  | .swtchTo p next => f = .scheduler (.swtch p) ∧ next = .scheduler (.clearProc p)
  | .swtchBack next => ∃ p, f = .sched p .swtch ∧ next = .sched p .done
  | .panic _ => f.leaving = false
  | .block => True

section States

variable (sh : Shared n) (j : Fin n)

@[simp]
theorem Shared.states_setProc (p : Proc n) :
    (sh.setProc j p).states = Function.update sh.states j p.state := by
  funext k
  by_cases hk : k = j
  · subst k
    simp [Shared.states]
  · simp [Shared.states, Function.update_of_ne hk]

@[simp]
theorem Shared.states_setState (st : Procstate) :
    (sh.setState j st).states = Function.update sh.states j st := sh.states_setProc j _

@[simp]
theorem Shared.states_setParent (p : Option (Fin n)) : (sh.setParent j p).states = sh.states := rfl

@[simp]
theorem Shared.states_setImage (m : Image) : (sh.setImage j m).states = sh.states := rfl

@[simp]
theorem Shared.states_freeproc :
    (sh.freeproc j).states = Function.update sh.states j .unused := sh.states_setProc j _

theorem Shared.states_setProc_same {p : Proc n} (h : p.state = (sh.proc j).state) :
    (sh.setProc j p).states = sh.states := by
  rw [Shared.states_setProc, h]
  exact Function.update_eq_self j sh.states

theorem Shared.setProc_changes {p : Proc n} {k : Fin n}
    (h : (sh.setProc j p).proc k ≠ sh.proc k) : k = j := by
  by_contra hk
  exact h (Function.update_of_ne hk _ _)

end States

end MultithreadMayhem.Kernel
