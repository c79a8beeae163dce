import Mathlib.Algebra.Order.Group.Multiset
import MultithreadMayhem.Kernel.Code

/-!
# The locks of a frame

Every frame is annotated with the locks that its function has taken and not yet
released. A call may hand locks to the callee (`sleep` gets its condition lock) or
get them back (`allocproc` returns with the lock of the slot). `Act.Disciplined`
says that the code follows the annotation, and that the locks of `proc.c` are only
taken in the order `wait_lock`, `proc[0].lock`, `proc[1].lock`, ..., `pid_lock`.
-/

namespace MultithreadMayhem.Kernel

variable {n : ℕ} {C : Type}

namespace Lock

/-- The place of a lock in the locking order. -/
def rank : Lock n → ℕ
  | .ext _ => 0
  | .waitLock => 1
  | .proc j => 2 + j
  | .pidLock => 2 + n

def isKernel : Lock n → Bool
  | .ext _ => false
  | _ => true

def Outer (l : Lock n) : Prop := l.rank < 2

def slot : Option (Fin n) → Multiset (Lock n)
  | some p => {.proc p}
  | none => 0

theorem rank_lt (l : Lock n) : l.rank < n + 3 := by
  cases l with
  | proc j =>
    simp only [rank]
    omega
  | _ =>
    simp only [rank]
    omega

@[simp]
theorem slot_some (p : Fin n) : slot (some p) = {.proc p} := rfl

@[simp]
theorem slot_none : slot (none : Option (Fin n)) = 0 := rfl

@[simp]
theorem mem_slot {l : Lock n} {p : Option (Fin n)} : l ∈ slot p ↔ ∃ b ∈ p, l = .proc b := by
  cases p with
  | none => simp
  | some b => simp

end Lock

/-- The C functions, as far as their frames are told apart by a caller. The base frames of a CPU
and of a process change their function by going on in it. -/
inductive Fn (n : ℕ)
  | idle
  | process (p : Fin n)
  | userinit
  | allocproc
  | allocpid
  | kfork (p : Fin n)
  | sched (p : Fin n)
  | yield (p : Fin n)
  | sleep (p : Fin n) (lk : Lock n)
  | wakeup
  | reparent (p : Fin n)
  | kexit (p : Fin n)
  | kwait (p : Fin n)
  | killed
  | setkilled (p : Fin n)
  | pidScan
  | syscall (p : Fin n)
  | ext
  | file
  | isr
  | panic
  deriving DecidableEq

def ExtKind.fn : ExtKind → Fn n
  | .handler => .isr
  | .service => .ext
  | .file => .file

section Annotation

def UserinitPc.locks : UserinitPc n → Multiset (Lock n)
  | .setInitproc p | .setCwd p => Lock.slot p
  | .setState p | .release p => {.proc p}
  | _ => 0

def AllocprocPc.locks : AllocprocPc n → Multiset (Lock n)
  | .loop _ | .acquire _ => 0
  | .done p => Lock.slot p
  | .test p | .release p | .allocpid p | .allocating p | .setPid p _ | .init p | .trapframe p
  | .pagetable p | .context p | .freeproc p | .releaseFreed p => {.proc p}

def AllocpidPc.locks : AllocpidPc → Multiset (Lock n)
  | .read | .advance _ | .release _ => {.pidLock}
  | _ => 0

def KforkPc.locks : KforkPc n → Multiset (Lock n)
  | .uvmcopy np | .freeproc np | .releaseFreed np | .setSz np | .copyTrapframe np | .setA0 np
  | .filedup np _ | .idup np | .copyName np | .readPid np | .release np _ | .setState np _
  | .releaseAgain np _ => {.proc np}
  | .setParent _ _ | .releaseWait _ _ => {.waitLock}
  | _ => 0

def SchedulerPc.locks : SchedulerPc n → Multiset (Lock n)
  | .start => 0
  | .loop _ best | .acquire _ best => Lock.slot best
  | .test p best | .releaseSlot p best => .proc p ::ₘ Lock.slot best
  | .releaseBest p best => .proc best ::ₘ {.proc p}
  | .setState best | .setProc best | .swtch best | .clearProc best | .release best => {.proc best}

def YieldPc.locks (p : Fin n) : YieldPc → Multiset (Lock n)
  | .setState | .sched | .scheduling | .release => {.proc p}
  | _ => 0

def SleepPc.locks (p : Fin n) (lk : Lock n) : SleepPc → Multiset (Lock n)
  | .acquire | .done => {lk}
  | .releaseLk => lk ::ₘ {.proc p}
  | .reacquire => 0
  | _ => {.proc p}

def WakeupPc.locks : WakeupPc n → Multiset (Lock n)
  | .test p | .release p => {.proc p}
  | _ => 0

def KexitPc.locks (p : Fin n) : KexitPc → Multiset (Lock n)
  | .reparent | .reparenting | .wakeup | .waking | .acquire => {.waitLock}
  | .setXstate | .setState | .releaseWait => .waitLock ::ₘ {.proc p}
  | .sched | .scheduling | .zombieExit => {.proc p}
  | _ => 0

def KwaitPc.locks : KwaitPc n → Multiset (Lock n)
  | .acquireWait | .sleeping | .done _ => 0
  | .test pp | .release pp | .copyout pp _ | .freeproc pp _ | .releaseSlot pp _ =>
    .proc pp ::ₘ {.waitLock}
  | _ => {.waitLock}

def KilledPc.locks (p : Fin n) : KilledPc → Multiset (Lock n)
  | .read | .release _ => {.proc p}
  | _ => 0

def SetkilledPc.locks (p : Fin n) : SetkilledPc → Multiset (Lock n)
  | .set | .release => {.proc p}
  | _ => 0

def PidScanPc.locks : PidScanPc n → Multiset (Lock n)
  | .test p | .release p | .releaseFound p _ => {.proc p}
  | _ => 0

def ExtPc.locks : ExtPc → Multiset (Lock n)
  | .run held | .calling held => (held : Multiset ℕ).map Lock.ext
  | _ => 0

namespace Frame

/-- The locks that the function of the frame has taken and not yet released. -/
def locks : Frame n → Multiset (Lock n)
  | userinit pc => pc.locks
  | allocproc pc => pc.locks
  | allocpid pc => pc.locks
  | kfork _ pc => pc.locks
  | forkret p .release => {.proc p}
  | scheduler pc => pc.locks
  | yield p pc => pc.locks p
  | sleep p _ lk pc => pc.locks p lk
  | wakeup _ pc => pc.locks
  | kexit p _ pc => pc.locks p
  | kwait _ _ pc => pc.locks
  | killed p pc => pc.locks p
  | setkilled p pc => pc.locks p
  | pidScan _ pc => pc.locks
  | ext _ pc => pc.locks
  | main _ | forkret _ _ | sched _ _ | reparent _ _ | syscall _ _ | user _ _ | panic _ => 0

def fn : Frame n → Fn n
  | main _ | scheduler _ => .idle
  | forkret p _ | user p _ => .process p
  | userinit _ => .userinit
  | allocproc _ => .allocproc
  | allocpid _ => .allocpid
  | kfork p _ => .kfork p
  | sched p _ => .sched p
  | yield p _ => .yield p
  | sleep p _ lk _ => .sleep p lk
  | wakeup _ _ => .wakeup
  | reparent p _ => .reparent p
  | kexit p _ _ => .kexit p
  | kwait p _ _ => .kwait p
  | killed _ _ => .killed
  | setkilled p _ => .setkilled p
  | pidScan _ _ => .pidScan
  | syscall p _ => .syscall p
  | ext kind _ => kind.fn
  | panic _ => .panic

/-- The frame is in the middle of a call of the function. -/
def Awaits : Frame n → Fn n → Prop
  | main .initializing, fn => fn = .userinit
  | userinit .allocating, fn => fn = .allocproc
  | allocproc (.allocating _), fn => fn = .allocpid
  | kfork _ .allocating, fn => fn = .allocproc
  | forkret _ .initializing, fn | forkret _ .executing, fn => fn = .ext
  | yield p .scheduling, fn => fn = .sched p
  | sleep p _ _ .scheduling, fn => fn = .sched p
  | reparent _ (.waking _), fn => fn = .wakeup
  | kexit _ _ (.closing _), fn | kexit _ _ .beginning, fn | kexit _ _ .putting, fn
  | kexit _ _ .ending, fn => fn = .file
  | kexit p _ .reparenting, fn => fn = .reparent p
  | kexit _ _ .waking, fn => fn = .wakeup
  | kexit p _ .scheduling, fn => fn = .sched p
  | kwait _ _ .killing, fn => fn = .killed
  | kwait p _ .sleeping, fn => fn = .sleep p .waitLock
  | syscall p .calling, fn =>
    fn = .kfork p ∨ fn = .kexit p ∨ fn = .kwait p ∨ fn = .pidScan ∨ fn = .ext
  | user p .trapping, fn =>
    fn = .kexit p ∨ fn = .setkilled p ∨ fn = .killed ∨ fn = .yield p ∨ fn = .ext ∨ fn = .syscall p
  | ext _ (.calling _), fn => fn = .wakeup ∨ fn = .killed ∨ ∃ p, fn = .yield p
  | ext _ (.sleeping k), fn => ∃ p, fn = .sleep p (.ext k)
  | _, _ => False

/-- The scheduler keeps the lock of a lower slot while it takes that of a higher one, and a
condition lock is taken before any lock of the table. -/
def WF : Frame n → Prop
  | scheduler (.loop i best) => ∀ b ∈ best, b.val < i
  | scheduler (.acquire p best) | scheduler (.test p best) | scheduler (.releaseSlot p best) =>
    ∀ b ∈ best, b < p
  | scheduler (.releaseBest p best) => best < p
  | sleep _ _ lk _ => lk.Outer
  | _ => True

/-- `Awaits`, with one case for each call in the source. -/
inductive Calls : Frame n → Fn n → Prop
  | userinit : Calls (main .initializing) .userinit
  | initAllocproc : Calls (userinit .allocating) .allocproc
  | allocpid {p : Fin n} : Calls (allocproc (.allocating p)) .allocpid
  | forkAllocproc {p : Fin n} : Calls (kfork p .allocating) .allocproc
  | fsinit {p : Fin n} : Calls (forkret p .initializing) .ext
  | kexec {p : Fin n} : Calls (forkret p .executing) .ext
  | yieldSched {p : Fin n} : Calls (yield p .scheduling) (.sched p)
  | sleepSched {p : Fin n} {ch : Chan n} {lk : Lock n} :
      Calls (sleep p ch lk .scheduling) (.sched p)
  | reparentWakeup {p pp : Fin n} : Calls (reparent p (.waking pp)) .wakeup
  | fileclose {p : Fin n} {status : Int} {fd : ℕ} : Calls (kexit p status (.closing fd)) .file
  | beginOp {p : Fin n} {status : Int} : Calls (kexit p status .beginning) .file
  | iput {p : Fin n} {status : Int} : Calls (kexit p status .putting) .file
  | endOp {p : Fin n} {status : Int} : Calls (kexit p status .ending) .file
  | reparent {p : Fin n} {status : Int} : Calls (kexit p status .reparenting) (.reparent p)
  | exitWakeup {p : Fin n} {status : Int} : Calls (kexit p status .waking) .wakeup
  | exitSched {p : Fin n} {status : Int} : Calls (kexit p status .scheduling) (.sched p)
  | waitKilled {p : Fin n} {addr : BitVec 64} : Calls (kwait p addr .killing) .killed
  | waitSleep {p : Fin n} {addr : BitVec 64} :
      Calls (kwait p addr .sleeping) (.sleep p .waitLock)
  | sysFork {p : Fin n} : Calls (syscall p .calling) (.kfork p)
  | sysExit {p : Fin n} : Calls (syscall p .calling) (.kexit p)
  | sysWait {p : Fin n} : Calls (syscall p .calling) (.kwait p)
  | sysPid {p : Fin n} : Calls (syscall p .calling) .pidScan
  | sysOther {p : Fin n} : Calls (syscall p .calling) .ext
  | trapExit {p : Fin n} : Calls (user p .trapping) (.kexit p)
  | trapSetkilled {p : Fin n} : Calls (user p .trapping) (.setkilled p)
  | trapKilled {p : Fin n} : Calls (user p .trapping) .killed
  | trapYield {p : Fin n} : Calls (user p .trapping) (.yield p)
  | trapOther {p : Fin n} : Calls (user p .trapping) .ext
  | trapSyscall {p : Fin n} : Calls (user p .trapping) (.syscall p)
  | extWakeup {kind : ExtKind} {held : List ℕ} : Calls (ext kind (.calling held)) .wakeup
  | extKilled {kind : ExtKind} {held : List ℕ} : Calls (ext kind (.calling held)) .killed
  | extYield {kind : ExtKind} {held : List ℕ} {p : Fin n} : Calls (ext kind (.calling held)) (.yield p)
  | extSleep {kind : ExtKind} {k : ℕ} {p : Fin n} : Calls (ext kind (.sleeping k)) (.sleep p (.ext k))

theorem Awaits.calls {g : Frame n} {fn : Fn n} (h : g.Awaits fn) : g.Calls fn := by
  unfold Awaits at h
  split at h
  case h_19 => obtain rfl | rfl | rfl | rfl | rfl := h <;> constructor
  case h_20 => obtain rfl | rfl | rfl | rfl | rfl | rfl := h <;> constructor
  case h_21 => obtain rfl | rfl | ⟨p, rfl⟩ := h <;> constructor
  case h_22 =>
    obtain ⟨p, rfl⟩ := h
    constructor
  all_goals
    first
    | exact h.elim
    | (subst h; constructor)

end Frame

end Annotation

namespace Fn

/-- What holds of the locks of the callers while the function runs. -/
def Pre (H : Multiset (Lock n)) : Fn n → Prop
  | .sched p => H = {.proc p}
  | .wakeup | .killed | .reparent _ => ∀ l ∈ H, l.Outer
  | .allocpid => ∀ l ∈ H, l.rank < 2 + n
  | .panic => True
  | _ => H = 0

/-- The locks that the function leaves to its caller when it returns. -/
def gives (v : Val n) : Fn n → Multiset (Lock n)
  | .allocproc =>
    match v with
    | .proc p => Lock.slot p
    | .int _ => 0
  | .sleep _ lk => {lk}
  | _ => 0

def On (t : Thread n C) : Fn n → Prop
  | .idle | .userinit => ∃ c, t = .cpu c
  | .process p | .kfork p | .sched p | .yield p | .sleep p _ | .reparent p | .kexit p | .kwait p
  | .setkilled p | .syscall p => t = .proc p
  | _ => True

end Fn

/-- What an action of the frame `f` of the thread `t` does to the locks when `H` are the locks of
its callers. -/
def Act.Disciplined (t : Thread n C) (H : Multiset (Lock n)) (f : Frame n) : Act n → Prop
  | .acquire l next => next.locks = l ::ₘ f.locks ∧ next.fn = f.fn ∧ next.WF ∧
      (l.isKernel = true → ∀ l' ∈ f.locks + H, l'.rank < l.rank)
  | .release l next => f.locks = l ::ₘ next.locks ∧ next.fn = f.fn ∧ next.WF
  | .exec _ next | .setProc _ next | .setContext _ next | .swtchTo _ next | .swtchBack next =>
    next.locks = f.locks ∧ next.fn = f.fn ∧ next.WF
  | .call callee next => callee.locks + next.locks = f.locks ∧ next.fn = f.fn ∧ next.WF ∧
      next.Awaits callee.fn ∧ callee.fn.Pre (next.locks + H) ∧ callee.WF ∧ callee.fn.On t
  | .ret v => f.locks = f.fn.gives v ∧ f.fn ≠ .isr ∧ f.fn ≠ .panic
  | .iret => f.locks = 0 ∧ f.fn = .isr
  | .panic _ | .block => True

section Resume

variable {g : Frame n} {fn : Fn n} (v : Val n)

theorem Frame.resume_fn : (g.resume v).fn = g.fn := by
  unfold Frame.resume
  split <;> first | rfl | (split <;> rfl)

theorem Frame.resume_wf (h : g.WF) : (g.resume v).WF := by
  unfold Frame.resume
  split <;> first | exact h | trivial | (split <;> trivial)

theorem Frame.resume_locks (h : g.Awaits fn) : (g.resume v).locks = fn.gives v + g.locks := by
  cases h.calls with
  | initAllocproc => cases v <;> simp [Frame.resume, Frame.locks, UserinitPc.locks, Fn.gives]
  | forkAllocproc =>
    obtain _ | _ | _ := v <;> simp [Frame.resume, Frame.locks, KforkPc.locks, Fn.gives]
  | extSleep => rfl
  | allocpid | kexec | waitKilled | sysFork | sysExit | sysWait | sysPid | sysOther =>
    cases v <;> exact (zero_add _).symm
  | waitSleep => rfl
  | _ => exact (zero_add _).symm

end Resume

end MultithreadMayhem.Kernel
