import MultithreadMayhem.Kernel.Data

/-!
# Control points and stack frames

A frame is a call of a C function: the function with its arguments, and the
statement that comes next with the local variables that are still needed. A
control point that ends in `-ing` is the caller's position during a call.
-/

namespace MultithreadMayhem.Kernel

variable {n : ℕ}

inductive MainPc
  | userinit
  | initializing
  | start
  | waiting

inductive UserinitPc (n : ℕ)
  | allocproc
  | allocating
  | setInitproc (p : Option (Fin n))
  | setCwd (p : Option (Fin n))
  | setState (p : Fin n)
  | release (p : Fin n)
  | done

inductive AllocprocPc (n : ℕ)
  | loop (i : ℕ)
  | acquire (p : Fin n)
  | test (p : Fin n)
  | release (p : Fin n)
  | allocpid (p : Fin n)
  | allocating (p : Fin n)
  | setPid (p : Fin n) (pid : Int)
  | init (p : Fin n)
  | trapframe (p : Fin n)
  | pagetable (p : Fin n)
  | context (p : Fin n)
  | freeproc (p : Fin n)
  | releaseFreed (p : Fin n)
  | done (p : Option (Fin n))

inductive AllocpidPc
  | acquire
  | read
  | advance (pid : Int)
  | release (pid : Int)
  | done (pid : Int)

inductive KforkPc (n : ℕ)
  | allocproc
  | allocating
  | uvmcopy (np : Fin n)
  | freeproc (np : Fin n)
  | releaseFreed (np : Fin n)
  | setSz (np : Fin n)
  | copyTrapframe (np : Fin n)
  | setA0 (np : Fin n)
  | filedup (np : Fin n) (i : ℕ)
  | idup (np : Fin n)
  | copyName (np : Fin n)
  | readPid (np : Fin n)
  | release (np : Fin n) (pid : Int)
  | acquireWait (np : Fin n) (pid : Int)
  | setParent (np : Fin n) (pid : Int)
  | releaseWait (np : Fin n) (pid : Int)
  | reacquire (np : Fin n) (pid : Int)
  | setState (np : Fin n) (pid : Int)
  | releaseAgain (np : Fin n) (pid : Int)
  | done (v : Int)

inductive ForkretPc
  | release
  | testFirst
  | fsinit
  | initializing
  | clearFirst
  | kexec
  | executing
  | setA0 (v : Int)
  | testA0 (v : Int)
  | userret

inductive SchedulerPc (n : ℕ)
  | start
  | loop (i : ℕ) (best : Option (Fin n))
  | acquire (p : Fin n) (best : Option (Fin n))
  | test (p : Fin n) (best : Option (Fin n))
  | releaseBest (p best : Fin n)
  | releaseSlot (p : Fin n) (best : Option (Fin n))
  | setState (best : Fin n)
  | setProc (best : Fin n)
  | swtch (best : Fin n)
  | clearProc (best : Fin n)
  | release (best : Fin n)
  deriving DecidableEq

inductive SchedPc
  | testLock
  | testLocks
  | testState
  | testIntr
  | swtch
  | done

inductive YieldPc
  | acquire
  | setState
  | sched
  | scheduling
  | release
  | done

inductive SleepPc
  | acquire
  | releaseLk
  | setChan
  | setState
  | sched
  | scheduling
  | clearChan
  | release
  | reacquire
  | done

inductive WakeupPc (n : ℕ)
  | loop (i : ℕ)
  | acquire (p : Fin n)
  | test (p : Fin n)
  | release (p : Fin n)
  | done

inductive ReparentPc (n : ℕ)
  | loop (i : ℕ)
  | setParent (pp : Fin n)
  | wakeup (pp : Fin n)
  | waking (pp : Fin n)
  | done

inductive KexitPc
  | testInit
  | testFile (fd : ℕ)
  | fileclose (fd : ℕ)
  | closing (fd : ℕ)
  | clearFile (fd : ℕ)
  | beginOp
  | beginning
  | iput
  | putting
  | endOp
  | ending
  | clearCwd
  | acquireWait
  | reparent
  | reparenting
  | wakeup
  | waking
  | acquire
  | setXstate
  | setState
  | releaseWait
  | sched
  | scheduling
  | zombieExit

inductive KwaitPc (n : ℕ)
  | acquireWait
  | loop (i : ℕ) (havekids : Bool)
  | acquire (pp : Fin n)
  | test (pp : Fin n)
  | release (pp : Fin n)
  | copyout (pp : Fin n) (pid : Int)
  | freeproc (pp : Fin n) (pid : Int)
  | releaseSlot (pp : Fin n) (v : Int)
  | releaseWait (v : Int)
  | killed
  | killing
  | testKilled (k : Int)
  | sleep
  | sleeping
  | done (v : Int)

inductive KilledPc
  | acquire
  | read
  | release (k : Int)
  | done (k : Int)

inductive SetkilledPc
  | acquire
  | set
  | release
  | done

/-- A loop over the table for the process with a given pid. -/
inductive PidOp
  | kkill (pid : Int)
  | setPriority (pid prio : Int)
  | getPriority (pid : Int)
  deriving DecidableEq

inductive PidScanPc (n : ℕ)
  | loop (i : ℕ)
  | acquire (p : Fin n)
  | test (p : Fin n)
  | release (p : Fin n)
  | releaseFound (p : Fin n) (v : Int)
  | done (v : Int)

inductive SyscallPc
  | count
  | dispatch
  | calling
  | store (v : Int)
  | done

inductive UserPc
  | run
  | syscall
  | trapping

/-- The three kinds of kernel code outside `proc.c`: an interrupt handler, code that serves the
current process and may change its private fields, and the file system calls of `kexit`. -/
inductive ExtKind
  | handler
  | service
  | file
  deriving DecidableEq

/-- Kernel code outside `proc.c`; `held` are the spinlocks of its own that it holds. -/
inductive ExtPc
  | run (held : List ℕ)
  | calling (held : List ℕ)
  | sleeping (k : ℕ)
  | done (v : Int)

inductive Frame (n : ℕ)
  | main (pc : MainPc)
  | userinit (pc : UserinitPc n)
  | allocproc (pc : AllocprocPc n)
  | allocpid (pc : AllocpidPc)
  | kfork (p : Fin n) (pc : KforkPc n)
  | forkret (p : Fin n) (pc : ForkretPc)
  | scheduler (pc : SchedulerPc n)
  | sched (p : Fin n) (pc : SchedPc)
  | yield (p : Fin n) (pc : YieldPc)
  | sleep (p : Fin n) (chan : Chan n) (lk : Lock n) (pc : SleepPc)
  | wakeup (chan : Option (Chan n)) (pc : WakeupPc n)
  | reparent (p : Fin n) (pc : ReparentPc n)
  | kexit (p : Fin n) (status : Int) (pc : KexitPc)
  | kwait (p : Fin n) (addr : BitVec 64) (pc : KwaitPc n)
  | killed (p : Fin n) (pc : KilledPc)
  | setkilled (p : Fin n) (pc : SetkilledPc)
  | pidScan (op : PidOp) (pc : PidScanPc n)
  | syscall (p : Fin n) (pc : SyscallPc)
  /-- User mode of a process, and the trap handler around its system calls. -/
  | user (p : Fin n) (pc : UserPc)
  /-- Other kernel code. -/
  | ext (kind : ExtKind) (pc : ExtPc)
  | panic (msg : String)

/-- The slot that `allocproc` is about to return. -/
def Frame.allocated : Frame n → Option (Fin n)
  | allocproc (.done p) => p
  | _ => none

/-- The parent, the child and the child's pid when `kfork` is at its last `release`. -/
def Frame.forked : Frame n → Option (Fin n × Fin n × Int)
  | kfork p (.release np pid) => some (p, np, pid)
  | _ => none

theorem Frame.eq_release {f : Frame n} {p np : Fin n} {pid : Int}
    (h : f.forked = some (p, np, pid)) : f = .kfork p (.release np pid) := by
  cases f with
  | kfork p' pc =>
    cases pc with
    | release np' pid' =>
      cases h
      rfl
    | _ => cases h
  | _ => cases h

inductive Val (n : ℕ)
  | int (v : Int)
  | proc (p : Option (Fin n))

/-- What a frame does next; `next` is the frame after it. -/
inductive Act (n : ℕ)
  | acquire (l : Lock n) (next : Frame n)
  | release (l : Lock n) (next : Frame n)
  | exec (sh : Shared n) (next : Frame n)
  | call (callee : Frame n) (next : Frame n)
  | ret (v : Val n)
  /-- The end of an interrupt handler. -/
  | iret
  /-- `c->proc = p`. -/
  | setProc (p : Option (Fin n)) (next : Frame n)
  /-- The context of `p` is set up to start at `forkret`. -/
  | setContext (p : Fin n) (next : Frame n)
  /-- `swtch` from the scheduler to the context of `p`. -/
  | swtchTo (p : Fin n) (next : Frame n)
  /-- `swtch` from a process to the scheduler of this CPU. -/
  | swtchBack (next : Frame n)
  | panic (msg : String)
  | block

/-- The choices that the code of `proc.c` does not make: results of functions of other files, what a
process does in user mode, what other kernel code does, and interrupts. -/
inductive Choice
  | run
  | fail
  | alloc (page : ℕ)
  | interrupt
  | trap (tf : Trapframe)
  | kexit
  | setkilled
  | killed
  | yield
  | acquire (k : ℕ)
  | release (k : ℕ)
  | wakeup (k : ℕ)
  | sleep (chan k : ℕ)
  | other
  | image (m : Image)
  | ret (v : Int)

/-- What the code reads besides the globals: `me` is `c->proc` of its CPU, `noff` the depth of its
`push_off` nesting, and `holding` tells the locks that the CPU holds. -/
structure Ctx (n : ℕ) where
  me : Option (Fin n)
  noff : ℕ
  holding : Lock n → Bool
  shared : Shared n
  choice : Choice
  nofile : ℕ

end MultithreadMayhem.Kernel
