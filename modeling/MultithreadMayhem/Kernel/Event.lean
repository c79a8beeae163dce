import MultithreadMayhem.Foundation.Record
import MultithreadMayhem.Kernel.Locks
import MultithreadMayhem.Kernel.Machine

/-!
# The history of a run

An event is a statement by which a process gets its number, is made, exits, is reaped or
looked up, or by which a system call about processes returns. A process is named in the
events by its pid.
-/

namespace MultithreadMayhem.Kernel

open Foundation

variable {n : ℕ} {C : Type}

/-- `struct thread_info`. -/
structure ThreadInfo where
  pid : Int
  tgid : Int
  isThread : Int
  deriving DecidableEq

/-- What `sys_getthreadinfo()` copies out for the process. -/
def Proc.threadInfo (p : Proc n) : ThreadInfo where
  pid := p.pid
  tgid := p.tgid
  isThread := p.isThread

inductive Event (n : ℕ)
  /-- `allocpid` hands out a pid. -/
  | pid (pid : Int)
  | alloc (j : Fin n) (pid : Int)
  /-- `freeproc` of a process that is being made. -/
  | abandon (j : Fin n) (pid : Int)
  /-- `np->parent = p` in `kfork`. -/
  | fork (pid child : Int)
  | forkReturns (pid v : Int)
  /-- `p->state = ZOMBIE` in `kexit`. -/
  | exit (pid status : Int)
  | copyout (child status : Int)
  /-- `freeproc` in `kwait`. -/
  | reap (pid : Int) (j : Fin n) (child : Int)
  | waitReturns (pid v : Int)
  /-- The call of `kkill`, `set_priority` or `get_priority`. -/
  | scan (op : PidOp)
  /-- The slot that the call hits, as it was before. -/
  | hit (op : PidOp) (j : Fin n) (p : Proc n)
  | scanReturns (op : PidOp) (v : Int)
  | info (j : Fin n) (info : ThreadInfo)

def Event.boundary : Event n → Bool
  | forkReturns _ _ | waitReturns _ _ | scan _ | scanReturns _ _ => true
  | _ => false

def Event.report : Event n → Option (Fin n × ThreadInfo)
  | info j r => some (j, r)
  | _ => none

/-- The event of the statement at which the frame stands, when the CPU goes on with `g`. -/
def Frame.event (sh : Shared n) (f g : Frame n) : Option (Event n) :=
  match f with
  | allocpid (.advance pid) => some (.pid pid)
  | allocproc (.init j) => some (.alloc j (sh.proc j).pid)
  | allocproc (.freeproc j) | kfork _ (.freeproc j) => some (.abandon j (sh.proc j).pid)
  | kfork p (.setParent _ pid) => some (.fork (sh.proc p).pid pid)
  | kfork p (.done v) => some (.forkReturns (sh.proc p).pid v)
  | kexit p status .setState => some (.exit (sh.proc p).pid status)
  | kwait _ addr (.copyout j _) =>
    match g with
    | kwait _ _ (.freeproc _ _) =>
      if addr = 0 then none else some (.copyout (sh.proc j).pid (sh.proc j).xstate)
    | _ => none
  | kwait p _ (.freeproc j _) => some (.reap (sh.proc p).pid j (sh.proc j).pid)
  | kwait p _ (.done v) => some (.waitReturns (sh.proc p).pid v)
  | syscall p .dispatch =>
    match g with
    | pidScan op _ => some (.scan op)
    | syscall _ (.store v) =>
      if (sh.image p).argint .a7 = 25 ∧ v = 0 then some (.info p (sh.proc p).threadInfo) else none
    | _ => none
  | pidScan op (.test j) =>
    match g with
    | pidScan _ (.releaseFound _ _) => some (.hit op j (sh.proc j))
    | _ => none
  | pidScan op (.done v) => some (.scanReturns op v)
  | _ => none

def State.event (s : State n C) (l : C × Choice) (s' : State n C) :
    Option (Thread n C × Event n) :=
  match s.stack (s.running l.1), s'.stack (s'.running l.1) with
  | f :: _, g :: _ =>
    if g.fn = .isr ∨ g.fn = .panic then none
    else (f.event s.shared g).map fun e => (s.running l.1, e)
  | _, _ => none

/-- The events of a run, the latest first, with the threads that they are events of. -/
abbrev Log (n : ℕ) (C : Type) := List (Thread n C × Event n)

variable [DecidableEq C]

def history (n nofile : ℕ) (b : C) : System (State n C × Log n C) (C × Choice) :=
  (kernel n nofile b).recorded State.event

/-- What holds of all histories holds of every reachable state of the kernel. -/
theorem exists_history {nofile : ℕ} {b : C} {s : State n C}
    (hs : (kernel n nofile b).Reachable s) : ∃ log, (history n nofile b).Reachable (s, log) :=
  hs.recorded

end MultithreadMayhem.Kernel
