import MultithreadMayhem.Kernel.Frame

/-!
# The code of the kernel

`proc.c` and `syscall.c` statement by statement, one definition for each C
function. A local `p = myproc()` is read at the entry of a function, so it is an
argument of its frame. Assignments to the fields of one slot that follow each other
under its lock are one step, and so is the test of a slot with the update that it
guards.
-/

namespace MultithreadMayhem.Kernel

variable {n : ℕ}

namespace Ctx

/-- `myproc()` at the entry of a function that uses the current process. -/
def withProc (x : Ctx n) (f : Fin n → Act n) : Act n :=
  match x.me with
  | some p => f p
  | none => .block

/-- `intr_get()`. Interrupts are off inside of `push_off`; elsewhere they count as on. -/
def intrGet (x : Ctx n) : Bool := decide (x.noff = 0)

def proc (x : Ctx n) (p : Fin n) : Proc n := x.shared.proc p

def image (x : Ctx n) (p : Fin n) : Image := x.shared.image p

end Ctx

/-- Where a caller goes on when the function that it called returns `v`. -/
def Frame.resume (v : Val n) : Frame n → Frame n
  | .main .initializing => .main .start
  | .userinit .allocating =>
    match v with
    | .proc p => .userinit (.setInitproc p)
    | .int _ => .userinit .allocating
  | .allocproc (.allocating p) =>
    match v with
    | .int pid => .allocproc (.setPid p pid)
    | .proc _ => .allocproc (.allocating p)
  | .kfork p .allocating =>
    match v with
    | .proc (some np) => .kfork p (.uvmcopy np)
    | .proc none => .kfork p (.done (-1))
    | .int _ => .kfork p .allocating
  | .forkret p .initializing => .forkret p .clearFirst
  | .forkret p .executing =>
    match v with
    | .int v => .forkret p (.setA0 v)
    | .proc _ => .forkret p .executing
  | .yield p .scheduling => .yield p .release
  | .sleep p chan lk .scheduling => .sleep p chan lk .clearChan
  | .reparent p (.waking pp) => .reparent p (.loop (pp + 1))
  | .kexit p status (.closing fd) => .kexit p status (.clearFile fd)
  | .kexit p status .beginning => .kexit p status .iput
  | .kexit p status .putting => .kexit p status .endOp
  | .kexit p status .ending => .kexit p status .clearCwd
  | .kexit p status .reparenting => .kexit p status .wakeup
  | .kexit p status .waking => .kexit p status .acquire
  | .kexit p status .scheduling => .kexit p status .zombieExit
  | .kwait p addr .killing =>
    match v with
    | .int k => .kwait p addr (.testKilled k)
    | .proc _ => .kwait p addr .killing
  | .kwait p addr .sleeping => .kwait p addr (.loop 0 false)
  | .syscall p .calling =>
    match v with
    | .int v => .syscall p (.store v)
    | .proc _ => .syscall p .calling
  | .user p .trapping => .user p .run
  | .ext kind (.calling held) => .ext kind (.run held)
  | .ext kind (.sleeping k) => .ext kind (.run [k])
  | f => f

/-- The part of `main()` that concerns processes: one CPU calls `userinit()` and lets the others go
on, then each calls `scheduler()`. -/
def main (x : Ctx n) : MainPc → Act n
  | .userinit => .call (.userinit .allocproc) (.main .initializing)
  | .initializing => .block
  | .start => .exec { x.shared with started := true } (.scheduler .start)
  | .waiting => if x.shared.started then .exec x.shared (.scheduler .start) else .block

/-- `userinit()`. A store through the null pointer traps. -/
def userinit (x : Ctx n) : UserinitPc n → Act n
  | .allocproc => .call (.allocproc (.loop 0)) (.userinit .allocating)
  | .allocating => .block
  | .setInitproc p => .exec { x.shared with initproc := p } (.userinit (.setCwd p))
  | .setCwd (some p) =>
    .exec (x.shared.setImage p { x.image p with cwd := some 1 }) (.userinit (.setState p))
  | .setCwd none => .panic "kerneltrap"
  | .setState p => .exec (x.shared.setState p .runnable) (.userinit (.release p))
  | .release p => .release (.proc p) (.userinit .done)
  | .done => .ret (.int 0)

def allocproc (x : Ctx n) : AllocprocPc n → Act n
  | .loop i =>
    if h : i < n then .exec x.shared (.allocproc (.acquire ⟨i, h⟩))
    else .exec x.shared (.allocproc (.done none))
  | .acquire p => .acquire (.proc p) (.allocproc (.test p))
  | .test p =>
    if (x.proc p).state = .unused then .exec x.shared (.allocproc (.allocpid p))
    else .exec x.shared (.allocproc (.release p))
  | .release p => .release (.proc p) (.allocproc (.loop (p + 1)))
  | .allocpid p => .call (.allocpid .acquire) (.allocproc (.allocating p))
  | .allocating _ => .block
  | .setPid p pid => .exec (x.shared.setProc p { x.proc p with pid := pid }) (.allocproc (.init p))
  | .init p =>
    .exec ((x.shared.setProc p (x.proc p).initialized).setImage p { x.image p with syscalls := 0 })
      (.allocproc (.trapframe p))
  | .trapframe p =>
    match x.choice with
    | .fail =>
      .exec (x.shared.setImage p { x.image p with trapframe := none }) (.allocproc (.freeproc p))
    | _ =>
      .exec (x.shared.setImage p { x.image p with trapframe := some fun _ => 0 })
        (.allocproc (.pagetable p))
  | .pagetable p =>
    match x.choice with
    | .alloc page =>
      .exec (x.shared.setImage p { x.image p with pagetable := some page })
        (.allocproc (.context p))
    | _ =>
      .exec (x.shared.setImage p { x.image p with pagetable := none }) (.allocproc (.freeproc p))
  | .context p => .setContext p (.allocproc (.done (some p)))
  | .freeproc p => .exec (x.shared.freeproc p) (.allocproc (.releaseFreed p))
  | .releaseFreed p => .release (.proc p) (.allocproc (.done none))
  | .done p => .ret (.proc p)

def allocpid (x : Ctx n) : AllocpidPc → Act n
  | .acquire => .acquire .pidLock (.allocpid .read)
  | .read => .exec x.shared (.allocpid (.advance x.shared.nextpid))
  | .advance pid =>
    .exec { x.shared with nextpid := wrapInt (x.shared.nextpid + 1) } (.allocpid (.release pid))
  | .release pid => .release .pidLock (.allocpid (.done pid))
  | .done pid => .ret (.int pid)

def kfork (x : Ctx n) (p : Fin n) : KforkPc n → Act n
  | .allocproc => .call (.allocproc (.loop 0)) (.kfork p .allocating)
  | .allocating => .block
  | .uvmcopy np =>
    match x.choice with
    | .fail => .exec x.shared (.kfork p (.freeproc np))
    | _ => .exec x.shared (.kfork p (.setSz np))
  | .freeproc np => .exec (x.shared.freeproc np) (.kfork p (.releaseFreed np))
  | .releaseFreed np => .release (.proc np) (.kfork p (.done (-1)))
  | .setSz np =>
    .exec (x.shared.setImage np { x.image np with sz := (x.image p).sz })
      (.kfork p (.copyTrapframe np))
  | .copyTrapframe np =>
    .exec (x.shared.setImage np { x.image np with trapframe := (x.image p).trapframe })
      (.kfork p (.setA0 np))
  | .setA0 np =>
    .exec (x.shared.setImage np ((x.image np).setReg .a0 0)) (.kfork p (.filedup np 0))
  | .filedup np i =>
    if i < x.nofile then
      match (x.image p).ofile i with
      | some f =>
        .exec (x.shared.setImage np
          { x.image np with ofile := Function.update (x.image np).ofile i (some f) })
          (.kfork p (.filedup np (i + 1)))
      | none => .exec x.shared (.kfork p (.filedup np (i + 1)))
    else .exec x.shared (.kfork p (.idup np))
  | .idup np =>
    .exec (x.shared.setImage np { x.image np with cwd := (x.image p).cwd }) (.kfork p (.copyName np))
  | .copyName np =>
    .exec (x.shared.setImage np { x.image np with name := (x.image p).name })
      (.kfork p (.readPid np))
  | .readPid np => .exec x.shared (.kfork p (.release np (x.proc np).pid))
  | .release np pid => .release (.proc np) (.kfork p (.acquireWait np pid))
  | .acquireWait np pid => .acquire .waitLock (.kfork p (.setParent np pid))
  | .setParent np pid => .exec (x.shared.setParent np (some p)) (.kfork p (.releaseWait np pid))
  | .releaseWait np pid => .release .waitLock (.kfork p (.reacquire np pid))
  | .reacquire np pid => .acquire (.proc np) (.kfork p (.setState np pid))
  | .setState np pid => .exec (x.shared.setState np .runnable) (.kfork p (.releaseAgain np pid))
  | .releaseAgain np pid => .release (.proc np) (.kfork p (.done pid))
  | .done v => .ret (.int v)

/-- `forkret()`. `fsinit` and `kexec` are code of other files. -/
def forkret (x : Ctx n) (p : Fin n) : ForkretPc → Act n
  | .release => .release (.proc p) (.forkret p .testFirst)
  | .testFirst =>
    if x.shared.first then .exec x.shared (.forkret p .fsinit)
    else .exec x.shared (.forkret p .userret)
  | .fsinit => .call (.ext .service (.run [])) (.forkret p .initializing)
  | .initializing => .block
  | .clearFirst => .exec { x.shared with first := false } (.forkret p .kexec)
  | .kexec => .call (.ext .service (.run [])) (.forkret p .executing)
  | .executing => .block
  | .setA0 v =>
    .exec (x.shared.setImage p ((x.image p).setReg .a0 (BitVec.ofInt 64 v))) (.forkret p (.testA0 v))
  | .testA0 v =>
    if BitVec.ofInt 64 v = BitVec.ofInt 64 (-1) then .panic "exec"
    else .exec x.shared (.forkret p .userret)
  | .userret => .exec x.shared (.user p .run)

/-- `scheduler()`, with `p` and `c` declared as in week 5. -/
def scheduler (x : Ctx n) : SchedulerPc n → Act n
  | .start => .exec x.shared (.scheduler (.loop 0 none))
  | .loop i best =>
    if h : i < n then .exec x.shared (.scheduler (.acquire ⟨i, h⟩ best))
    else
      match best with
      | some best => .exec x.shared (.scheduler (.setState best))
      | none => .exec x.shared (.scheduler .start)
  | .acquire p best => .acquire (.proc p) (.scheduler (.test p best))
  | .test p best =>
    if (x.proc p).state = .runnable then
      match best with
      | none => .exec x.shared (.scheduler (.loop (p + 1) (some p)))
      | some b =>
        if (x.proc p).priority < (x.proc b).priority then
          .exec x.shared (.scheduler (.releaseBest p b))
        else .exec x.shared (.scheduler (.releaseSlot p (some b)))
    else .exec x.shared (.scheduler (.releaseSlot p best))
  | .releaseBest p best => .release (.proc best) (.scheduler (.loop (p + 1) (some p)))
  | .releaseSlot p best => .release (.proc p) (.scheduler (.loop (p + 1) best))
  | .setState best => .exec (x.shared.setState best .running) (.scheduler (.setProc best))
  | .setProc best => .setProc (some best) (.scheduler (.swtch best))
  | .swtch best => .swtchTo best (.scheduler (.clearProc best))
  | .clearProc best => .setProc none (.scheduler (.release best))
  | .release best => .release (.proc best) (.scheduler .start)

def sched (x : Ctx n) (p : Fin n) : SchedPc → Act n
  | .testLock =>
    if x.holding (.proc p) then .exec x.shared (.sched p .testLocks) else .panic "sched p->lock"
  | .testLocks => if x.noff = 1 then .exec x.shared (.sched p .testState) else .panic "sched locks"
  | .testState =>
    if (x.proc p).state = .running then .panic "sched RUNNING"
    else .exec x.shared (.sched p .testIntr)
  | .testIntr =>
    if x.intrGet then .panic "sched interruptible" else .exec x.shared (.sched p .swtch)
  | .swtch => .swtchBack (.sched p .done)
  | .done => .ret (.int 0)

def yield (x : Ctx n) (p : Fin n) : YieldPc → Act n
  | .acquire => .acquire (.proc p) (.yield p .setState)
  | .setState => .exec (x.shared.setState p .runnable) (.yield p .sched)
  | .sched => x.withProc fun q => .call (.sched q .testLock) (.yield p .scheduling)
  | .scheduling => .block
  | .release => .release (.proc p) (.yield p .done)
  | .done => .ret (.int 0)

def sleep (x : Ctx n) (p : Fin n) (chan : Chan n) (lk : Lock n) : SleepPc → Act n
  | .acquire => .acquire (.proc p) (.sleep p chan lk .releaseLk)
  | .releaseLk => .release lk (.sleep p chan lk .setChan)
  | .setChan =>
    .exec (x.shared.setProc p { x.proc p with chan := some chan }) (.sleep p chan lk .setState)
  | .setState => .exec (x.shared.setState p .sleeping) (.sleep p chan lk .sched)
  | .sched => x.withProc fun q => .call (.sched q .testLock) (.sleep p chan lk .scheduling)
  | .scheduling => .block
  | .clearChan =>
    .exec (x.shared.setProc p { x.proc p with chan := none }) (.sleep p chan lk .release)
  | .release => .release (.proc p) (.sleep p chan lk .reacquire)
  | .reacquire => .acquire lk (.sleep p chan lk .done)
  | .done => .ret (.int 0)

def wakeup (x : Ctx n) (chan : Option (Chan n)) : WakeupPc n → Act n
  | .loop i =>
    if h : i < n then
      if x.me = some ⟨i, h⟩ then .exec x.shared (.wakeup chan (.loop (i + 1)))
      else .exec x.shared (.wakeup chan (.acquire ⟨i, h⟩))
    else .exec x.shared (.wakeup chan .done)
  | .acquire p => .acquire (.proc p) (.wakeup chan (.test p))
  | .test p =>
    if (x.proc p).state = .sleeping ∧ (x.proc p).chan = chan then
      .exec (x.shared.setState p .runnable) (.wakeup chan (.release p))
    else .exec x.shared (.wakeup chan (.release p))
  | .release p => .release (.proc p) (.wakeup chan (.loop (p + 1)))
  | .done => .ret (.int 0)

def reparent (x : Ctx n) (p : Fin n) : ReparentPc n → Act n
  | .loop i =>
    if h : i < n then
      if x.shared.parent ⟨i, h⟩ = some p then .exec x.shared (.reparent p (.setParent ⟨i, h⟩))
      else .exec x.shared (.reparent p (.loop (i + 1)))
    else .exec x.shared (.reparent p .done)
  | .setParent pp => .exec (x.shared.setParent pp x.shared.initproc) (.reparent p (.wakeup pp))
  | .wakeup pp =>
    .call (.wakeup (x.shared.initproc.map .proc) (.loop 0)) (.reparent p (.waking pp))
  | .waking _ => .block
  | .done => .ret (.int 0)

/-- `kexit(status)`. `fileclose`, `begin_op`, `iput` and `end_op` are code of other files. -/
def kexit (x : Ctx n) (p : Fin n) (status : Int) : KexitPc → Act n
  | .testInit =>
    if x.shared.initproc = some p then .panic "init exiting"
    else .exec x.shared (.kexit p status (.testFile 0))
  | .testFile fd =>
    if fd < x.nofile then
      match (x.image p).ofile fd with
      | some _ => .exec x.shared (.kexit p status (.fileclose fd))
      | none => .exec x.shared (.kexit p status (.testFile (fd + 1)))
    else .exec x.shared (.kexit p status .beginOp)
  | .fileclose fd => .call (.ext .file (.run [])) (.kexit p status (.closing fd))
  | .closing _ => .block
  | .clearFile fd =>
    .exec (x.shared.setImage p
      { x.image p with ofile := Function.update (x.image p).ofile fd none })
      (.kexit p status (.testFile (fd + 1)))
  | .beginOp => .call (.ext .file (.run [])) (.kexit p status .beginning)
  | .beginning => .block
  | .iput => .call (.ext .file (.run [])) (.kexit p status .putting)
  | .putting => .block
  | .endOp => .call (.ext .file (.run [])) (.kexit p status .ending)
  | .ending => .block
  | .clearCwd =>
    .exec (x.shared.setImage p { x.image p with cwd := none }) (.kexit p status .acquireWait)
  | .acquireWait => .acquire .waitLock (.kexit p status .reparent)
  | .reparent => .call (.reparent p (.loop 0)) (.kexit p status .reparenting)
  | .reparenting => .block
  | .wakeup =>
    .call (.wakeup ((x.shared.parent p).map .proc) (.loop 0)) (.kexit p status .waking)
  | .waking => .block
  | .acquire => .acquire (.proc p) (.kexit p status .setXstate)
  | .setXstate =>
    .exec (x.shared.setProc p { x.proc p with xstate := status }) (.kexit p status .setState)
  | .setState => .exec (x.shared.setState p .zombie) (.kexit p status .releaseWait)
  | .releaseWait => .release .waitLock (.kexit p status .sched)
  | .sched => x.withProc fun q => .call (.sched q .testLock) (.kexit p status .scheduling)
  | .scheduling => .block
  | .zombieExit => .panic "zombie exit"

def kwait (x : Ctx n) (p : Fin n) (addr : BitVec 64) : KwaitPc n → Act n
  | .acquireWait => .acquire .waitLock (.kwait p addr (.loop 0 false))
  | .loop i havekids =>
    if h : i < n then
      if x.shared.parent ⟨i, h⟩ = some p then .exec x.shared (.kwait p addr (.acquire ⟨i, h⟩))
      else .exec x.shared (.kwait p addr (.loop (i + 1) havekids))
    else if havekids then .exec x.shared (.kwait p addr .killed)
    else .exec x.shared (.kwait p addr (.releaseWait (-1)))
  | .acquire pp => .acquire (.proc pp) (.kwait p addr (.test pp))
  | .test pp =>
    if (x.proc pp).state = .zombie then
      .exec x.shared (.kwait p addr (.copyout pp (x.proc pp).pid))
    else .exec x.shared (.kwait p addr (.release pp))
  | .release pp => .release (.proc pp) (.kwait p addr (.loop (pp + 1) true))
  | .copyout pp pid =>
    if addr = 0 then .exec x.shared (.kwait p addr (.freeproc pp pid))
    else
      match x.choice with
      | .fail => .exec x.shared (.kwait p addr (.releaseSlot pp (-1)))
      | _ => .exec x.shared (.kwait p addr (.freeproc pp pid))
  | .freeproc pp pid => .exec (x.shared.freeproc pp) (.kwait p addr (.releaseSlot pp pid))
  | .releaseSlot pp v => .release (.proc pp) (.kwait p addr (.releaseWait v))
  | .releaseWait v => .release .waitLock (.kwait p addr (.done v))
  | .killed => .call (.killed p .acquire) (.kwait p addr .killing)
  | .killing => .block
  | .testKilled k =>
    if k ≠ 0 then .exec x.shared (.kwait p addr (.releaseWait (-1)))
    else .exec x.shared (.kwait p addr .sleep)
  | .sleep =>
    x.withProc fun q => .call (.sleep q (.proc p) .waitLock .acquire) (.kwait p addr .sleeping)
  | .sleeping => .block
  | .done v => .ret (.int v)

def killed (x : Ctx n) (p : Fin n) : KilledPc → Act n
  | .acquire => .acquire (.proc p) (.killed p .read)
  | .read => .exec x.shared (.killed p (.release (x.proc p).killed))
  | .release k => .release (.proc p) (.killed p (.done k))
  | .done k => .ret (.int k)

def setkilled (x : Ctx n) (p : Fin n) : SetkilledPc → Act n
  | .acquire => .acquire (.proc p) (.setkilled p .set)
  | .set => .exec (x.shared.setProc p { x.proc p with killed := 1 }) (.setkilled p .release)
  | .release => .release (.proc p) (.setkilled p .done)
  | .done => .ret (.int 0)

/-- What `kkill(pid)` does to a slot: the new fields and the returned value, if the slot is hit. -/
def kkill (pid : Int) (p : Proc n) : Option (Proc n × Int) :=
  if p.pid = pid then
    some ({ p with killed := 1, state := if p.state = .sleeping then .runnable else p.state }, 0)
  else none

/-- What `set_priority(pid, prio)` does to a slot. -/
def setPriority (pid prio : Int) (p : Proc n) : Option (Proc n × Int) :=
  if p.pid = pid ∧ p.state ≠ .unused then some ({ p with priority := prio }, p.priority) else none

/-- What `get_priority(pid)` does to a slot. -/
def getPriority (pid : Int) (p : Proc n) : Option (Proc n × Int) :=
  if p.pid = pid ∧ p.state ≠ .unused then some (p, p.priority) else none

def PidOp.hit : PidOp → Proc n → Option (Proc n × Int)
  | .kkill pid => Kernel.kkill pid
  | .setPriority pid prio => Kernel.setPriority pid prio
  | .getPriority pid => Kernel.getPriority pid

/-- The loop that `kkill`, `set_priority` and `get_priority` have in common. -/
def pidScan (x : Ctx n) (op : PidOp) : PidScanPc n → Act n
  | .loop i =>
    if h : i < n then .exec x.shared (.pidScan op (.acquire ⟨i, h⟩))
    else .exec x.shared (.pidScan op (.done (-1)))
  | .acquire p => .acquire (.proc p) (.pidScan op (.test p))
  | .test p =>
    match op.hit (x.proc p) with
    | some (q, v) => .exec (x.shared.setProc p q) (.pidScan op (.releaseFound p v))
    | none => .exec x.shared (.pidScan op (.release p))
  | .release p => .release (.proc p) (.pidScan op (.loop (p + 1)))
  | .releaseFound p v => .release (.proc p) (.pidScan op (.done v))
  | .done v => .ret (.int v)

/-- The table `syscalls[]`, with the `sys_` function inlined where it is in `sysproc.c` and only
passes its arguments on. The system calls of other files and those that sleep on the clock or change
the size are other kernel code. -/
def dispatch (x : Ctx n) (p : Fin n) (num : Int) : Act n :=
  if num = 1 then x.withProc fun q => .call (.kfork q .allocproc) (.syscall p .calling)
  else if num = 2 then
    x.withProc fun q => .call (.kexit q ((x.image p).argint .a0) .testInit) (.syscall p .calling)
  else if num = 3 then
    x.withProc fun q => .call
      (.kwait q (((x.image p).trapframe.map fun tf => tf .a0).getD 0) .acquireWait)
      (.syscall p .calling)
  else if num = 6 then
    .call (.pidScan (.kkill ((x.image p).argint .a0)) (.loop 0)) (.syscall p .calling)
  else if num = 11 then .exec x.shared (.syscall p (.store (x.proc p).pid))
  else if num = 22 then .exec x.shared (.syscall p (.store (x.image p).syscalls))
  else if num = 23 then
    .call (.pidScan (.setPriority ((x.image p).argint .a0) ((x.image p).argint .a1)) (.loop 0))
      (.syscall p .calling)
  else if num = 24 then
    .call (.pidScan (.getPriority ((x.image p).argint .a0)) (.loop 0)) (.syscall p .calling)
  else if num = 25 then
    match x.choice with
    | .fail => .exec x.shared (.syscall p (.store (-1)))
    | _ => .exec x.shared (.syscall p (.store 0))
  else if 0 < num ∧ num < 26 then .call (.ext .service (.run [])) (.syscall p .calling)
  else .exec x.shared (.syscall p (.store (-1)))

def syscall (x : Ctx n) (p : Fin n) : SyscallPc → Act n
  | .count =>
    .exec (x.shared.setImage p { x.image p with syscalls := wrapInt ((x.image p).syscalls + 1) })
      (.syscall p .dispatch)
  | .dispatch => dispatch x p ((x.image p).argint .a7)
  | .calling => .block
  | .store v =>
    .exec (x.shared.setImage p ((x.image p).setReg .a0 (BitVec.ofInt 64 v))) (.syscall p .done)
  | .done => .ret (.int 0)

/-- A process in user mode, and what the trap handler may do for it. -/
def user (x : Ctx n) (p : Fin n) : UserPc → Act n
  | .run =>
    match x.choice with
    | .trap tf =>
      .exec (x.shared.setImage p
        { x.image p with trapframe := (x.image p).trapframe.map fun _ => tf }) (.user p .syscall)
    | .kexit => x.withProc fun q => .call (.kexit q (-1) .testInit) (.user p .trapping)
    | .setkilled => x.withProc fun q => .call (.setkilled q .acquire) (.user p .trapping)
    | .killed => x.withProc fun q => .call (.killed q .acquire) (.user p .trapping)
    | .yield => x.withProc fun q => .call (.yield q .acquire) (.user p .trapping)
    | .other => .call (.ext .service (.run [])) (.user p .trapping)
    | _ => .block
  | .syscall => x.withProc fun q => .call (.syscall q .count) (.user p .trapping)
  | .trapping => .block

/-- The private fields of the current process as other kernel code may leave them. It does not touch
`syscalls`, and the page table and the trapframe stay allocated. -/
def Image.replaced (old m : Image) (nofile : ℕ) : Image where
  sz := m.sz
  pagetable := old.pagetable.map fun page => m.pagetable.getD page
  trapframe := old.trapframe.map fun tf => m.trapframe.getD tf
  ofile := fun fd => if fd < nofile then m.ofile fd else old.ofile fd
  cwd := m.cwd
  name := m.name
  syscalls := old.syscalls

/-- Kernel code of other files. It takes and releases spinlocks of its own, calls `wakeup`,
`killed` and `yield`, and calls `sleep` with its condition lock as the only lock it holds. -/
def ext (x : Ctx n) (kind : ExtKind) : ExtPc → Act n
  | .run held =>
    match x.choice with
    | .acquire k => .acquire (.ext k) (.ext kind (.run (k :: held)))
    | .release k =>
      if k ∈ held then .release (.ext k) (.ext kind (.run (held.erase k))) else .block
    | .wakeup k => .call (.wakeup (some (.other k)) (.loop 0)) (.ext kind (.calling held))
    | .killed => x.withProc fun q => .call (.killed q .acquire) (.ext kind (.calling held))
    | .yield =>
      if held = [] then x.withProc fun q => .call (.yield q .acquire) (.ext kind (.calling []))
      else .block
    | .sleep chan k =>
      if held = [k] ∧ kind ≠ .handler then
        x.withProc fun q => .call (.sleep q (.other chan) (.ext k) .acquire) (.ext kind (.sleeping k))
      else .block
    | .image m =>
      if kind ≠ .service then .block
      else x.withProc fun q =>
        .exec (x.shared.setImage q ((x.image q).replaced m x.nofile)) (.ext kind (.run held))
    | .ret v => if held = [] then .exec x.shared (.ext kind (.done v)) else .block
    | _ => .block
  | .calling _ => .block
  | .sleeping _ => .block
  | .done v => if kind = .handler then .iret else .ret (.int v)

def code (x : Ctx n) : Frame n → Act n
  | .main pc => main x pc
  | .userinit pc => userinit x pc
  | .allocproc pc => allocproc x pc
  | .allocpid pc => allocpid x pc
  | .kfork p pc => kfork x p pc
  | .forkret p pc => forkret x p pc
  | .scheduler pc => scheduler x pc
  | .sched p pc => sched x p pc
  | .yield p pc => Kernel.yield x p pc
  | .sleep p chan lk pc => sleep x p chan lk pc
  | .wakeup chan pc => wakeup x chan pc
  | .reparent p pc => reparent x p pc
  | .kexit p status pc => kexit x p status pc
  | .kwait p addr pc => kwait x p addr pc
  | .killed p pc => killed x p pc
  | .setkilled p pc => setkilled x p pc
  | .pidScan op pc => pidScan x op pc
  | .syscall p pc => syscall x p pc
  | .user p pc => user x p pc
  | .ext kind pc => ext x kind pc
  | .panic _ => .block

end MultithreadMayhem.Kernel
