import Mathlib.Data.BitVec
import Mathlib.Data.Int.Order.Basic
import Mathlib.Logic.Function.Basic

/-!
# The data of the xv6 kernel

`n` is `NPROC`. The fields of `struct proc` are split by the rule that guards
them: `Proc` has those that `p->lock` guards, together with the scheduling fields
that are used in the same way, `parent` is guarded by `wait_lock`, and `Image` has
the fields that are private to the process.
-/

namespace MultithreadMayhem.Kernel

/-- The range of a C `int` is kept by wrapping around. -/
def wrapInt (x : Int) : Int := Int.bmod x (2 ^ 32)

/-- `enum procstate`. -/
inductive Procstate
  | unused
  | used
  | sleeping
  | runnable
  | running
  | zombie
  deriving DecidableEq, Repr

/-- The spinlocks; `ext k` are those of the files that only call into `proc.c`. -/
inductive Lock (n : ℕ)
  | waitLock
  | pidLock
  | proc (j : Fin n)
  | ext (k : ℕ)
  deriving DecidableEq

/-- What a process can sleep on: the address of a process, or any other address. -/
inductive Chan (n : ℕ)
  | proc (j : Fin n)
  | other (k : ℕ)
  deriving DecidableEq

/-- The registers of a trapframe that the kernel reads or writes, and the others. -/
inductive Reg
  | a0
  | a1
  | a7
  | other (k : ℕ)
  deriving DecidableEq

abbrev Trapframe := Reg → BitVec 64

structure Proc (n : ℕ) where
  state : Procstate
  chan : Option (Chan n)
  killed : Int
  xstate : Int
  pid : Int
  priority : Int
  isThread : Int
  tgid : Int

/-- Pointers to pages, files and inodes are numbers; `none` is the null pointer. -/
structure Image where
  sz : BitVec 64
  pagetable : Option ℕ
  trapframe : Option Trapframe
  ofile : ℕ → Option ℕ
  cwd : Option ℕ
  name : String
  syscalls : Int

/-- The globals of `proc.c`, with the table `proc[NPROC]`; `first` is the static variable of
`forkret` and `started` the flag of `main`. -/
structure Shared (n : ℕ) where
  proc : Fin n → Proc n
  parent : Fin n → Option (Fin n)
  image : Fin n → Image
  nextpid : Int
  initproc : Option (Fin n)
  first : Bool
  started : Bool

/-- A kernel thread: the scheduler context of a CPU, or a process in its kernel stack. -/
inductive Thread (n : ℕ) (C : Type)
  | cpu (c : C)
  | proc (q : Fin n)
  deriving DecidableEq

variable {n : ℕ}

namespace Proc

def blank : Proc n where
  state := .unused
  chan := none
  killed := 0
  xstate := 0
  pid := 0
  priority := 0
  isThread := 0
  tgid := 0

def initialized (p : Proc n) : Proc n :=
  { p with isThread := 0, tgid := p.pid, priority := 31, state := .used }

def freed (p : Proc n) : Proc n :=
  { p with pid := 0, chan := none, killed := 0, xstate := 0, state := .unused }

end Proc

namespace Image

def blank : Image where
  sz := 0
  pagetable := none
  trapframe := none
  ofile := fun _ => none
  cwd := none
  name := ""
  syscalls := 0

def freed (m : Image) : Image :=
  { m with trapframe := none, pagetable := none, sz := 0, name := "" }

def setReg (m : Image) (r : Reg) (v : BitVec 64) : Image :=
  { m with trapframe := m.trapframe.map fun tf => Function.update tf r v }

def argint (m : Image) (r : Reg) : Int :=
  match m.trapframe with
  | some tf => ((tf r).setWidth 32).toInt
  | none => 0

end Image

namespace Shared

/-- The globals after `procinit()`. -/
def boot : Shared n where
  proc := fun _ => .blank
  parent := fun _ => none
  image := fun _ => .blank
  nextpid := 1
  initproc := none
  first := true
  started := false

def setProc (sh : Shared n) (j : Fin n) (p : Proc n) : Shared n :=
  { sh with proc := Function.update sh.proc j p }

def setState (sh : Shared n) (j : Fin n) (st : Procstate) : Shared n :=
  sh.setProc j { sh.proc j with state := st }

def setParent (sh : Shared n) (j : Fin n) (p : Option (Fin n)) : Shared n :=
  { sh with parent := Function.update sh.parent j p }

def setImage (sh : Shared n) (j : Fin n) (m : Image) : Shared n :=
  { sh with image := Function.update sh.image j m }

def freeproc (sh : Shared n) (j : Fin n) : Shared n :=
  ((sh.setProc j (sh.proc j).freed).setParent j none).setImage j (sh.image j).freed

section Updates

variable (sh : Shared n) (j : Fin n)

@[simp]
theorem setProc_proc (p : Proc n) : (sh.setProc j p).proc = Function.update sh.proc j p := rfl

@[simp]
theorem setProc_parent (p : Proc n) : (sh.setProc j p).parent = sh.parent := rfl

@[simp]
theorem setProc_initproc (p : Proc n) : (sh.setProc j p).initproc = sh.initproc := rfl

@[simp]
theorem setState_proc (st : Procstate) :
    (sh.setState j st).proc = Function.update sh.proc j { sh.proc j with state := st } := rfl

@[simp]
theorem setState_parent (st : Procstate) : (sh.setState j st).parent = sh.parent := rfl

@[simp]
theorem setState_initproc (st : Procstate) : (sh.setState j st).initproc = sh.initproc := rfl

@[simp]
theorem setParent_proc (p : Option (Fin n)) : (sh.setParent j p).proc = sh.proc := rfl

@[simp]
theorem setParent_parent (p : Option (Fin n)) :
    (sh.setParent j p).parent = Function.update sh.parent j p := rfl

@[simp]
theorem setParent_initproc (p : Option (Fin n)) : (sh.setParent j p).initproc = sh.initproc := rfl

@[simp]
theorem setImage_proc (m : Image) : (sh.setImage j m).proc = sh.proc := rfl

@[simp]
theorem setImage_parent (m : Image) : (sh.setImage j m).parent = sh.parent := rfl

@[simp]
theorem setImage_initproc (m : Image) : (sh.setImage j m).initproc = sh.initproc := rfl

@[simp]
theorem freeproc_proc : (sh.freeproc j).proc = Function.update sh.proc j (sh.proc j).freed := rfl

@[simp]
theorem freeproc_parent : (sh.freeproc j).parent = Function.update sh.parent j none := rfl

@[simp]
theorem freeproc_initproc : (sh.freeproc j).initproc = sh.initproc := rfl

end Updates

end Shared

end MultithreadMayhem.Kernel
