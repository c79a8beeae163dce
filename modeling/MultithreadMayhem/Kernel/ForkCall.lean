import MultithreadMayhem.Foundation.PageTables
import MultithreadMayhem.Kernel.Data
import Mathlib.Data.Fintype.Basic
import Mathlib.Data.List.FinRange

/-!
# One call of `kfork`

`kfork()` with all that it calls in `proc.c`, from the call to the return, on one CPU
and together with the pages that it takes. The functions of the other files are
parameters. A function that panics has an error as its result.
-/

namespace MultithreadMayhem.Kernel.ForkCall

open Foundation

inductive Pte
  | r
  | w
  | x

structure Layout where
  pgsize : ℕ
  /-- `TRAMPOLINE` and `TRAPFRAME` -/
  trampolineVa : ℕ
  trapframeVa : ℕ
  apart : trampolineVa ≠ trapframeVa
  trampoline : ℕ
  forkret : BitVec 64

/-- The functions of `kalloc.c` and `vm.c` on the memory `M`. The null pointer is `none`. -/
structure Vm (M : Type) where
  kalloc : M → M × Option ℕ
  kfree : (pa : ℕ) → M → M
  uvmcreate : M → M × Option ℕ
  mappages : (pagetable va size pa : ℕ) → (perm : List Pte) → M → M × Int
  uvmunmap : (pagetable va npages : ℕ) → (doFree : Bool) → M → M
  uvmfree : (pagetable : ℕ) → (sz : BitVec 64) → M → M
  uvmcopy : (old new : ℕ) → (sz : BitVec 64) → M → M × Int

/-- The functions of `file.c`, `fs.c` and `string.c`; `X` are the tables of files and inodes with
their reference counts. -/
structure Files (X : Type) where
  filedup : (f : ℕ) → X → X × ℕ
  idup : (ip : Option ℕ) → X → X × Option ℕ
  safestrcpy : (t : String) → (n : ℕ) → String

structure Context where
  ra : BitVec 64
  sp : BitVec 64
  /-- `s0` to `s11` -/
  saved : Fin 12 → BitVec 64

structure Slot (n : ℕ) extends Proc n where
  parent : Option (Fin n)
  kstack : BitVec 64
  sz : BitVec 64
  pagetable : Option ℕ
  /-- The page of the trapframe. -/
  trapframe : Option ℕ
  context : Context
  ofile : ℕ → Option ℕ
  cwd : Option ℕ
  name : String
  syscalls : Int

/-- `held` are the spinlocks that the CPU holds, and `frames` what the trapframe pages contain. -/
structure Os (n : ℕ) (M X : Type) where
  proc : Fin n → Slot n
  nextpid : Int
  held : Finset (Lock n)
  mem : M
  frames : ℕ → Trapframe
  files : X

variable {n : ℕ} {M X : Type}

def Os.set (s : Os n M X) (p : Fin n) (q : Slot n) : Os n M X :=
  { s with proc := Function.update s.proc p q }

def acquire (l : Lock n) (s : Os n M X) : Except String (Os n M X) :=
  if l ∈ s.held then .error "acquire" else .ok { s with held := insert l s.held }

def release (l : Lock n) (s : Os n M X) : Except String (Os n M X) :=
  if l ∈ s.held then .ok { s with held := s.held.erase l } else .error "release"

variable (lay : Layout) (vm : Vm M) (files : Files X) (nofile : ℕ)

def allocpid (s : Os n M X) : Except String (Os n M X × Int) := do
  let s ← acquire .pidLock s
  let pid := s.nextpid
  let s := { s with nextpid := wrapInt (s.nextpid + 1) }
  let s ← release .pidLock s
  return (s, pid)

/-- `proc_pagetable(p)`. -/
def procPagetable (p : Slot n) (m : M) : M × Option ℕ :=
  match vm.uvmcreate m with
  | (m, none) => (m, none)
  | (m, some pagetable) =>
    let (m, r) := vm.mappages pagetable lay.trampolineVa lay.pgsize lay.trampoline [.r, .x] m
    if r < 0 then (vm.uvmfree pagetable 0 m, none)
    else
      let (m, r) :=
        vm.mappages pagetable lay.trapframeVa lay.pgsize (p.trapframe.getD 0) [.r, .w] m
      if r < 0 then
        (vm.uvmfree pagetable 0 (vm.uvmunmap pagetable lay.trampolineVa 1 false m), none)
      else (m, some pagetable)

/-- `proc_freepagetable(pagetable, sz)`. -/
def procFreepagetable (pagetable : ℕ) (sz : BitVec 64) (m : M) : M :=
  vm.uvmfree pagetable sz
    (vm.uvmunmap pagetable lay.trapframeVa 1 false
      (vm.uvmunmap pagetable lay.trampolineVa 1 false m))

/-- The memory after `freeproc(p)`. -/
def freePages (p : Slot n) (m : M) : M :=
  let m := p.trapframe.elim m fun pa => vm.kfree pa m
  p.pagetable.elim m fun pagetable => procFreepagetable lay vm pagetable p.sz m

def Slot.freed (p : Slot n) : Slot n :=
  { p with
    trapframe := none, pagetable := none, sz := 0, pid := 0, parent := none, name := "",
    chan := none, killed := 0, xstate := 0, state := .unused }

def freeproc (p : Fin n) (s : Os n M X) : Os n M X :=
  { s with mem := freePages lay vm (s.proc p) s.mem }.set p (s.proc p).freed

/-- `allocproc()` from the label `found`. -/
def found (p : Fin n) (s : Os n M X) : Except String (Os n M X × Option (Fin n)) := do
  let (s, pid) ← allocpid s
  let s := s.set p { s.proc p with
    pid := pid, isThread := 0, tgid := pid, priority := 31, state := .used, syscalls := 0 }
  let (mem, pa) := vm.kalloc s.mem
  let s := { s with mem := mem }.set p { s.proc p with trapframe := pa }
  if pa = none then
    let s ← release (.proc p) (freeproc lay vm p s)
    return (s, none)
  let (mem, pagetable) := procPagetable lay vm (s.proc p) s.mem
  let s := { s with mem := mem }.set p { s.proc p with pagetable := pagetable }
  if pagetable = none then
    let s ← release (.proc p) (freeproc lay vm p s)
    return (s, none)
  let context : Context :=
    { ra := lay.forkret, sp := (s.proc p).kstack + BitVec.ofNat 64 lay.pgsize, saved := fun _ => 0 }
  return (s.set p { s.proc p with context := context }, some p)

/-- The loop of `allocproc` over the slots `ps`. -/
def scan : List (Fin n) → Os n M X → Except String (Os n M X × Option (Fin n))
  | [], s => .ok (s, none)
  | p :: ps, s => do
    let s ← acquire (.proc p) s
    if (s.proc p).state = .unused then
      found lay vm p s
    else
      let s ← release (.proc p) s
      scan ps s

def allocproc (s : Os n M X) : Except String (Os n M X × Option (Fin n)) :=
  scan lay vm (List.finRange n) s

/-- The loop of `kfork` that goes on to duplicate the files of `p` from the descriptor `i`. -/
def dupFiles (p np : Fin n) : (i fuel : ℕ) → Os n M X → Os n M X
  | _, 0, s => s
  | i, fuel + 1, s =>
    dupFiles p np (i + 1) fuel <|
      match (s.proc p).ofile i with
      | some f =>
        let (x, f) := files.filedup f s.files
        { s with files := x }.set np
          { s.proc np with ofile := Function.update (s.proc np).ofile i (some f) }
      | none => s

def kfork (p : Fin n) (s : Os n M X) : Except String (Os n M X × Int) := do
  let (s, child) ← allocproc lay vm s
  match child with
  | none => return (s, -1)
  | some np =>
    let (mem, r) := vm.uvmcopy ((s.proc p).pagetable.getD 0) ((s.proc np).pagetable.getD 0)
      (s.proc p).sz s.mem
    let s := { s with mem := mem }
    if r < 0 then
      let s ← release (.proc np) (freeproc lay vm np s)
      return (s, -1)
    let s := s.set np { s.proc np with sz := (s.proc p).sz }
    let frame := s.frames ((s.proc p).trapframe.getD 0)
    let s := { s with
      frames := Function.update s.frames ((s.proc np).trapframe.getD 0)
        (Function.update frame .a0 0) }
    let s := dupFiles files p np 0 nofile s
    let (x, cwd) := files.idup (s.proc p).cwd s.files
    let s := { s with files := x }.set np { s.proc np with
      cwd := cwd, name := files.safestrcpy (s.proc p).name 16 }
    let pid := (s.proc np).pid
    let s ← release (.proc np) s
    let s ← acquire .waitLock s
    let s := s.set np { s.proc np with parent := some p }
    let s ← release .waitLock s
    let s ← acquire (.proc np) s
    let s := s.set np { s.proc np with state := .runnable }
    let s ← release (.proc np) s
    return (s, pid)

end MultithreadMayhem.Kernel.ForkCall
