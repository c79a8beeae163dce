import MultithreadMayhem.Foundation.System
import MultithreadMayhem.Kernel.Code

/-!
# CPUs that run kernel threads

Each CPU executes the stack of one thread: its own scheduler context, or a
process. `swtch` changes the thread, and the stack it leaves is what the saved
context will go on with. A step is the next statement of one CPU; the label
names the CPU and makes the choices that `proc.c` leaves open.
-/

namespace MultithreadMayhem.Kernel

open Foundation

variable {n : ℕ} {C : Type}

/-- `me`, `noff` and `running` are the fields of `struct cpu`; `holder` tells the CPU that has a
spinlock. -/
structure State (n : ℕ) (C : Type) where
  shared : Shared n
  holder : Lock n → Option C
  me : C → Option (Fin n)
  noff : C → ℕ
  running : C → Thread n C
  stack : Thread n C → List (Frame n)

namespace State

variable [DecidableEq C] (s : State n C)

def ctx (nofile : ℕ) (c : C) (x : Choice) : Ctx n where
  me := s.me c
  noff := s.noff c
  holding := fun l => decide (s.holder l = some c)
  shared := s.shared
  choice := x
  nofile := nofile

def setStack (t : Thread n C) (fs : List (Frame n)) : State n C :=
  { s with stack := Function.update s.stack t fs }

theorem setStack_stack (t : Thread n C) (fs : List (Frame n)) :
    (s.setStack t fs).stack = Function.update s.stack t fs := rfl

def take (c : C) (l : Lock n) : State n C :=
  { s with holder := Function.update s.holder l (some c)
           noff := Function.update s.noff c (s.noff c + 1) }

def give (c : C) (l : Lock n) : State n C :=
  { s with holder := Function.update s.holder l none
           noff := Function.update s.noff c (s.noff c - 1) }

/-- The effect of an action of the top frame `f` of the thread `t` on the CPU `c`. A lock that is
taken spins; taking a lock that the CPU has, or releasing one that it has not, panics. -/
def act (c : C) (t : Thread n C) (f : Frame n) (rest : List (Frame n)) : Act n → Option (State n C)
  | .acquire l next =>
    if s.holder l = some c then some (s.setStack t (.panic "acquire" :: f :: rest))
    else if s.holder l = none then some ((s.take c l).setStack t (next :: rest))
    else none
  | .release l next =>
    if s.holder l = some c then some ((s.give c l).setStack t (next :: rest))
    else some (s.setStack t (.panic "release" :: f :: rest))
  | .exec sh next => some { s.setStack t (next :: rest) with shared := sh }
  | .call callee next => some (s.setStack t (callee :: next :: rest))
  | .ret v =>
    match rest with
    | g :: rest => some (s.setStack t (g.resume v :: rest))
    | [] => none
  | .iret =>
    match rest with
    | g :: rest => some (s.setStack t (g :: rest))
    | [] => none
  | .setProc p next => some { s.setStack t (next :: rest) with me := Function.update s.me c p }
  | .setContext p next =>
    some ((s.setStack t (next :: rest)).setStack (.proc p) [.forkret p .release])
  | .swtchTo p next =>
    some { s.setStack t (next :: rest) with running := Function.update s.running c (.proc p) }
  | .swtchBack next =>
    some { s.setStack t (next :: rest) with running := Function.update s.running c (.cpu c) }
  | .panic msg => some (s.setStack t (.panic msg :: f :: rest))
  | .block => none

/-- One step of the CPU `c`. An interrupt is taken only while no lock is held. -/
def step (nofile : ℕ) (l : C × Choice) : Option (State n C) :=
  match s.stack (s.running l.1) with
  | [] => none
  | f :: rest =>
    match f, l.2 with
    | .panic _, _ => none
    | f, .interrupt =>
      if s.noff l.1 = 0 then some (s.setStack (s.running l.1) (.ext .handler (.run []) :: f :: rest))
      else none
    | f, x => s.act l.1 (s.running l.1) f rest (code (s.ctx nofile l.1 x) f)

/-- The state after `procinit()`: the CPU `boot` goes on in `main()`, the others wait for it. -/
def boot (boot : C) : State n C where
  shared := .boot
  holder := fun _ => none
  me := fun _ => none
  noff := fun _ => 0
  running := .cpu
  stack := fun t =>
    match t with
    | .cpu c => if c = boot then [.main .userinit] else [.main .waiting]
    | .proc _ => []

end State

def steps (k : ℕ) : List (Unit × Choice) := List.replicate k ((), .run)

/-- A system call of a process, with the number in `a7` and two arguments. -/
def trapWith (num a0 a1 : BitVec 64) : Unit × Choice :=
  ((), .trap fun r =>
    match r with
    | .a0 => a0
    | .a1 => a1
    | .a7 => num
    | .other _ => 0)

variable [DecidableEq C]

/-- The kernel with `n` slots in its table and `nofile` files for each process. -/
def kernel (n nofile : ℕ) (boot : C) : System (State n C) (C × Choice) where
  init := .boot boot
  step := fun s l => s.step nofile l

/-- The steps of the CPU `c`, one case for each kind of action. -/
inductive Transition (nofile : ℕ) (s : State n C) (c : C) : State n C → Prop
  | acquireAgain {x : Choice} {f next : Frame n} {rest : List (Frame n)} {l : Lock n}
      (hs : s.stack (s.running c) = f :: rest)
      (ha : code (s.ctx nofile c x) f = .acquire l next) (hl : s.holder l = some c) :
      Transition nofile s c (s.setStack (s.running c) (.panic "acquire" :: f :: rest))
  | acquire {x : Choice} {f next : Frame n} {rest : List (Frame n)} {l : Lock n}
      (hs : s.stack (s.running c) = f :: rest)
      (ha : code (s.ctx nofile c x) f = .acquire l next) (hl : s.holder l = none) :
      Transition nofile s c ((s.take c l).setStack (s.running c) (next :: rest))
  | release {x : Choice} {f next : Frame n} {rest : List (Frame n)} {l : Lock n}
      (hs : s.stack (s.running c) = f :: rest)
      (ha : code (s.ctx nofile c x) f = .release l next) (hl : s.holder l = some c) :
      Transition nofile s c ((s.give c l).setStack (s.running c) (next :: rest))
  | releaseOther {x : Choice} {f next : Frame n} {rest : List (Frame n)} {l : Lock n}
      (hs : s.stack (s.running c) = f :: rest)
      (ha : code (s.ctx nofile c x) f = .release l next) (hl : s.holder l ≠ some c) :
      Transition nofile s c (s.setStack (s.running c) (.panic "release" :: f :: rest))
  | exec {x : Choice} {f next : Frame n} {rest : List (Frame n)} {sh : Shared n}
      (hs : s.stack (s.running c) = f :: rest) (ha : code (s.ctx nofile c x) f = .exec sh next) :
      Transition nofile s c { s.setStack (s.running c) (next :: rest) with shared := sh }
  | call {x : Choice} {f callee next : Frame n} {rest : List (Frame n)}
      (hs : s.stack (s.running c) = f :: rest)
      (ha : code (s.ctx nofile c x) f = .call callee next) :
      Transition nofile s c (s.setStack (s.running c) (callee :: next :: rest))
  | ret {x : Choice} {f g : Frame n} {rest : List (Frame n)} {v : Val n}
      (hs : s.stack (s.running c) = f :: g :: rest) (ha : code (s.ctx nofile c x) f = .ret v) :
      Transition nofile s c (s.setStack (s.running c) (g.resume v :: rest))
  | iret {x : Choice} {f g : Frame n} {rest : List (Frame n)}
      (hs : s.stack (s.running c) = f :: g :: rest) (ha : code (s.ctx nofile c x) f = .iret) :
      Transition nofile s c (s.setStack (s.running c) (g :: rest))
  | setProc {x : Choice} {f next : Frame n} {rest : List (Frame n)} {p : Option (Fin n)}
      (hs : s.stack (s.running c) = f :: rest) (ha : code (s.ctx nofile c x) f = .setProc p next) :
      Transition nofile s c
        { s.setStack (s.running c) (next :: rest) with me := Function.update s.me c p }
  | setContext {x : Choice} {f next : Frame n} {rest : List (Frame n)} {p : Fin n}
      (hs : s.stack (s.running c) = f :: rest)
      (ha : code (s.ctx nofile c x) f = .setContext p next) :
      Transition nofile s c
        ((s.setStack (s.running c) (next :: rest)).setStack (.proc p) [.forkret p .release])
  | swtchTo {x : Choice} {f next : Frame n} {rest : List (Frame n)} {p : Fin n}
      (hs : s.stack (s.running c) = f :: rest) (ha : code (s.ctx nofile c x) f = .swtchTo p next) :
      Transition nofile s c { s.setStack (s.running c) (next :: rest) with
        running := Function.update s.running c (.proc p) }
  | swtchBack {x : Choice} {f next : Frame n} {rest : List (Frame n)}
      (hs : s.stack (s.running c) = f :: rest) (ha : code (s.ctx nofile c x) f = .swtchBack next) :
      Transition nofile s c { s.setStack (s.running c) (next :: rest) with
        running := Function.update s.running c (.cpu c) }
  | panic {x : Choice} {f : Frame n} {rest : List (Frame n)} {msg : String}
      (hs : s.stack (s.running c) = f :: rest) (ha : code (s.ctx nofile c x) f = .panic msg) :
      Transition nofile s c (s.setStack (s.running c) (.panic msg :: f :: rest))
  | interrupt {f : Frame n} {rest : List (Frame n)} (hs : s.stack (s.running c) = f :: rest)
      (hf : ∀ msg, f ≠ .panic msg) (hn : s.noff c = 0) :
      Transition nofile s c (s.setStack (s.running c) (.ext .handler (.run []) :: f :: rest))

theorem State.act_transition {nofile : ℕ} {s s' : State n C} {c : C} {x : Choice} {f : Frame n}
    {rest : List (Frame n)} (hs : s.stack (s.running c) = f :: rest)
    (h : s.act c (s.running c) f rest (code (s.ctx nofile c x) f) = some s') :
    Transition nofile s c s' := by
  cases ha : code (s.ctx nofile c x) f with
  | acquire l next =>
    simp only [ha, State.act] at h
    split at h
    · cases h
      exact .acquireAgain hs ha ‹_›
    · split at h <;> cases h
      exact .acquire hs ha ‹_›
  | release l next =>
    simp only [ha, State.act] at h
    split at h <;> cases h
    · exact .release hs ha ‹_›
    · exact .releaseOther hs ha ‹_›
  | exec sh next =>
    rw [ha] at h
    cases h
    exact .exec hs ha
  | call callee next =>
    rw [ha] at h
    cases h
    exact .call hs ha
  | ret v =>
    rw [ha] at h
    cases rest with
    | nil => cases h
    | cons g rest =>
      cases h
      exact .ret hs ha
  | iret =>
    rw [ha] at h
    cases rest with
    | nil => cases h
    | cons g rest =>
      cases h
      exact .iret hs ha
  | setProc p next =>
    rw [ha] at h
    cases h
    exact .setProc hs ha
  | setContext p next =>
    rw [ha] at h
    cases h
    exact .setContext hs ha
  | swtchTo p next =>
    rw [ha] at h
    cases h
    exact .swtchTo hs ha
  | swtchBack next =>
    rw [ha] at h
    cases h
    exact .swtchBack hs ha
  | panic msg =>
    rw [ha] at h
    cases h
    exact .panic hs ha
  | block =>
    rw [ha] at h
    cases h

theorem State.step_transition {nofile : ℕ} {s s' : State n C} {l : C × Choice}
    (h : s.step nofile l = some s') : Transition nofile s l.1 s' := by
  cases hs : s.stack (s.running l.1) with
  | nil =>
    rw [State.step, hs] at h
    cases h
  | cons f rest =>
    simp only [State.step, hs] at h
    split at h
    · cases h
    · rename_i hf hx
      split at h <;> cases h
      exact .interrupt hs hf ‹_›
    · exact State.act_transition hs h

end MultithreadMayhem.Kernel
