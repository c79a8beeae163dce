import MultithreadMayhem.Foundation.System
import Mathlib.Data.Fintype.Card

/-!
# Threads with one mutex and condition variables

A thread is a control point `Pc`; `code t pc x` is the next action of the thread
`t` at `pc` when the shared variables are `x`. The machine interleaves these
actions. `pthread_cond_wait` releases the mutex and parks the thread in one step;
a parked thread goes on only after it was woken and has taken the mutex again.
`pthread_cond_signal` wakes one parked thread, which the label chooses, and does
nothing when none is parked. A spurious wakeup may hit a parked thread at any time.
-/

namespace MultithreadMayhem.Pthread

open Foundation

universe u

/-- The next action of a thread; `next` is the control point after it. -/
inductive Act (X Cv Pc : Type u)
  | lock (next : Pc)
  | unlock (next : Pc)
  | wait (cv : Cv) (next : Pc)
  | signal (cv : Cv) (next : Pc)
  | broadcast (cv : Cv) (next : Pc)
  | exec (x : X) (next : Pc)
  | block
  | exit

inductive Status (Cv Pc : Type u)
  | running (pc : Pc)
  /-- In `pthread_cond_wait`, not woken yet. -/
  | parked (cv : Cv) (pc : Pc)
  /-- In `pthread_cond_wait`, woken, about to take the mutex again. -/
  | woken (pc : Pc)

structure State (T X Cv Pc : Type u) where
  shared : X
  mutex : Option T
  status : T → Status Cv Pc

inductive Label (T : Type u)
  /-- The next action of `t`, except for a signal that wakes a thread. -/
  | run (t : T)
  /-- `t` signals and the signal wakes `w`. -/
  | wake (t w : T)
  | spurious (t : T)
  deriving DecidableEq

def Label.IsSpurious {T : Type u} : Label T → Prop
  | .spurious _ => True
  | _ => False

section Machine

variable {T X Cv Pc : Type u}

section Notify

variable [DecidableEq Cv]

def Status.waitsOn (cv : Cv) : Status Cv Pc → Bool
  | .parked cv' _ => decide (cv' = cv)
  | _ => false

def Status.notify (cv : Cv) : Status Cv Pc → Status Cv Pc
  | .parked cv' pc => if cv' = cv then .woken pc else .parked cv' pc
  | st => st

end Notify

def Status.isParked : Status Cv Pc → Bool
  | .parked _ _ => true
  | _ => false

variable [DecidableEq T]

def State.goto (s : State T X Cv Pc) (t : T) (pc : Pc) : State T X Cv Pc :=
  { s with status := Function.update s.status t (.running pc) }

variable [DecidableEq Cv] (code : T → Pc → X → Act X Cv Pc)

def step [Fintype T] (s : State T X Cv Pc) : Label T → Option (State T X Cv Pc)
  | .run t =>
    match s.status t with
    | .running pc =>
      match code t pc s.shared with
      | .lock next => if s.mutex = none then some { s.goto t next with mutex := some t } else none
      | .unlock next =>
        if s.mutex = some t then some { s.goto t next with mutex := none } else none
      | .wait cv next =>
        if s.mutex = some t then
          some { s with mutex := none, status := Function.update s.status t (.parked cv next) }
        else none
      | .signal cv next =>
        if ∃ w, (s.status w).waitsOn cv = true then none else some (s.goto t next)
      | .broadcast cv next =>
        some ({ s with status := fun u => (s.status u).notify cv }.goto t next)
      | .exec x next => some { s.goto t next with shared := x }
      | .block => none
      | .exit => none
    | .parked _ _ => none
    | .woken pc => if s.mutex = none then some { s.goto t pc with mutex := some t } else none
  | .wake t w =>
    match s.status t, s.status w with
    | .running pc, .parked cv' pc' =>
      match code t pc s.shared with
      | .signal cv next =>
        if cv' = cv then
          some ({ s with status := Function.update s.status w (.woken pc') }.goto t next)
        else none
      | _ => none
    | _, _ => none
  | .spurious t =>
    match s.status t with
    | .parked _ pc => some { s with status := Function.update s.status t (.woken pc) }
    | _ => none

/-- The threads start at the control points `start` with the mutex free. -/
def system [Fintype T] (x : X) (start : T → Pc) : System (State T X Cv Pc) (Label T) where
  init := { shared := x, mutex := none, status := fun t => .running (start t) }
  step := step code

/-- The steps of the machine, one case per kind of action. -/
inductive Transition (s : State T X Cv Pc) : Label T → State T X Cv Pc → Prop
  | lock {t : T} {pc next : Pc} (hs : s.status t = .running pc)
      (hc : code t pc s.shared = .lock next) (hm : s.mutex = none) :
      Transition s (.run t) { s.goto t next with mutex := some t }
  | unlock {t : T} {pc next : Pc} (hs : s.status t = .running pc)
      (hc : code t pc s.shared = .unlock next) (hm : s.mutex = some t) :
      Transition s (.run t) { s.goto t next with mutex := none }
  | wait {t : T} {pc next : Pc} {cv : Cv} (hs : s.status t = .running pc)
      (hc : code t pc s.shared = .wait cv next) (hm : s.mutex = some t) :
      Transition s (.run t)
        { s with mutex := none, status := Function.update s.status t (.parked cv next) }
  | signalNone {t : T} {pc next : Pc} {cv : Cv} (hs : s.status t = .running pc)
      (hc : code t pc s.shared = .signal cv next) (hn : ∀ w, (s.status w).waitsOn cv = false) :
      Transition s (.run t) (s.goto t next)
  | signalWake {t w : T} {pc next pc' : Pc} {cv : Cv} (hs : s.status t = .running pc)
      (hc : code t pc s.shared = .signal cv next) (hw : s.status w = .parked cv pc') :
      Transition s (.wake t w)
        ({ s with status := Function.update s.status w (.woken pc') }.goto t next)
  | broadcast {t : T} {pc next : Pc} {cv : Cv} (hs : s.status t = .running pc)
      (hc : code t pc s.shared = .broadcast cv next) :
      Transition s (.run t) ({ s with status := fun u => (s.status u).notify cv }.goto t next)
  | exec {t : T} {pc next : Pc} {x : X} (hs : s.status t = .running pc)
      (hc : code t pc s.shared = .exec x next) :
      Transition s (.run t) { s.goto t next with shared := x }
  | relock {t : T} {pc : Pc} (hs : s.status t = .woken pc) (hm : s.mutex = none) :
      Transition s (.run t) { s.goto t pc with mutex := some t }
  | spurious {t : T} {cv : Cv} {pc : Pc} (hs : s.status t = .parked cv pc) :
      Transition s (.spurious t) { s with status := Function.update s.status t (.woken pc) }

variable {code} [Fintype T]

theorem step_iff {s s' : State T X Cv Pc} {l : Label T} :
    step code s l = some s' ↔ Transition code s l s' := by
  constructor
  · intro h
    cases l with
    | run t =>
      cases hs : s.status t with
      | running pc =>
        cases hc : code t pc s.shared <;> simp only [step, hs, hc] at h
        case lock next =>
          split at h <;> cases h
          exact .lock hs hc ‹_›
        case unlock next =>
          split at h <;> cases h
          exact .unlock hs hc ‹_›
        case wait cv next =>
          split at h <;> cases h
          exact .wait hs hc ‹_›
        case signal cv next =>
          split at h <;> cases h
          rename_i hn
          exact .signalNone hs hc fun w => by simpa using fun hw => hn ⟨w, hw⟩
        case broadcast cv next =>
          cases h
          exact .broadcast hs hc
        case exec x next =>
          cases h
          exact .exec hs hc
        case block => cases h
        case exit => cases h
      | parked cv pc => simp [step, hs] at h
      | woken pc =>
        simp only [step, hs] at h
        split at h <;> cases h
        exact .relock hs ‹_›
    | wake t w =>
      cases hs : s.status t with
      | parked cv pc => simp [step, hs] at h
      | woken pc => simp [step, hs] at h
      | running pc =>
        cases hw : s.status w with
        | running pc' => simp [step, hs, hw] at h
        | woken pc' => simp [step, hs, hw] at h
        | parked cv' pc' =>
          cases hc : code t pc s.shared <;> simp only [step, hs, hw, hc, reduceCtorEq] at h
          split at h <;> cases h
          rename_i hcv
          exact .signalWake hs hc (hcv ▸ hw)
    | spurious t =>
      cases hs : s.status t <;> simp only [step, hs, reduceCtorEq] at h
      cases h
      exact .spurious hs
  · intro h
    cases h with
    | lock hs hc hm => simp [step, hs, hc, hm]
    | unlock hs hc hm => simp [step, hs, hc, hm]
    | wait hs hc hm => simp [step, hs, hc, hm]
    | signalNone hs hc hn => simp [step, hs, hc, hn]
    | signalWake hs hc hw => simp [step, hs, hc, hw]
    | broadcast hs hc => simp [step, hs, hc]
    | exec hs hc => simp [step, hs, hc]
    | relock hs hm => simp [step, hs, hm]
    | spurious hs => simp [step, hs]

/-- Some thread can take a step that is not a spurious wakeup. -/
def CanStep (code : T → Pc → X → Act X Cv Pc) (s : State T X Cv Pc) : Prop :=
  ∃ l s', ¬ l.IsSpurious ∧ step code s l = some s'

end Machine

end MultithreadMayhem.Pthread
