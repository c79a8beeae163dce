import MultithreadMayhem.Pthread.Monitor
import Mathlib.Data.Finset.Insert

/-!
# Runs of one thread

Statements of one thread, executed one after the other while the other threads
stand still. `s.place t pc x m` is the state in which `t` has come to `pc` with the
shared variables `x` and the mutex `m`. From a state in which nobody is inside the
mutex the threads can move one after the other.
-/

namespace MultithreadMayhem.Pthread

open Foundation

universe u

variable {T X Cv Pc : Type u} [DecidableEq T]

def State.place (s : State T X Cv Pc) (t : T) (pc : Pc) (x : X) (m : Option T) :
    State T X Cv Pc where
  shared := x
  mutex := m
  status := Function.update s.status t (.running pc)

theorem State.eq_place {s : State T X Cv Pc} {t : T} {pc : Pc} (h : s.status t = .running pc) :
    s = s.place t pc s.shared s.mutex := by
  rw [State.place, ← h, Function.update_eq_self]

variable {s : State T X Cv Pc} {t : T} {pc next : Pc} {x y : X} {m : Option T} {cv : Cv}

@[simp]
theorem State.place_status_self : (s.place t pc x m).status t = .running pc :=
  Function.update_self ..

theorem State.place_status_of_ne {u : T} (hne : u ≠ t) :
    (s.place t pc x m).status u = s.status u :=
  Function.update_of_ne hne ..

theorem State.place_goto : (s.place t pc x m).goto t next = s.place t next x m := by
  simp [State.place, State.goto, Function.update_idem]

variable [Fintype T] [DecidableEq Cv] {code : T → Pc → X → Act X Cv Pc}
variable {M : System (State T X Cv Pc) (Label T)}

theorem reachable_transition (hM : M.step = step code) {s s' : State T X Cv Pc} {l : Label T}
    (h : M.Reachable s) (ht : Transition code s l s') : M.Reachable s' :=
  h.step (hM ▸ step_iff.mpr ht)

section Solo

variable (hM : M.step = step code) (h : M.Reachable (s.place t pc x m))

include hM h

theorem reachable_exec (hc : code t pc x = .exec y next) : M.Reachable (s.place t next y m) := by
  have ht := Transition.exec (s := s.place t pc x m) State.place_status_self hc
  rw [State.place_goto] at ht
  exact reachable_transition hM h ht

theorem reachable_lock (hc : code t pc x = .lock next) (hm : m = none) :
    M.Reachable (s.place t next x (some t)) := by
  have ht := Transition.lock (s := s.place t pc x m) State.place_status_self hc hm
  rw [State.place_goto] at ht
  exact reachable_transition hM h ht

theorem reachable_unlock (hc : code t pc x = .unlock next) (hm : m = some t) :
    M.Reachable (s.place t next x none) := by
  have ht := Transition.unlock (s := s.place t pc x m) State.place_status_self hc hm
  rw [State.place_goto] at ht
  exact reachable_transition hM h ht

theorem reachable_signal (hc : code t pc x = .signal cv next)
    (hn : ∀ u, u ≠ t → (s.status u).waitsOn cv = false) : M.Reachable (s.place t next x m) := by
  have ht := Transition.signalNone (s := s.place t pc x m) State.place_status_self hc fun u => by
    obtain rfl | hne := eq_or_ne u t
    · rw [State.place_status_self]
      rfl
    · rw [State.place_status_of_ne hne]
      exact hn u hne
  rw [State.place_goto] at ht
  exact reachable_transition hM h ht

theorem reachable_wait (hc : code t pc x = .wait cv next) (hm : m = some t) :
    M.Reachable { s with
      shared := x, mutex := none, status := Function.update s.status t (.parked cv next) } := by
  have ht := Transition.wait (s := s.place t pc x m) State.place_status_self hc hm
  simp only [State.place, Function.update_idem] at ht
  exact reachable_transition hM h ht

end Solo

/-- The mutex is free and the threads are about to run at `pcs`. -/
structure Quiet (s : State T X Cv Pc) (pcs : T → Pc) : Prop where
  free : s.mutex = none
  status : ∀ t, s.status t = .running (pcs t)

namespace Quiet

variable {pcs pcs' : T → Pc}

omit [Fintype T] [DecidableEq Cv] in
theorem place (hs : Quiet s pcs) (t : T) : s = s.place t (pcs t) s.shared none := by
  have heq := State.eq_place (hs.status t)
  rwa [hs.free] at heq

omit [Fintype T] [DecidableEq Cv] in
theorem advance (hs : Quiet s pcs) (hself : pcs' t = pc) (hothers : ∀ u, u ≠ t → pcs' u = pcs u)
    (y : X) : Quiet (s.place t pc y none) pcs' := by
  refine ⟨rfl, fun u => ?_⟩
  obtain rfl | hne := eq_or_ne u t
  · rw [State.place_status_self, hself]
  · rw [State.place_status_of_ne hne, hs.status u, hothers u hne]

omit [DecidableEq Cv] in
/-- If each thread can move on its own without a trace in the shared variables, all of them can. -/
theorem reachable_all {P : T → Status Cv Pc → Prop} (hs : Quiet s pcs) (hreach : M.Reachable s)
    (hmove : ∀ t s', M.Reachable s' → s'.mutex = none → s'.shared = s.shared →
      s'.status t = .running (pcs t) →
      ∃ st, P t st ∧ M.Reachable { s' with status := Function.update s'.status t st }) :
    ∃ s', M.Reachable s' ∧ s'.shared = s.shared ∧ ∀ t, P t (s'.status t) := by
  suffices hall : ∀ S : Finset T, ∃ s', M.Reachable s' ∧ s'.mutex = none ∧ s'.shared = s.shared ∧
      (∀ t ∈ S, P t (s'.status t)) ∧ ∀ t, t ∉ S → s'.status t = .running (pcs t) by
    obtain ⟨s', hreach', _, hshared, hdone, _⟩ := hall Finset.univ
    exact ⟨s', hreach', hshared, fun t => hdone t (Finset.mem_univ t)⟩
  intro S
  induction S using Finset.induction with
  | empty => exact ⟨s, hreach, hs.free, rfl, by simp, fun t _ => hs.status t⟩
  | insert t S ht ih =>
    obtain ⟨s', hreach', hfree, hshared, hdone, hrest⟩ := ih
    obtain ⟨st, hP, hnext⟩ := hmove t s' hreach' hfree hshared (hrest t ht)
    refine ⟨_, hnext, hfree, hshared, fun u hu => ?_, fun u hu => ?_⟩
    · change P u (Function.update s'.status t st u)
      obtain rfl | hne := eq_or_ne u t
      · rwa [Function.update_self]
      · rw [Function.update_of_ne hne]
        exact hdone u (Finset.mem_of_mem_insert_of_ne hu hne)
    · change Function.update s'.status t st u = _
      obtain ⟨hne, hS⟩ := not_or.mp fun h => hu (Finset.mem_insert.mpr h)
      rw [Function.update_of_ne hne]
      exact hrest u hS

end Quiet

end MultithreadMayhem.Pthread
