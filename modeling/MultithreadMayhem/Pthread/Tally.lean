import MultithreadMayhem.Pthread.Local
import Mathlib.Algebra.BigOperators.Group.Finset.Basic
import Mathlib.Algebra.BigOperators.Ring.Finset

/-!
# Accumulators

A shared variable to which every thread adds is the sum of the contributions of
the threads, whatever the order, if each statement moves the variable by what it
adds to the contribution of its own thread.
-/

namespace MultithreadMayhem.Pthread

open Foundation

universe u

variable {T X Cv Pc : Type u}

/-- `w t pc` is the contribution of the thread `t` at `pc` to the variable `v`; the statements may
rely on what the thread knows. -/
def TallyRule (code : T → Pc → X → Act X Cv Pc) (I : T → X → Pc → Prop) (v : X → Int)
    (w : T → Pc → Int) : Prop :=
  ∀ t pc x, I t x pc → (code t pc x).Leads (fun y st => v y + w t pc = v x + w t st.pc) x

namespace TallyRule

variable [Fintype T] [DecidableEq T]
variable {code : T → Pc → X → Act X Cv Pc} {I : T → X → Pc → Prop} {v : X → Int}
variable {w : T → Pc → Int} {s s' : State T X Cv Pc} {c : Int}

theorem sum_update (w : T → Pc → Int) (f : T → Status Cv Pc) (t : T) (st : Status Cv Pc) :
    ∑ u, w u (Function.update f t st u).pc + w t (f t).pc = ∑ u, w u (f u).pc + w t st.pc := by
  have hsplit (g : T → Status Cv Pc) := Finset.add_sum_erase Finset.univ (fun u => w u (g u).pc)
    (Finset.mem_univ t)
  have hrest : ∑ u ∈ Finset.univ.erase t, w u (Function.update f t st u).pc =
      ∑ u ∈ Finset.univ.erase t, w u (f u).pc := by
    apply Finset.sum_congr rfl
    intro u hu
    rw [Function.update_of_ne (Finset.ne_of_mem_erase hu)]
  rw [← hsplit, ← hsplit f, hrest, Function.update_self]
  ring

theorem move (h : v s.shared = c + ∑ u, w u (s.status u).pc) (t : T) {st : Status Cv Pc} {y : X}
    (hst : v y + w t (s.status t).pc = v s.shared + w t st.pc) :
    v y = c + ∑ u, w u (Function.update s.status t st u).pc := by
  have := sum_update w s.status t st
  omega

theorem transition [DecidableEq Cv] (hr : TallyRule code I v w)
    (hI : ∀ t, I t s.shared (s.status t).pc) (h : v s.shared = c + ∑ u, w u (s.status u).pc)
    {l : Label T} (ht : Transition code s l s') :
    v s'.shared = c + ∑ u, w u (s'.status u).pc := by
  have leads {t : T} {pc : Pc} {a : Act X Cv Pc} (hs : s.status t = .running pc)
      (hc : code t pc s.shared = a) : a.Leads
        (fun y st => v y + w t (s.status t).pc = v s.shared + w t st.pc) s.shared := by
    have hIt := hI t
    rw [hs] at hIt ⊢
    exact hc ▸ hr t pc s.shared hIt
  cases ht with
  | @lock t pc next hs hc hm => exact move h t (leads hs hc :)
  | @unlock t pc next hs hc hm => exact move h t (leads hs hc :)
  | @wait t pc next cv hs hc hm => exact move h t (leads hs hc :)
  | @signalNone t pc next cv hs hc hn => exact move h t (leads hs hc :)
  | @exec t pc next x hs hc => exact move h t (leads hs hc :)
  | @signalWake t w' pc next pc' cv hs hc hw =>
    have hne : t ≠ w' := by
      rintro rfl
      rw [hs] at hw
      cases hw
    have hwake : v s.shared = c + ∑ u, w u (Function.update s.status w' (.woken pc') u).pc :=
      move h w' (by rw [hw]; rfl)
    refine move (s := { s with status := Function.update s.status w' (.woken pc') }) hwake t ?_
    simp only [Function.update_of_ne hne]
    exact leads hs hc
  | @broadcast t pc next cv hs hc =>
    refine move (s := { s with status := fun u => (s.status u).notify cv }) ?_ t ?_
    · simpa only [Status.notify_pc] using h
    · simp only [Status.notify_pc]
      exact leads hs hc
  | @relock t pc hs hm => exact move (y := s.shared) h t (by rw [hs]; rfl)
  | @spurious t cv pc hs => exact move h t (by rw [hs]; rfl)

theorem reachable [DecidableEq Cv] (hr : TallyRule code I v w) {x : X} {start : T → Pc}
    (hI : ∀ s : State T X Cv Pc, (system code x start).Reachable s →
      ∀ t, I t s.shared (s.status t).pc)
    (hzero : ∀ t, w t (start t) = 0) (h : (system code x start).Reachable s) :
    v s.shared = v x + ∑ u, w u (s.status u).pc := by
  refine h.invariant (fun s => v s.shared = v x + ∑ u, w u (s.status u).pc) ?_ ?_
  · change v x = v x + ∑ u, w u (start u)
    rw [Finset.sum_eq_zero fun t _ => hzero t, add_zero]
  · intro s l s' hreach hv hs
    exact hr.transition (hI s hreach) hv (step_iff.mp hs)

end TallyRule

end MultithreadMayhem.Pthread
