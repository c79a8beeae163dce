import MultithreadMayhem.Foundation.ThreadCount
import MultithreadMayhem.Pthread.Monitor

/-!
# Counters that count threads

A monitor often keeps a counter of the threads in some condition. It is right in
every reachable state if each statement moves the counter by what the statement
changes for its own thread, and if waking and parking do not change the condition.
-/

namespace MultithreadMayhem.Pthread

open Foundation

universe u

variable {T X Cv Pc : Type u}

/-- `R y st` for the shared variables `y` and the state `st` of the thread after its action. -/
def Act.Leads (R : X → Status Cv Pc → Prop) (x : X) : Act X Cv Pc → Prop
  | .lock next | .unlock next | .signal _ next | .broadcast _ next => R x (.running next)
  | .wait cv next => R x (.parked cv next)
  | .exec y next => R y (.running next)
  | .block | .exit => True

theorem Transition.shared [Fintype T] [DecidableEq T] [DecidableEq Cv]
    {code : T → Pc → X → Act X Cv Pc} {s s' : State T X Cv Pc} {l : Label T}
    (h : Transition code s l s') {R : T → X → Prop} (hrefl : ∀ t, R t s.shared)
    (hcode : ∀ t pc, (code t pc s.shared).Leads (fun y _ => R t y) s.shared) :
    ∃ t, R t s'.shared := by
  cases h with
  | @exec t pc next y hs hc =>
    have hlead := hcode t pc
    rw [hc] at hlead
    exact ⟨t, hlead⟩
  | @lock t => exact ⟨t, hrefl t⟩
  | @unlock t => exact ⟨t, hrefl t⟩
  | @wait t => exact ⟨t, hrefl t⟩
  | @signalNone t => exact ⟨t, hrefl t⟩
  | @signalWake t => exact ⟨t, hrefl t⟩
  | @broadcast t => exact ⟨t, hrefl t⟩
  | @relock t => exact ⟨t, hrefl t⟩
  | @spurious t => exact ⟨t, hrefl t⟩

structure CountRule (code : T → Pc → X → Act X Cv Pc) (v : X → Int) (P : Status Cv Pc → Bool) :
    Prop where
  act : ∀ t pc x, (code t pc x).Leads
    (fun y st => v y + (P (.running pc)).toNat = v x + (P st).toNat) x
  wake : ∀ cv pc, P (.woken pc) = P (.parked cv pc)
  resume : ∀ {t pc x cv next}, code t pc x = .wait cv next → P (.running next) = P (.woken next)

namespace CountRule

variable [Fintype T] [DecidableEq T]
variable {code : T → Pc → X → Act X Cv Pc} {inside : Pc → Bool} {v : X → Int}
variable {P : Status Cv Pc → Bool} {s s' : State T X Cv Pc}

theorem move (h : v s.shared = countThreads P s.status) (t : T) {st : Status Cv Pc} {y : X}
    (hst : v y + (P (s.status t)).toNat = v s.shared + (P st).toNat) :
    v y = countThreads P (Function.update s.status t st) := by
  have := countThreads_update P s.status t st
  omega

theorem transition [DecidableEq Cv] (hr : CountRule code v P) (hg : Guarded code inside s)
    (h : v s.shared = countThreads P s.status) {l : Label T} (ht : Transition code s l s') :
    v s'.shared = countThreads P s'.status := by
  have leads {t : T} {pc : Pc} {a : Act X Cv Pc} (hs : s.status t = .running pc)
      (hc : code t pc s.shared = a) : a.Leads
        (fun y st => v y + (P (s.status t)).toNat = v s.shared + (P st).toNat) s.shared := by
    rw [hs, ← hc]
    exact hr.act t pc s.shared
  cases ht with
  | @lock t pc next hs hc hm => exact move h t (leads hs hc)
  | @unlock t pc next hs hc hm => exact move h t (leads hs hc)
  | @wait t pc next cv hs hc hm => exact move h t (leads hs hc)
  | @signalNone t pc next cv hs hc hn => exact move h t (leads hs hc)
  | @exec t pc next x hs hc => exact move h t (leads hs hc)
  | @signalWake t w pc next pc' cv hs hc hw =>
    have hne : t ≠ w := by
      rintro rfl
      rw [hs] at hw
      cases hw
    have hwake : v s.shared = countThreads P (Function.update s.status w (.woken pc')) :=
      move h w (by rw [hw, hr.wake cv])
    refine move (s := { s with status := Function.update s.status w (.woken pc') }) hwake t ?_
    simp only [Function.update_of_ne hne]
    exact leads hs hc
  | @broadcast t pc next cv hs hc =>
    have hsame (st : Status Cv Pc) : P (st.notify cv) = P st := by
      cases st with
      | parked cv' pc' =>
        simp only [Status.notify]
        split
        · exact hr.wake cv' pc'
        · rfl
      | _ => rfl
    have hwake : v s.shared = countThreads P fun u => (s.status u).notify cv := by
      rw [h, countThreads_congr fun u => (hsame (s.status u)).symm]
    refine move (s := { s with status := fun u => (s.status u).notify cv }) hwake t ?_
    simp only [hsame]
    exact leads hs hc
  | @relock t pc hs hm =>
    obtain ⟨_, _, _, _, hc⟩ := hg.woken_resumes hs
    exact move (y := s.shared) h t (by rw [hs, hr.resume hc])
  | @spurious t cv pc hs => exact move h t (by rw [hs, hr.wake cv])

theorem reachable [DecidableEq Cv] (hd : Disciplined code inside) (hr : CountRule code v P)
    {x : X} {start : T → Pc} (hstart : ∀ t, inside (start t) = false)
    (hinit : v x = 0) (hzero : ∀ t, P (.running (start t)) = false)
    (h : (system code x start).Reachable s) : v s.shared = countThreads P s.status := by
  refine h.invariant (fun s => v s.shared = countThreads P s.status) ?_ ?_
  · have hcount : countThreads P (fun t => Status.running (start t)) = 0 :=
      countThreads_eq_zero_iff.mpr hzero
    change v x = countThreads P fun t => Status.running (start t)
    rw [hinit, hcount, Nat.cast_zero]
  · intro s l s' hreach hv hs
    exact hr.transition (reachable_guarded hd hstart hreach) hv (step_iff.mp hs)

end CountRule

end MultithreadMayhem.Pthread
