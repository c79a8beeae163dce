import MultithreadMayhem.Pthread.Tally

/-!
# Threads with a mutex only

Without condition variables every thread is running, and two threads are never
both inside. What a thread knows inside the mutex therefore only has to survive
its own statements.
-/

namespace MultithreadMayhem.Pthread

open Foundation

universe u

variable {T X Pc : Type u}

/-- No thread runs inside while another is inside. -/
def OneInside (inside : Pc → Bool) (q pc : Pc) : Prop :=
  inside q = true → inside pc = false

section Running

variable {code : T → Pc → X → Act X PEmpty Pc} {inside : Pc → Bool} {s : State T X PEmpty Pc}

theorem Guarded.running (hg : Guarded code inside s) (t : T) :
    s.status t = .running (s.status t).pc := by
  cases hs : s.status t with
  | running pc => rfl
  | parked cv pc => exact cv.elim
  | woken pc =>
    obtain ⟨_, _, _, cv, _⟩ := hg.woken_resumes hs
    exact cv.elim

theorem Guarded.oneInside (hg : Guarded code inside s) {u t : T} {q : Pc} (hne : u ≠ t)
    (hu : s.status u = .running q) : OneInside inside q (s.status t).pc := by
  intro hq
  by_contra ht
  have hmu := (hg.holder u).mpr ⟨q, hu, hq⟩
  have hmt := (hg.holder t).mpr ⟨_, hg.running t, by simpa using ht⟩
  rw [hmu] at hmt
  cases hmt
  exact hne rfl

theorem Guarded.outside_of_free (hg : Guarded code inside s) (hfree : s.mutex = none) (t : T) :
    inside (s.status t).pc = false :=
  hg.not_inside hfree (hg.running t)

variable [Fintype T] [DecidableEq T]

theorem RelyRule.reachable_mutex {I : T → X → Pc → Prop} (hd : Disciplined code inside)
    (hr : RelyRule code (OneInside inside) I) {x : X} {start : T → Pc}
    (hstart : ∀ t, inside (start t) = false) (hinit : ∀ t, I t x (start t))
    (h : (system code x start).Reachable s) (t : T) : I t s.shared (s.status t).pc :=
  hr.reachable (fun _ hs _ _ _ hne hu => (reachable_guarded hd hstart hs).oneInside hne hu)
    hinit h t

/-- `I` is what holds of the shared variables and all control points together. A statement keeps it if
at most one thread is inside, and nobody where it takes the mutex. -/
def MutexRule (code : T → Pc → X → Act X PEmpty Pc) (inside : Pc → Bool)
    (I : X → (T → Pc) → Prop) : Prop :=
  ∀ x pcs t, I x pcs → (∀ u, u ≠ t → OneInside inside (pcs t) (pcs u)) →
    (∀ next, code t (pcs t) x = .lock next → ∀ u, inside (pcs u) = false) →
    (code t (pcs t) x).Leads (fun y st => I y (Function.update pcs t st.pc)) x

omit [Fintype T] in
theorem pcs_goto (s : State T X PEmpty Pc) (t : T) (next : Pc) :
    (fun u => ((s.goto t next).status u).pc) =
      Function.update (fun u => (s.status u).pc) t next := by
  funext u
  simp only [State.goto, Function.update_apply]
  split <;> rfl

omit [Fintype T] in
theorem MutexRule.transition {I : X → (T → Pc) → Prop} (hr : MutexRule code inside I)
    (hg : Guarded code inside s) (hI : I s.shared fun t => (s.status t).pc)
    {s' : State T X PEmpty Pc} {l : Label T} (ht : Transition code s l s') :
    I s'.shared fun t => (s'.status t).pc := by
  have leads {t : T} {pc : Pc} {a : Act X PEmpty Pc} (hs : s.status t = .running pc)
      (hc : code t pc s.shared = a) (hlock : ∀ next, a = .lock next → s.mutex = none) :
      a.Leads (fun y st => I y (Function.update (fun u => (s.status u).pc) t st.pc)) s.shared := by
    have hpc : (s.status t).pc = pc := by rw [hs, Status.running_pc]
    subst hpc hc
    refine hr s.shared _ t hI (fun u hne => hg.oneInside hne.symm hs) fun next hnext u => ?_
    exact hg.outside_of_free (hlock next hnext) u
  cases ht with
  | @lock t pc next hs hc hm =>
    have hlead := leads hs hc fun _ _ => hm
    change I s.shared fun u => ((s.goto t next).status u).pc
    rwa [pcs_goto]
  | @unlock t pc next hs hc hm =>
    have hlead := leads hs hc nofun
    change I s.shared fun u => ((s.goto t next).status u).pc
    rwa [pcs_goto]
  | @exec t pc next x hs hc =>
    have hlead := leads hs hc nofun
    change I x fun u => ((s.goto t next).status u).pc
    rwa [pcs_goto]
  | @wait t pc next cv hs hc hm => exact cv.elim
  | @signalNone t pc next cv hs hc hn => exact cv.elim
  | @signalWake t w pc next pc' cv hs hc hw => exact cv.elim
  | @broadcast t pc next cv hs hc => exact cv.elim
  | @relock t pc hs hm => exact absurd ((hg.running t).symm.trans hs) nofun
  | @spurious t cv pc hs => exact cv.elim

theorem MutexRule.reachable {I : X → (T → Pc) → Prop} (hd : Disciplined code inside)
    (hr : MutexRule code inside I) {x : X} {start : T → Pc} (hstart : ∀ t, inside (start t) = false)
    (hinit : I x start) (h : (system code x start).Reachable s) :
    I s.shared fun t => (s.status t).pc := by
  refine h.invariant (fun s => I s.shared fun t => (s.status t).pc) hinit ?_
  intro s l s' hreach hI hs
  exact hr.transition (reachable_guarded hd hstart hreach) hI (step_iff.mp hs)

end Running

end MultithreadMayhem.Pthread
