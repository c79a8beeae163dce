import MultithreadMayhem.Pthread.Count

/-!
# Assertions of a single thread

What one thread knows about the shared variables at its control point. Such an
assertion holds in every reachable state if the thread's own statements establish
it for the next control point and the statements of the other threads leave it
alone. The threads in `pthread_cond_wait` keep the assertion of the point at which
they go on.
-/

namespace MultithreadMayhem.Pthread

open Foundation

universe u

variable {T X Cv Pc : Type u}

def Status.pc : Status Cv Pc → Pc
  | .running pc | .parked _ pc | .woken pc => pc

@[simp]
theorem Status.running_pc (pc : Pc) : (Status.running pc : Status Cv Pc).pc = pc := rfl

@[simp]
theorem Status.parked_pc (cv : Cv) (pc : Pc) : (Status.parked cv pc).pc = pc := rfl

@[simp]
theorem Status.notify_pc [DecidableEq Cv] (cv : Cv) (st : Status Cv Pc) :
    (st.notify cv).pc = st.pc := by
  cases st with
  | parked cv' pc =>
    simp only [Status.notify]
    split <;> rfl
  | _ => rfl

theorem Act.Leads.imp {a : Act X Cv Pc} {x : X} {P R : X → Status Cv Pc → Prop}
    (hp : a.Leads P x) (h : ∀ y st, P y st → R y st) : a.Leads R x := by
  cases a with
  | block => trivial
  | exit => trivial
  | _ => exact h _ _ hp

theorem Act.Leads.imp₂ {a : Act X Cv Pc} {x : X} {P Q R : X → Status Cv Pc → Prop}
    (hp : a.Leads P x) (hq : a.Leads Q x) (h : ∀ y st, P y st → Q y st → R y st) :
    a.Leads R x := by
  cases a with
  | block => trivial
  | exit => trivial
  | _ => exact h _ _ hp hq

/-- `I` is what each thread knows; `Apart q pc` holds whenever one thread runs at `q` while another is
at `pc`. -/
structure RelyRule (code : T → Pc → X → Act X Cv Pc) (Apart : Pc → Pc → Prop)
    (I : T → X → Pc → Prop) : Prop where
  own : ∀ t pc x, I t x pc → (code t pc x).Leads (fun y st => I t y st.pc) x
  others : ∀ t u pc q x, u ≠ t → Apart q pc → I t x pc → I u x q →
    (code u q x).Leads (fun y _ => I t y pc) x

structure LocalRule (code : T → Pc → X → Act X Cv Pc) (I : T → X → Pc → Prop) : Prop where
  own : ∀ t pc x, I t x pc → (code t pc x).Leads (fun y st => I t y st.pc) x
  others : ∀ t u pc q x, u ≠ t → I t x pc → I u x q →
    (code u q x).Leads (fun y _ => I t y pc) x

namespace RelyRule

variable {code : T → Pc → X → Act X Cv Pc} {I : T → X → Pc → Prop} {s s' : State T X Cv Pc}
variable {Apart : Pc → Pc → Prop} [DecidableEq T]

theorem move (y : X) (t : T) (st : Status Cv Pc) (hown : I t y st.pc)
    (hothers : ∀ u, t ≠ u → I u y (s.status u).pc) (u : T) :
    I u y (Function.update s.status t st u).pc := by
  obtain rfl | hne := eq_or_ne t u
  · rwa [Function.update_self]
  · rw [Function.update_of_ne hne.symm]
    exact hothers u hne

theorem transition [Fintype T] [DecidableEq Cv] (hr : RelyRule code Apart I)
    (hapart : ∀ u t q, u ≠ t → s.status u = .running q → Apart q (s.status t).pc)
    (h : ∀ t, I t s.shared (s.status t).pc) {l : Label T} (ht : Transition code s l s') (u : T) :
    I u s'.shared (s'.status u).pc := by
  have own {t : T} {pc : Pc} {a : Act X Cv Pc} (hs : s.status t = .running pc)
      (hc : code t pc s.shared = a) : a.Leads (fun y st => I t y st.pc) s.shared := by
    have hI := h t
    rw [hs] at hI
    exact hc ▸ hr.own t pc s.shared hI
  have others {t : T} {pc : Pc} {a : Act X Cv Pc} (hs : s.status t = .running pc)
      (hc : code t pc s.shared = a) (v : T) (hne : t ≠ v) :
      a.Leads (fun y _ => I v y (s.status v).pc) s.shared := by
    have hI := h t
    rw [hs] at hI
    exact hc ▸ hr.others v t _ pc s.shared hne (hapart t v pc hne hs) (h v) hI
  cases ht with
  | @lock t pc next hs hc hm =>
    exact move s.shared t (.running next) (own hs hc :) (others hs hc :) u
  | @unlock t pc next hs hc hm =>
    exact move s.shared t (.running next) (own hs hc :) (others hs hc :) u
  | @wait t pc next cv hs hc hm =>
    exact move s.shared t (.parked cv next) (own hs hc :) (others hs hc :) u
  | @signalNone t pc next cv hs hc hn =>
    exact move s.shared t (.running next) (own hs hc :) (others hs hc :) u
  | @signalWake t w pc next pc' cv hs hc hw =>
    have hwoken (v : T) : I v s.shared (Function.update s.status w (.woken pc') v).pc := by
      refine move s.shared w (.woken pc') ?_ (fun v _ => h v) v
      have hI := h w
      rwa [hw] at hI
    refine move (s := { s with status := Function.update s.status w (.woken pc') })
      s.shared t (.running next) (own hs hc :) (fun v _ => hwoken v) u
  | @broadcast t pc next cv hs hc =>
    refine move (s := { s with status := fun v => (s.status v).notify cv })
      s.shared t (.running next) (own hs hc :) (fun v _ => ?_) u
    simp only [Status.notify_pc]
    exact h v
  | @exec t pc next x hs hc =>
    exact move x t (.running next) (own hs hc :) (others hs hc :) u
  | @relock t pc hs hm =>
    refine move s.shared t (.running pc) ?_ (fun v _ => h v) u
    have hI := h t
    rwa [hs] at hI
  | @spurious t cv pc hs =>
    refine move s.shared t (.woken pc) ?_ (fun v _ => h v) u
    have hI := h t
    rwa [hs] at hI

theorem reachable [Fintype T] [DecidableEq Cv] (hr : RelyRule code Apart I) {x : X}
    {start : T → Pc}
    (hapart : ∀ s : State T X Cv Pc, (system code x start).Reachable s → ∀ u t q, u ≠ t →
      s.status u = .running q → Apart q (s.status t).pc)
    (hinit : ∀ t, I t x (start t)) (h : (system code x start).Reachable s) (t : T) :
    I t s.shared (s.status t).pc := by
  refine h.invariant (fun s => ∀ t, I t s.shared (s.status t).pc) hinit ?_ t
  intro s l s' hreach hI hs
  exact hr.transition (hapart s hreach) hI (step_iff.mp hs)

end RelyRule

namespace LocalRule

variable {code : T → Pc → X → Act X Cv Pc} {I : T → X → Pc → Prop} {s s' : State T X Cv Pc}
variable [DecidableEq T]

theorem transition [Fintype T] [DecidableEq Cv] (hr : LocalRule code I)
    (h : ∀ t, I t s.shared (s.status t).pc) {l : Label T} (ht : Transition code s l s') (u : T) :
    I u s'.shared (s'.status u).pc := by
  have hrely : RelyRule code (fun _ _ => True) I :=
    ⟨hr.own, fun t u pc q x hne _ => hr.others t u pc q x hne⟩
  exact hrely.transition (fun _ _ _ _ _ => trivial) h ht u

theorem reachable [Fintype T] [DecidableEq Cv] (hr : LocalRule code I) {x : X} {start : T → Pc}
    (hinit : ∀ t, I t x (start t)) (h : (system code x start).Reachable s) (t : T) :
    I t s.shared (s.status t).pc := by
  refine h.invariant (fun s => ∀ t, I t s.shared (s.status t).pc) hinit ?_ t
  intro s l s' _ hI hs
  exact hr.transition hI (step_iff.mp hs)

/-- A fact about the shared variables that follows, step by step, from what the threads know. -/
theorem shared [Fintype T] [DecidableEq Cv] (hr : LocalRule code I) {J : X → Prop}
    (hJ : ∀ pcs : T → Pc, ∀ t x, (∀ u, I u x (pcs u)) → J x →
      (code t (pcs t) x).Leads (fun y _ => J y) x)
    {x : X} {start : T → Pc} (hinit : ∀ t, I t x (start t)) (hx : J x)
    (h : (system code x start).Reachable s) : J s.shared := by
  refine h.invariant (fun s => J s.shared) hx ?_
  intro s l s' hreach hs hstep
  cases step_iff.mp hstep with
  | @exec t pc next y hst hc =>
    have hlead := hJ (fun u => (s.status u).pc) t s.shared (hr.reachable hinit hreach) hs
    simp only [hst, Status.running_pc, hc] at hlead
    exact hlead
  | _ => exact hs

end LocalRule

end MultithreadMayhem.Pthread
