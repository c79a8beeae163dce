import MultithreadMayhem.Pthread.Machine

/-!
# Monitors

`inside` marks the control points between taking and releasing the mutex. When
the code respects this marking, the mutex is held by exactly the thread that is
inside, and a machine that cannot go on has the mutex free. An invariant of the
shared variables may depend on the control point of the holder; it is preserved
by the machine as soon as each statement preserves it on its own.
-/

namespace MultithreadMayhem.Pthread

open Foundation

universe u

variable {T X Cv Pc : Type u}

/-- What an action may do to the position of its thread, which is inside the mutex or not. -/
def Act.Respects (inside : Pc → Bool) (here : Bool) : Act X Cv Pc → Prop
  | .lock next => here = false ∧ inside next = true
  | .unlock next => here = true ∧ inside next = false
  | .wait _ next => here = true ∧ inside next = true
  | .signal _ next | .broadcast _ next | .exec _ next => inside next = here
  | .block | .exit => here = false

def Disciplined (code : T → Pc → X → Act X Cv Pc) (inside : Pc → Bool) : Prop :=
  ∀ t pc x, (code t pc x).Respects inside (inside pc)

/-- A thread in `pthread_cond_wait` goes on at a control point that follows such a call. -/
def Resumes (code : T → Pc → X → Act X Cv Pc) : Status Cv Pc → Prop
  | .running _ => True
  | .parked cv pc => ∃ t pc' x, code t pc' x = .wait cv pc
  | .woken pc => ∃ t pc' x cv, code t pc' x = .wait cv pc

structure Guarded (code : T → Pc → X → Act X Cv Pc) (inside : Pc → Bool)
    (s : State T X Cv Pc) : Prop where
  holder : ∀ t, s.mutex = some t ↔ ∃ pc, s.status t = .running pc ∧ inside pc = true
  resumes : ∀ t, Resumes code (s.status t)

/-- `I` holds of the shared variables, at the control point of the holder if there is one. -/
structure Holds (I : X → Option Pc → Prop) (s : State T X Cv Pc) : Prop where
  free : s.mutex = none → I s.shared none
  held : ∀ t pc, s.mutex = some t → s.status t = .running pc → I s.shared (some pc)

variable {code : T → Pc → X → Act X Cv Pc} {inside : Pc → Bool}

theorem Disciplined.act (hd : Disciplined code inside) {t : T} {pc : Pc} {x : X}
    {a : Act X Cv Pc} (hc : code t pc x = a) : a.Respects inside (inside pc) :=
  hc ▸ hd t pc x

theorem Status.waitsOn_iff [DecidableEq Cv] {cv : Cv} {st : Status Cv Pc} :
    st.waitsOn cv = true ↔ ∃ pc, st = .parked cv pc := by
  cases st <;> simp [Status.waitsOn]

theorem Status.isParked_iff {st : Status Cv Pc} :
    st.isParked = true ↔ ∃ cv pc, st = .parked cv pc := by
  cases st <;> simp [Status.isParked]

theorem Status.notify_running [DecidableEq Cv] {cv : Cv} {st : Status Cv Pc} {pc : Pc} :
    st.notify cv = .running pc ↔ st = .running pc := by
  cases st with
  | running => simp [Status.notify]
  | woken => simp [Status.notify]
  | parked cv' pc' =>
    simp only [Status.notify]
    split <;> simp

theorem Status.notify_ne_parked [DecidableEq Cv] {cv : Cv} {st : Status Cv Pc} {pc : Pc} :
    st.notify cv ≠ .parked cv pc := by
  cases st with
  | running => simp [Status.notify]
  | woken => simp [Status.notify]
  | parked cv' pc' =>
    simp only [Status.notify]
    split
    · simp
    · rename_i hne
      exact fun h => hne (Status.parked.inj h).1

theorem Resumes.notify [DecidableEq Cv] {st : Status Cv Pc} (h : Resumes code st) (cv : Cv) :
    Resumes code (st.notify cv) := by
  cases st with
  | running => trivial
  | woken => exact h
  | parked cv' pc =>
    simp only [Status.notify]
    split
    · obtain ⟨t, pc', x, hc⟩ := h
      exact ⟨t, pc', x, cv', hc⟩
    · exact h

namespace Guarded

variable {s s' : State T X Cv Pc}

theorem parked_resumes (h : Guarded code inside s) {t : T} {cv : Cv} {pc : Pc}
    (hs : s.status t = .parked cv pc) : ∃ t pc' x, code t pc' x = .wait cv pc := by
  have hr := h.resumes t
  rwa [hs] at hr

theorem woken_resumes (h : Guarded code inside s) {t : T} {pc : Pc}
    (hs : s.status t = .woken pc) : ∃ t pc' x cv, code t pc' x = .wait cv pc := by
  have hr := h.resumes t
  rwa [hs] at hr

theorem woken_of_parked (h : Guarded code inside s) {t : T} {cv : Cv} {pc : Pc}
    (hs : s.status t = .parked cv pc) : Resumes code (Status.woken pc) := by
  obtain ⟨t', pc', x, hc⟩ := h.parked_resumes hs
  exact ⟨t', pc', x, cv, hc⟩

theorem not_inside (h : Guarded code inside s) (hfree : s.mutex = none) {t : T} {pc : Pc}
    (hs : s.status t = .running pc) : inside pc = false := by
  cases hi : inside pc with
  | false => rfl
  | true =>
    have hm := (h.holder t).mpr ⟨pc, hs, hi⟩
    rw [hfree] at hm
    cases hm

theorem notifyAll [DecidableEq Cv] (h : Guarded code inside s) (cv : Cv) :
    Guarded code inside { s with status := fun u => (s.status u).notify cv } := by
  constructor
  · intro u
    simp only [Status.notify_running]
    exact h.holder u
  · intro u
    exact (h.resumes u).notify cv

end Guarded

variable [DecidableEq T]

@[simp]
theorem State.goto_mutex (s : State T X Cv Pc) (t : T) (pc : Pc) : (s.goto t pc).mutex = s.mutex :=
  rfl

@[simp]
theorem State.goto_shared (s : State T X Cv Pc) (t : T) (pc : Pc) :
    (s.goto t pc).shared = s.shared := rfl

@[simp]
theorem State.goto_status (s : State T X Cv Pc) (t : T) (pc : Pc) :
    (s.goto t pc).status = Function.update s.status t (.running pc) := rfl

namespace Guarded

variable {s s' : State T X Cv Pc}

theorem update_outside (h : Guarded code inside s) (t : T) (st : Status Cv Pc)
    (hold : s.mutex ≠ some t) (hnew : ∀ pc, st = .running pc → inside pc = false)
    (hres : Resumes code st) :
    Guarded code inside { s with status := Function.update s.status t st } := by
  constructor
  · intro u
    by_cases hu : u = t
    · subst u
      simp only [Function.update_self]
      constructor
      · intro hm
        exact absurd hm hold
      · rintro ⟨pc, hpc, hi⟩
        rw [hnew pc hpc] at hi
        cases hi
    · simp only [Function.update_of_ne hu]
      exact h.holder u
  · intro u
    by_cases hu : u = t
    · subst u
      simpa only [Function.update_self] using hres
    · simpa only [Function.update_of_ne hu] using h.resumes u

theorem update_holder (h : Guarded code inside s) {t : T} {next : Pc} (x : X)
    (hold : s.mutex = some t) (hnew : inside next = true) :
    Guarded code inside { s.goto t next with shared := x } := by
  constructor
  · intro u
    by_cases hu : u = t
    · subst u
      simp [hold, hnew]
    · simp only [State.goto_mutex, State.goto_status, Function.update_of_ne hu]
      exact h.holder u
  · intro u
    by_cases hu : u = t
    · subst u
      simp [Resumes]
    · simpa only [State.goto_status, Function.update_of_ne hu] using h.resumes u

theorem take (h : Guarded code inside s) {t : T} {next : Pc} (hm : s.mutex = none)
    (hnew : inside next = true) :
    Guarded code inside { s.goto t next with mutex := some t } := by
  constructor
  · intro u
    by_cases hu : u = t
    · subst u
      simp [hnew]
    · simp only [State.goto_status, Function.update_of_ne hu]
      rw [← h.holder u, hm]
      simp [Ne.symm hu]
  · intro u
    by_cases hu : u = t
    · subst u
      simp [Resumes]
    · simpa only [State.goto_status, Function.update_of_ne hu] using h.resumes u

theorem give (h : Guarded code inside s) {t : T} {st : Status Cv Pc} (hm : s.mutex = some t)
    (hnew : ∀ pc, st = .running pc → inside pc = false) (hres : Resumes code st) :
    Guarded code inside { s with mutex := none, status := Function.update s.status t st } := by
  constructor
  · intro u
    by_cases hu : u = t
    · subst u
      simp only [Function.update_self, reduceCtorEq, false_iff]
      rintro ⟨pc, hpc, hi⟩
      rw [hnew pc hpc] at hi
      cases hi
    · simp only [Function.update_of_ne hu]
      rw [← h.holder u, hm]
      simp [Ne.symm hu]
  · intro u
    by_cases hu : u = t
    · subst u
      simpa only [Function.update_self] using hres
    · simpa only [Function.update_of_ne hu] using h.resumes u

theorem goto (h : Guarded code inside s) {t : T} {pc next : Pc} (hs : s.status t = .running pc)
    (hin : inside next = inside pc) (x : X) :
    Guarded code inside { s.goto t next with shared := x } := by
  cases hi : inside pc with
  | true => exact h.update_holder x ((h.holder t).mpr ⟨pc, hs, hi⟩) (hin.trans hi)
  | false =>
    have hold : s.mutex ≠ some t := by
      intro hm
      obtain ⟨pc', hs', hi'⟩ := (h.holder t).mp hm
      rw [hs] at hs'
      cases hs'
      rw [hi] at hi'
      cases hi'
    have hg := h.update_outside t (.running next) hold
      (fun pc' hpc => by cases hpc; exact hin.trans hi) trivial
    exact ⟨hg.holder, hg.resumes⟩

theorem transition [DecidableEq Cv] (hd : Disciplined code inside) (h : Guarded code inside s) {l : Label T}
    (ht : Transition code s l s') : Guarded code inside s' := by
  have outside {t : T} (hp : ∀ pc, s.status t ≠ .running pc) : s.mutex ≠ some t := by
    intro hm
    obtain ⟨pc, hpc, _⟩ := (h.holder t).mp hm
    exact hp pc hpc
  cases ht with
  | lock hs hc hm => exact h.take hm (hd.act hc).2
  | unlock hs hc hm =>
    exact h.give hm (fun pc hpc => by cases hpc; exact (hd.act hc).2) trivial
  | wait hs hc hm =>
    exact h.give hm (fun pc hpc => by cases hpc) ⟨_, _, _, hc⟩
  | signalNone hs hc hn => exact h.goto hs (hd.act hc) s.shared
  | @signalWake t w pc next pc' cv hs hc hw =>
    have hne : t ≠ w := by
      rintro rfl
      rw [hs] at hw
      cases hw
    have hg := h.update_outside w (.woken pc') (outside fun pc => by simp [hw])
      (fun pc hpc => by cases hpc) (h.woken_of_parked hw)
    exact hg.goto (by simpa [Function.update_of_ne hne] using hs) (hd.act hc) s.shared
  | @broadcast t pc next cv hs hc =>
    exact (h.notifyAll cv).goto (Status.notify_running.mpr hs) (hd.act hc) s.shared
  | exec hs hc => exact h.goto hs (hd.act hc) _
  | @relock t pc hs hm =>
    obtain ⟨_, _, _, _, hc⟩ := h.woken_resumes hs
    exact h.take hm (hd.act hc).2
  | @spurious t cv pc hs =>
    exact h.update_outside t (.woken pc) (outside fun pc => by simp [hs])
      (fun pc hpc => by cases hpc) (h.woken_of_parked hs)

end Guarded

section Reachable

variable [Fintype T] [DecidableEq Cv]

theorem reachable_guarded (hd : Disciplined code inside) {x : X} {start : T → Pc}
    (hstart : ∀ t, inside (start t) = false) {s : State T X Cv Pc}
    (h : (system code x start).Reachable s) : Guarded code inside s := by
  refine h.invariant (Guarded code inside) ⟨?_, ?_⟩ ?_
  · intro t
    simp [system, hstart]
  · intro t
    trivial
  · intro s l s' _ hg hs
    exact hg.transition hd (step_iff.mp hs)

/-- When no thread can go on, the mutex is free, no woken thread is left, and every thread is
stopped at its own code or parked. -/
theorem Guarded.stuck (hd : Disciplined code inside) {s : State T X Cv Pc}
    (h : Guarded code inside s) (hstuck : ¬ CanStep code s) :
    s.mutex = none ∧ ∀ t, (∃ pc, s.status t = .running pc ∧
      (code t pc s.shared = .block ∨ code t pc s.shared = .exit)) ∨
      (s.status t).isParked = true := by
  have no (l : Label T) (s' : State T X Cv Pc) (hl : ¬ l.IsSpurious)
      (ht : Transition code s l s') : False := hstuck ⟨l, s', hl, step_iff.mpr ht⟩
  have signal {t : T} {pc next : Pc} {cv : Cv} (hs : s.status t = .running pc)
      (hc : code t pc s.shared = .signal cv next) : False := by
    by_cases hw : ∃ w pc', s.status w = .parked cv pc'
    · obtain ⟨w, pc', hw⟩ := hw
      exact no _ _ id (.signalWake hs hc hw)
    · refine no _ _ id (.signalNone hs hc fun w => ?_)
      cases hst : s.status w with
      | running => rfl
      | woken => rfl
      | parked cv' pc' =>
        simp only [Status.waitsOn, decide_eq_false_iff_not]
        rintro rfl
        exact hw ⟨w, pc', hst⟩
  have free : s.mutex = none := by
    cases hm : s.mutex with
    | none => rfl
    | some t =>
      obtain ⟨pc, hs, hi⟩ := (h.holder t).mp hm
      cases hc : code t pc s.shared with
      | lock next => exact absurd hi (by simp [(hd.act hc).1])
      | unlock next => exact (no _ _ id (.unlock hs hc hm)).elim
      | wait cv next => exact (no _ _ id (.wait hs hc hm)).elim
      | signal cv next => exact (signal hs hc).elim
      | broadcast cv next => exact (no _ _ id (.broadcast hs hc)).elim
      | exec y next => exact (no _ _ id (.exec hs hc)).elim
      | block => exact absurd hi (by simp [show inside pc = false from hd.act hc])
      | exit => exact absurd hi (by simp [show inside pc = false from hd.act hc])
  refine ⟨free, fun t => ?_⟩
  cases hs : s.status t with
  | parked cv pc => exact .inr rfl
  | woken pc => exact (no _ _ id (.relock hs free)).elim
  | running pc =>
    left
    refine ⟨pc, rfl, ?_⟩
    have outside : inside pc = false := h.not_inside free hs
    cases hc : code t pc s.shared with
    | lock next => exact (no _ _ id (.lock hs hc free)).elim
    | unlock next => exact absurd (hd.act hc).1 (by simp [outside])
    | wait cv next => exact absurd (hd.act hc).1 (by simp [outside])
    | signal cv next => exact (signal hs hc).elim
    | broadcast cv next => exact (no _ _ id (.broadcast hs hc)).elim
    | exec y next => exact (no _ _ id (.exec hs hc)).elim
    | block => exact .inl rfl
    | exit => exact .inr rfl

theorem not_canStep_of_stopped {s : State T X Cv Pc}
    (h : ∀ t, (∃ pc, s.status t = .running pc ∧
      (code t pc s.shared = .block ∨ code t pc s.shared = .exit)) ∨
      (s.status t).isParked = true) : ¬ CanStep code s := by
  rintro ⟨l, s', hl, hstep⟩
  cases l with
  | run t =>
    obtain ⟨pc, hs, hc | hc⟩ | hpark := h t
    · simp [step, hs, hc] at hstep
    · simp [step, hs, hc] at hstep
    · obtain ⟨cv, pc, hs⟩ := Status.isParked_iff.mp hpark
      simp [step, hs] at hstep
  | wake t w =>
    obtain ⟨pc, hs, hc | hc⟩ | hpark := h t
    · cases hw : s.status w <;> simp [step, hs, hc, hw] at hstep
    · cases hw : s.status w <;> simp [step, hs, hc, hw] at hstep
    · obtain ⟨cv, pc, hs⟩ := Status.isParked_iff.mp hpark
      simp [step, hs] at hstep
  | spurious t => exact hl trivial

end Reachable

/-- What a statement has to keep so that `I` holds of the shared variables and the control point of
the holder. A thread that enters sees `I` with the mutex free; a statement outside leaves `I` alone. -/
def Act.Keeps (inside : Pc → Bool) (I : X → Option Pc → Prop) (pc : Pc) (x : X) :
    Act X Cv Pc → Prop
  | .lock next => I x none → I x (some next)
  | .unlock _ => I x (some pc) → I x none
  | .wait _ next => (I x (some pc) → I x none) ∧ ∀ y, I y none → I y (some next)
  | .signal _ next | .broadcast _ next => inside pc = true → I x (some pc) → I x (some next)
  | .exec y next =>
    match inside pc with
    | true => I x (some pc) → I y (some next)
    | false => ∀ h, I x h → I y h
  | .block | .exit => True

def MonitorRule (code : T → Pc → X → Act X Cv Pc) (inside : Pc → Bool)
    (I : X → Option Pc → Prop) : Prop :=
  ∀ t pc x, (code t pc x).Keeps inside I pc x

namespace MonitorRule

variable {I : X → Option Pc → Prop} {s s' : State T X Cv Pc}

omit [DecidableEq T] in
theorem act (hr : MonitorRule code inside I) {t : T} {pc : Pc} {x : X} {a : Act X Cv Pc}
    (hc : code t pc x = a) : a.Keeps inside I pc x :=
  hc ▸ hr t pc x

theorem take (hI : Holds I s) (hm : s.mutex = none) (t : T) {next : Pc}
    (hnext : I s.shared none → I s.shared (some next)) :
    Holds I { s.goto t next with mutex := some t } := by
  constructor
  · intro h
    cases h
  · intro u pc hu hs
    cases hu
    simp only [State.goto_status, Function.update_self, Status.running.injEq] at hs
    cases hs
    exact hnext (hI.free hm)

theorem goto (hg : Guarded code inside s) (hI : Holds I s) {t : T} {pc next : Pc} {y : X}
    (hs : s.status t = .running pc)
    (hin : inside pc = true → I s.shared (some pc) → I y (some next))
    (hout : inside pc = false → ∀ h, I s.shared h → I y h) :
    Holds I { s.goto t next with shared := y } := by
  cases hi : inside pc with
  | true =>
    have hm := (hg.holder t).mpr ⟨pc, hs, hi⟩
    constructor
    · intro h
      rw [State.goto_mutex, hm] at h
      cases h
    · intro u q hu hq
      rw [State.goto_mutex, hm] at hu
      cases hu
      simp only [State.goto_status, Function.update_self, Status.running.injEq] at hq
      cases hq
      exact hin hi (hI.held t pc hm hs)
  | false =>
    constructor
    · intro h
      exact hout hi _ (hI.free h)
    · intro u q hu hq
      by_cases hut : u = t
      · subst u
        obtain ⟨pc', hs', hi'⟩ := (hg.holder t).mp hu
        rw [hs] at hs'
        cases hs'
        rw [hi] at hi'
        cases hi'
      · simp only [State.goto_status, Function.update_of_ne hut] at hq
        exact hout hi _ (hI.held u q hu hq)

omit [DecidableEq T] in
theorem status (hI : Holds I s) {f : T → Status Cv Pc}
    (hf : ∀ u q, f u = .running q → s.status u = .running q) :
    Holds I { s with status := f } :=
  ⟨hI.free, fun u q hu hq => hI.held u q hu (hf u q hq)⟩

theorem transition [DecidableEq Cv] (hd : Disciplined code inside) (hr : MonitorRule code inside I) {l : Label T}
    (hg : Guarded code inside s) (hI : Holds I s) (ht : Transition code s l s') :
    Holds I s' := by
  cases ht with
  | @lock t pc next hs hc hm => exact take hI hm t (hr.act hc)
  | unlock hs hc hm =>
    exact ⟨fun _ => hr.act hc (hI.held _ _ hm hs), fun u q hu => by cases hu⟩
  | wait hs hc hm =>
    exact ⟨fun _ => (hr.act hc).1 (hI.held _ _ hm hs), fun u q hu => by cases hu⟩
  | signalNone hs hc hn => exact goto hg hI hs (hr.act hc) fun _ _ h => h
  | @signalWake t w pc next pc' cv hs hc hw =>
    have hne : t ≠ w := by
      rintro rfl
      rw [hs] at hw
      cases hw
    have hwake : Transition code s (.spurious w)
        { s with status := Function.update s.status w (.woken pc') } := .spurious hw
    refine goto (hg.transition hd hwake) (status hI fun u q hu => ?_)
      (by simpa [Function.update_of_ne hne] using hs) (hr.act hc) fun _ _ h => h
    by_cases huw : u = w
    · subst u
      simp at hu
    · simpa [Function.update_of_ne huw] using hu
  | @broadcast t pc next cv hs hc =>
    exact goto (hg.notifyAll cv) (status hI fun u q hu => Status.notify_running.mp hu)
      (Status.notify_running.mpr hs) (hr.act hc) fun _ _ h => h
  | exec hs hc =>
    have hkeep := hr.act hc
    simp only [Act.Keeps] at hkeep
    exact goto hg hI hs (fun hi => by rwa [hi] at hkeep) (fun hi => by rwa [hi] at hkeep)
  | @relock t pc hs hm =>
    obtain ⟨_, _, _, _, hc⟩ := hg.woken_resumes hs
    exact take hI hm t ((hr.act hc).2 _)
  | @spurious t cv pc hs =>
    refine status hI fun u q hu => ?_
    by_cases hut : u = t
    · subst u
      simp at hu
    · simpa [Function.update_of_ne hut] using hu

theorem reachable [Fintype T] [DecidableEq Cv] (hd : Disciplined code inside) (hr : MonitorRule code inside I) {x : X}
    {start : T → Pc} (hstart : ∀ t, inside (start t) = false) (hinit : I x none)
    (h : (system code x start).Reachable s) : Holds I s := by
  refine h.invariant (Holds I) ⟨fun _ => hinit, fun t pc ht => by cases ht⟩ ?_
  intro s l s' hreach hI hs
  exact hr.transition hd (reachable_guarded hd hstart hreach) hI (step_iff.mp hs)

end MonitorRule

end MultithreadMayhem.Pthread
