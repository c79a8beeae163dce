import MultithreadMayhem.Kernel.Children
import MultithreadMayhem.Kernel.ExitNotice
import MultithreadMayhem.Kernel.Handoff
import MultithreadMayhem.Kernel.Wakeups

/-!
# What the state of a process says

A process gives up its CPU in `yield`, in `sleep` or in `kexit`, which has set its state,
and it is parked there until it is dispatched. So while the lock of a process is free, its
state tells which code the process is in.
-/

namespace MultithreadMayhem.Kernel

open Foundation

variable {n nofile : ℕ} {C : Type} {x : Ctx n} {f g r : Frame n} {j p : Fin n}
  {rest : List (Frame n)} {sh sh' : Shared n} {t : Thread n C} {e : Option (Event n)}

/-- The function has set the state of its process, and what goes with the state. -/
inductive Frame.Settled (sh : Shared n) (p : Fin n) : Frame n → Prop
  | yield {pc : YieldPc} (hst : sh.states p = .runnable) : Settled sh p (yield p pc)
  | sleep {ch : Chan n} {lk : Lock n} {pc : SleepPc} (hst : sh.states p = .sleeping)
      (hch : (sh.proc p).chan = some ch) : Settled sh p (sleep p ch lk pc)
  | kexit {status : Int} {pc : KexitPc} (hst : sh.states p = .zombie)
      (hx : (sh.proc p).xstate = status) : Settled sh p (kexit p status pc)

/-- The function that gives up the CPU, whether or not it has called `sched`. -/
def departing : List (Frame n) → Option (Frame n)
  | .sched _ _ :: rest => rest.head?
  | f :: _ => some f
  | [] => none

/-- How the stack of a process is left that waits for its next turn, or for its parent. -/
inductive Shared.Parked (sh : Shared n) (p : Fin n) : List (Frame n) → Prop
  | new (hst : sh.states p = .runnable) : Parked sh p [.forkret p .release]
  | settled {r : Frame n} {rest : List (Frame n)} (hr : r.Settled sh p) :
      Parked sh p (.sched p .done :: r :: rest)
  | woken {ch : Chan n} {lk : Lock n} {pc : SleepPc} {rest : List (Frame n)}
      (hst : sh.states p = .runnable) : Parked sh p (.sched p .done :: .sleep p ch lk pc :: rest)

def Procstate.away : Procstate → Bool
  | .runnable | .sleeping | .zombie => true
  | _ => false

structure Whereabouts (s : State n C) : Prop where
  departs : ∀ c p, s.running c = .proc p → leavingTop (s.stack (.proc p)) = true →
    ∃ r, departing (s.stack (.proc p)) = some r ∧ r.Settled s.shared p
  parked : ∀ p, s.Idle p → (s.shared.states p).away = true →
    s.shared.Parked p (s.stack (.proc p))
  bare : ∀ p, s.Idle p → s.shared.states p = .unused ∨ s.shared.states p = .used →
    built (s.stack (.proc p)) = 0
  made : ∀ p, s.shared.states p = .used → ∃ t, p ∈ built (s.stack t)

section Frames

theorem Frame.Settled.away (h : f.Settled sh p) : (sh.states p).away = true := by
  cases h with
  | yield hst | sleep hst | kexit hst =>
    rw [hst]
    rfl

theorem Frame.Settled.congr (h : f.Settled sh p) (hst : sh'.states p = sh.states p)
    (hch : sh.states p = .sleeping → (sh'.proc p).chan = (sh.proc p).chan)
    (hx : sh.states p = .zombie → (sh'.proc p).xstate = (sh.proc p).xstate) :
    f.Settled sh' p := by
  cases h with
  | yield hold => exact .yield (hst.trans hold)
  | sleep hold hchan => exact .sleep (hst.trans hold) ((hch hold).trans hchan)
  | kexit hold hxstate => exact .kexit (hst.trans hold) ((hx hold).trans hxstate)

theorem Write.xstate_of_zombie (hw : Write x t sh f g e) (hrel : f.Relies x t)
    (ha : code x f = .exec sh g) (hp : x.shared.states p = .zombie) (hp' : sh.states p = .zombie) :
    (sh.proc p).xstate = (x.shared.proc p).xstate := by
  cases hw.ids p with
  | same _ hxstate => exact hxstate
  | setPid hf =>
    subst hf
    cases hp.symm.trans (hrel.knows (p, .unused) (List.mem_singleton_self _))
  | setXstate hf =>
    subst hf
    have hrun : x.shared.states p = .running := hrel.self hrel.on rfl
    cases hp.symm.trans hrun
  | free hfrees =>
    rw [hfrees.exec ha, Shared.states_freeproc, Function.update_self] at hp'
    cases hp'

theorem Shared.Parked.change {fs : List (Frame n)} (hw : Write x t sh f g e) (hrel : f.Relies x t)
    (ha : code x f = .exec sh g) (hc : Change t f g x.shared.states sh.states)
    (ht : t ≠ .proc p) (hready : p ∈ f.ready → fs = [.forkret p .release])
    (hp : (x.shared.states p).away = true → x.shared.Parked p fs)
    (haway : (sh.states p).away = true) : sh.Parked p fs := by
  have keep (hst : sh.states p = x.shared.states p) : sh.Parked p fs := by
    rw [hst] at haway
    cases hp haway with
    | new hold => exact .new (hst.trans hold)
    | settled hr =>
      refine .settled (hr.congr hst (hw.chan_of_sleeping hrel) fun hz => ?_)
      exact hw.xstate_of_zombie hrel ha hz (hst.trans hz)
    | woken hold => exact .woken (hst.trans hold)
  have slot {j : Fin n} {st : Procstate} (hst : sh.states = Function.update x.shared.states j st)
      (hj : j = p → sh.Parked p fs) : sh.Parked p fs := by
    obtain heq | hne := eq_or_ne j p
    · exact hj heq
    · exact keep (by rw [hst, Function.update_of_ne hne.symm])
  have gone {j : Fin n} {st : Procstate} (hst : sh.states = Function.update x.shared.states j st)
      (hst' : st.away = false) : sh.Parked p fs := by
    refine slot hst ?_
    rintro rfl
    rw [hst, Function.update_self, hst'] at haway
    cases haway
  cases hc with
  | same hst => exact keep (congrFun hst p)
  | wake j hj hst =>
    refine slot hst ?_
    rintro rfl
    have hnew : sh.states j = .runnable := by rw [hst, Function.update_self]
    cases hp (by rw [hj]; rfl) with
    | new hold | woken hold => cases hj.symm.trans hold
    | settled hr =>
      cases hr with
      | sleep => exact .woken hnew
      | yield hold | kexit hold => cases hj.symm.trans hold
  | dispatch j hj hst | alloc j hj hst | reap j hj hst | abandon j hj hst => exact gone hst rfl
  | publish j hj hst hfn hl hb hr =>
    refine slot hst ?_
    rintro rfl
    rw [hready (by rw [hr]; exact Multiset.mem_singleton_self j)]
    exact .new (by rw [hst, Function.update_self])
  | leave j st hj hst htj =>
    refine slot hst ?_
    rintro rfl
    exact absurd htj ht

theorem Frame.eq_yield_of_fn (h : f.fn = .yield p) : ∃ pc, f = .yield p pc := by
  cases f with
  | yield p' pc =>
    cases h
    exact ⟨pc, rfl⟩
  | ext kind => cases kind <;> cases h
  | _ => cases h

theorem Frame.eq_sched_of_fn (h : f.fn = .sched p) : ∃ pc, f = .sched p pc := by
  cases f with
  | sched p' pc =>
    cases h
    exact ⟨pc, rfl⟩
  | ext kind => cases kind <;> cases h
  | _ => cases h

section Goes

variable {a : Act n}

theorem yield_settles {pc : YieldPc} (ha : code x (.yield p pc) = a)
    (hnext : a.next = some (.yield p .sched)) (hcall : ∀ callee g, a ≠ .call callee g) :
    (Frame.yield p .sched).Settled (a.shared x.shared) p := by
  cases pc with
  | setState =>
    subst ha
    refine .yield ?_
    change (x.shared.setState p .runnable).states p = .runnable
    rw [Shared.states_setState, Function.update_self]
  | sched =>
    simp only [code, Kernel.yield, Ctx.withProc] at ha
    split at ha
    · exact absurd ha.symm (hcall _ _)
    · subst ha
      cases hnext
  | _ =>
    subst ha
    cases hnext

theorem sleep_settles {ch ch' : Chan n} {lk : Lock n} {pc : SleepPc}
    (ha : code x (.sleep p ch' lk pc) = a) (hnext : a.next = some (.sleep p ch lk .sched))
    (hcall : ∀ callee g, a ≠ .call callee g) (hok : (Frame.sleep p ch' lk pc).SleepOk x.shared) :
    (Frame.sleep p ch lk .sched).Settled (a.shared x.shared) p := by
  cases pc with
  | setState =>
    subst ha
    cases hnext
    constructor
    · change (x.shared.setState p .sleeping).states p = .sleeping
      rw [Shared.states_setState, Function.update_self]
    · change ((x.shared.setState p .sleeping).proc p).chan = some ch
      rw [Shared.setState_proc, Function.update_self]
      exact (hok rfl).2 rfl
  | sched =>
    simp only [code, Kernel.sleep, Ctx.withProc] at ha
    split at ha
    · exact absurd ha.symm (hcall _ _)
    · subst ha
      cases hnext
  | _ =>
    subst ha
    cases hnext

theorem kexit_settles {status status' : Int} {pc pc' : KexitPc}
    (ha : code x (.kexit p status' pc) = a) (hnext : a.next = some (.kexit p status pc'))
    (hpc : pc' = .releaseWait ∨ pc' = .sched)
    (hstored : pc = .setState → (x.shared.proc p).xstate = status')
    (hold : pc = .releaseWait → (Frame.kexit p status' pc).Settled x.shared p) :
    (Frame.kexit p status pc').Settled (a.shared x.shared) p := by
  obtain ⟨pc'', hg, hgoes⟩ := kexit_goes ha hnext
  cases hg
  generalize a.shared x.shared = sh at hgoes ⊢
  obtain rfl | rfl := hpc <;> cases hgoes
  · constructor
    · rw [Shared.states_setState, Function.update_self]
    · rw [Shared.setState_proc, Function.update_self]
      exact hstored rfl
  · cases hold rfl with
    | kexit hst hx => exact .kexit hst hx

theorem sched_leaving {pc pc' : SchedPc} (ha : code x (.sched p pc) = a)
    (hnext : a.next = some (.sched p pc')) (hg : (Frame.sched p pc').leaving = true) :
    (Frame.sched p pc).leaving = true ∧ a.shared x.shared = x.shared := by
  cases pc with
  | testLock | testLocks | testState | testIntr =>
    simp only [code, sched] at ha
    split at ha <;> subst ha <;> exact ⟨rfl, rfl⟩
  | swtch =>
    subst ha
    cases hnext
    cases hg
  | done =>
    subst ha
    cases hnext

/-- A frame that is about to give up the CPU got there in its own function. -/
theorem next_departs (ha : code x f = a) (hnext : a.next = some g) (hfn : g.fn = f.fn)
    (hcall : ∀ callee g, a ≠ .call callee g) (hon : f.fn.On (.proc p : Thread n C))
    (hg : g.leaving = true) (hok : f.SleepOk x.shared)
    (hstored : ∀ status, f = .kexit p status .setState → (x.shared.proc p).xstate = status)
    (hold : f.leaving = true → ∃ r, departing (f :: rest) = some r ∧ r.Settled x.shared p) :
    ∃ r, departing (g :: rest) = some r ∧ r.Settled (a.shared x.shared) p := by
  obtain ⟨q, rfl⟩ | ⟨q, ch, lk, rfl⟩ | ⟨q, status, hpc⟩ | ⟨q, pc, rfl⟩ := Frame.cases_leaving hg
  · obtain ⟨pc, rfl⟩ := Frame.eq_yield_of_fn hfn.symm
    obtain rfl : p = q := Thread.proc.inj hon
    exact ⟨_, rfl, yield_settles ha hnext hcall⟩
  · obtain ⟨ch', pc, rfl⟩ := Frame.eq_sleep_of_fn hfn.symm
    obtain rfl : p = q := Thread.proc.inj hon
    exact ⟨_, rfl, sleep_settles ha hnext hcall hok⟩
  · obtain ⟨pc', rfl, hpc'⟩ : ∃ pc', g = .kexit q status pc' ∧ (pc' = .releaseWait ∨ pc' = .sched) := by
      obtain rfl | rfl := hpc
      · exact ⟨_, rfl, .inl rfl⟩
      · exact ⟨_, rfl, .inr rfl⟩
    obtain ⟨status', pc, rfl⟩ := Frame.eq_kexit_of_fn hfn.symm
    obtain rfl : p = q := Thread.proc.inj hon
    refine ⟨_, rfl, kexit_settles ha hnext hpc' ?_ ?_⟩
    · rintro rfl
      exact hstored _ rfl
    · rintro rfl
      obtain ⟨r, hr, hsettled⟩ := hold rfl
      cases hr
      exact hsettled
  · obtain ⟨pc', rfl⟩ := Frame.eq_sched_of_fn hfn.symm
    obtain ⟨hf, hsame⟩ := sched_leaving ha hnext hg
    rw [hsame]
    exact hold hf

theorem call_departs {callee : Frame n} (ha : code x f = .call callee g) (hf : f.leaving = true)
    (hold : ∃ r, departing (f :: rest) = some r ∧ r.Settled x.shared p) :
    ∃ r, departing (callee :: g :: rest) = some r ∧ r.Settled x.shared p := by
  obtain ⟨r, hr, hsettled⟩ := hold
  obtain ⟨q, rfl⟩ | ⟨q, ch, lk, rfl⟩ | ⟨q, status, rfl | rfl⟩ | ⟨q, pc, rfl⟩ :=
    Frame.cases_leaving hf
  · cases hr
    simp only [code, Kernel.yield, Ctx.withProc] at ha
    split at ha <;> cases ha
    cases hsettled with
    | yield hst => exact ⟨_, rfl, .yield hst⟩
  · cases hr
    simp only [code, Kernel.sleep, Ctx.withProc] at ha
    split at ha <;> cases ha
    cases hsettled with
    | sleep hst hch => exact ⟨_, rfl, .sleep hst hch⟩
  · cases ha
  · cases hr
    simp only [code, kexit, Ctx.withProc] at ha
    split at ha <;> cases ha
    cases hsettled with
    | kexit hst hx => exact ⟨_, rfl, .kexit hst hx⟩
  · cases pc with
    | testLock | testLocks | testState | testIntr =>
      simp only [code, sched] at ha
      split at ha <;> cases ha
    | swtch | done => cases ha

end Goes

end Frames

section Steps

variable [DecidableEq C] {s s' : State n C} {c : C}

/-- A process gets off the CPU in `sched` only, and no other CPU touches its stack. -/
theorem Sound.idle_transition (h : Sound s) (ht : Transition nofile s c s') (hp : s'.Idle p) :
    (s.Idle p ∧ (s'.stack (.proc p) = s.stack (.proc p) ∨ s.shared.states p = .used ∧
        s'.shared = s.shared ∧ s'.stack (.proc p) = [.forkret p .release])) ∨
      ∃ rest, s.running c = .proc p ∧ s.stack (.proc p) = .sched p .swtch :: rest ∧
        s'.stack (.proc p) = .sched p .done :: rest ∧ s'.shared = s.shared := by
  -- A step that leaves the threads of the CPUs changes the executed stack only.
  have stay {fs : List (Frame n)} (hrun : s'.running = s.running)
      (hstack : s'.stack = Function.update s.stack (s.running c) fs) :
      s.Idle p ∧ s'.stack (.proc p) = s.stack (.proc p) := by
    have hidle : s.Idle p := fun c' hc' => hp c' ((congrFun hrun c').trans hc')
    refine ⟨hidle, ?_⟩
    rw [hstack, Function.update_of_ne (hidle c).symm]
  cases ht with
  | @setContext x f g rest q hs ha =>
    left
    have hidle : s.Idle p := fun c' hc' => hp c' hc'
    refine ⟨hidle, ?_⟩
    obtain rfl | hne := eq_or_ne p q
    · obtain ⟨rfl, -⟩ := h.plays hs ha
      refine .inr ⟨h.built (s.running c) p ?_, rfl, Function.update_self ..⟩
      rw [hs]
      exact Multiset.mem_add.mpr (.inl (Multiset.mem_singleton_self p))
    · left
      change Function.update (Function.update s.stack _ _) (.proc q) _ (.proc p) = _
      rw [Function.update_of_ne (fun heq => hne (Thread.proc.inj heq)),
        Function.update_of_ne (hidle c).symm]
  | @swtchTo x f g rest q hs ha =>
    left
    obtain ⟨rfl, rfl⟩ := h.plays hs ha
    have hr := h.running_cpu hs rfl
    have hidle : s.Idle p := by
      intro c' hc'
      obtain rfl | hne := eq_or_ne c' c
      · cases hr.symm.trans hc'
      · exact hp c' ((Function.update_of_ne hne ..).trans hc')
    refine ⟨hidle, .inl ?_⟩
    change Function.update s.stack _ _ (.proc p) = _
    rw [Function.update_of_ne (hidle c).symm]
  | @swtchBack x f g rest hs ha =>
    obtain ⟨q, rfl, rfl⟩ := h.plays hs ha
    have hok := h.stack (s.running c)
    rw [hs] at hok
    have hr : s.running c = .proc q := hok.on
    obtain rfl | hne := eq_or_ne p q
    · refine .inr ⟨rest, hr, by rw [← hr, hs], ?_, rfl⟩
      change Function.update s.stack _ _ (.proc p) = _
      rw [hr, Function.update_self]
    · left
      have hidle : s.Idle p := by
        intro c' hc'
        obtain rfl | hc := eq_or_ne c' c
        · exact hne (Thread.proc.inj (hc'.symm.trans hr))
        · exact hp c' ((Function.update_of_ne hc ..).trans hc')
      refine ⟨hidle, .inl ?_⟩
      change Function.update s.stack _ _ (.proc p) = _
      rw [Function.update_of_ne (hidle c).symm]
  | _ => exact .inl ((stay rfl rfl).imp_right .inl)

theorem Whereabouts.departs_self (hw : Whereabouts s) (h : Sound s) (hok : s.SleepOk)
    (hch : Children s) (hs : s.stack (s.running c) = f :: rest)
    (hturn : Turn nofile s c f rest s' e) (hr : s'.running c = .proc p)
    (hl : leavingTop (s'.stack (s'.running c)) = true) :
    ∃ r, departing (s'.stack (.proc p)) = some r ∧ r.Settled s'.shared p := by
  have hold (hrun : s'.running = s.running) (hf : f.leaving = true) :
      ∃ r, departing (f :: rest) = some r ∧ r.Settled s.shared p := by
    have hc : s.running c = .proc p := (congrFun hrun c).symm.trans hr
    rw [← hs, hc]
    exact hw.departs c p hc (by rw [← hc, hs]; exact hf)
  rw [← hr]
  obtain ⟨g, rest', htop⟩ : ∃ g rest', s'.stack (s'.running c) = g :: rest' := by
    cases htop : s'.stack (s'.running c) with
    | nil =>
      rw [htop] at hl
      cases hl
    | cons g rest' => exact ⟨g, rest', rfl⟩
  rw [htop] at hl ⊢
  have top {fs : List (Frame n)} (hstack : s'.stack = Function.update s.stack (s.running c) fs)
      (hrun : s'.running = s.running) : g :: rest' = fs :=
    htop.symm.trans (State.stack_running hstack hrun)
  have hon (hrun : s'.running = s.running) : f.fn.On (.proc p : Thread n C) := by
    have hok := h.stack (s.running c)
    rw [hs, ← hrun, hr] at hok
    exact hok.on
  have stored (hrun : s'.running = s.running) (status : Int) (hf : f = .kexit p status .setState) :
      (s.shared.proc p).xstate = status := hch.stored c p status ⟨rest, hf ▸ hs⟩
  cases hturn with
  | lock ha hstack hrun hsh =>
    obtain ⟨rfl, rfl⟩ := List.cons.inj (top hstack hrun)
    rw [hsh]
    obtain ha | ha := ha
    · exact next_departs ha rfl ((h.disciplined hs ha).next_fn rfl) (by rintro _ _ ⟨⟩) (hon hrun) hl
        (hok c f rest' hs) (stored hrun) (hold hrun)
    · exact next_departs ha rfl ((h.disciplined hs ha).next_fn rfl) (by rintro _ _ ⟨⟩) (hon hrun) hl
        (hok c f rest' hs) (stored hrun) (hold hrun)
  | exec ha he hwrite hstack hrun =>
    obtain ⟨rfl, rfl⟩ := List.cons.inj (top hstack hrun)
    exact next_departs ha rfl ((h.disciplined hs ha).next_fn rfl) (by rintro _ _ ⟨⟩) (hon hrun) hl
      (hok c f rest' hs) (stored hrun) (hold hrun)
  | @call x k callee ha hstack hrun hsh =>
    obtain ⟨rfl, rfl⟩ := List.cons.inj (top hstack hrun)
    have hf : f.leaving = true := (h.plays hs ha).2.2.2.2.2.2.2.symm.trans hl
    rw [hsh]
    exact call_departs ha hf (hold hrun hf)
  | ret ha hrest hawaits hstack hrun hsh =>
    obtain ⟨rfl, rfl⟩ := List.cons.inj (top hstack hrun)
    cases (hawaits.resume _).2.2.1.symm.trans hl
  | interrupt hn hstack hrun | panic hn hstack hrun =>
    obtain ⟨rfl, rfl⟩ := List.cons.inj (top hstack hrun)
    cases hl
  | iret hrest hf hheld hstack hrun =>
    have hstackok := h.stack (s.running c)
    rw [hs] at hstackok
    rw [top hstack hrun] at hl
    obtain ⟨q, -, hlock⟩ := leaving_locked hstackok.tail hl
    rw [hheld] at hlock
    exact absurd hlock (Multiset.notMem_zero _)
  | context hf hidle hstack hrun =>
    rw [hrun, hstack, Function.update_of_ne (hidle c), Function.update_self] at htop
    cases htop
    cases hl
  | switch hf hg hstack htop' =>
    obtain ⟨rfl, rfl⟩ := List.cons.inj (htop.symm.trans htop')
    obtain ⟨pc, rfl⟩ | ⟨q, rfl | rfl⟩ := hg <;> cases hl

omit [DecidableEq C] in
theorem Effect.made {fs fs' : List (Frame n)} {st st' : Fin n → Procstate} (h : Effect t fs fs' st st')
    (hj : st' j = .used) : j ∈ built fs' ∨ st j = .used ∧ (j ∈ built fs → j ∈ built fs') := by
  have slot {k : Fin n} {w : Procstate} (hst : st' = Function.update st k w) (hw : w ≠ .used) :
      j ≠ k ∧ st j = .used := by
    obtain rfl | hne := eq_or_ne j k
    · rw [hst, Function.update_self] at hj
      exact absurd hj hw
    · rw [hst, Function.update_of_ne hne] at hj
      exact ⟨hne, hj⟩
  cases h with
  | same hst h =>
    rw [h.built]
    exact .inr ⟨hst ▸ hj, fun hmem => hmem⟩
  | wake k hk hst hl h | reap k hk hst hl h =>
    rw [h.built]
    exact .inr ⟨(slot hst (by rintro ⟨⟩)).2, fun hmem => hmem⟩
  | dispatch k hk hst hl hb =>
    rw [hb]
    exact .inr ⟨(slot hst (by rintro ⟨⟩)).2, fun hmem => hmem⟩
  | leave k w hk hst ht hl hok hb =>
    rw [hb]
    refine .inr ⟨(slot hst ?_).2, fun hmem => hmem⟩
    rintro rfl
    obtain hok | hok | hok := hok <;> cases hok
  | alloc k hk hst hl hb =>
    rw [hb]
    obtain rfl | hne := eq_or_ne j k
    · exact .inl (Multiset.mem_cons_self j _)
    · rw [hst, Function.update_of_ne hne] at hj
      exact .inr ⟨hj, Multiset.mem_cons_of_mem⟩
  | abandon k hk hst hl hb | publish k hk hst hl hb =>
    obtain ⟨hne, hused⟩ := slot hst (by rintro ⟨⟩)
    rw [hb]
    exact .inr ⟨hused, fun hmem => (Multiset.mem_cons.mp hmem).resolve_left hne⟩

theorem Sound.made_turn (h : Sound s) (hs : s.stack (s.running c) = f :: rest)
    (hturn : Turn nofile s c f rest s' e)
    (hbare : ∀ p, s.Idle p → s.shared.states p = .used → built (s.stack (.proc p)) = 0)
    (hmade : s.shared.states j = .used → ∃ t, j ∈ built (s.stack t))
    (hj : s'.shared.states j = .used) : ∃ t, j ∈ built (s'.stack t) := by
  have executed {fs : List (Frame n)} (hstack : s'.stack = Function.update s.stack (s.running c) fs)
      (hkeep : j ∈ built fs ∨ s.shared.states j = .used ∧ (j ∈ built (f :: rest) → j ∈ built fs)) :
      ∃ t, j ∈ built (s'.stack t) := by
    rw [hstack]
    obtain hnew | ⟨hused, hkeep⟩ := hkeep
    · exact ⟨s.running c, by rwa [Function.update_self]⟩
    · obtain ⟨t, ht⟩ := hmade hused
      obtain rfl | hne := eq_or_ne t (s.running c)
      · exact ⟨s.running c, by rw [Function.update_self]; exact hkeep (by rwa [← hs])⟩
      · exact ⟨t, by rwa [Function.update_of_ne hne]⟩
  have same {fs : List (Frame n)} (hstack : s'.stack = Function.update s.stack (s.running c) fs)
      (hsh : s'.shared = s.shared) (hb : built fs = built (f :: rest)) :
      ∃ t, j ∈ built (s'.stack t) := by
    refine executed hstack (.inr ⟨hsh ▸ hj, fun hmem => ?_⟩)
    rwa [hb]
  have hok := h.stack (s.running c)
  rw [hs] at hok
  cases hturn with
  | lock ha hstack hrun hsh =>
    obtain ha | ha := ha
    · exact same hstack hsh (by rw [built_cons, built_cons, (h.plays hs ha).1.builds])
    · exact same hstack hsh (by rw [built_cons, built_cons, (h.plays hs ha).1.builds])
  | exec ha he hwrite hstack hrun =>
    exact executed hstack (((h.plays hs ha).1.effect hok ((h.disciplined hs ha).next_fn rfl)).made hj)
  | call ha hstack hrun hsh =>
    obtain ⟨hnext, -, -, -, -, hcallee, -⟩ := h.plays hs ha
    exact same hstack hsh (by rw [built_cons, built_cons, built_cons, hnext, hcallee, zero_add])
  | @ret x v r rest' ha hrest hawaits hstack hrun hsh =>
    have hf : f.builds = f.fn.makes v := (h.plays hs ha).1
    refine same hstack hsh ?_
    rw [hrest, built_cons, built_cons, built_cons, (hawaits.resume v).1, hf, add_assoc]
  | interrupt hn hstack hrun hsh => exact same hstack hsh (zero_add _)
  | panic hn hstack hrun hsh => exact same hstack hsh (zero_add _)
  | @iret r rest' hrest hf hheld hstack hrun hsh =>
    refine same hstack hsh ?_
    have hbuilds : f.builds = 0 := by
      cases f with
      | ext kind => rfl
      | _ => cases hf
    rw [built_cons, hbuilds, zero_add]
  | @context p hf hidle hstack hrun hsh =>
    subst hf
    rw [hsh] at hj
    obtain ⟨t, ht⟩ := hmade hj
    have hused : s.shared.states p = .used := by
      refine h.built (s.running c) p ?_
      rw [hs]
      exact Multiset.mem_add.mpr (.inl (Multiset.mem_singleton_self p))
    refine ⟨t, ?_⟩
    rw [hstack]
    obtain rfl | hne := eq_or_ne t (.proc p)
    · rw [hbare p hidle hused] at ht
      exact absurd ht (Multiset.notMem_zero j)
    · rw [Function.update_of_ne hne]
      obtain rfl | hne := eq_or_ne t (s.running c)
      · rw [Function.update_self]
        rwa [hs] at ht
      · rwa [Function.update_of_ne hne]
  | switch hf hg hstack htop hsh =>
    refine same hstack hsh ?_
    obtain ⟨pc, pc', rfl, rfl⟩ | ⟨q, rfl, rfl⟩ := hf <;> rfl

omit [DecidableEq C] in
theorem StackOk.built_of_kexit {status : Int} {pc : KexitPc}
    (h : StackOk t (.sched p .done :: .kexit p status pc :: rest)) :
    built (.sched p .done :: .kexit p status pc :: rest) = 0 := by
  have hrest : ∀ fs : List (Frame n), (∀ g ∈ fs, (∃ q, g.fn = .process q) ∨ ∃ q, g.fn = .syscall q) →
      built fs = 0 := by
    intro fs hfs
    induction fs with
    | nil => rfl
    | cons g fs ih =>
      obtain ⟨hg, hfs⟩ := List.forall_mem_cons.mp hfs
      have hbuilds : g.builds = 0 := by
        cases g with
        | ext kind => rfl
        | forkret | user | syscall => rfl
        | _ => obtain ⟨q, hg⟩ | ⟨q, hg⟩ := hg <;> cases hg
      rw [built_cons, ih hfs, hbuilds, zero_add]
  have hbelow := hrest rest (h.tail.rest_of_entry (.inr (.inr (.inr rfl))))
  rw [built_cons, built_cons, hbelow]
  rfl

namespace Whereabouts

theorem bare_step (hw : Whereabouts s) (h : Sound s) (ht : Transition nofile s c s')
    (hs : s.stack (s.running c) = f :: rest) (hturn : Turn nofile s c f rest s' e)
    (hidle : s'.Idle p) (hp : s'.shared.states p = .unused ∨ s'.shared.states p = .used) :
    built (s'.stack (.proc p)) = 0 := by
  have notAlive : ¬s'.shared.Alive p := by
    intro halive
    rw [Shared.Alive] at halive
    obtain hp | hp := hp <;> rw [hp] at halive <;> cases halive
  obtain ⟨hold, hstack | ⟨-, -, hstack⟩⟩ | ⟨rest', hr, hold, hstack, hsh⟩ := h.idle_transition ht hidle
  · rw [hstack]
    obtain ⟨hsh, -⟩ | ⟨x, g, ha, -, -, hwrite⟩ := hturn.written
    · rw [hsh] at hp
      exact hw.bare p hold hp
    · have hrel : f.Relies (s.ctx nofile c x) (s.running c) := h.relies hs x
      cases hwrite.state_write hrel ha p with
      | same hst =>
        rw [hst] at hp
        exact hw.bare p hold hp
      | move halive hnew => exact absurd hnew notAlive
      | publish hf hnew => exact absurd hnew notAlive
      | init hf =>
        subst hf
        have hunused : s.shared.states p = .unused :=
          hrel.knows (p, .unused) (List.mem_singleton_self _)
        exact hw.bare p hold (.inl hunused)
      | exit hf hrun hnew =>
        rw [hnew] at hp
        obtain hp | hp := hp <;> cases hp
      | free hf =>
        obtain hused | hzombie := hf.ends hrel
        · exact hw.bare p hold (.inr hused)
        · have hzombie : s.shared.states p = .zombie := hzombie
          have hparked := hw.parked p hold (by rw [hzombie]; rfl)
          have hok := h.stack (.proc p)
          generalize s.stack (.proc p) = fs at hparked hok ⊢
          cases hparked with
          | new hst | woken hst => cases hzombie.symm.trans hst
          | settled hr =>
            cases hr with
            | yield hst | sleep hst => cases hzombie.symm.trans hst
            | kexit => exact hok.built_of_kexit
  · rw [hstack]
    rfl
  · obtain ⟨r, -, hsettled⟩ := hw.departs c p hr (by rw [hold]; rfl)
    have haway := hsettled.away
    rw [← hsh] at haway
    obtain hp | hp := hp <;> rw [hp] at haway <;> cases haway

theorem step (hw : Whereabouts s) (h : Sound s) (hok : s.SleepOk) (hch : Children s)
    (ht : Transition nofile s c s') (hs : s.stack (s.running c) = f :: rest)
    (hturn : Turn nofile s c f rest s' e) : Whereabouts s' := by
  have h' : Sound s' := h.transition ht
  constructor
  · intro c' p hr hl
    obtain rfl | hne := eq_or_ne c' c
    · exact hw.departs_self h hok hch hs hturn hr (by rwa [hr])
    · obtain ⟨hrun, hstack, -, hproc⟩ := h.others ht hne
      rw [hrun] at hr
      rw [hr] at hstack
      rw [hstack] at hl ⊢
      obtain ⟨r, hr', hsettled⟩ := hw.departs c' p hr hl
      have hheld : s.holder (.proc p) = some c' :=
        h.holder_of_mem (h.cpu_of_leaving hr hl)
      have hsame := hproc p hheld
      refine ⟨r, hr', hsettled.congr (congrArg Proc.state hsame) (fun _ => ?_) fun _ => ?_⟩
      · rw [hsame]
      · rw [hsame]
  · intro p hidle haway
    obtain ⟨hold, hstack | ⟨hused, hsh, -⟩⟩ | ⟨rest', hr, hold, hstack, hsh⟩ :=
      h.idle_transition ht hidle
    · rw [hstack]
      obtain ⟨hsh, -⟩ | ⟨x, g, ha, -, -, hwrite⟩ := hturn.written
      · rw [hsh] at haway ⊢
        exact hw.parked p hold haway
      · refine .change hwrite (h.relies hs x) ha (h.plays hs ha).1 (hold c) (fun hp => ?_)
          (hw.parked p hold) haway
        refine h.readied (s.running c) p ?_
        rw [hs]
        exact Multiset.mem_add.mpr (.inl hp)
    · rw [hsh, hused] at haway
      cases haway
    · obtain ⟨r, hr', hsettled⟩ := hw.departs c p hr (by rw [hold]; rfl)
      rw [hold] at hr'
      rw [hstack, hsh]
      cases rest' with
      | nil => cases hr'
      | cons r' rest' =>
        cases hr'
        exact .settled hsettled
  · exact fun p hidle hp => hw.bare_step h ht hs hturn hidle hp
  · exact fun p => h.made_turn hs hturn (fun q hidle hq => hw.bare q hidle (.inr hq)) (hw.made p)

theorem boot (b : C) : Whereabouts (State.boot b : State n C) := by
  constructor
  · intro c p hr
    cases hr
  · intro p hidle haway
    cases haway
  · exact fun p hidle hp => rfl
  · intro p hp
    cases hp

theorem of_reachable {b : C} (hs : (kernel n nofile b).Reachable s) : Whereabouts s := by
  refine hs.invariant Whereabouts (boot b) ?_
  intro s l s' hr hw hstep
  have h := Sound.of_reachable hr
  obtain ⟨f, rest, e, hs, hturn, -⟩ := h.turn hstep
  exact hw.step h (Sound.sleepOk_of_reachable hr) (.of_reachable hr) (State.step_transition hstep) hs
    hturn

end Whereabouts

/-- The code that a process is in, for each state. -/
inductive State.Stays (s : State n C) (p : Fin n) : Procstate → Prop
  | unused (hidle : s.Idle p) : Stays s p .unused
  | used (hidle : s.Idle p) {t : Thread n C} (hmaker : p ∈ built (s.stack t))
      (hone : ∀ t', p ∈ built (s.stack t') → t' = t) : Stays s p .used
  | new (hidle : s.Idle p) (hstack : s.stack (.proc p) = [.forkret p .release]) :
      Stays s p .runnable
  | preempted (hidle : s.Idle p) {rest : List (Frame n)}
      (hstack : s.stack (.proc p) = .sched p .done :: .yield p .scheduling :: rest) :
      Stays s p .runnable
  | woken (hidle : s.Idle p) {ch : Chan n} {lk : Lock n} {rest : List (Frame n)}
      (hstack : s.stack (.proc p) = .sched p .done :: .sleep p ch lk .scheduling :: rest) :
      Stays s p .runnable
  | asleep (hidle : s.Idle p) {ch : Chan n} {lk : Lock n} {rest : List (Frame n)}
      (hstack : s.stack (.proc p) = .sched p .done :: .sleep p ch lk .scheduling :: rest)
      (hch : (s.shared.proc p).chan = some ch) : Stays s p .sleeping
  | running {c : C} (hrun : s.running c = .proc p) (hme : s.me c = some p)
      (hone : ∀ c', s.running c' = .proc p → c' = c) : Stays s p .running
  | exited (hidle : s.Idle p) {status : Int} {rest : List (Frame n)}
      (hstack : s.stack (.proc p) = .sched p .done :: .kexit p status .scheduling :: rest)
      (hx : (s.shared.proc p).xstate = status) : Stays s p .zombie

omit [DecidableEq C] in
theorem Sound.stays_of_parked (h : Sound s) (hidle : s.Idle p)
    (hp : s.shared.Parked p (s.stack (.proc p))) : s.Stays p (s.shared.states p) := by
  have hok := h.stack (.proc p)
  generalize hstack : s.stack (.proc p) = fs at hp hok
  have awaits {r : Frame n} {rest : List (Frame n)} (hfs : fs = .sched p .done :: r :: rest) :
      r.Awaits (.sched p) := by
    rw [hfs] at hok
    obtain hf | hf | hawaits := hok.1
    · cases hf
    · cases hf
    · exact hawaits
  cases hp with
  | new hst =>
    rw [hst]
    exact .new hidle hstack
  | woken hst =>
    rw [hst]
    cases (awaits rfl).calls
    exact .woken hidle hstack
  | settled hr =>
    have hcalls := (awaits rfl).calls
    cases hr with
    | yield hst =>
      rw [hst]
      cases hcalls
      exact .preempted hidle hstack
    | sleep hst hch =>
      rw [hst]
      cases hcalls
      exact .asleep hidle hstack hch
    | kexit hst hx =>
      rw [hst]
      cases hcalls
      exact .exited hidle hstack hx

/-- The state of a process tells the truth: while the lock of the process is free, the process is in
the code that its state stands for. -/
theorem state_tells {b : C} (hr : (kernel n nofile b).Reachable s)
    (hfree : s.holder (.proc p) = none) : s.Stays p (s.shared.states p) := by
  have h := Sound.of_reachable hr
  have hw : Whereabouts s := .of_reachable hr
  have free (c : C) : Lock.proc p ∉ held (s.stack (s.running c)) := by
    intro hl
    cases hfree.symm.trans (h.holder_of_mem hl)
  -- A process on a CPU whose lock is free has not begun to give the CPU up.
  have idle (hne : s.shared.states p ≠ .running) : s.Idle p := by
    intro c hc
    obtain hst | hl := h.running_or_locked hc
    · exact hne hst
    · exact free c hl
  cases hst : s.shared.states p with
  | unused => exact .unused (idle (by rw [hst]; rintro ⟨⟩))
  | used =>
    obtain ⟨t, ht⟩ := hw.made p hst
    exact .used (idle (by rw [hst]; rintro ⟨⟩)) ht fun t' ht' => h.builtBy t' t p ht' ht
  | running =>
    obtain hidle | hon := em (s.Idle p)
    · obtain ⟨c, hd⟩ := h.dispatched p hidle hst
      have hl := mem_held_of_dispatched hd
      rw [← h.running_of_dispatched hd] at hl
      exact absurd hl (free c)
    · obtain ⟨c, hc⟩ := not_forall_not.mp hon
      exact .running hc (h.me_of_running hc) fun c' hc' => h.one c' c (hc'.trans hc.symm)
  | runnable | sleeping | zombie =>
    have hidle := idle (by rw [hst]; rintro ⟨⟩)
    rw [← hst]
    exact h.stays_of_parked hidle (hw.parked p hidle (by rw [hst]; rfl))

theorem state_tells_asleep : ∃ s : State 2 Unit, (kernel 2 0 ()).Reachable s ∧
    s.holder (.proc 0) = none ∧ s.shared.states 0 = .sleeping ∧ s.Stays 0 .sleeping := by
  have hrun : ((kernel 2 0 ()).run (kernel 2 0 ()).init forkThenWait).any fun s =>
      decide (s.holder (.proc 0) = none) && decide (s.shared.states 0 = .sleeping) := by
    decide +kernel
  obtain ⟨s, hs, hrun⟩ := (Option.any_eq_true _ _).mp hrun
  obtain ⟨hfree, hst⟩ := Bool.and_eq_true_iff.mp hrun
  have hfree := of_decide_eq_true hfree
  have hst := of_decide_eq_true hst
  have hr := System.reachable_of_run _ hs
  have hstays := state_tells hr hfree
  rw [hst] at hstays
  exact ⟨s, hr, hfree, hst, hstays⟩

end Steps

end MultithreadMayhem.Kernel
