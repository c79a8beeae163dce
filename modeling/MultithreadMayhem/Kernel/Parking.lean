import MultithreadMayhem.Kernel.Advance
import MultithreadMayhem.Kernel.Boot

/-!
# Parents that sleep

A process is parked from the moment it gives up `wait_lock` in `sleep` until it is
woken. It parks in `kwait` only, and the step by which it does so is the release of
`wait_lock`.
-/

namespace MultithreadMayhem.Kernel

variable {n : ℕ} {x : Ctx n} {sh sh' : Shared n} {f g : Frame n} {rest : List (Frame n)}
  {p P : Fin n}

def SleepPc.falling : SleepPc → Bool
  | .acquire | .releaseLk | .setChan | .setState => true
  | _ => false

def SleepPc.between : SleepPc → Bool
  | .setChan | .setState => true
  | _ => false

namespace Frame

def parks : Frame n → Bool
  | .sleep _ _ lk pc => pc.between && decide (lk = .waitLock)
  | _ => false

/-- A process that sleeps on the address of a process gives up `wait_lock` for it. -/
def SleepOk (sh : Shared n) : Frame n → Prop
  | .sleep p ch lk pc => pc.falling = true →
      (∀ P, ch = .proc P → lk = .waitLock) ∧ (pc = .setState → (sh.proc p).chan = some ch)
  | _ => True

theorem parks_eq (h : f.parks = true) :
    ∃ p ch pc, f = sleep p ch .waitLock pc ∧ (pc = .setChan ∨ pc = .setState) := by
  cases f with
  | sleep p ch lk pc =>
    obtain ⟨hpc, hlk⟩ := Bool.and_eq_true_iff.mp h
    obtain rfl := of_decide_eq_true hlk
    refine ⟨p, ch, pc, rfl, ?_⟩
    cases pc with
    | setChan => exact .inl rfl
    | setState => exact .inr rfl
    | _ => cases hpc
  | _ => cases h

theorem eq_sleep_of_fn {lk : Lock n} (h : f.fn = .sleep p lk) : ∃ ch pc, f = sleep p ch lk pc := by
  cases f with
  | sleep p' ch lk' pc =>
    cases h
    exact ⟨ch, pc, rfl⟩
  | ext kind => cases kind <;> cases h
  | _ => cases h

theorem parks_of_inert (h : f.inert = true) : f.parks = false := by
  cases f with
  | sleep p ch lk pc => cases h
  | _ => rfl

theorem sleepOk_of_inert (h : f.inert = true) : f.SleepOk sh := by
  cases f with
  | sleep p ch lk pc => cases h
  | _ => trivial

theorem sleepOk_of_locks (h : f.locks = 0) : f.SleepOk sh := by
  cases f with
  | sleep p ch lk pc =>
    cases pc with
    | acquire | releaseLk | setChan | setState => simp [locks, SleepPc.locks] at h
    | _ => rintro ⟨⟩
  | _ => trivial

theorem parks_of_locks (h : f.locks = 0) : f.parks = false := by
  cases hf : f.parks with
  | false => rfl
  | true =>
    obtain ⟨p, ch, pc, rfl, rfl | rfl⟩ := parks_eq hf
    · simp [locks, SleepPc.locks] at h
    · simp [locks, SleepPc.locks] at h

theorem Awaits.resume_sleep {fn : Fn n} (h : g.Awaits fn) (v : Val n) :
    (Frame.resume v g).SleepOk sh ∧ (Frame.resume v g).parks = false := by
  cases h.calls with
  | sleepSched => exact ⟨nofun, rfl⟩
  | initAllocproc | forkAllocproc => obtain _ | _ | q := v <;> exact ⟨trivial, rfl⟩
  | allocpid | kexec | waitKilled | sysFork | sysExit | sysWait | sysPid | sysOther =>
    cases v <;> exact ⟨trivial, rfl⟩
  | _ => exact ⟨trivial, rfl⟩

theorem Awaits.of_sleep (h : g.Awaits (.sleep p .waitLock)) :
    ∃ addr, g = kwait p addr .sleeping := by
  cases h.calls
  exact ⟨_, rfl⟩

end Frame

theorem locks_eq_zero (h : held (f :: rest) = 0) : f.locks = 0 :=
  Multiset.le_zero.mp (h ▸ Multiset.le_add_right f.locks (held rest))

def Act.SleepOk (sh : Shared n) : Act n → Prop
  | .acquire _ g | .release _ g => g.SleepOk sh
  | .exec sh' g => g.SleepOk sh'
  | .call callee _ => callee.SleepOk sh ∧ callee.parks = false
  | _ => True

/-- Only `kwait` calls `sleep` with the address of a process, and with `wait_lock`. -/
theorem code_sleepOk (h : f.SleepOk x.shared) : (code x f).SleepOk x.shared := by
  cases f with
  | sleep p ch lk pc =>
    cases pc with
    | acquire | releaseLk => exact fun _ => ⟨(h rfl).1, by rintro ⟨⟩⟩
    | setChan =>
      refine fun _ => ⟨(h rfl).1, fun _ => ?_⟩
      rw [Shared.setProc_proc, Function.update_self]
    | sched =>
      simp only [code, Kernel.sleep, Ctx.withProc]
      split
      · exact ⟨trivial, rfl⟩
      · trivial
    | _ => first | trivial | rintro ⟨⟩
  | panic msg => trivial
  | _ =>
    simp only [code]
    simp only [main.eq_def, userinit.eq_def, allocproc.eq_def, allocpid.eq_def, kfork.eq_def,
      forkret.eq_def, scheduler.eq_def, sched.eq_def, Kernel.yield.eq_def, wakeup.eq_def,
      reparent.eq_def, kexit.eq_def, kwait.eq_def, Kernel.killed.eq_def, Kernel.setkilled.eq_def,
      pidScan.eq_def, syscall.eq_def, dispatch, user.eq_def, ext.eq_def, Ctx.withProc]
    repeat' split
    all_goals
      first
      | trivial
      | exact ⟨trivial, rfl⟩
      | exact ⟨fun _ => ⟨fun _ _ => rfl, by rintro ⟨⟩⟩, rfl⟩
      | exact ⟨fun _ => ⟨by rintro _ ⟨⟩, by rintro ⟨⟩⟩, rfl⟩

theorem next_parks {a : Act n} (ha : code x f = a) (hnext : a.next = some g) (hfn : g.fn = f.fn)
    (hg : g.parks = true) : f.parks = true ∨
      ∃ p ch, f = .sleep p ch .waitLock .releaseLk ∧ a = .release .waitLock g := by
  obtain ⟨p, ch, pc, rfl, hpc⟩ := Frame.parks_eq hg
  obtain ⟨ch', pc', rfl⟩ := Frame.eq_sleep_of_fn hfn.symm
  cases pc' with
  | releaseLk =>
    subst ha
    cases hnext
    exact .inr ⟨p, ch, rfl, rfl⟩
  | setChan | setState => exact .inl rfl
  | sched =>
    simp only [code, Kernel.sleep, Ctx.withProc] at ha
    split at ha
    · subst ha
      cases hnext
      obtain hpc | hpc := hpc <;> cases hpc
    · subst ha
      cases hnext
  | _ =>
    subst ha
    cases hnext <;> obtain hpc | hpc := hpc <;> cases hpc

theorem Shared.asleep_setProc_of_ne {q : Proc n} {j : Fin n} (h : P ≠ j) :
    (sh.setProc j q).Asleep P ↔ sh.Asleep P := by
  unfold Shared.Asleep
  rw [Shared.setProc_proc, Function.update_of_ne h]

variable {C : Type}

/-- The process has given up `wait_lock` in `sleep` and is not yet `SLEEPING`. -/
def State.Window (s : State n C) (P : Fin n) : Prop :=
  ∃ c f rest, s.running c = .proc P ∧ s.stack (.proc P) = f :: rest ∧ f.parks = true

/-- The process sleeps on its own address or is falling asleep in `kwait`. -/
def State.Parking (s : State n C) (P : Fin n) : Prop := s.shared.Asleep P ∨ s.Window P

def State.SleepOk (s : State n C) : Prop :=
  ∀ c f rest, s.stack (s.running c) = f :: rest → f.SleepOk s.shared

variable [DecidableEq C] {nofile : ℕ} {s s' : State n C} {c c' : C}

theorem Advance.quiet_or_exec (h : Advance nofile s c f rest s') : Quiet s.shared s'.shared ∨
    ∃ x g, code (s.ctx nofile c x) f = .exec s'.shared g ∧
      s'.stack (s'.running c) = g :: rest ∧ s'.holder = s.holder := by
  cases h with
  | @exec x g ha hstack hholder => exact .inr ⟨x, g, ha, hstack, hholder⟩
  | _ =>
    refine .inl ?_
    rw [‹s'.shared = s.shared›]
    exact .refl

namespace Sound

omit [DecidableEq C] in
theorem not_parking (h : Sound s) (hr : s.running c = .proc P)
    (hs : s.stack (s.running c) = f :: rest) (hleaving : f.leaving = false)
    (hparks : f.parks = false) : ¬s.Parking P := by
  rintro (⟨hst, -⟩ | ⟨c', g, rest', -, hs', hg⟩)
  · have hrun := h.not_leaving hr (by rw [← hr, hs, leavingTop_cons, hleaving])
    cases hst.symm.trans hrun
  · rw [hr] at hs
    cases hs.symm.trans hs'
    rw [hparks] at hg
    cases hg

omit [DecidableEq C] in
/-- The CPU that falls asleep has the lock of its process. -/
theorem locked_of_window (h : Sound s) (hP : s.Window P) :
    ∃ c f rest, s.running c = .proc P ∧ s.stack (s.running c) = f :: rest ∧ f.parks = true ∧
      Lock.proc P ∈ held (s.stack (s.running c)) := by
  obtain ⟨c, f, rest, hr, hs, hf⟩ := hP
  rw [← hr] at hs
  refine ⟨c, f, rest, hr, hs, hf, ?_⟩
  have hok := h.stack (s.running c)
  rw [hs] at hok ⊢
  obtain ⟨p, ch, pc, rfl, hpc⟩ := Frame.parks_eq hf
  have hon : s.running c = .proc p := hok.on
  cases hon.symm.trans hr
  refine Multiset.mem_add.mpr (.inl ?_)
  obtain rfl | rfl := hpc
  · exact Multiset.mem_singleton_self _
  · exact Multiset.mem_singleton_self _

theorem asleep_of (h : Sound s) (hok : s.SleepOk) (hs : s.stack (s.running c) = f :: rest)
    (hadv : Advance nofile s c f rest s') (hP : s'.shared.Asleep P) : s.Parking P := by
  obtain hquiet | ⟨x, g, ha, -⟩ := hadv.quiet_or_exec
  · exact .inl (hquiet.asleep P hP)
  have hstack := h.stack (s.running c)
  rw [hs] at hstack
  have hdeed : Deed s.shared s'.shared f g := code_deed ha
  generalize s'.shared = sh' at hP hdeed
  cases hdeed with
  | quiet hquiet => exact .inl (hquiet.asleep P hP)
  | @setChan p ch lk hsh =>
    subst hsh
    have hr : s.running c = .proc p := hstack.on
    have hst := h.not_leaving hr (by rw [← hr, hs]; rfl)
    by_cases hp : P = p
    · subst p
      have hsleep := hP.1
      rw [Shared.setProc_proc, Function.update_self] at hsleep
      cases hsleep.symm.trans hst
    · exact .inl ((Shared.asleep_setProc_of_ne hp).mp hP)
  | @sleep p ch lk hsh =>
    subst hsh
    have hr : s.running c = .proc p := hstack.on
    by_cases hp : P = p
    · subst p
      obtain ⟨hlk, hch⟩ := hok c _ rest hs rfl
      have hself := hP.2
      rw [Shared.setState_proc, Function.update_self] at hself
      obtain rfl := hlk P (Option.some.inj ((hch rfl).symm.trans hself))
      exact .inr ⟨c, _, rest, hr, hr ▸ hs, rfl⟩
    · exact .inl ((Shared.asleep_setProc_of_ne hp).mp hP)
  | @exit p status hsh =>
    subst hsh
    by_cases hp : P = p
    · subst p
      have hsleep := hP.1
      rw [Shared.setState_proc, Function.update_self] at hsleep
      cases hsleep
    · exact .inl ((Shared.asleep_setProc_of_ne hp).mp hP)
  | fork hsh | reparent hsh | initproc hsh | start hsh =>
    subst hsh
    exact .inl hP

theorem window_of (h : Sound s) (h' : Sound s') (hok : s.SleepOk) (ht : Transition nofile s c s')
    (hs : s.stack (s.running c) = f :: rest) (hadv : Advance nofile s c f rest s')
    (hP : s'.Window P) : s.Window P ∨ (∃ ch, f = .sleep P ch .waitLock .releaseLk) ∧
      s.holder .waitLock = some c ∧ s'.holder .waitLock = none ∧ s'.shared = s.shared := by
  obtain ⟨c', g, rest', hr', hg, hparks, -⟩ := h'.locked_of_window hP
  by_cases hc : c' = c
  · subst c'
    have hstack := h.stack (s.running c)
    have hstack' := h'.stack (s'.running c)
    rw [hs] at hstack
    rw [hg] at hstack'
    -- The frame that parks goes on in the same call of `sleep`, by the same process.
    have goes {x : Choice} {a : Act n} (ha : code (s.ctx nofile c x) f = a)
        (hnext : a.next = some g) (hfn : g.fn = f.fn) : s.Window P ∨
          (∃ ch, f = .sleep P ch .waitLock .releaseLk) ∧ a = .release .waitLock g := by
      have hon := hstack.on
      rw [← hfn] at hon
      obtain ⟨p, ch, pc, rfl, -⟩ := Frame.parks_eq hparks
      cases (hstack'.on : s'.running c = .proc p).symm.trans hr'
      obtain hf | ⟨p', ch', rfl, ha'⟩ := next_parks ha hnext hfn hparks
      · exact .inl ⟨c, f, rest, hon, hon ▸ hs, hf⟩
      · cases hfn
        exact .inr ⟨⟨ch', rfl⟩, ha'⟩
    have idle (hf : g.parks = false) : False := by
      rw [hparks] at hf
      cases hf
    cases hadv with
    | acquire ha hstack =>
      cases hg.symm.trans hstack
      obtain hw | ⟨-, ha'⟩ := goes ha rfl (h.disciplined hs ha).2.1
      · exact .inl hw
      · cases ha'
    | release ha hstack hholder hsh =>
      cases hg.symm.trans hstack
      obtain hw | ⟨hf, ha'⟩ := goes ha rfl (h.disciplined hs ha).2.1
      · exact .inl hw
      · cases ha'
        refine .inr ⟨hf, h.holder_of_release hs ha, ?_, hsh⟩
        rw [hholder, Function.update_self]
    | exec ha hstack =>
      cases hg.symm.trans hstack
      obtain hw | ⟨-, ha'⟩ := goes ha rfl (h.disciplined hs ha).2.1
      · exact .inl hw
      · cases ha'
    | @call x g callee ha hstack =>
      cases hg.symm.trans hstack
      have hcall : (code (s.ctx nofile c x) f).SleepOk s.shared :=
        code_sleepOk (x := s.ctx nofile c x) (hok c f rest hs)
      rw [ha] at hcall
      exact (idle hcall.2).elim
    | @ret x v g rest' ha hrest hawaits hstack =>
      cases hg.symm.trans hstack
      have hresume : (Frame.resume v _).SleepOk s.shared ∧ _ := hawaits.resume_sleep v
      exact (idle hresume.2).elim
    | iret hheld hstack =>
      cases hg.symm.trans hstack
      exact (idle (Frame.parks_of_locks (locks_eq_zero hheld))).elim
    | switch hf hgi hstack =>
      cases hg.symm.trans hstack
      exact (idle (Frame.parks_of_inert hgi)).elim
    | panic ha hstack =>
      cases hg.symm.trans hstack
      exact (idle rfl).elim
    | interrupt hn hstack =>
      cases hg.symm.trans hstack
      exact (idle rfl).elim
  · obtain ⟨hrunning, hstack, -⟩ := h.others ht hc
    rw [hrunning] at hr' hg
    rw [hstack] at hg
    exact .inl ⟨c', g, rest', hr', hr' ▸ hg, hparks⟩

theorem parking_of (h : Sound s) (h' : Sound s') (hok : s.SleepOk) (ht : Transition nofile s c s')
    (hs : s.stack (s.running c) = f :: rest) (hadv : Advance nofile s c f rest s')
    (hP : s'.Parking P) : s.Parking P ∨ (∃ ch, f = .sleep P ch .waitLock .releaseLk) ∧
      s.holder .waitLock = some c ∧ s'.holder .waitLock = none ∧ s'.shared = s.shared := by
  obtain hP | hP := hP
  · exact .inl (h.asleep_of hok hs hadv hP)
  · obtain hw | hpark := h.window_of h' hok ht hs hadv hP
    · exact .inl (.inr hw)
    · exact .inr hpark

theorem sleepOk_transition (h : Sound s) (hok : s.SleepOk) (ht : Transition nofile s c s') :
    s'.SleepOk := by
  intro c' g rest' hg
  by_cases hc : c' = c
  · subst c'
    obtain ⟨f, rest, hs, hadv⟩ := h.advance ht
    have hcode (x : Choice) : (code (s.ctx nofile c x) f).SleepOk s.shared :=
      code_sleepOk (x := s.ctx nofile c x) (hok c f rest hs)
    cases hadv with
    | @acquire x l g ha hstack hholder hsh =>
      cases hg.symm.trans hstack
      have hg := hcode x
      rw [ha] at hg
      rwa [hsh]
    | @release x l g ha hstack hholder hsh =>
      cases hg.symm.trans hstack
      have hg := hcode x
      rw [ha] at hg
      rwa [hsh]
    | @exec x g ha hstack hholder =>
      cases hg.symm.trans hstack
      have hg := hcode x
      rwa [ha] at hg
    | @call x g callee ha hstack hholder hsh =>
      cases hg.symm.trans hstack
      have hg := hcode x
      rw [ha] at hg
      rw [hsh]
      exact hg.1
    | @ret x v g rest ha hrest hawaits hstack hholder hsh =>
      cases hg.symm.trans hstack
      exact (hawaits.resume_sleep v).1
    | iret hheld hstack hholder hsh =>
      cases hg.symm.trans hstack
      exact Frame.sleepOk_of_locks (locks_eq_zero hheld)
    | switch hf hgi hstack hholder hsh =>
      cases hg.symm.trans hstack
      exact Frame.sleepOk_of_inert hgi
    | panic ha hstack hholder hsh =>
      cases hg.symm.trans hstack
      trivial
    | interrupt hn hstack hholder hsh =>
      cases hg.symm.trans hstack
      trivial
  · obtain ⟨hrunning, hstack, hholder, hproc⟩ := h.others ht hc
    rw [hrunning, hstack] at hg
    have hold := hok c' g rest' hg
    cases g with
    | sleep p ch lk pc =>
      refine fun hf => ⟨(hold hf).1, ?_⟩
      rintro rfl
      have hmem : Lock.proc p ∈ held (s.stack (s.running c')) := by
        rw [hg]
        exact Multiset.mem_add.mpr (.inl (Multiset.mem_singleton_self _))
      rw [hproc p (h.holder_of_mem hmem)]
      exact (hold hf).2 rfl
    | _ => trivial

theorem sleepOk_of_reachable {b : C} (hs : (kernel n nofile b).Reachable s) : s.SleepOk := by
  refine hs.invariant State.SleepOk ?_ fun _ _ _ hr hok ht =>
    (of_reachable hr).sleepOk_transition hok (State.step_transition ht)
  intro c f rest hf
  change (if c = b then [Frame.main .userinit] else [Frame.main .waiting]) = f :: rest at hf
  split at hf <;> cases hf <;> trivial

end Sound

end MultithreadMayhem.Kernel
