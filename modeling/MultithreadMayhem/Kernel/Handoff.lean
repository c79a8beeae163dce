import MultithreadMayhem.Kernel.Switch

/-!
# The current process of a CPU

A process is current on one CPU at most, a process whose lock is free is `RUNNING`
exactly while it is current, and `swtch` is executed with the lock of the switched
process only, so that the checks of `sched` never fail.
-/

namespace MultithreadMayhem.Kernel

open Foundation

variable {n nofile : ℕ} {C : Type} {q : Fin n} {f g next : Frame n} {rest : List (Frame n)}

namespace State

/-- The CPU `c` is about to execute `swtch` to the process `q` or away from it. -/
def Switches [DecidableEq C] (nofile : ℕ) (s : State n C) (c : C) (q : Fin n) : Prop :=
  ∃ f rest x next, s.stack (s.running c) = f :: rest ∧
    (code (s.ctx nofile c x) f = .swtchTo q next ∨
      code (s.ctx nofile c x) f = .swtchBack next ∧ s.running c = .proc q)

def Panicked (s : State n C) (msg : String) : Prop := ∃ t, .panic msg ∈ s.stack t

def Sole (s : State n C) : Prop := ∀ c c' q, s.me c = some q → s.running c' = .proc q → c = c'

end State

def schedPanics : List String :=
  ["sched p->lock", "sched locks", "sched RUNNING", "sched interruptible"]

theorem fn_ne_panic {y : Ctx n} {a : Act n} (ha : code y f = a) (hb : a ≠ .block) :
    f.fn ≠ .panic := by
  intro hf
  cases f with
  | panic msg => exact hb ha.symm
  | ext kind => cases kind <;> cases hf
  | _ => cases hf

theorem not_mem_schedPanics {y : Ctx n} {msg : String} (ha : code y f = .panic msg)
    (hf : f.leaving = false) : msg ∉ schedPanics := by
  have other {m : String} (hm : m ∉ schedPanics) (ha : Act.panic (n := n) m = .panic msg) :
      msg ∉ schedPanics := by
    cases ha
    exact hm
  cases f with
  | sched p pc =>
    cases pc with
    | done => cases ha
    | _ => cases hf
  | userinit pc =>
    cases pc with
    | setCwd p =>
      cases p with
      | none => exact other (by decide) ha
      | some p => cases ha
    | _ => cases ha
  | forkret p pc =>
    cases pc with
    | testA0 v =>
      simp only [code, forkret] at ha
      split at ha
      · exact other (by decide) ha
      · cases ha
    | testFirst =>
      simp only [code, forkret] at ha
      split at ha <;> cases ha
    | _ => cases ha
  | kexit p status pc =>
    cases pc with
    | testInit =>
      simp only [code, kexit] at ha
      split at ha
      · exact other (by decide) ha
      · cases ha
    | zombieExit => exact other (by decide) ha
    | testFile fd =>
      simp only [code, kexit] at ha
      repeat' split at ha
      all_goals cases ha
    | sched =>
      simp only [code, kexit, Ctx.withProc] at ha
      split at ha <;> cases ha
    | _ => cases ha
  | panic m => cases ha
  | _ =>
    exfalso
    simp only [code] at ha
    simp only [main.eq_def, allocproc.eq_def, allocpid.eq_def, kfork.eq_def, scheduler.eq_def,
      Kernel.yield.eq_def, Kernel.sleep.eq_def, wakeup.eq_def, reparent.eq_def, kwait.eq_def,
      Kernel.killed.eq_def, Kernel.setkilled.eq_def, pidScan.eq_def, syscall.eq_def, dispatch,
      user.eq_def, ext.eq_def, Ctx.withProc] at ha
    repeat' split at ha
    all_goals cases ha

namespace Sound

variable {s s' : State n C} {c c' : C}

theorem running_of_me (h : Sound s) (hq : s.me c = some q) :
    s.running c = .proc q ∨ s.running c = .cpu c ∧ Lock.proc q ∈ held (s.stack (s.running c)) := by
  have hcur := h.me c
  rw [hq] at hcur
  obtain hr | ⟨q', hr, hstack⟩ := h.mode c
  · exact .inr ⟨hr, hr ▸ mem_held_of_bottomCurrent hcur.symm⟩
  · rw [hstack] at hcur
    cases hcur
    exact .inl hr

theorem me_of_running (h : Sound s) (hr : s.running c = .proc q) : s.me c = some q := by
  obtain hr' | ⟨q', hr', hstack⟩ := h.mode c
  · rw [hr] at hr'
    cases hr'
  · rw [hr] at hr'
    cases hr'
    rw [h.me c, hstack]
    rfl

theorem eq_of_me (h : Sound s) (hsole : s.Sole) (hc : s.me c = some q) (hc' : s.me c' = some q) :
    c = c' := by
  obtain hr' | ⟨_, hl'⟩ := h.running_of_me hc'
  · exact hsole c c' q hc hr'
  · obtain hr | ⟨_, hl⟩ := h.running_of_me hc
    · exact (hsole c' c q hc' hr).symm
    · exact h.cpu_eq hl hl'

theorem running_iff_me (h : Sound s) (hq : s.holder (.proc q) = none) :
    s.shared.states q = .running ↔ ∃ c, s.me c = some q := by
  have free (c : C) : Lock.proc q ∉ held (s.stack (s.running c)) := by
    intro hl
    rw [h.holder_of_mem hl] at hq
    cases hq
  constructor
  · intro hst
    by_cases hidle : s.Idle q
    · obtain ⟨c, hd⟩ := h.dispatched q hidle hst
      have hl := mem_held_of_dispatched hd
      rw [← h.running_of_dispatched hd] at hl
      exact absurd hl (free c)
    · obtain ⟨c, hr⟩ := not_forall_not.mp hidle
      exact ⟨c, h.me_of_running hr⟩
  · rintro ⟨c, hme⟩
    obtain hr | ⟨_, hl⟩ := h.running_of_me hme
    · obtain hst | hl := h.running_or_locked hr
      · exact hst
      · exact absurd hl (free c)
    · exact absurd hl (free c)

theorem sole_transition [DecidableEq C] (h : Sound s) (hsole : s.Sole)
    (ht : Transition nofile s c s') : s'.Sole := by
  cases ht with
  | @setProc x f next rest p hs ha =>
    have hp := h.plays hs ha
    have hok := h.stack (s.running c)
    rw [hs] at hok
    intro c₁ c₂ q hme hr
    change Function.update s.me c p c₁ = some q at hme
    by_cases hc : c₁ = c
    · subst c₁
      rw [Function.update_self] at hme
      obtain ⟨b, rfl, rfl, rfl⟩ | ⟨b, rfl, rfl, rfl⟩ := hp
      · cases hme
        -- The process is being dispatched, so no CPU executes it.
        obtain rfl := hok.rest_eq_nil (.inl rfl)
        rw [h.running_cpu hs rfl] at hs
        exact absurd hr (h.idle c q (by rw [hs]; rfl) c₂)
      · cases hme
    · rw [Function.update_of_ne hc] at hme
      exact hsole c₁ c₂ q hme hr
  | @swtchTo x f next rest p hs ha =>
    have hp := h.plays hs ha
    have hok := h.stack (s.running c)
    rw [hs] at hok
    obtain ⟨rfl, rfl⟩ := hp
    obtain rfl := hok.rest_eq_nil (.inl rfl)
    have hr := h.running_cpu hs rfl
    have hme : s.me c = some p := by
      rw [h.me c, ← hr, hs]
      rfl
    intro c₁ c₂ q hme' hr'
    change Function.update s.running c (.proc p) c₂ = .proc q at hr'
    by_cases hc : c₂ = c
    · subst c₂
      rw [Function.update_self] at hr'
      cases hr'
      exact h.eq_of_me hsole hme' hme
    · rw [Function.update_of_ne hc] at hr'
      exact hsole c₁ c₂ q hme' hr'
  | swtchBack hs ha =>
    intro c₁ c₂ q hme hr
    change Function.update s.running c (.cpu c) c₂ = .proc q at hr
    by_cases hc : c₂ = c
    · subst c₂
      rw [Function.update_self] at hr
      cases hr
    · rw [Function.update_of_ne hc] at hr
      exact hsole c₁ c₂ q hme hr
  | _ => exact hsole

theorem sole_of_reachable [DecidableEq C] {b : C} (hs : (kernel n nofile b).Reachable s) :
    s.Sole :=
  hs.invariant State.Sole nofun fun _ _ _ hr h ht =>
    (of_reachable hr).sole_transition h (State.step_transition ht)

/-- At a `swtch` the CPU holds the lock of the switched process and no other lock. -/
theorem holder_iff_of_switches [DecidableEq C] (h : Sound s) (hsw : s.Switches nofile c q)
    (l : Lock n) : s.holder l = some c ↔ l = .proc q := by
  obtain ⟨f, rest, x, next, hs, ha⟩ := hsw
  have hok := h.stack (s.running c)
  have hheld : held (s.stack (s.running c)) = {.proc q} := by
    obtain ha | ⟨ha, hr⟩ := ha
    · obtain ⟨rfl, rfl⟩ := h.plays hs ha
      rw [hs] at hok ⊢
      obtain rfl := hok.rest_eq_nil (.inl rfl)
      rfl
    · obtain ⟨p, rfl, rfl⟩ := h.plays hs ha
      rw [hs] at hok ⊢
      have hpre : held rest = {.proc p} := hok.pre
      have hon : s.running c = .proc p := hok.on
      rw [hon] at hr
      cases hr
      rw [held_cons, hpre]
      rfl
  rw [h.holder, hheld]
  exact Multiset.mem_singleton

theorem panicked_transition [DecidableEq C] (h : Sound s) (ht : Transition nofile s c s')
    {msg : String} (hm : s'.Panicked msg) : s.Panicked msg ∨ msg ∉ schedPanics := by
  obtain ⟨t, hm⟩ := hm
  -- A frame that is on a stack after the step was on a stack before it, or is a new one.
  have old {fs fs' : List (Frame n)} {u : Thread n C} (hfs : s.stack u = fs)
      (hm : .panic msg ∈ Function.update s.stack u fs' t)
      (hnew : .panic msg ∈ fs' → .panic msg ∈ fs ∨ msg ∉ schedPanics) :
      s.Panicked msg ∨ msg ∉ schedPanics := by
    by_cases hu : t = u
    · subst t
      rw [Function.update_self] at hm
      obtain hold | hmsg := hnew hm
      · exact .inl ⟨u, hfs ▸ hold⟩
      · exact .inr hmsg
    · rw [Function.update_of_ne hu] at hm
      exact .inl ⟨t, hm⟩
  have same {f next : Frame n} {rest : List (Frame n)} {x : Choice} {a : Act n}
      (hs : s.stack (s.running c) = f :: rest)
      (hm : .panic msg ∈ Function.update s.stack (s.running c) (next :: rest) t)
      (ha : code (s.ctx nofile c x) f = a) (hb : a ≠ .block) (hfn : next.fn = f.fn) :
      s.Panicked msg ∨ msg ∉ schedPanics := by
    refine old hs hm fun hm => ?_
    obtain hm | hm := List.mem_cons.mp hm
    · subst hm
      exact absurd hfn.symm (fn_ne_panic ha hb)
    · exact .inl (List.mem_cons_of_mem _ hm)
  have pushed {f : Frame n} {rest : List (Frame n)} {m : String} (hmsg : m ∉ schedPanics)
      (hs : s.stack (s.running c) = f :: rest)
      (hm : .panic msg ∈ Function.update s.stack (s.running c) (.panic m :: f :: rest) t) :
      s.Panicked msg ∨ msg ∉ schedPanics := by
    refine old hs hm fun hm => ?_
    obtain hm | hm := List.mem_cons.mp hm
    · cases hm
      exact .inr hmsg
    · exact .inl hm
  cases ht with
  | acquireAgain hs ha => exact pushed (by decide) hs hm
  | @acquire x f next rest l hs ha =>
    have hd := h.disciplined hs ha
    exact same hs hm ha nofun hd.2.1
  | @release x f next rest l hs ha =>
    have hd := h.disciplined hs ha
    exact same hs hm ha nofun hd.2.1
  | releaseOther hs ha => exact pushed (by decide) hs hm
  | @exec x f next rest sh hs ha =>
    have hd := h.disciplined hs ha
    exact same hs hm ha nofun hd.2.1
  | @call x f callee next rest hs ha =>
    have hd := h.disciplined hs ha
    refine old hs hm fun hm => ?_
    obtain hm | hm := List.mem_cons.mp hm
    · obtain ⟨-, -, -, hawaits, -⟩ := hd
      exact absurd (congrArg Frame.fn hm.symm) (Frame.Awaits.fn_ne_base hawaits).2.2
    · obtain hm | hm := List.mem_cons.mp hm
      · exact absurd (hd.2.1.symm.trans (congrArg Frame.fn hm.symm)) (fn_ne_panic ha nofun)
      · exact .inl (List.mem_cons_of_mem _ hm)
  | @ret x f g rest v hs ha =>
    refine old hs hm fun hm => ?_
    obtain hm | hm := List.mem_cons.mp hm
    · have hd := h.disciplined hs ha
      have hok := h.stack (s.running c)
      rw [hs] at hok
      have hg : g.fn = .panic := (Frame.resume_fn v).symm.trans (congrArg Frame.fn hm.symm)
      obtain hi | hp | hawaits := hok.1
      · exact absurd hi hd.2.1
      · exact absurd hp hd.2.2
      · exact absurd hg hawaits.not_idle.1
    · exact .inl (List.mem_cons_of_mem _ (List.mem_cons_of_mem _ hm))
  | iret hs ha => exact old hs hm fun hm => .inl (List.mem_cons_of_mem _ hm)
  | @setProc x f next rest p hs ha =>
    have hd := h.disciplined hs ha
    exact same hs hm ha nofun hd.2.1
  | @setContext x f next rest p hs ha =>
    have hd := h.disciplined hs ha
    by_cases hp : t = .proc p
    · subst t
      rw [State.setStack_stack, Function.update_self] at hm
      cases List.mem_singleton.mp hm
    · rw [State.setStack_stack, Function.update_of_ne hp] at hm
      exact same hs hm ha nofun hd.2.1
  | @swtchTo x f next rest p hs ha =>
    have hd := h.disciplined hs ha
    exact same hs hm ha nofun hd.2.1
  | @swtchBack x f next rest hs ha =>
    have hd := h.disciplined hs ha
    exact same hs hm ha nofun hd.2.1
  | @panic x f rest m hs ha =>
    have hp := h.plays hs ha
    exact pushed (not_mem_schedPanics ha hp) hs hm
  | interrupt hs hf hn =>
    refine old hs hm fun hm => ?_
    obtain hm | hm := List.mem_cons.mp hm
    · cases hm
    · exact .inl hm

theorem not_panicked_of_reachable [DecidableEq C] {b : C} (hs : (kernel n nofile b).Reachable s)
    {msg : String} (hmsg : msg ∈ schedPanics) : ¬s.Panicked msg := by
  induction hs with
  | init =>
    rintro ⟨t, hm⟩
    cases t with
    | cpu c =>
      change .panic msg ∈ (if c = b then [Frame.main .userinit] else [Frame.main .waiting]) at hm
      split at hm <;> cases List.mem_singleton.mp hm
    | proc q => cases hm
  | step hr ht ih =>
    intro hm
    obtain hold | hnew := (of_reachable hr).panicked_transition (State.step_transition ht) hm
    · exact ih hold
    · exact hnew hmsg

end Sound

variable [DecidableEq C] {b : C} {s : State n C}

/-- A process is current on one CPU at most, and the lock of a process is what a CPU hands over when
it switches to the process or away from it. -/
theorem handoff_of_reachable (hs : (kernel n nofile b).Reachable s) :
    (∀ c c' q, s.me c = some q → s.me c' = some q → c = c') ∧
      (∀ q, s.holder (.proc q) = none →
        ((s.shared.proc q).state = .running ↔ ∃! c, s.me c = some q)) ∧
      (∀ c q, s.Switches nofile c q → ∀ l, s.holder l = some c ↔ l = .proc q) ∧
      ∀ msg ∈ schedPanics, ¬s.Panicked msg := by
  have h := Sound.of_reachable hs
  have hsole := Sound.sole_of_reachable hs
  refine ⟨fun c c' q => h.eq_of_me hsole, fun q hq => ?_, fun c q => h.holder_iff_of_switches,
    fun msg => Sound.not_panicked_of_reachable hs⟩
  constructor
  · intro hst
    obtain ⟨c, hc⟩ := (h.running_iff_me hq).mp hst
    exact ⟨c, hc, fun c' hc' => h.eq_of_me hsole hc' hc⟩
  · rintro ⟨c, hc, -⟩
    exact (h.running_iff_me hq).mpr ⟨c, hc⟩

def firstDispatch (c : C) : List (C × Choice) :=
  List.replicate 14 (c, .run) ++ (c, .alloc 0) :: List.replicate 15 (c, .run)

theorem handoff_of_reachable_first : ∃ s : State 1 (Fin 2), (kernel 1 0 0).Reachable s ∧
    s.Switches 0 0 0 ∧ ∀ l, s.holder l = some 0 ↔ l = .proc 0 := by
  have hrun : ∃ s : State 1 (Fin 2), (kernel 1 0 0).run (kernel 1 0 0).init (firstDispatch 0) = some s ∧
      s.stack (s.running 0) = [.scheduler (.swtch 0)] := ⟨_, rfl, rfl⟩
  obtain ⟨s, hs, hstack⟩ := hrun
  have hr := System.reachable_of_run _ hs
  have hsw : s.Switches 0 0 0 := ⟨_, _, .run, _, hstack, .inl rfl⟩
  exact ⟨s, hr, hsw, (handoff_of_reachable hr).2.2.1 0 0 hsw⟩

end MultithreadMayhem.Kernel
