import MultithreadMayhem.Kernel.Sound

/-!
# Switching between threads

`swtch` leaves the stacks as they are and lets the CPU go on with another one. Both
stacks hold exactly the lock of the process that is switched, so the CPU holds the
same locks before and after. With these steps every transition keeps `Sound`.
-/

namespace MultithreadMayhem.Kernel

open Foundation

variable {n : ℕ} {C : Type} {q p : Fin n} {f next : Frame n} {fs rest : List (Frame n)}

theorem Frame.Awaits.of_sched (h : f.Awaits (.sched p)) : f.locks = {.proc p} ∧ f.knows = [] := by
  cases h.calls <;> exact ⟨rfl, rfl⟩

theorem known_of_held_eq_zero (h : held fs = 0) : known fs = [] := by
  refine List.eq_nil_iff_forall_not_mem.mpr fun e he => ?_
  have hmem := mem_held_of_known he
  rw [h] at hmem
  cases hmem

namespace Resumable

variable {t : Thread n C}

theorem held (h : Resumable q fs) (hok : StackOk t fs) : Kernel.held fs = {.proc q} := by
  obtain ⟨f, rest, rfl, rfl | rfl⟩ := h
  · rw [held_cons, show Kernel.held rest = {.proc q} from hok.pre]
    rfl
  · obtain rfl := hok.rest_eq_nil (.inr ⟨q, rfl⟩)
    rfl

theorem not_leaving (h : Resumable q fs) : leavingTop fs = false := by
  obtain ⟨f, rest, rfl, rfl | rfl⟩ := h
  · rfl
  · rfl

theorem known (h : Resumable q fs) (hok : StackOk t fs) : Kernel.known fs = [] := by
  obtain ⟨f, rest, rfl, rfl | rfl⟩ := h
  · have hpre : Kernel.held rest = {.proc q} := hok.pre
    cases rest with
    | nil => rfl
    | cons g rest =>
      obtain hi | hp | hawaits := hok.1
      · cases hi
      · cases hp
      · obtain ⟨hlocks, hknows⟩ := hawaits.of_sched
        rw [held_cons, hlocks] at hpre
        rw [known_cons, known_cons, hknows, known_of_held_eq_zero (left_eq_add.mp hpre.symm)]
        rfl
  · obtain rfl := hok.rest_eq_nil (.inr ⟨q, rfl⟩)
    rfl

end Resumable

variable [DecidableEq C] {nofile : ℕ} {s s' : State n C} {c : C} {x : Choice}

namespace Sound

omit [DecidableEq C] in
theorem running_cpu (h : Sound s) (hs : s.stack (s.running c) = f :: rest) (hf : f.fn = .idle) :
    s.running c = .cpu c := by
  have hon := (h.stack (s.running c))
  rw [hs] at hon
  have hon := hon.on
  rw [hf] at hon
  obtain ⟨c', hc'⟩ := hon
  obtain hr | ⟨q, hr, _⟩ := h.mode c
  · exact hr
  · rw [hr] at hc'
    cases hc'

theorem setProc {p : Option (Fin n)} (h : Sound s) (hs : s.stack (s.running c) = f :: rest)
    (ha : code (s.ctx nofile c x) f = .setProc p next) :
    Sound { s.setStack (s.running c) (next :: rest) with me := Function.update s.me c p } := by
  have hd := h.disciplined hs ha
  have hp := h.plays hs ha
  obtain ⟨hlocks, hfn, hwf⟩ := hd
  have hok := h.stack (s.running c)
  rw [hs] at hok
  have hfacts : f.fn = .idle ∧ next.current = p ∧ StackAlike [f] [next] ∧ next.knows ⊆ f.knows := by
    obtain ⟨b, rfl, rfl, rfl⟩ | ⟨b, rfl, rfl, rfl⟩ := hp
    · exact ⟨rfl, rfl, ⟨rfl, rfl, rfl, rfl⟩, fun _ he => he⟩
    · exact ⟨rfl, rfl, ⟨rfl, rfl, rfl, rfl⟩, fun _ he => he⟩
  obtain ⟨hidle, hcur, halike, hknows⟩ := hfacts
  obtain rfl := hok.rest_eq_nil (.inl hidle)
  have hr := h.running_cpu hs hidle
  have hheld : held [next] = held [f] := by rw [held_cons, held_cons, hlocks]
  refine ⟨h.locked_keep hs rfl rfl rfl rfl hheld (hok.replace hfn hwf), ⟨?_, ?_, h.one⟩,
    Procs.move h hs rfl rfl (.same rfl halike) (fun _ hj => absurd rfl hj) ?_⟩
  · intro c'
    obtain hr' | ⟨q, hr', hq⟩ := h.mode c'
    · exact .inl hr'
    · refine .inr ⟨q, hr', ?_⟩
      have hne : Thread.cpu c' ≠ s.running c := by
        rintro heq
        rw [hr] at heq
        cases heq
        rw [hr] at hr'
        cases hr'
      exact (Function.update_of_ne hne _ _).trans hq
  · intro c'
    change Function.update s.me c p c' =
      bottomCurrent (Function.update s.stack (s.running c) [next] (.cpu c'))
    rw [hr]
    by_cases hc : c' = c
    · subst c'
      rw [Function.update_self, Function.update_self]
      exact hcur.symm
    · rw [Function.update_of_ne hc, Function.update_of_ne fun heq => hc (Thread.cpu.inj heq)]
      exact h.me c'
  · intro e he
    refine h.known c e ?_
    rw [hs]
    obtain he | he := List.mem_append.mp he
    · exact List.mem_append_left _ (hknows he)
    · cases he

end Sound

/-- `allocproc` sets up the context of the new process, which starts in `forkret`. -/
def State.setContext (s : State n C) (c : C) (p : Fin n) (rest : List (Frame n)) : State n C :=
  (s.setStack (s.running c) (.allocproc (.done (some p)) :: rest)).setStack (.proc p)
    [.forkret p .release]

structure NewContext (s : State n C) (c : C) (p : Fin n) (rest : List (Frame n)) : Prop where
  used : s.shared.states p = .used
  idle : s.Idle p
  old : s.stack (s.running c) = .allocproc (.context p) :: rest

namespace NewContext

variable {t u : Thread n C} {c' : C} {j : Fin n}

omit [DecidableEq C] in
theorem of_sound (h : Sound s) (hs : s.stack (s.running c) = .allocproc (.context p) :: rest) :
    NewContext s c p rest := by
  have hused : s.shared.states p = .used := by
    refine h.built (s.running c) p ?_
    rw [hs]
    exact Multiset.mem_add.mpr (.inl (Multiset.mem_singleton_self p))
  exact ⟨hused, h.idle_of_used (.inl hused), hs⟩

theorem new (s : State n C) (c : C) (p : Fin n) (rest : List (Frame n)) :
    (s.setContext c p rest).stack (.proc p) = [.forkret p .release] :=
  Function.update_self ..

theorem here (hn : NewContext s c p rest) :
    (s.setContext c p rest).stack (s.running c) = .allocproc (.done (some p)) :: rest :=
  (Function.update_of_ne (hn.idle c) _ _).trans (Function.update_self _ _ _)

theorem there (hp : u ≠ .proc p) (hc : u ≠ s.running c) :
    (s.setContext c p rest).stack u = s.stack u :=
  (Function.update_of_ne hp _ _).trans (Function.update_of_ne hc _ _)

/-- The caller plays its part as before, but for the context that is ready. -/
theorem alike (hn : NewContext s c p rest) (hu : u ≠ .proc p) :
    held ((s.setContext c p rest).stack u) = held (s.stack u) ∧
      built ((s.setContext c p rest).stack u) = built (s.stack u) ∧
      leavingTop ((s.setContext c p rest).stack u) = leavingTop (s.stack u) ∧
      dispatched ((s.setContext c p rest).stack u) = dispatched (s.stack u) ∧
      bottomCurrent ((s.setContext c p rest).stack u) = bottomCurrent (s.stack u) ∧
      known ((s.setContext c p rest).stack u) = known (s.stack u) := by
  obtain rfl | hc := eq_or_ne u (s.running c)
  · rw [hn.here, hn.old]
    have hd (pc : AllocprocPc n) : dispatched (.allocproc pc :: rest) = none :=
      dispatched_of_not_idle nofun
    exact ⟨rfl, rfl, rfl, (hd _).trans (hd _).symm, bottomCurrent_replace rfl, rfl⟩
  · rw [there hu hc]
    exact ⟨rfl, rfl, rfl, rfl, rfl, rfl⟩

omit [DecidableEq C] in
theorem cpu_ne (c' : C) (p : Fin n) : (Thread.cpu c' : Thread n C) ≠ .proc p := nofun

theorem dispatched_cpu (hn : NewContext s c p rest) (c' : C) :
    dispatched ((s.setContext c p rest).stack (.cpu c')) = dispatched (s.stack (.cpu c')) :=
  (hn.alike (cpu_ne c' p)).2.2.2.1

theorem mem_built (hn : NewContext s c p rest) (hj : j ∈ built ((s.setContext c p rest).stack t)) :
    j ∈ built (s.stack t) := by
  obtain rfl | ht := eq_or_ne t (.proc p)
  · rw [new] at hj
    cases hj
  · exact (hn.alike ht).2.1 ▸ hj

theorem mem_readied (hn : NewContext s c p rest)
    (hj : j ∈ readied ((s.setContext c p rest).stack t)) : j = p ∨ j ∈ readied (s.stack t) := by
  obtain rfl | hc := eq_or_ne t (s.running c)
  · rw [hn.here] at hj
    rw [hn.old]
    obtain hj | hj := Multiset.mem_add.mp hj
    · exact .inl (Multiset.mem_singleton.mp hj)
    · exact .inr (Multiset.mem_add.mpr (.inr hj))
  · obtain rfl | ht := eq_or_ne t (.proc p)
    · rw [new] at hj
      cases hj
    · rw [there ht hc] at hj
      exact .inr hj

theorem locked (hn : NewContext s c p rest) (h : Sound s) : Locked (s.setContext c p rest) := by
  have hok := h.stack (s.running c)
  rw [hn.old] at hok
  refine h.locked_same (fun u => ?_) rfl rfl fun c' => (hn.alike (hn.idle c')).1
  obtain rfl | hu := eq_or_ne u (.proc p)
  · rw [new]
    exact ⟨.inr ⟨p, rfl⟩, rfl, trivial⟩
  · obtain rfl | hc := eq_or_ne u (s.running c)
    · rw [hn.here]
      exact hok.replace rfl trivial
    · rw [there hu hc]
      exact h.stack u

theorem cpus (hn : NewContext s c p rest) (h : Sound s) : Cpus (s.setContext c p rest) where
  mode c' := by
    obtain hr | ⟨q, hr, hq⟩ := h.mode c'
    · exact .inl hr
    · have hne : Thread.cpu c' ≠ s.running c := by
        intro heq
        have hold := hn.old
        rw [← heq, hq] at hold
        cases hold
      exact .inr ⟨q, hr, (there (cpu_ne c' p) hne).trans hq⟩
  me c' := (h.me c').trans (hn.alike (cpu_ne c' p)).2.2.2.2.1.symm
  one := h.one

theorem running (hn : NewContext s c p rest) (h : Sound s) (hr : s.running c' = .proc q) :
    RunOk (leavingTop ((s.setContext c p rest).stack (.proc q))) (s.shared.states q) := by
  rw [(hn.alike (hr ▸ hn.idle c')).2.2.1]
  exact h.running c' q hr

theorem resumable (hn : NewContext s c p rest) (h : Sound s) (hq : s.Idle q)
    (hst : s.shared.states q = .runnable ∨ s.shared.states q = .sleeping ∨
      s.shared.states q = .running) : Resumable q ((s.setContext c p rest).stack (.proc q)) := by
  have hne : Thread.proc q ≠ (Thread.proc p : Thread n C) := by
    rintro ⟨⟩
    rw [hn.used] at hst
    obtain hst | hst | hst := hst <;> cases hst
  rw [there hne (hq c).symm]
  exact h.resumable q hq hst

theorem builtOnce (hn : NewContext s c p rest) (h : Sound s) (t : Thread n C) :
    (built ((s.setContext c p rest).stack t)).Nodup := by
  obtain rfl | ht := eq_or_ne t (.proc p)
  · rw [new]
    exact Multiset.nodup_zero
  · rw [(hn.alike ht).2.1]
    exact h.builtOnce t

theorem readied (hn : NewContext s c p rest) (h : Sound s)
    (hj : j ∈ Kernel.readied ((s.setContext c p rest).stack t)) :
    (s.setContext c p rest).stack (.proc j) = [.forkret j .release] := by
  obtain rfl | hjp := eq_or_ne j p
  · exact new s c j rest
  have hold : j ∈ Kernel.readied (s.stack t) := (hn.mem_readied hj).resolve_left hjp
  have hidle : s.Idle j := h.idle_of_used (.inl (h.built t j (readied_subset hold)))
  rw [there (fun heq => hjp (Thread.proc.inj heq)) (hidle c).symm]
  exact h.readied t j hold

theorem procs (hn : NewContext s c p rest) (h : Sound s) : Procs (s.setContext c p rest) where
  running _ _ hr := hn.running h hr
  dispatched q hq hst := by
    obtain ⟨c₀, hd⟩ := h.dispatched q hq hst
    exact ⟨c₀, (hn.dispatched_cpu c₀).trans hd⟩
  resumable _ hq hst := hn.resumable h hq hst
  idle c₀ q hd := h.idle c₀ q ((hn.dispatched_cpu c₀).symm.trans hd)
  known c' e he := h.known c' e ((hn.alike (hn.idle c')).2.2.2.2.2 ▸ he)
  built t j hj := h.built t j (hn.mem_built hj)
  builtOnce := hn.builtOnce h
  builtBy t t' j hj hj' := h.builtBy t t' j (hn.mem_built hj) (hn.mem_built hj')
  readied _ _ hj := hn.readied h hj

end NewContext

theorem Sound.setContext (h : Sound s) (hs : s.stack (s.running c) = f :: rest)
    (ha : code (s.ctx nofile c x) f = .setContext p next) :
    Sound ((s.setStack (s.running c) (next :: rest)).setStack (.proc p) [.forkret p .release]) := by
  obtain ⟨rfl, rfl⟩ := h.plays hs ha
  have hn : NewContext s c p rest := .of_sound h hs
  exact ⟨hn.locked h, hn.cpus h, hn.procs h⟩

/-- The CPU leaves its thread with the stack `fs` and goes on with the thread `t`. -/
def State.switch (s : State n C) (c : C) (fs : List (Frame n)) (t : Thread n C) : State n C :=
  { s.setStack (s.running c) fs with running := Function.update s.running c t }

section Switch

variable {t u : Thread n C} {c' : C}

@[simp]
theorem State.switch_stack_self : (s.switch c fs t).stack (s.running c) = fs :=
  Function.update_self ..

theorem State.switch_stack_of_ne (hu : u ≠ s.running c) : (s.switch c fs t).stack u = s.stack u :=
  Function.update_of_ne hu ..

@[simp]
theorem State.switch_running_self : (s.switch c fs t).running c = t :=
  Function.update_self ..

theorem State.switch_running_of_ne (hc : c' ≠ c) : (s.switch c fs t).running c' = s.running c' :=
  Function.update_of_ne hc ..

/-- The two stacks of a switch hold the same locks, and the thread that is left plays its part as
before. -/
structure Switch (s : State n C) (c : C) (fs : List (Frame n)) (t : Thread n C) : Prop where
  apart : t ≠ s.running c
  ok : StackOk (s.running c) fs
  locks : held (s.stack t) = held (s.stack (s.running c))
  facts : known (s.stack t) = []
  makes : built fs = built (s.stack (s.running c))
  contexts : readied fs = readied (s.stack (s.running c))
  current : bottomCurrent fs = bottomCurrent (s.stack (s.running c))

namespace Switch

variable {j : Fin n} {t' : Thread n C}

theorem stack_other (h : Sound s) (hc : c' ≠ c) :
    (s.switch c fs t).stack (s.running c') = s.stack (s.running c') :=
  State.switch_stack_of_ne fun heq => hc (h.one c' c heq)

theorem held_running (hw : Switch s c fs t) (h : Sound s) (c' : C) :
    held ((s.switch c fs t).stack ((s.switch c fs t).running c')) = held (s.stack (s.running c')) := by
  obtain rfl | hc := eq_or_ne c' c
  · rw [State.switch_running_self, State.switch_stack_of_ne hw.apart, hw.locks]
  · rw [State.switch_running_of_ne hc, stack_other h hc]

theorem locked (hw : Switch s c fs t) (h : Sound s) : Locked (s.switch c fs t) := by
  refine h.locked_same (fun u => ?_) rfl rfl (hw.held_running h)
  obtain rfl | hu := eq_or_ne u (s.running c)
  · rw [State.switch_stack_self]
    exact hw.ok
  · rw [State.switch_stack_of_ne hu]
    exact h.stack u

theorem me (hw : Switch s c fs t) (h : Sound s) (c' : C) :
    (s.switch c fs t).me c' = bottomCurrent ((s.switch c fs t).stack (.cpu c')) := by
  refine (h.me c').trans ?_
  obtain heq | hne := eq_or_ne (Thread.cpu c') (s.running c)
  · rw [heq, State.switch_stack_self, hw.current]
  · rw [State.switch_stack_of_ne hne]

theorem one (h : Sound s) (ht : ∀ c', c' ≠ c → s.running c' ≠ t) (c₁ c₂ : C)
    (heq : (s.switch c fs t).running c₁ = (s.switch c fs t).running c₂) : c₁ = c₂ := by
  by_cases h₁ : c₁ = c
  · by_cases h₂ : c₂ = c
    · rw [h₁, h₂]
    · rw [h₁, State.switch_running_self, State.switch_running_of_ne h₂] at heq
      exact absurd heq.symm (ht c₂ h₂)
  · by_cases h₂ : c₂ = c
    · rw [h₂, State.switch_running_self, State.switch_running_of_ne h₁] at heq
      exact absurd heq (ht c₁ h₁)
    · rw [State.switch_running_of_ne h₁, State.switch_running_of_ne h₂] at heq
      exact h.one c₁ c₂ heq

theorem idle_of_idle (hj : (s.switch c fs t).Idle j) (hne : s.running c ≠ .proc j) : s.Idle j := by
  intro c' hr
  obtain rfl | hc := eq_or_ne c' c
  · exact hne hr
  · exact hj c' ((State.switch_running_of_ne hc).trans hr)

theorem known_running (hw : Switch s c fs t) (h : Sound s) (c' : C) (e : Fin n × Procstate)
    (he : e ∈ known ((s.switch c fs t).stack ((s.switch c fs t).running c'))) :
    s.shared.states e.1 = e.2 := by
  obtain rfl | hc := eq_or_ne c' c
  · rw [State.switch_running_self, State.switch_stack_of_ne hw.apart, hw.facts] at he
    cases he
  · rw [State.switch_running_of_ne hc, stack_other h hc] at he
    exact h.known c' e he

theorem built_eq (hw : Switch s c fs t) (u : Thread n C) :
    built ((s.switch c fs t).stack u) = built (s.stack u) := by
  obtain rfl | hu := eq_or_ne u (s.running c)
  · rw [State.switch_stack_self, hw.makes]
  · rw [State.switch_stack_of_ne hu]

theorem readied_eq (hw : Switch s c fs t) (u : Thread n C) :
    readied ((s.switch c fs t).stack u) = readied (s.stack u) := by
  obtain rfl | hu := eq_or_ne u (s.running c)
  · rw [State.switch_stack_self, hw.contexts]
  · rw [State.switch_stack_of_ne hu]

theorem built (hw : Switch s c fs t) (h : Sound s) (u : Thread n C) (j : Fin n)
    (hj : j ∈ Kernel.built ((s.switch c fs t).stack u)) : s.shared.states j = .used :=
  h.built u j (hw.built_eq u ▸ hj)

theorem builtOnce (hw : Switch s c fs t) (h : Sound s) (u : Thread n C) :
    (Kernel.built ((s.switch c fs t).stack u)).Nodup :=
  hw.built_eq u ▸ h.builtOnce u

theorem builtBy (hw : Switch s c fs t) (h : Sound s) (u u' : Thread n C) (j : Fin n)
    (hj : j ∈ Kernel.built ((s.switch c fs t).stack u))
    (hj' : j ∈ Kernel.built ((s.switch c fs t).stack u')) : u = u' :=
  h.builtBy u u' j (hw.built_eq u ▸ hj) (hw.built_eq u' ▸ hj')

/-- A process that is being made is on no CPU, so its stack stays. -/
theorem readied (hw : Switch s c fs t) (h : Sound s) (u : Thread n C) (j : Fin n)
    (hj : j ∈ Kernel.readied ((s.switch c fs t).stack u)) :
    (s.switch c fs t).stack (.proc j) = [.forkret j .release] := by
  rw [hw.readied_eq u] at hj
  have hidle : s.Idle j := h.idle_of_used (.inl (h.built u j (readied_subset hj)))
  rw [State.switch_stack_of_ne (hidle c).symm]
  exact h.readied u j hj

end Switch

end Switch

namespace Sound

/-- The scheduler goes on with the process that it has made RUNNING. -/
theorem swtchTo (h : Sound s) (hs : s.stack (s.running c) = f :: rest)
    (ha : code (s.ctx nofile c x) f = .swtchTo q next) :
    Sound { s.setStack (s.running c) (next :: rest) with
      running := Function.update s.running c (.proc q) } := by
  obtain ⟨rfl, rfl⟩ := h.plays hs ha
  have hok := h.stack (s.running c)
  rw [hs] at hok
  obtain rfl := hok.rest_eq_nil (.inl rfl)
  have hr : s.running c = .cpu c := h.running_cpu hs rfl
  have hidle : s.Idle q := h.idle c q (by rw [← hr, hs]; rfl)
  have hstate : s.shared.states q = .running :=
    h.known c (q, .running) (by rw [hs]; exact List.mem_cons_self)
  have hres : Resumable q (s.stack (.proc q)) := h.resumable q hidle (.inr (.inr hstate))
  have hw : Switch s c [.scheduler (.clearProc q)] (.proc q) := by
    refine ⟨(hidle c).symm, ⟨.inl rfl, ⟨c, hr⟩, trivial⟩, ?_, hres.known (h.stack _), ?_, ?_, ?_⟩
    · rw [hres.held (h.stack _), hs]
      rfl
    all_goals
      rw [hs]
      rfl
  change Sound (s.switch c [.scheduler (.clearProc q)] (.proc q))
  have cpu {c' : C} (hc : c' ≠ c) : (Thread.cpu c' : Thread n C) ≠ s.running c :=
    fun heq => hc (Thread.cpu.inj (heq.trans hr))
  have proc (j : Fin n) : (Thread.proc j : Thread n C) ≠ s.running c := by
    rw [hr]
    rintro ⟨⟩
  refine ⟨hw.locked h, ⟨?mode, hw.me h, Switch.one h fun c' _ => hidle c'⟩, ⟨?running, ?dispatched,
    ?resumable, ?idle, hw.known_running h, hw.built h, hw.builtOnce h, hw.builtBy h, hw.readied h⟩⟩
  case mode =>
    intro c'
    obtain rfl | hc := eq_or_ne c' c
    · exact .inr ⟨q, State.switch_running_self, hr ▸ State.switch_stack_self⟩
    · rw [State.switch_running_of_ne hc, State.switch_stack_of_ne (cpu hc)]
      exact h.mode c'
  case running =>
    intro c' j hrun
    rw [State.switch_stack_of_ne (proc j)]
    obtain rfl | hc := eq_or_ne c' c
    · rw [State.switch_running_self] at hrun
      cases hrun
      rw [hres.not_leaving]
      exact hstate
    · rw [State.switch_running_of_ne hc] at hrun
      exact h.running c' j hrun
  case dispatched =>
    intro j hj hst
    obtain ⟨c₀, hd⟩ := h.dispatched j (Switch.idle_of_idle hj (proc j).symm) hst
    refine ⟨c₀, ?_⟩
    have hc : c₀ ≠ c := by
      rintro rfl
      rw [← hr, hs] at hd
      cases hd
      exact hj c₀ State.switch_running_self
    rwa [State.switch_stack_of_ne (cpu hc)]
  case resumable =>
    intro j hj hst
    rw [State.switch_stack_of_ne (proc j)]
    exact h.resumable j (Switch.idle_of_idle hj (proc j).symm) hst
  case idle =>
    intro c₀ j hd c' hrun
    have hc₀ : c₀ ≠ c := by
      rintro rfl
      rw [← hr, State.switch_stack_self] at hd
      cases hd
    rw [State.switch_stack_of_ne (cpu hc₀)] at hd
    obtain rfl | hc := eq_or_ne c' c
    · -- Two schedulers do not dispatch one process: both would hold its lock.
      rw [State.switch_running_self] at hrun
      cases hrun
      have hl := mem_held_of_dispatched hd
      rw [← h.running_of_dispatched hd] at hl
      refine hc₀ (h.cpu_eq hl ?_)
      rw [hs]
      exact Multiset.mem_singleton_self _
    · rw [State.switch_running_of_ne hc] at hrun
      exact h.idle c₀ j hd c' hrun

/-- A process gives the CPU back to the scheduler that has dispatched it. -/
theorem swtchBack (h : Sound s) (hs : s.stack (s.running c) = f :: rest)
    (ha : code (s.ctx nofile c x) f = .swtchBack next) :
    Sound { s.setStack (s.running c) (next :: rest) with
      running := Function.update s.running c (.cpu c) } := by
  obtain ⟨q, rfl, rfl⟩ := h.plays hs ha
  have hok := h.stack (s.running c)
  rw [hs] at hok
  have hr : s.running c = .proc q := hok.on
  have hrest : held rest = {.proc q} := hok.pre
  have hrun := h.running c q hr
  rw [← hr, hs] at hrun
  have hcpu : s.stack (.cpu c) = [.scheduler (.clearProc q)] := by
    obtain hr' | ⟨q', hr', hq'⟩ := h.mode c
    · cases hr.symm.trans hr'
    · cases hr.symm.trans hr'
      exact hq'
  have cpu (c' : C) : (Thread.cpu c' : Thread n C) ≠ s.running c := by
    rw [hr]
    rintro ⟨⟩
  have hw : Switch s c (.sched q .done :: rest) (.cpu c) := by
    refine ⟨cpu c, hok.replace rfl trivial, ?_, ?_, ?_, ?_, ?_⟩
    · rw [hcpu, hs]
      exact hrest.symm.trans (zero_add _).symm
    · rw [hcpu]
      rfl
    all_goals rw [hs]
    · rfl
    · rfl
    · exact bottomCurrent_replace rfl
  change Sound (s.switch c (.sched q .done :: rest) (.cpu c))
  have idle {j : Fin n} (hj : (s.switch c (.sched q .done :: rest) (.cpu c)).Idle j) (hne : j ≠ q) :
      s.Idle j := by
    refine Switch.idle_of_idle hj ?_
    rw [hr]
    exact fun heq => hne (Thread.proc.inj heq).symm
  refine ⟨hw.locked h, ⟨?mode, hw.me h, Switch.one h ?other⟩, ⟨?running, ?dispatched, ?resumable,
    ?idle, hw.known_running h, hw.built h, hw.builtOnce h, hw.builtBy h, hw.readied h⟩⟩
  case mode =>
    intro c'
    obtain rfl | hc := eq_or_ne c' c
    · exact .inl State.switch_running_self
    · rw [State.switch_running_of_ne hc, State.switch_stack_of_ne (cpu c')]
      exact h.mode c'
  case other =>
    -- Another CPU executes neither this scheduler nor the process.
    intro c' hc heq
    obtain hr' | ⟨q', hr', _⟩ := h.mode c'
    · exact hc (Thread.cpu.inj (hr'.symm.trans heq))
    · cases hr'.symm.trans heq
  case running =>
    intro c' j hrun'
    obtain rfl | hc := eq_or_ne c' c
    · rw [State.switch_running_self] at hrun'
      cases hrun'
    · rw [State.switch_running_of_ne hc] at hrun'
      rw [← hrun', Switch.stack_other h hc, hrun']
      exact h.running c' j hrun'
  case dispatched =>
    intro j hj hst
    have hne : j ≠ q := by
      rintro rfl
      change s.shared.states j = .running at hst
      obtain hq | hq | hq := hrun <;> rw [hst] at hq <;> cases hq
    obtain ⟨c₀, hd⟩ := h.dispatched j (idle hj hne) hst
    exact ⟨c₀, by rwa [State.switch_stack_of_ne (cpu c₀)]⟩
  case resumable =>
    intro j hj hst
    obtain rfl | hne := eq_or_ne j q
    · rw [← hr, State.switch_stack_self]
      exact ⟨_, _, rfl, .inl rfl⟩
    · have hidle := idle hj hne
      rw [State.switch_stack_of_ne (hidle c).symm]
      exact h.resumable j hidle hst
  case idle =>
    intro c₀ j hd c' hrun'
    rw [State.switch_stack_of_ne (cpu c₀)] at hd
    obtain rfl | hc := eq_or_ne c' c
    · rw [State.switch_running_self] at hrun'
      cases hrun'
    · rw [State.switch_running_of_ne hc] at hrun'
      exact h.idle c₀ j hd c' hrun'

/-- Every step of every CPU keeps the invariant. -/
theorem transition (h : Sound s) (ht : Transition nofile s c s') : Sound s' := by
  cases ht with
  | acquireAgain hs ha => exact h.acquireAgain hs ha
  | acquire hs ha hl => exact h.acquire hs ha hl
  | release hs ha => exact h.release hs ha
  | releaseOther hs ha hl => exact absurd (h.holder_of_release hs ha) hl
  | exec hs ha => exact h.exec hs ha
  | call hs ha => exact h.call hs ha
  | ret hs ha => exact h.ret hs ha
  | iret hs ha => exact h.iret hs ha
  | setProc hs ha => exact h.setProc hs ha
  | setContext hs ha => exact h.setContext hs ha
  | swtchTo hs ha => exact h.swtchTo hs ha
  | swtchBack hs ha => exact h.swtchBack hs ha
  | panic hs ha => exact h.panic hs ha
  | interrupt hs hf hn => exact h.interrupt hs hn

theorem boot (b : C) : Sound (State.boot b : State n C) := by
  have cpu (c : C) : ∃ pc, (State.boot b : State n C).stack (.cpu c) = [.main pc] := by
    change ∃ pc, (if c = b then [Frame.main .userinit] else [Frame.main .waiting]) = [.main pc]
    split
    · exact ⟨_, rfl⟩
    · exact ⟨_, rfl⟩
  have none (t : Thread n C) : held ((State.boot b : State n C).stack t) = 0 ∧
      built ((State.boot b : State n C).stack t) = 0 ∧
      readied ((State.boot b : State n C).stack t) = 0 ∧
      bottomCurrent ((State.boot b : State n C).stack t) = none ∧
      dispatched ((State.boot b : State n C).stack t) = none ∧
      known ((State.boot b : State n C).stack t) = [] := by
    cases t with
    | cpu c =>
      obtain ⟨pc, hpc⟩ := cpu c
      rw [hpc]
      exact ⟨rfl, rfl, rfl, rfl, rfl, rfl⟩
    | proc q => exact ⟨rfl, rfl, rfl, rfl, rfl, rfl⟩
  refine ⟨⟨?stack, ?holder, ?nodup, ?noff⟩, ⟨fun _ => .inl rfl, ?me, ?one⟩, ⟨nofun, ?dispatched,
    ?resumable, ?idle, ?known, ?built, ?builtOnce, ?builtBy, ?readied⟩⟩
  case stack =>
    intro t
    cases t with
    | cpu c =>
      obtain ⟨pc, hpc⟩ := cpu c
      rw [hpc]
      exact ⟨.inl rfl, ⟨c, rfl⟩, trivial⟩
    | proc q => trivial
  case holder =>
    intro l c
    rw [(none _).1]
    exact ⟨nofun, nofun⟩
  case nodup =>
    intro c
    rw [(none _).1]
    exact Multiset.nodup_zero
  case noff =>
    intro c
    rw [(none _).1]
    rfl
  case me =>
    intro c
    rw [(none _).2.2.2.1]
    rfl
  case one => exact fun c c' heq => Thread.cpu.inj heq
  case dispatched =>
    intro q _ hst
    cases hst
  case resumable =>
    intro q _ hst
    obtain hst | hst | hst := hst <;> cases hst
  case idle =>
    intro c q hd
    rw [(none _).2.2.2.2.1] at hd
    cases hd
  case known =>
    intro c e he
    rw [(none _).2.2.2.2.2] at he
    cases he
  case built =>
    intro t j hj
    rw [(none t).2.1] at hj
    cases hj
  case builtOnce =>
    intro t
    rw [(none t).2.1]
    exact Multiset.nodup_zero
  case builtBy =>
    intro t t' j hj
    rw [(none t).2.1] at hj
    cases hj
  case readied =>
    intro t j hj
    rw [(none t).2.2.1] at hj
    cases hj

theorem step {l : C × Choice} (h : Sound s) (hs : s.step nofile l = some s') : Sound s' :=
  h.transition (State.step_transition hs)

theorem of_reachable {b : C} (hs : (kernel n nofile b).Reachable s) : Sound s :=
  hs.invariant Sound (boot b) fun _ _ _ _ h ht => h.step ht

end Sound

end MultithreadMayhem.Kernel
