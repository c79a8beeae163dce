import MultithreadMayhem.Kernel.Dispatch

/-!
# What a CPU goes on with

`Advance` is a view of a step by the stack that the CPU executes afterwards: most
kinds of action go on in the top frame, call a function from it or return to its
caller. The others have no part in waiting, waking or exiting.
-/

namespace MultithreadMayhem.Kernel

variable {n nofile : ℕ} {C : Type} [DecidableEq C] {s s' : State n C} {c : C}

/-- The frame is not one of the functions by which processes wait, exit and wake each other. -/
def Frame.inert : Frame n → Bool
  | .sleep _ _ _ _ | .wakeup _ _ | .reparent _ _ | .kexit _ _ _ | .kwait _ _ _
  | .killed _ _ => false
  | _ => true

/-- A step of the CPU `c` from the stack `f :: rest`. -/
inductive Advance (nofile : ℕ) (s : State n C) (c : C) (f : Frame n) (rest : List (Frame n))
    (s' : State n C) : Prop
  | acquire {x : Choice} {l : Lock n} {g : Frame n}
      (ha : code (s.ctx nofile c x) f = .acquire l g)
      (hstack : s'.stack (s'.running c) = g :: rest)
      (hholder : s'.holder = Function.update s.holder l (some c)) (hsh : s'.shared = s.shared)
  | release {x : Choice} {l : Lock n} {g : Frame n}
      (ha : code (s.ctx nofile c x) f = .release l g)
      (hstack : s'.stack (s'.running c) = g :: rest)
      (hholder : s'.holder = Function.update s.holder l none) (hsh : s'.shared = s.shared)
  | exec {x : Choice} {g : Frame n} (ha : code (s.ctx nofile c x) f = .exec s'.shared g)
      (hstack : s'.stack (s'.running c) = g :: rest) (hholder : s'.holder = s.holder)
  | call {x : Choice} {g callee : Frame n} (ha : code (s.ctx nofile c x) f = .call callee g)
      (hstack : s'.stack (s'.running c) = callee :: g :: rest) (hholder : s'.holder = s.holder)
      (hsh : s'.shared = s.shared)
  | ret {x : Choice} {v : Val n} {g : Frame n} {rest' : List (Frame n)}
      (ha : code (s.ctx nofile c x) f = .ret v) (hrest : rest = g :: rest')
      (hawaits : g.Awaits f.fn) (hstack : s'.stack (s'.running c) = g.resume v :: rest')
      (hholder : s'.holder = s.holder) (hsh : s'.shared = s.shared)
  | iret {g : Frame n} {rest' : List (Frame n)} (hheld : held (g :: rest') = 0)
      (hstack : s'.stack (s'.running c) = g :: rest') (hholder : s'.holder = s.holder)
      (hsh : s'.shared = s.shared)
  | switch {g : Frame n} {rest' : List (Frame n)} (hf : f.inert = true) (hg : g.inert = true)
      (hstack : s'.stack (s'.running c) = g :: rest') (hholder : s'.holder = s.holder)
      (hsh : s'.shared = s.shared)
  | panic {x : Choice} {msg : String} (ha : (∃ m, code (s.ctx nofile c x) f = .panic m) ∨
        ∃ k g, code (s.ctx nofile c x) f = .acquire (.ext k) g)
      (hstack : s'.stack (s'.running c) = .panic msg :: f :: rest) (hholder : s'.holder = s.holder)
      (hsh : s'.shared = s.shared)
  | interrupt (hn : s.noff c = 0)
      (hstack : s'.stack (s'.running c) = .ext .handler (.run []) :: f :: rest)
      (hholder : s'.holder = s.holder) (hsh : s'.shared = s.shared)

theorem Resumable.inert {q : Fin n} {fs : List (Frame n)} (h : Resumable q fs) :
    ∃ g rest, fs = g :: rest ∧ g.inert = true := by
  obtain ⟨g, rest, hfs, rfl | rfl⟩ := h
  · exact ⟨_, rest, hfs, rfl⟩
  · exact ⟨_, rest, hfs, rfl⟩

theorem Sound.advance (h : Sound s) (ht : Transition nofile s c s') :
    ∃ f rest, s.stack (s.running c) = f :: rest ∧ Advance nofile s c f rest s' := by
  have same {fs : List (Frame n)} :
      Function.update s.stack (s.running c) fs (s.running c) = fs := Function.update_self _ _ _
  cases ht with
  | @acquireAgain x f next rest l hs ha hl =>
    have hk := h.not_holder_of_acquire hs ha
    cases l with
    | ext k => exact ⟨_, _, hs, .panic (.inr ⟨k, _, ha⟩) same rfl rfl⟩
    | _ => exact absurd hl (hk rfl)
  | acquire hs ha hl => exact ⟨_, _, hs, .acquire ha same rfl rfl⟩
  | release hs ha hl => exact ⟨_, _, hs, .release ha same rfl rfl⟩
  | releaseOther hs ha hl => exact absurd (h.holder_of_release hs ha) hl
  | exec hs ha => exact ⟨_, _, hs, .exec ha same rfl⟩
  | call hs ha => exact ⟨_, _, hs, .call ha same rfl rfl⟩
  | @ret x f g rest v hs ha =>
    have hd := h.disciplined hs ha
    have hok := h.stack (s.running c)
    rw [hs] at hok
    obtain hi | hp | hawaits := hok.1
    · exact absurd hi hd.2.1
    · exact absurd hp hd.2.2
    · exact ⟨_, _, hs, .ret ha rfl hawaits same rfl rfl⟩
  | @iret x f g rest hs ha =>
    have hd := h.disciplined hs ha
    have hok := h.stack (s.running c)
    rw [hs] at hok
    have hpre := hok.pre
    rw [hd.2] at hpre
    exact ⟨_, _, hs, .iret hpre same rfl rfl⟩
  | setProc hs ha =>
    obtain ⟨b, rfl, rfl, rfl⟩ | ⟨b, rfl, rfl, rfl⟩ := h.plays hs ha
    · exact ⟨_, _, hs, .switch rfl rfl same rfl rfl⟩
    · exact ⟨_, _, hs, .switch rfl rfl same rfl rfl⟩
  | @setContext x f g rest p hs ha =>
    obtain ⟨rfl, rfl⟩ := h.plays hs ha
    have hidle : s.Idle p := by
      refine h.idle_of_used (.inl (h.built (s.running c) p ?_))
      rw [hs]
      exact Multiset.mem_add.mpr (.inl (Multiset.mem_singleton_self p))
    have hstack : ((s.setStack (s.running c) (.allocproc (.done (some p)) :: rest)).setStack
        (.proc p) [.forkret p .release]).stack (s.running c) =
        .allocproc (.done (some p)) :: rest :=
      (Function.update_of_ne (hidle c) _ _).trans same
    exact ⟨_, _, hs, .switch rfl rfl hstack rfl rfl⟩
  | @swtchTo x f g rest p hs ha =>
    obtain ⟨rfl, rfl⟩ := h.plays hs ha
    have hok := h.stack (s.running c)
    rw [hs] at hok
    obtain rfl := hok.rest_eq_nil (.inl rfl)
    have hr := h.running_cpu hs rfl
    have hstate : s.shared.states p = .running := by
      refine h.known c (p, .running) ?_
      rw [hs]
      exact List.mem_cons_self
    have hidle : s.Idle p := h.idle c p (by rw [← hr, hs]; rfl)
    obtain ⟨g, rest, hfs, hg⟩ := (h.resumable p hidle (.inr (.inr hstate))).inert
    have hstack : Function.update s.stack (s.running c) [Frame.scheduler (.clearProc p)]
        (Function.update s.running c (.proc p) c) = g :: rest := by
      rw [Function.update_self, Function.update_of_ne (hidle c).symm, hfs]
    exact ⟨_, _, hs, .switch rfl hg hstack rfl rfl⟩
  | @swtchBack x f g rest hs ha =>
    obtain ⟨q, rfl, rfl⟩ := h.plays hs ha
    have hok := h.stack (s.running c)
    rw [hs] at hok
    have hr : s.running c = .proc q := hok.on
    obtain hr' | ⟨q', hr', hcpu⟩ := h.mode c
    · rw [hr] at hr'
      cases hr'
    · have hne : (Thread.cpu c : Thread n C) ≠ .proc q := nofun
      have hstack : Function.update s.stack (s.running c) (Frame.sched q .done :: rest)
          (Function.update s.running c (.cpu c) c) = [.scheduler (.clearProc q')] := by
        rw [Function.update_self, hr, Function.update_of_ne hne, hcpu]
      exact ⟨_, _, hs, .switch rfl rfl hstack rfl rfl⟩
  | panic hs ha => exact ⟨_, _, hs, .panic (.inl ⟨_, ha⟩) same rfl rfl⟩
  | interrupt hs hf hn => exact ⟨_, _, hs, .interrupt hn same rfl rfl⟩

end MultithreadMayhem.Kernel
