import MultithreadMayhem.Kernel.Boot
import MultithreadMayhem.Kernel.Writes

/-!
# A step, the stack it leaves and its event

`Turn` is a view of a step by the statement that the CPU executes: what it writes, how
the executed stack changes, and the event that it adds to the history.
-/

namespace MultithreadMayhem.Kernel

open Foundation

variable {n nofile : ℕ} {C : Type} {x : Ctx n} {sh : Shared n} {f g : Frame n}
  {rest : List (Frame n)}

def Frame.starts : Frame n → Bool
  | userinit .allocproc | allocproc (.loop 0) | allocpid .acquire | kfork _ .allocproc
  | sched _ .testLock | yield _ .acquire | sleep _ _ _ .acquire | wakeup _ (.loop 0)
  | reparent _ (.loop 0) | kexit _ _ .testInit | kwait _ _ .acquireWait | killed _ .acquire
  | setkilled _ .acquire | pidScan _ (.loop 0) | syscall _ .count | ext _ (.run []) => true
  | _ => false

theorem code_starts {callee : Frame n} (ha : code x f = .call callee g) : callee.starts = true := by
  cases f with
  | main pc =>
    cases pc with
    | waiting =>
      simp only [code, main] at ha
      split at ha <;> cases ha
    | _ => cases ha <;> rfl
  | userinit pc =>
    cases pc with
    | setCwd p => cases p <;> cases ha
    | _ => cases ha <;> rfl
  | panic msg => cases ha
  | _ pc =>
    cases pc <;>
      simp only [code, allocproc, allocpid, kfork, forkret, scheduler, sched, Kernel.yield,
        Kernel.sleep, wakeup, reparent, kexit, kwait, Kernel.killed, Kernel.setkilled, pidScan,
        syscall, dispatch, user, ext, Ctx.withProc] at ha <;> (repeat' split at ha) <;> cases ha <;> rfl
theorem Act.Disciplined.next_fn {t : Thread n C} {H : Multiset (Lock n)} {a : Act n}
    (h : a.Disciplined t H f) (hnext : a.next = some g) : g.fn = f.fn := by
  cases a with
  | ret | iret | panic | block => cases hnext
  | _ =>
    cases hnext
    exact h.2.1

theorem StackOk.rest_of_allocpid {t : Thread n C} {pc : AllocpidPc}
    (h : StackOk t (.allocpid pc :: rest)) :
    ∃ j rest', rest = .allocproc (.allocating j) :: rest' := by
  cases rest with
  | nil => obtain hf | ⟨p, hf⟩ := h.1 <;> cases hf
  | cons g rest =>
    obtain hi | hp | hawaits := h.1
    · cases hi
    · cases hp
    · cases hawaits.calls
      exact ⟨_, rest, rfl⟩

theorem StackOk.rest_of_syscall {t : Thread n C} {p : Fin n} {pc : SyscallPc}
    (h : StackOk t (.syscall p pc :: rest)) :
    rest = [.user p .trapping] := by
  cases rest with
  | nil => obtain hf | ⟨p, hf⟩ := h.1 <;> cases hf
  | cons g rest =>
    obtain hi | hp | hawaits := h.1
    · cases hi
    · cases hp
    · cases hawaits.calls
      rw [h.tail.rest_eq_nil (.inr ⟨p, rfl⟩)]

theorem StackOk.rest_of_entry {t : Thread n C} {p : Fin n} (h : StackOk t (f :: rest))
    (hf : f.fn = .process p ∨ f.fn = .syscall p ∨ f.fn = .ext ∨ f.fn = .kexit p) :
    ∀ g ∈ rest, (∃ q, g.fn = .process q) ∨ ∃ q, g.fn = .syscall q := by
  intro g hg
  cases rest with
  | nil => cases hg
  | cons r rest =>
    obtain hi | hp | hawaits := h.1
    · rw [hi] at hf
      obtain hf | hf | hf | hf := hf <;> cases hf
    · rw [hp] at hf
      obtain hf | hf | hf | hf := hf <;> cases hf
    have hr : (∃ q, r.fn = .process q) ∨ ∃ q pc, r = .syscall q pc := by
      generalize f.fn = fn at hf hawaits
      cases hawaits.calls with
      | fsinit | kexec | trapExit | trapOther | trapSyscall => exact .inl ⟨_, rfl⟩
      | sysExit | sysOther => exact .inr ⟨_, _, rfl⟩
      | _ => obtain hf | hf | hf | hf := hf <;> cases hf
    obtain ⟨q, hr⟩ | ⟨q, pc, rfl⟩ := hr
    · rw [h.tail.rest_eq_nil (.inr ⟨q, hr⟩)] at hg
      obtain rfl := List.mem_singleton.mp hg
      exact .inl ⟨q, hr⟩
    · rw [h.tail.rest_of_syscall] at hg
      obtain rfl | hg := List.mem_cons.mp hg
      · exact .inr ⟨q, rfl⟩
      · obtain rfl := List.mem_singleton.mp hg
        exact .inl ⟨q, rfl⟩

section Events

theorem event_of_lock {l : Lock n} {g' : Frame n}
    (ha : code x f = .acquire l g' ∨ code x f = .release l g') : f.event sh g = none := by
  unfold Frame.event
  split
  case h_8 =>
    simp only [code, kwait] at ha
    split at ha
    · obtain ha | ha := ha <;> cases ha
    · split at ha <;> obtain ha | ha := ha <;> cases ha
  case h_11 =>
    simp only [code, syscall, dispatch, Ctx.withProc] at ha
    repeat' split at ha
    all_goals obtain ha | ha := ha <;> cases ha
  case h_12 =>
    simp only [code, pidScan] at ha
    split at ha <;> obtain ha | ha := ha <;> cases ha
  case h_14 => rfl
  all_goals obtain ha | ha := ha <;> cases ha

theorem event_of_base (hf : f.fn = .isr ∨ f.fn = .panic ∨ f.fn = .wakeup ∨ f.fn = .killed ∨
    (∃ p, f.fn = .yield p) ∨ f.fn = .idle ∨ ∃ p, f.fn = .sched p) : f.event sh g = none := by
  unfold Frame.event
  split
  case h_14 => rfl
  all_goals obtain hf | hf | hf | hf | ⟨p, hf⟩ | hf | ⟨p, hf⟩ := hf <;> cases hf

theorem event_of_sleep {p : Fin n} {lk : Lock n} (hf : f.fn = .sleep p lk) :
    f.event sh g = none := by
  unfold Frame.event
  split
  case h_14 => rfl
  all_goals cases hf

theorem Frame.Awaits.not_special {r : Frame n} {fn : Fn n} (h : r.Awaits fn) :
    fn ≠ .isr ∧ fn ≠ .panic ∧ r.fn ≠ .panic ∧
      (r.fn = .isr → fn = .wakeup ∨ fn = .killed ∨ (∃ p, fn = .yield p) ∨ ∃ p k, fn = .sleep p k) := by
  cases h.calls with
  | @extWakeup kind => cases kind <;> exact ⟨nofun, nofun, nofun, fun _ => .inl rfl⟩
  | @extKilled kind => cases kind <;> exact ⟨nofun, nofun, nofun, fun _ => .inr (.inl rfl)⟩
  | @extYield kind => cases kind <;> exact ⟨nofun, nofun, nofun, fun _ => .inr (.inr (.inl ⟨_, rfl⟩))⟩
  | @extSleep kind =>
    cases kind <;> exact ⟨nofun, nofun, nofun, fun _ => .inr (.inr (.inr ⟨_, _, rfl⟩))⟩
  | _ => exact ⟨nofun, nofun, nofun, nofun⟩

end Events

/-- The step of the CPU `c` from the stack `f :: rest`, with its event. -/
inductive Turn [DecidableEq C] (nofile : ℕ) (s : State n C) (c : C) (f : Frame n)
    (rest : List (Frame n)) (s' : State n C) : Option (Event n) → Prop
  | lock {x : Choice} {l : Lock n} {g : Frame n}
      (ha : code (s.ctx nofile c x) f = .acquire l g ∨ code (s.ctx nofile c x) f = .release l g)
      (hstack : s'.stack = Function.update s.stack (s.running c) (g :: rest))
      (hrun : s'.running = s.running) (hsh : s'.shared = s.shared) : Turn nofile s c f rest s' none
  | exec {x : Choice} {g : Frame n} {e : Option (Event n)}
      (ha : code (s.ctx nofile c x) f = .exec s'.shared g)
      (he : e = f.event s.shared g) (hw : Write (s.ctx nofile c x) (s.running c) s'.shared f g e)
      (hstack : s'.stack = Function.update s.stack (s.running c) (g :: rest))
      (hrun : s'.running = s.running) : Turn nofile s c f rest s' e
  | call {x : Choice} {g callee : Frame n} (ha : code (s.ctx nofile c x) f = .call callee g)
      (hstack : s'.stack = Function.update s.stack (s.running c) (callee :: g :: rest))
      (hrun : s'.running = s.running) (hsh : s'.shared = s.shared) :
      Turn nofile s c f rest s' (f.event s.shared callee)
  | ret {x : Choice} {v : Val n} {r : Frame n} {rest' : List (Frame n)}
      (ha : code (s.ctx nofile c x) f = .ret v) (hrest : rest = r :: rest') (hawaits : r.Awaits f.fn)
      (hstack : s'.stack = Function.update s.stack (s.running c) (r.resume v :: rest'))
      (hrun : s'.running = s.running) (hsh : s'.shared = s.shared) :
      Turn nofile s c f rest s' (f.event s.shared (r.resume v))
  | interrupt (hn : s.noff c = 0)
      (hstack : s'.stack = Function.update s.stack (s.running c) (.ext .handler (.run []) :: f :: rest))
      (hrun : s'.running = s.running) (hsh : s'.shared = s.shared) : Turn nofile s c f rest s' none
  | panic {x : Choice} {msg : String} (ha : (∃ m, code (s.ctx nofile c x) f = .panic m) ∨
        ∃ l g, code (s.ctx nofile c x) f = .acquire l g ∨ code (s.ctx nofile c x) f = .release l g)
      (hstack : s'.stack = Function.update s.stack (s.running c) (.panic msg :: f :: rest))
      (hrun : s'.running = s.running) (hsh : s'.shared = s.shared) : Turn nofile s c f rest s' none
  | iret {r : Frame n} {rest' : List (Frame n)} (hrest : rest = r :: rest') (hf : f.fn = .isr)
      (hheld : held rest = 0) (hstack : s'.stack = Function.update s.stack (s.running c) rest)
      (hrun : s'.running = s.running) (hsh : s'.shared = s.shared) : Turn nofile s c f rest s' none
  | context {p : Fin n} (hf : f = .allocproc (.context p)) (hidle : s.Idle p)
      (hstack : s'.stack = Function.update (Function.update s.stack (s.running c)
        (.allocproc (.done (some p)) :: rest)) (.proc p) [.forkret p .release])
      (hrun : s'.running = s.running) (hsh : s'.shared = s.shared) : Turn nofile s c f rest s' none
  /-- The CPU changes its process or the thread that it executes. -/
  | switch {g f' : Frame n} {rest' : List (Frame n)}
      (hf : (∃ pc pc', f = .scheduler pc ∧ f' = .scheduler pc') ∨
        ∃ q, f = .sched q .swtch ∧ f' = .sched q .done)
      (hg : (∃ pc, g = .scheduler pc) ∨ ∃ q, g = .sched q .done ∨ g = .forkret q .release)
      (hstack : s'.stack = Function.update s.stack (s.running c) (f' :: rest))
      (htop : s'.stack (s'.running c) = g :: rest') (hsh : s'.shared = s.shared) :
      Turn nofile s c f rest s' none

variable [DecidableEq C] {s s' : State n C} {c : C}

theorem State.stack_running {fs : List (Frame n)}
    (hstack : s'.stack = Function.update s.stack (s.running c) fs) (hrun : s'.running = s.running) :
    s'.stack (s'.running c) = fs := by
  rw [hstack, hrun, Function.update_self]

theorem Sound.turn_transition (h : Sound s) (ht : Transition nofile s c s') :
    ∃ f rest e, s.stack (s.running c) = f :: rest ∧ Turn nofile s c f rest s' e := by
  cases ht with
  | acquireAgain hs ha hl =>
    exact ⟨_, _, _, hs, .panic (.inr ⟨_, _, .inl ha⟩) rfl rfl rfl⟩
  | acquire hs ha hl => exact ⟨_, _, _, hs, .lock (.inl ha) rfl rfl rfl⟩
  | release hs ha hl => exact ⟨_, _, _, hs, .lock (.inr ha) rfl rfl rfl⟩
  | releaseOther hs ha hl =>
    exact ⟨_, _, _, hs, .panic (.inr ⟨_, _, .inr ha⟩) rfl rfl rfl⟩
  | exec hs ha => exact ⟨_, _, _, hs, .exec ha rfl (h.write hs ha) rfl rfl⟩
  | call hs ha => exact ⟨_, _, _, hs, .call ha rfl rfl rfl⟩
  | @ret x f g rest v hs ha =>
    have hd := h.disciplined hs ha
    have hok := h.stack (s.running c)
    rw [hs] at hok
    obtain hi | hp | hawaits := hok.1
    · exact absurd hi hd.2.1
    · exact absurd hp hd.2.2
    · exact ⟨_, _, _, hs, .ret ha rfl hawaits rfl rfl rfl⟩
  | @iret x f g rest hs ha =>
    have hd := h.disciplined hs ha
    have hok := h.stack (s.running c)
    rw [hs] at hok
    have hpre := hok.pre
    rw [hd.2] at hpre
    exact ⟨_, _, _, hs, .iret rfl hd.2 hpre rfl rfl rfl⟩
  | @setProc x f g rest p hs ha =>
    have htop : Function.update s.stack (s.running c) (g :: rest) (s.running c) = g :: rest :=
      Function.update_self ..
    obtain ⟨b, rfl, rfl, rfl⟩ | ⟨b, rfl, rfl, rfl⟩ := h.plays hs ha
    · exact ⟨_, _, _, hs, .switch (.inl ⟨_, _, rfl, rfl⟩) (.inl ⟨_, rfl⟩) rfl htop rfl⟩
    · exact ⟨_, _, _, hs, .switch (.inl ⟨_, _, rfl, rfl⟩) (.inl ⟨_, rfl⟩) rfl htop rfl⟩
  | @setContext x f g rest p hs ha =>
    obtain ⟨rfl, rfl⟩ := h.plays hs ha
    have hidle : s.Idle p := by
      refine h.idle_of_used (.inl (h.built (s.running c) p ?_))
      rw [hs]
      exact Multiset.mem_add.mpr (.inl (Multiset.mem_singleton_self p))
    exact ⟨_, _, _, hs, .context rfl hidle rfl rfl rfl⟩
  | @swtchTo x f g rest p hs ha =>
    obtain ⟨rfl, rfl⟩ := h.plays hs ha
    have hok := h.stack (s.running c)
    rw [hs] at hok
    obtain rfl := hok.rest_eq_nil (.inl rfl)
    have hr := h.running_cpu hs rfl
    have hstate : s.shared.states p = .running := by
      refine h.known c (p, .running) ?_
      rw [hs]
      exact List.mem_cons_self
    have hidle : s.Idle p := h.idle c p (by rw [← hr, hs]; rfl)
    obtain ⟨g, rest, hfs, hg⟩ := h.resumable p hidle (.inr (.inr hstate))
    have htop : Function.update s.stack (s.running c) [Frame.scheduler (.clearProc p)]
        (Function.update s.running c (.proc p) c) = g :: rest := by
      rw [Function.update_self, Function.update_of_ne (hidle c).symm, hfs]
    exact ⟨_, _, _, hs, .switch (.inl ⟨_, _, rfl, rfl⟩) (.inr ⟨p, hg⟩) rfl htop rfl⟩
  | @swtchBack x f g rest hs ha =>
    obtain ⟨q, rfl, rfl⟩ := h.plays hs ha
    have hok := h.stack (s.running c)
    rw [hs] at hok
    have hr : s.running c = .proc q := hok.on
    obtain hr' | ⟨q', hr', hcpu⟩ := h.mode c
    · rw [hr] at hr'
      cases hr'
    · have hne : (Thread.cpu c : Thread n C) ≠ .proc q := nofun
      have htop : Function.update s.stack (s.running c) (Frame.sched q .done :: rest)
          (Function.update s.running c (.cpu c) c) = [.scheduler (.clearProc q')] := by
        rw [Function.update_self, hr, Function.update_of_ne hne, hcpu]
      exact ⟨_, _, _, hs, .switch (.inr ⟨_, rfl, rfl⟩) (.inl ⟨_, rfl⟩) rfl htop rfl⟩
  | panic hs ha => exact ⟨_, _, _, hs, .panic (.inl ⟨_, ha⟩) rfl rfl rfl⟩
  | interrupt hs hf hn => exact ⟨_, _, _, hs, .interrupt hn rfl rfl rfl⟩

omit [DecidableEq C] in
theorem State.event_eq {l : C × Choice} {rest' : List (Frame n)}
    (hs : s.stack (s.running l.1) = f :: rest) (hg : s'.stack (s'.running l.1) = g :: rest') :
    s.event l s' = if g.fn = .isr ∨ g.fn = .panic then none
      else (f.event s.shared g).map fun e => (s.running l.1, e) := by
  rw [State.event, hs, hg]

theorem Turn.event {l : C × Choice} {e : Option (Event n)} (h : Sound s)
    (hs : s.stack (s.running l.1) = f :: rest) (ht : Turn nofile s l.1 f rest s' e) :
    s.event l s' = e.map fun e => (s.running l.1, e) := by
  have top {fs : List (Frame n)} (hstack : s'.stack = Function.update s.stack (s.running l.1) fs)
      (hrun : s'.running = s.running) : s'.stack (s'.running l.1) = fs := by
    rw [hstack, hrun, Function.update_self]
  have silent {g : Frame n} {rest' : List (Frame n)} (hg : s'.stack (s'.running l.1) = g :: rest')
      (hf : f.event s.shared g = none) : s.event l s' = none := by
    rw [State.event_eq hs hg, hf]
    exact ite_self _
  cases ht with
  | lock ha hstack hrun => exact silent (top hstack hrun) (event_of_lock ha)
  | @exec x g e ha he hw hstack hrun =>
    rw [State.event_eq hs (top hstack hrun)]
    split
    · rename_i hg
      have hfn : f.fn = .isr ∨ f.fn = .panic := (h.disciplined hs ha).2.1 ▸ hg
      rw [he, event_of_base (hfn.imp_right .inl)]
      rfl
    · rw [he]
  | @call x g callee ha hstack hrun =>
    have hawaits := (h.disciplined hs ha).2.2.2.1.not_special
    rw [State.event_eq hs (top hstack hrun), if_neg]
    rintro (hg | hg)
    · exact hawaits.1 hg
    · exact hawaits.2.1 hg
  | @ret x v r rest' ha hrest hawaits hstack hrun =>
    rw [State.event_eq hs (top hstack hrun), Frame.resume_fn]
    split
    · rename_i hg
      obtain hg | hg := hg
      · obtain hf | hf | hf | ⟨p, k, hf⟩ := hawaits.not_special.2.2.2 hg
        · rw [event_of_base (.inr (.inr (.inl hf)))]
          rfl
        · rw [event_of_base (.inr (.inr (.inr (.inl hf))))]
          rfl
        · rw [event_of_base (.inr (.inr (.inr (.inr (.inl hf)))))]
          rfl
        · rw [event_of_sleep hf]
          rfl
      · exact absurd hg hawaits.not_special.2.2.1
    · rfl
  | interrupt hn hstack hrun =>
    rw [State.event_eq hs (top hstack hrun), if_pos (.inl rfl)]
    rfl
  | panic ha hstack hrun =>
    rw [State.event_eq hs (top hstack hrun), if_pos (.inr rfl)]
    rfl
  | iret hrest hf hheld hstack hrun =>
    subst hrest
    exact silent (top hstack hrun) (event_of_base (.inl hf))
  | @context p hf hidle hstack hrun =>
    subst hf
    have hg : s'.stack (s'.running l.1) = .allocproc (.done (some p)) :: rest := by
      rw [hstack, hrun, Function.update_of_ne (hidle l.1), Function.update_self]
    exact silent hg rfl
  | switch hf hg hstack htop =>
    obtain ⟨pc, pc', rfl, -⟩ | ⟨q, rfl, -⟩ := hf
    · exact silent htop rfl
    · exact silent htop rfl

/-- The step as a view of the statement, with the event that it adds to the history. -/
theorem Sound.turn {l : C × Choice} (h : Sound s) (ht : s.step nofile l = some s') :
    ∃ f rest e, s.stack (s.running l.1) = f :: rest ∧ Turn nofile s l.1 f rest s' e ∧
      s.event l s' = e.map fun e => (s.running l.1, e) := by
  obtain ⟨f, rest, e, hs, hturn⟩ := h.turn_transition (State.step_transition ht)
  exact ⟨f, rest, e, hs, hturn, hturn.event h hs⟩

/-- How the frame `g` gets to the top of the stack that the CPU executes. -/
inductive NewTop (nofile : ℕ) (s : State n C) (c : C) (f : Frame n) (rest : List (Frame n))
    (s' : State n C) (g : Frame n) (rest' : List (Frame n)) : Prop
  | next {x : Choice} {a : Act n} (ha : code (s.ctx nofile c x) f = a) (hnext : a.next = some g)
      (hcall : ∀ callee g, a ≠ .call callee g) (hsh : s'.shared = a.shared s.shared)
      (hrest : rest' = rest)
  | start (hg : g.starts = true)
  | ret {x : Choice} {v : Val n} {r : Frame n} (ha : code (s.ctx nofile c x) f = .ret v)
      (hrest : rest = r :: rest') (hawaits : r.Awaits f.fn) (hg : g = r.resume v)
      (hsh : s'.shared = s.shared)
  | panic {msg : String} (hg : g = .panic msg)
  | free (hheld : held (g :: rest') = 0)
  | switch (hg : (∃ pc, g = .scheduler pc) ∨ ∃ q, g = .sched q .done ∨ g = .forkret q .release)

theorem Turn.newTop {e : Option (Event n)} {rest' : List (Frame n)}
    (ht : Turn nofile s c f rest s' e) (hg : s'.stack (s'.running c) = g :: rest') :
    NewTop nofile s c f rest s' g rest' := by
  have top {fs : List (Frame n)} (hstack : s'.stack = Function.update s.stack (s.running c) fs)
      (hrun : s'.running = s.running) : g :: rest' = fs := by
    rw [← hg, hstack, hrun, Function.update_self]
  cases ht with
  | lock ha hstack hrun hsh =>
    obtain ⟨rfl, rfl⟩ := List.cons.inj (top hstack hrun)
    obtain ha | ha := ha
    · exact .next ha rfl (fun _ _ => nofun) hsh rfl
    · exact .next ha rfl (fun _ _ => nofun) hsh rfl
  | exec ha he hw hstack hrun =>
    obtain ⟨rfl, rfl⟩ := List.cons.inj (top hstack hrun)
    exact .next ha rfl (fun _ _ => nofun) rfl rfl
  | call ha hstack hrun =>
    obtain ⟨rfl, rfl⟩ := List.cons.inj (top hstack hrun)
    exact .start (code_starts ha)
  | ret ha hrest hawaits hstack hrun hsh =>
    obtain ⟨rfl, rfl⟩ := List.cons.inj (top hstack hrun)
    exact .ret ha hrest hawaits rfl hsh
  | interrupt hn hstack hrun =>
    obtain ⟨rfl, rfl⟩ := List.cons.inj (top hstack hrun)
    exact .start rfl
  | panic ha hstack hrun =>
    obtain ⟨rfl, rfl⟩ := List.cons.inj (top hstack hrun)
    exact .panic rfl
  | iret hrest hf hheld hstack hrun =>
    rw [← top hstack hrun] at hheld
    exact .free hheld
  | @context p hf hidle hstack hrun hsh =>
    subst hf
    rw [hrun, hstack, Function.update_of_ne (hidle c), Function.update_self] at hg
    obtain ⟨rfl, rfl⟩ := List.cons.inj hg
    have ha : code (s.ctx nofile c .run) (.allocproc (.context p)) =
        .setContext p (.allocproc (.done (some p))) := rfl
    exact .next ha rfl (fun _ _ => nofun) hsh rfl
  | switch hf hg' hstack htop =>
    obtain ⟨rfl, rfl⟩ := List.cons.inj (hg.symm.trans htop)
    exact .switch hg'

theorem Turn.eq_event {e : Option (Event n)} (ht : Turn nofile s c f rest s' e) :
    ∀ e' ∈ e, ∃ g, f.event s.shared g = some e' := by
  intro e' he'
  cases ht with
  | exec ha he hw =>
    subst he
    exact ⟨_, Option.mem_def.mp he'⟩
  | call | ret => exact ⟨_, Option.mem_def.mp he'⟩
  | _ => cases he'

theorem dispatch_info {p : Fin n} (h : (x.image p).argint .a7 = 25) :
    ∃ v, code x (.syscall p .dispatch) = .exec x.shared (.syscall p (.store v)) := by
  simp only [code, syscall, h]
  unfold dispatch
  simp only [Int.reduceEq, ↓reduceIte]
  split
  · exact ⟨_, rfl⟩
  · exact ⟨_, rfl⟩

theorem event_boundary (hexec : ∀ sh g, code x f ≠ .exec sh g) {e : Event n}
    (he : f.event x.shared g = some e) : e.boundary = true := by
  unfold Frame.event at he
  split at he
  case h_6 | h_10 | h_13 =>
    cases he
    rfl
  case h_8 =>
    exfalso
    revert hexec
    simp only [code, kwait]
    repeat' split
    all_goals exact fun hexec => hexec _ _ rfl
  case h_11 =>
    split at he
    · cases he
      rfl
    · split at he
      · obtain ⟨v, hcode⟩ := dispatch_info ‹_ ∧ _›.1
        exact absurd hcode (hexec _ _)
      · cases he
    · cases he
  case h_12 =>
    exfalso
    revert hexec
    simp only [code, pidScan]
    split
    all_goals exact fun hexec => hexec _ _ rfl
  case h_14 => cases he
  all_goals exact absurd rfl (hexec _ _)

theorem Turn.written {e : Option (Event n)} (ht : Turn nofile s c f rest s' e) :
    (s'.shared = s.shared ∧ ∀ e' ∈ e, e'.boundary = true) ∨
      ∃ x g, code (s.ctx nofile c x) f = .exec s'.shared g ∧ e = f.event s.shared g ∧
        s'.stack (s'.running c) = g :: rest ∧
        Write (s.ctx nofile c x) (s.running c) s'.shared f g e := by
  have silent (hsh : s'.shared = s.shared) : (s'.shared = s.shared ∧
      ∀ e' ∈ (none : Option (Event n)), e'.boundary = true) :=
    ⟨hsh, fun e' he' => absurd he' (Option.not_mem_none e')⟩
  have called {x : Choice} {a : Act n} {g : Frame n} (ha : code (s.ctx nofile c x) f = a)
      (hexec : ∀ sh g, a ≠ .exec sh g) : ∀ e' ∈ f.event s.shared g, e'.boundary = true := by
    intro e' he'
    exact event_boundary (x := s.ctx nofile c x) (by rwa [ha]) he'
  cases ht with
  | exec ha he hw hstack hrun =>
    refine .inr ⟨_, _, ha, he, ?_, hw⟩
    rw [hstack, hrun, Function.update_self]
  | call ha hstack hrun hsh => exact .inl ⟨hsh, called ha fun _ _ => nofun⟩
  | ret ha hrest hawaits hstack hrun hsh => exact .inl ⟨hsh, called ha fun _ _ => nofun⟩
  | _ => exact .inl (silent ‹_›)

/-- How the frame `h` gets onto the stack of the thread `t`, above the frames `below`. -/
inductive Comes (nofile : ℕ) (s : State n C) (c : C) (f : Frame n) (rest : List (Frame n))
    (s' : State n C) (e : Option (Event n)) (t : Thread n C) (h : Frame n)
    (below : List (Frame n)) : Prop
  | old {pre : List (Frame n)} (hold : s.stack t = pre ++ h :: below)
      (hquiet : t = s.running c → (e = none ∧ s'.shared = s.shared) ∨ pre ≠ [])
  | next {x : Choice} {a : Act n} (ht : t = s.running c) (ha : code (s.ctx nofile c x) f = a)
      (hnext : a.next = some h) (hsh : s'.shared = a.shared s.shared) (hbelow : below = rest)
      (he : e = f.event s.shared h ∨ ∃ callee, a = .call callee h)
  | call {x : Choice} {g : Frame n} (ht : t = s.running c)
      (ha : code (s.ctx nofile c x) f = .call h g) (hbelow : below = g :: rest)
      (hsh : s'.shared = s.shared) (he : e = f.event s.shared h)
  | resume {x : Choice} {v : Val n} {r : Frame n} (ht : t = s.running c)
      (ha : code (s.ctx nofile c x) f = .ret v) (hrest : rest = r :: below) (hawaits : r.Awaits f.fn)
      (hsh : s'.shared = s.shared) (hh : h = r.resume v)
  | other (hh : h = .ext .handler (.run []) ∨ (∃ msg, h = .panic msg) ∨
      (∃ pc, h = .scheduler pc) ∨ (∃ q, h = .sched q .done) ∨ ∃ q, h = .forkret q .release)

theorem State.boot_main {b : C} {t : Thread n C} (h : f ∈ (State.boot b : State n C).stack t) :
    ∃ pc, f = .main pc := by
  cases t with
  | cpu c =>
    change f ∈ (if c = b then [Frame.main .userinit] else [.main .waiting]) at h
    split at h
    · exact ⟨_, List.mem_singleton.mp h⟩
    · exact ⟨_, List.mem_singleton.mp h⟩
  | proc q => cases h

omit [DecidableEq C] in
theorem cons_eq_append {a h : Frame n} {fs pre below : List (Frame n)}
    (heq : a :: fs = pre ++ h :: below) : (h = a ∧ below = fs) ∨ ∃ pre', fs = pre' ++ h :: below := by
  cases pre with
  | nil =>
    obtain ⟨rfl, rfl⟩ := List.cons.inj heq
    exact .inl ⟨rfl, rfl⟩
  | cons x pre => exact .inr ⟨pre, (List.cons.inj heq).2⟩

theorem Turn.comes {e : Option (Event n)} {t : Thread n C} {h : Frame n}
    {pre below : List (Frame n)} (ht : Turn nofile s c f rest s' e)
    (hs : s.stack (s.running c) = f :: rest) (hh : s'.stack t = pre ++ h :: below) :
    Comes nofile s c f rest s' e t h below := by
  -- A frame below the top of the executed stack, or in the stack of another thread, was there before.
  have below_old (hmem : ∃ pre', rest = pre' ++ h :: below) (ht : t = s.running c) :
      Comes nofile s c f rest s' e t h below := by
    obtain ⟨pre', hrest⟩ := hmem
    have hold : s.stack t = f :: pre' ++ h :: below := by
      rw [ht, hs, hrest]
      rfl
    exact .old hold fun _ => .inr nofun
  have update {fs : List (Frame n)} (hstack : s'.stack t = Function.update s.stack (s.running c) fs t)
      (hmove : t = s.running c → fs = pre ++ h :: below → Comes nofile s c f rest s' e t h below) :
      Comes nofile s c f rest s' e t h below := by
    rw [hstack] at hh
    obtain htr | htr := eq_or_ne t (s.running c)
    · rw [htr, Function.update_self] at hh
      exact hmove htr hh
    · rw [Function.update_of_ne htr] at hh
      exact .old hh fun heq => absurd heq htr
  cases ht with
  | @lock x l g ha hstack hrun hsh =>
    refine update (by rw [hstack]) fun htr heq => ?_
    obtain ⟨rfl, rfl⟩ | hmem := cons_eq_append heq
    · have he : none = f.event s.shared h := (event_of_lock ha).symm
      obtain ha | ha := ha
      · exact .next htr ha rfl hsh rfl (.inl he)
      · exact .next htr ha rfl hsh rfl (.inl he)
    · exact below_old hmem htr
  | exec ha he hw hstack hrun =>
    refine update (by rw [hstack]) fun htr heq => ?_
    obtain ⟨rfl, rfl⟩ | hmem := cons_eq_append heq
    · exact .next htr ha rfl rfl rfl (.inl he)
    · exact below_old hmem htr
  | call ha hstack hrun hsh =>
    refine update (by rw [hstack]) fun htr heq => ?_
    obtain ⟨rfl, rfl⟩ | ⟨pre', heq⟩ := cons_eq_append heq
    · exact .call htr ha rfl hsh rfl
    · obtain ⟨rfl, rfl⟩ | hmem := cons_eq_append heq
      · exact .next htr ha rfl hsh rfl (.inr ⟨_, rfl⟩)
      · exact below_old hmem htr
  | ret ha hrest hawaits hstack hrun hsh =>
    refine update (by rw [hstack]) fun htr heq => ?_
    obtain ⟨rfl, rfl⟩ | ⟨pre', hmem⟩ := cons_eq_append heq
    · exact .resume htr ha hrest hawaits hsh rfl
    · exact below_old ⟨_ :: pre', by rw [hrest, hmem]; rfl⟩ htr
  | interrupt hn hstack hrun hsh =>
    refine update (by rw [hstack]) fun htr heq => ?_
    obtain ⟨rfl, rfl⟩ | ⟨pre', heq⟩ := cons_eq_append heq
    · exact .other (.inl rfl)
    · exact .old (by rw [htr, hs, heq]) fun _ => .inl ⟨rfl, hsh⟩
  | panic ha hstack hrun hsh =>
    refine update (by rw [hstack]) fun htr heq => ?_
    obtain ⟨rfl, rfl⟩ | ⟨pre', heq⟩ := cons_eq_append heq
    · exact .other (.inr (.inl ⟨_, rfl⟩))
    · exact .old (by rw [htr, hs, heq]) fun _ => .inl ⟨rfl, hsh⟩
  | iret hrest hf hheld hstack hrun =>
    exact update (by rw [hstack]) fun htr heq => below_old ⟨pre, heq⟩ htr
  | @context p hf hidle hstack hrun hsh =>
    obtain rfl | htp := eq_or_ne t (.proc p)
    · rw [hstack, Function.update_self] at hh
      obtain ⟨rfl, rfl⟩ | ⟨pre', heq⟩ := cons_eq_append hh
      · exact .other (.inr (.inr (.inr (.inr ⟨_, rfl⟩))))
      · cases pre' <;> cases heq
    · refine update (by rw [hstack, Function.update_of_ne htp]) fun htr heq => ?_
      obtain ⟨rfl, rfl⟩ | hmem := cons_eq_append heq
      · subst hf
        have ha : code (s.ctx nofile c .run) (.allocproc (.context p)) =
            .setContext p (.allocproc (.done (some p))) := rfl
        exact .next htr ha rfl hsh rfl (.inl rfl)
      · exact below_old hmem htr
  | switch hf hg hstack htop hsh =>
    refine update (by rw [hstack]) fun htr heq => ?_
    obtain ⟨rfl, rfl⟩ | hmem := cons_eq_append heq
    · obtain ⟨pc, pc', -, rfl⟩ | ⟨q, -, rfl⟩ := hf
      · exact .other (.inr (.inr (.inl ⟨_, rfl⟩)))
      · exact .other (.inr (.inr (.inr (.inl ⟨_, rfl⟩))))
    · exact below_old hmem htr

end MultithreadMayhem.Kernel
