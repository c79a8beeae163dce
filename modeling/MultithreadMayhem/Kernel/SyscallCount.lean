import MultithreadMayhem.Kernel.Kin

/-!
# The count of system calls

The history of the entries of `syscall()`, process by process, and of the slots that are
allocated. `p->syscalls` is the number of the process's own entries since its slot was
allocated, less the one that has not come to `p->syscalls++` yet.
-/

namespace MultithreadMayhem.Kernel

open Foundation

variable {n nofile : ℕ} {C : Type} {f g r : Frame n} {rest fs : List (Frame n)} {x : Ctx n}
  {sh : Shared n} {p q : Fin n} {t : Thread n C} {v : Int} {e : Option (Event n)}

inductive CallEvent (n : ℕ)
  /-- `allocproc` takes the slot. -/
  | allocated (p : Fin n)
  /-- The process calls `syscall()`. -/
  | entered (p : Fin n)
  /-- `sys_getsyscount()` returns `v` to the process. -/
  | count (p : Fin n) (v : Int)
  deriving DecidableEq

/-- How often the process has called `syscall()` since its slot was allocated; the latest event is
the first of the list. -/
def entries (log : List (CallEvent n)) (p : Fin n) : ℕ :=
  (log.takeWhile fun e => e ≠ .allocated p).count (.entered p)

def Frame.callEvent (sh : Shared n) (f g : Frame n) : Option (CallEvent n) :=
  match f with
  | allocproc (.init p) =>
    match g with
    | allocproc (.trapframe _) => some (.allocated p)
    | _ => none
  | user _ .syscall =>
    match g with
    | syscall p .count => some (.entered p)
    | _ => none
  | syscall p .dispatch =>
    match g with
    | syscall _ (.store v) =>
      if (sh.image p).argint .a7 = 22 then some (.count p v) else none
    | _ => none
  | _ => none

def State.callEvent (s : State n C) (l : C × Choice) (s' : State n C) : Option (CallEvent n) :=
  match s.stack (s.running l.1), s'.stack (s'.running l.1) with
  | f :: _, g :: _ => f.callEvent s.shared g
  | _, _ => none

def callHistory [DecidableEq C] (n nofile : ℕ) (b : C) :
    System (State n C × List (CallEvent n)) (C × Choice) :=
  (kernel n nofile b).recorded State.callEvent

theorem exists_callHistory [DecidableEq C] {nofile : ℕ} {b : C} {s : State n C}
    (hs : (kernel n nofile b).Reachable s) : ∃ log, (callHistory n nofile b).Reachable (s, log) :=
  hs.recorded

/-- The process has called `syscall()` and is before `p->syscalls++`. -/
def State.Entering (s : State n C) (p : Fin n) : Prop :=
  Frame.syscall p .count ∈ s.stack (.proc p)

section Frames

theorem Frame.eq_syscall_of_fn (h : f.fn = .syscall p) : ∃ pc, f = .syscall p pc := by
  cases f with
  | syscall q pc =>
    cases h
    exact ⟨pc, rfl⟩
  | ext kind => cases kind <;> cases h
  | _ => cases h

theorem next_ne_count {a : Act n} (hc : code x f = a) (hfn : g.fn = f.fn)
    (hnext : a.next = some g) : g ≠ .syscall p .count := by
  rintro rfl
  obtain ⟨pc, rfl⟩ := Frame.eq_syscall_of_fn hfn.symm
  subst hc
  cases pc with
  | count => cases hnext
  | dispatch =>
    simp only [code, syscall, dispatch, Ctx.withProc] at hnext
    repeat' split at hnext
    all_goals cases hnext
  | calling => cases hnext
  | store v => cases hnext
  | done => cases hnext

theorem call_count (ha : code x f = .call (.syscall p .count) g) :
    ∃ q, f = .user q .syscall ∧ g = .user q .trapping := by
  cases f with
  | user q pc =>
    cases pc with
    | run =>
      simp only [code, user, Ctx.withProc] at ha
      repeat' split at ha
      all_goals cases ha
    | syscall =>
      simp only [code, user, Ctx.withProc] at ha
      split at ha <;> cases ha
      exact ⟨q, rfl, rfl⟩
    | trapping => cases ha
  | main pc =>
    cases pc with
    | waiting =>
      simp only [code, main] at ha
      split at ha <;> cases ha
    | _ => cases ha
  | userinit pc =>
    cases pc with
    | setCwd p => cases p <;> cases ha
    | _ => cases ha
  | panic msg => cases ha
  | _ pc =>
    cases pc <;>
      simp only [code, allocproc, allocpid, kfork, forkret, scheduler, sched, Kernel.yield,
        Kernel.sleep, wakeup, reparent, kexit, kwait, Kernel.killed, Kernel.setkilled, pidScan,
        syscall, dispatch, ext, Ctx.withProc] at ha <;> (repeat' split at ha) <;> cases ha

theorem resume_ne_count {u : Val n} (h : r.Awaits f.fn) : r.resume u ≠ .syscall p .count := by
  intro heq
  have hfn : r.fn = .syscall p := by
    rw [← Frame.resume_fn (g := r) (v := u), heq]
    rfl
  obtain ⟨pc, rfl⟩ := Frame.eq_syscall_of_fn hfn
  cases pc with
  | calling => cases u <;> cases heq
  | _ => cases h

/-- A statement writes the count of the process only in `syscall()` and when the slot is allocated. -/
theorem Write.syscalls (h : Write x t sh f g e) (p : Fin n) :
    (sh.image p).syscalls = (x.image p).syscalls ∧ f ≠ .syscall p .count ∧
      f ≠ .allocproc (.init p) ∨
    f = .syscall p .count ∧ g = .syscall p .dispatch ∧
      (sh.image p).syscalls = wrapInt ((x.image p).syscalls + 1) ∨
    f = .allocproc (.init p) ∧ g = .allocproc (.trapframe p) ∧ (sh.image p).syscalls = 0 := by
  have other (hf : f.special = false) : f ≠ .syscall p .count ∧ f ≠ .allocproc (.init p) := by
    constructor
    · rintro rfl
      cases hf
    · rintro rfl
      cases hf
  have slot {i : Fin n} {m : Image} (himage : sh.image = Function.update x.shared.image i m)
      (hm : m.syscalls = (x.image i).syscalls) : (sh.image p).syscalls = (x.image p).syscalls := by
    obtain rfl | hne := eq_or_ne p i
    · rw [himage, Function.update_self, hm]
    · rw [himage, Function.update_of_ne hne]
      rfl
  cases h with
  | globals hf hproc hparent himage => exact .inl ⟨by rw [himage]; rfl, other hf⟩
  | copyout | info | advance | setPid | chan | fork | reparent | setXstate | exit | setkilled
  | hit => exact .inl ⟨rfl, nofun, nofun⟩
  | state hf => exact .inl ⟨rfl, other hf⟩
  | free hf =>
    refine .inl ⟨slot rfl rfl, ?_, ?_⟩
    · rintro rfl
      cases hf
    · rintro rfl
      cases hf
  | make hf hj hbuilds hlock hready hm => exact .inl ⟨slot rfl hm, other hf⟩
  | own hf ht hrun hfn hm => exact .inl ⟨slot rfl hm, other hf⟩
  | clearFile | clearCwd => exact .inl ⟨slot rfl rfl, nofun, nofun⟩
  | @init q =>
    obtain rfl | hne := eq_or_ne p q
    · exact .inr (.inr ⟨rfl, rfl, by simp [Shared.setImage]⟩)
    · refine .inl ⟨?_, nofun, fun heq => ?_⟩
      · exact congrArg Image.syscalls (Function.update_of_ne hne _ _)
      · cases heq
        exact hne rfl
  | @count q hrun =>
    obtain rfl | hne := eq_or_ne p q
    · exact .inr (.inl ⟨rfl, rfl, by simp [Shared.setImage]⟩)
    · refine .inl ⟨?_, fun heq => ?_, nofun⟩
      · exact congrArg Image.syscalls (Function.update_of_ne hne _ _)
      · cases heq
        exact hne rfl

end Frames

variable [DecidableEq C] {s s' : State n C} {c : C} {log : List (CallEvent n)}

omit [DecidableEq C] in
theorem State.callEvent_eq {l : C × Choice} (hs : s.stack (s.running l.1) = f :: rest)
    (hg : s'.stack (s'.running l.1) = g :: fs) : s.callEvent l s' = f.callEvent s.shared g := by
  rw [State.callEvent, hs, hg]

/-- What a step does to the count of the process, to its calls and to the history. -/
inductive Calls (s s' : State n C) (p : Fin n) : Option (CallEvent n) → Prop
  | same {e : Option (CallEvent n)}
      (hcount : (s'.shared.image p).syscalls = (s.shared.image p).syscalls)
      (hentering : s'.Entering p ↔ s.Entering p) (he : ∀ e' ∈ e, e' ≠ .allocated p ∧ e' ≠ .entered p) :
      Calls s s' p e
  | allocated (hcount : (s'.shared.image p).syscalls = 0) (hentering : ¬s'.Entering p) :
      Calls s s' p (some (.allocated p))
  | entered (hcount : (s'.shared.image p).syscalls = (s.shared.image p).syscalls)
      (hold : ¬s.Entering p) (hnew : s'.Entering p) : Calls s s' p (some (.entered p))
  | counted (hcount : (s'.shared.image p).syscalls = wrapInt ((s.shared.image p).syscalls + 1))
      (hold : s.Entering p) (hnew : ¬s'.Entering p) : Calls s s' p none

omit [DecidableEq C] in
theorem Sound.not_entering (h : Sound s) (hs : s.stack (.proc p) = f :: rest)
    (hf : (∃ q pc, f = .user q pc) ∨ ∃ q pc, f = .syscall q pc ∧ pc ≠ .count) :
    ¬s.Entering p := by
  intro hmem
  have hok := h.stack (.proc p)
  rw [State.Entering, hs] at hmem
  rw [hs] at hok
  obtain ⟨q, pc, rfl⟩ | ⟨q, pc, rfl, hpc⟩ := hf
  · rw [hok.rest_eq_nil (.inr ⟨q, rfl⟩)] at hmem
    cases List.mem_singleton.mp hmem
  · rw [hok.rest_of_syscall] at hmem
    cases hmem with
    | head => exact hpc rfl
    | tail _ hmem => cases List.mem_singleton.mp hmem

omit [DecidableEq C] in
theorem Frame.callEvent_cases {e : CallEvent n} (he : f.callEvent sh g = some e) :
    (∃ q q', f = .allocproc (.init q) ∧ g = .allocproc (.trapframe q') ∧ e = .allocated q) ∨
      (∃ q q', f = .user q .syscall ∧ g = .syscall q' .count ∧ e = .entered q') ∨
      ∃ q q' v, f = .syscall q .dispatch ∧ g = .syscall q' (.store v) ∧ e = .count q v := by
  unfold Frame.callEvent at he
  split at he
  · split at he <;> cases he
    exact .inl ⟨_, _, rfl, rfl, rfl⟩
  · split at he <;> cases he
    exact .inr (.inl ⟨_, _, rfl, rfl, rfl⟩)
  · split at he
    · split at he <;> cases he
      exact .inr (.inr ⟨_, _, _, rfl, rfl, rfl⟩)
    · cases he
  · cases he

theorem dispatch_boundary {a : Act n} (ha : code x (.syscall q .dispatch) = a) :
    (∃ sh g, a = .exec sh g) ∨ (∃ callee g, a = .call callee g) ∨ a = .block := by
  simp only [code, Kernel.syscall, dispatch, Ctx.withProc] at ha
  repeat' split at ha
  all_goals
    subst ha
    first
    | exact .inl ⟨_, _, rfl⟩
    | exact .inr (.inl ⟨_, _, rfl⟩)
    | exact .inr (.inr rfl)

theorem Frame.callEvent_eq_none {a : Act n} (ha : code x f = a) (hexec : ∀ sh g, a ≠ .exec sh g)
    (hcall : ∀ callee g, a ≠ .call callee g) (hblock : a ≠ .block) :
    f.callEvent sh g = none := by
  cases he : f.callEvent sh g with
  | none => rfl
  | some e =>
    exfalso
    obtain ⟨q, q', rfl, -⟩ | ⟨q, q', rfl, -⟩ | ⟨q, q', v, rfl, -⟩ := Frame.callEvent_cases he
    · exact hexec _ _ ha.symm
    · simp only [code, Kernel.user, Ctx.withProc] at ha
      split at ha
      · exact hcall _ _ ha.symm
      · exact hblock ha.symm
    · obtain ⟨sh', g', h⟩ | ⟨callee, g', h⟩ | h := dispatch_boundary ha
      · exact hexec _ _ h
      · exact hcall _ _ h
      · exact hblock h

theorem Frame.callEvent_eq_none_of_next (hg : ∀ q, g.fn ≠ .syscall q) (hg' : g.fn ≠ .allocproc) :
    f.callEvent sh g = none := by
  cases he : f.callEvent sh g with
  | none => rfl
  | some e =>
    obtain ⟨q, q', -, rfl, -⟩ | ⟨q, q', -, rfl, -⟩ | ⟨q, q', v, -, rfl, -⟩ :=
      Frame.callEvent_cases he
    · exact absurd rfl hg'
    · exact absurd rfl (hg q')
    · exact absurd rfl (hg q')

theorem Frame.callEvent_eq_none_of_isr (hf : f.fn = .isr) : f.callEvent sh g = none := by
  cases he : f.callEvent sh g with
  | none => rfl
  | some e =>
    obtain ⟨q, q', rfl, -⟩ | ⟨q, q', rfl, -⟩ | ⟨q, q', v, rfl, -⟩ := Frame.callEvent_cases he
    all_goals cases hf

/-- The statement `p->syscalls++` calls nothing and gives up no lock. -/
theorem ne_count {a : Act n} (ha : code x f = a) (hexec : ∀ sh g, a ≠ .exec sh g) :
    f ≠ .syscall p .count := by
  rintro rfl
  exact hexec _ _ ha.symm

theorem count_mem_cons (hf : f ≠ .syscall p .count) :
    .syscall p .count ∈ f :: rest ↔ .syscall p .count ∈ rest := by
  rw [List.mem_cons, or_iff_right hf.symm]

theorem count_mem_congr (hf : f ≠ .syscall p .count) (hg : g ≠ .syscall p .count) :
    .syscall p .count ∈ g :: rest ↔ .syscall p .count ∈ f :: rest := by
  rw [count_mem_cons hf, count_mem_cons hg]

theorem State.entering_congr (hs : s.stack t = f :: rest)
    (hstack : s'.stack = Function.update s.stack t fs)
    (hmem : .syscall p .count ∈ fs ↔ .syscall p .count ∈ f :: rest) :
    s'.Entering p ↔ s.Entering p := by
  rw [State.Entering, State.Entering, hstack]
  obtain rfl | hne := eq_or_ne (.proc p) t
  · rw [Function.update_self, hs]
    exact hmem
  · rw [Function.update_of_ne hne]

omit [DecidableEq C] in
theorem Calls.silent (hsh : s'.shared = s.shared) (hentering : s'.Entering p ↔ s.Entering p) :
    Calls s s' p none :=
  .same (by rw [hsh]) hentering fun e he => absurd he (Option.not_mem_none e)

theorem Sound.calls_lock {a : Act n} {y : Choice} (h : Sound s)
    (hs : s.stack (s.running c) = f :: rest) (ha : code (s.ctx nofile c y) f = a)
    (hnext : a.next = some g) (hexec : ∀ sh g, a ≠ .exec sh g)
    (hcall : ∀ callee g, a ≠ .call callee g) (hblock : a ≠ .block)
    (hstack : s'.stack = Function.update s.stack (s.running c) (g :: rest))
    (hsh : s'.shared = s.shared) : Calls s s' p (f.callEvent s.shared g) := by
  rw [Frame.callEvent_eq_none ha hexec hcall hblock]
  have hg := next_ne_count (p := p) ha ((h.disciplined hs ha).next_fn hnext) hnext
  exact .silent hsh (State.entering_congr hs hstack (count_mem_congr (ne_count ha hexec) hg))

theorem Sound.calls_exec {y : Choice} {w : Option (Event n)} (h : Sound s)
    (hdead : ∀ p, ¬s.shared.Alive p → ¬s.Entering p) (hs : s.stack (s.running c) = f :: rest)
    (ha : code (s.ctx nofile c y) f = .exec s'.shared g)
    (hw : Write (s.ctx nofile c y) (s.running c) s'.shared f g w)
    (hstack : s'.stack = Function.update s.stack (s.running c) (g :: rest)) (p : Fin n) :
    Calls s s' p (f.callEvent s.shared g) := by
  have hok := h.stack (s.running c)
  rw [hs] at hok
  obtain ⟨hcount, hf, hinit⟩ | ⟨rfl, rfl, hcount⟩ | ⟨rfl, rfl, hcount⟩ := hw.syscalls p
  · have hg := next_ne_count (p := p) ha ((h.disciplined hs ha).next_fn rfl) rfl
    refine .same hcount (State.entering_congr hs hstack (count_mem_congr hf hg)) fun e' he' => ?_
    obtain ⟨q, q', rfl, -, rfl⟩ | ⟨q, q', -, rfl, rfl⟩ | ⟨q, q', v, -, -, rfl⟩ :=
      Frame.callEvent_cases he'
    · exact ⟨fun heq => hinit (by rw [CallEvent.allocated.inj heq]), by rintro ⟨⟩⟩
    · exact ⟨by rintro ⟨⟩, fun heq => hg (by rw [CallEvent.entered.inj heq])⟩
    · exact ⟨by rintro ⟨⟩, by rintro ⟨⟩⟩
  · have hr : s.running c = .proc p := hok.on
    refine .counted hcount ?_ ?_
    · rw [State.Entering, ← hr, hs]
      exact List.mem_cons_self
    · rw [State.Entering, hstack, hr, Function.update_self, hok.rest_of_syscall]
      intro hmem
      cases hmem with
      | tail _ hmem => cases List.mem_singleton.mp hmem
  · have hrel : (Frame.allocproc (.init p)).Relies (s.ctx nofile c y) (s.running c) := h.relies hs y
    have hunused : s.shared.states p = .unused := hrel.knows (p, .unused) (List.mem_singleton_self _)
    have hsame : s'.Entering p ↔ s.Entering p :=
      State.entering_congr hs hstack (count_mem_congr (by rintro ⟨⟩) (by rintro ⟨⟩))
    refine .allocated hcount (mt hsame.mp (hdead p ?_))
    rw [Shared.Alive, hunused]
    exact Bool.false_ne_true

theorem Sound.calls_call {callee : Frame n} {y : Choice} (h : Sound s)
    (hs : s.stack (s.running c) = f :: rest) (ha : code (s.ctx nofile c y) f = .call callee g)
    (hstack : s'.stack = Function.update s.stack (s.running c) (callee :: g :: rest))
    (hsh : s'.shared = s.shared) : Calls s s' p (f.callEvent s.shared callee) := by
  have hd := h.disciplined hs ha
  by_cases hcallee : callee = .syscall p .count
  · subst hcallee
    obtain ⟨q, rfl, rfl⟩ := call_count ha
    have hr : s.running c = .proc p := hd.2.2.2.2.2.2
    refine .entered (by rw [hsh]) (h.not_entering (by rw [← hr, hs]) (.inl ⟨_, _, rfl⟩)) ?_
    rw [State.Entering, hstack, hr, Function.update_self]
    exact List.mem_cons_self
  · have hg := next_ne_count (p := p) ha hd.2.1 rfl
    have hf : f ≠ .syscall p .count := ne_count ha fun _ _ => by rintro ⟨⟩
    refine .same (by rw [hsh]) (State.entering_congr hs hstack ?_) fun e' he' => ?_
    · rw [count_mem_cons hcallee]
      exact count_mem_congr hf hg
    · obtain ⟨q, q', rfl, -, rfl⟩ | ⟨q, q', -, rfl, rfl⟩ | ⟨q, q', v, -, -, rfl⟩ :=
        Frame.callEvent_cases he'
      · cases ha
      · exact ⟨by rintro ⟨⟩, fun heq => hcallee (by rw [CallEvent.entered.inj heq])⟩
      · exact ⟨by rintro ⟨⟩, by rintro ⟨⟩⟩

theorem Sound.calls_ret {v : Val n} {y : Choice} (hs : s.stack (s.running c) = f :: r :: rest)
    (ha : code (s.ctx nofile c y) f = .ret v) (hawaits : r.Awaits f.fn)
    (hstack : s'.stack = Function.update s.stack (s.running c) (r.resume v :: rest))
    (hsh : s'.shared = s.shared) : Calls s s' p (f.callEvent s.shared (r.resume v)) := by
  have hf : f ≠ .syscall p .count := ne_count ha fun _ _ => by rintro ⟨⟩
  have hr : r ≠ .syscall p .count := by
    rintro rfl
    cases hawaits
  have hnone : f.callEvent s.shared (r.resume v) = none :=
    Frame.callEvent_eq_none ha (fun _ _ => by rintro ⟨⟩) (fun _ _ => by rintro ⟨⟩) (by rintro ⟨⟩)
  rw [hnone]
  refine .silent hsh (State.entering_congr hs hstack ?_)
  rw [count_mem_cons (resume_ne_count hawaits), count_mem_cons hf, count_mem_cons hr]

/-- The stack that `p->context` starts is new, and the slot has no process yet. -/
theorem Sound.calls_context (h : Sound s) (hdead : ∀ p, ¬s.shared.Alive p → ¬s.Entering p)
    (hs : s.stack (s.running c) = .allocproc (.context q) :: rest)
    (hstack : s'.stack = Function.update (Function.update s.stack (s.running c)
      (.allocproc (.done (some q)) :: rest)) (.proc q) [.forkret q .release])
    (hsh : s'.shared = s.shared) : Calls s s' p none := by
  refine .silent hsh ?_
  obtain rfl | hne := eq_or_ne p q
  · have hrel : (Frame.allocproc (.context p)).Relies (s.ctx 0 c .run) (s.running c) :=
      h.relies hs .run
    have hused : s.shared.states p = .used := hrel.builds p (Multiset.mem_singleton_self p)
    rw [State.Entering, hstack, Function.update_self]
    refine iff_of_false (fun hmem => by cases List.mem_singleton.mp hmem) (hdead p ?_)
    rw [Shared.Alive, hused]
    exact Bool.false_ne_true
  · have hne' : (Thread.proc p : Thread n C) ≠ .proc q := fun heq => hne (Thread.proc.inj heq)
    rw [State.Entering, State.Entering, hstack, Function.update_of_ne hne']
    obtain heq | hr := eq_or_ne (.proc p) (s.running c)
    · rw [heq, Function.update_self, hs]
      exact count_mem_congr (by rintro ⟨⟩) (by rintro ⟨⟩)
    · rw [Function.update_of_ne hr]

theorem Sound.calls {l : C × Choice} (h : Sound s)
    (hdead : ∀ p, ¬s.shared.Alive p → ¬s.Entering p) (hs : s.stack (s.running l.1) = f :: rest)
    (ht : Turn nofile s l.1 f rest s' e) (p : Fin n) : Calls s s' p (s.callEvent l s') := by
  have shows {g : Frame n} {fs : List (Frame n)} (hg : s'.stack (s'.running l.1) = g :: fs) :
      s.callEvent l s' = f.callEvent s.shared g := State.callEvent_eq hs hg
  cases ht with
  | lock ha hstack hrun hsh =>
    rw [shows (State.stack_running hstack hrun)]
    obtain ha | ha := ha
    · exact h.calls_lock hs ha rfl (fun _ _ => by rintro ⟨⟩) (fun _ _ => by rintro ⟨⟩) (by rintro ⟨⟩)
        hstack hsh
    · exact h.calls_lock hs ha rfl (fun _ _ => by rintro ⟨⟩) (fun _ _ => by rintro ⟨⟩) (by rintro ⟨⟩)
        hstack hsh
  | exec ha he hw hstack hrun =>
    rw [shows (State.stack_running hstack hrun)]
    exact h.calls_exec hdead hs ha hw hstack p
  | call ha hstack hrun hsh =>
    rw [shows (State.stack_running hstack hrun)]
    exact h.calls_call hs ha hstack hsh
  | ret ha hrest hawaits hstack hrun hsh =>
    rw [shows (State.stack_running hstack hrun)]
    rw [hrest] at hs
    exact Sound.calls_ret hs ha hawaits hstack hsh
  | interrupt hn hstack hrun hsh =>
    rw [shows (State.stack_running hstack hrun),
      Frame.callEvent_eq_none_of_next (fun _ => by rintro ⟨⟩) (by rintro ⟨⟩)]
    exact .silent hsh (State.entering_congr hs hstack (count_mem_cons (by rintro ⟨⟩)))
  | panic ha hstack hrun hsh =>
    rw [shows (State.stack_running hstack hrun),
      Frame.callEvent_eq_none_of_next (fun _ => by rintro ⟨⟩) (by rintro ⟨⟩)]
    exact .silent hsh (State.entering_congr hs hstack (count_mem_cons (by rintro ⟨⟩)))
  | iret hrest hf hheld hstack hrun hsh =>
    have hne : f ≠ .syscall p .count := by
      rintro rfl
      cases hf
    rw [shows ((State.stack_running hstack hrun).trans hrest), Frame.callEvent_eq_none_of_isr hf]
    exact .silent hsh (State.entering_congr hs hstack (count_mem_cons hne).symm)
  | @context q hf hidle hstack hrun hsh =>
    subst hf
    have hg : s'.stack (s'.running l.1) = .allocproc (.done (some q)) :: rest := by
      rw [hstack, hrun, Function.update_of_ne (hidle l.1), Function.update_self]
    rw [shows hg]
    exact h.calls_context hdead hs hstack hsh
  | @switch g f' rest' hf hg hstack htop hsh =>
    have hnone : f.callEvent s.shared g = none := by
      obtain ⟨pc, rfl⟩ | ⟨q, rfl | rfl⟩ := hg
      · exact Frame.callEvent_eq_none_of_next (fun _ => by rintro ⟨⟩) (by rintro ⟨⟩)
      · exact Frame.callEvent_eq_none_of_next (fun _ => by rintro ⟨⟩) (by rintro ⟨⟩)
      · exact Frame.callEvent_eq_none_of_next (fun _ => by rintro ⟨⟩) (by rintro ⟨⟩)
    rw [shows htop, hnone]
    refine .silent hsh (State.entering_congr hs hstack ?_)
    obtain ⟨pc, pc', rfl, rfl⟩ | ⟨q, rfl, rfl⟩ := hf
    · exact count_mem_congr (by rintro ⟨⟩) (by rintro ⟨⟩)
    · exact count_mem_congr (by rintro ⟨⟩) (by rintro ⟨⟩)

omit [DecidableEq C] in
theorem StackOk.settled_of_kexit (h : StackOk t (f :: rest)) (hf : f.fn = .kexit q) :
    .syscall p .count ∉ rest := by
  intro hmem
  cases rest with
  | nil => cases hmem
  | cons r rest =>
    obtain hi | hp | hawaits := h.1
    · cases hf.symm.trans hi
    · cases hf.symm.trans hp
    · rw [hf] at hawaits
      cases hmem with
      | head => cases hawaits
      | tail _ hmem =>
        obtain ⟨q', hr⟩ | ⟨q', hr⟩ := h.rest_of_entry (.inr (.inr (.inr hf))) r List.mem_cons_self
        · rw [h.tail.rest_eq_nil (.inr ⟨q', hr⟩)] at hmem
          cases hmem
        · obtain ⟨pc, rfl⟩ := Frame.eq_syscall_of_fn hr
          rw [h.tail.rest_of_syscall] at hmem
          cases List.mem_singleton.mp hmem

theorem Sound.alive_of_entering (h : Sound s) (hquiet : ∀ p, s.Entering p → s.shared.Alive p)
    (hs : s.stack (s.running c) = f :: rest) (hturn : Turn nofile s c f rest s' e)
    (hp : s'.Entering p) : s'.shared.Alive p := by
  have hok := h.stack (s.running c)
  rw [hs] at hok
  obtain ⟨pre, below, hstack⟩ := List.append_of_mem hp
  cases hturn.comes hs hstack with
  | @old above hold hquiet' =>
    have hin : s.Entering p := by
      rw [State.Entering, hold]
      exact List.mem_append_right _ List.mem_cons_self
    obtain ⟨hsh, -⟩ | ⟨y, g, ha, -, -, hw⟩ := hturn.written
    · rw [hsh]
      exact hquiet p hin
    · obtain halive | ⟨status, rfl⟩ := hw.alive (h.relies hs y) ha (hquiet p hin)
      · exact halive
      · have hr : s.running c = .proc p := hok.on
        rw [State.Entering, ← hr, hs] at hin
        cases hin with
        | tail _ hin => exact absurd hin (hok.settled_of_kexit rfl)
  | @next y a htr ha hnext =>
    exact absurd rfl (next_ne_count ha ((h.disciplined hs ha).next_fn hnext) hnext)
  | @call y g htr ha hbelow hsh =>
    obtain ⟨q, rfl, rfl⟩ := call_count ha
    have hr : s.running c = .proc p := (h.disciplined hs ha).2.2.2.2.2.2
    have hrel : (Frame.user q .syscall).Relies (s.ctx nofile c y) (s.running c) := h.relies hs y
    have hrun : s.shared.states p = .running := hrel.self hr rfl
    rw [hsh, Shared.Alive, hrun]
    rfl
  | @resume y v r htr ha hrest hawaits hsh hh =>
    exact absurd hh.symm (resume_ne_count hawaits)
  | other hh =>
    obtain hh | ⟨msg, hh⟩ | ⟨pc, hh⟩ | ⟨q, hh⟩ | ⟨q, hh⟩ := hh <;> cases hh

omit [DecidableEq C] in
@[simp]
theorem entries_allocated : entries (.allocated p :: log) p = 0 := by
  simp [entries]

omit [DecidableEq C] in
@[simp]
theorem entries_entered : entries (.entered p :: log) p = entries log p + 1 := by
  simp [entries]

omit [DecidableEq C] in
theorem entries_other {e : CallEvent n} (h : e ≠ .allocated p) (h' : e ≠ .entered p) :
    entries (e :: log) p = entries log p := by
  simp [entries, h, h']

/-- The count of a process is the number of its calls, the one that is not counted yet apart. -/
structure Counted (s : State n C) (log : List (CallEvent n)) : Prop where
  alive : ∀ p, s.Entering p → s.shared.Alive p
  entering : ∀ p, s.Entering p → ∃ k : ℕ, entries log p = k + 1 ∧
    (s.shared.image p).syscalls = wrapInt k
  settled : ∀ p, ¬s.Entering p → (s.shared.image p).syscalls = wrapInt (entries log p)

namespace Counted

theorem step {l : C × Choice} (hc : Counted s log) (h : Sound s)
    (hs : s.stack (s.running l.1) = f :: rest) (ht : Turn nofile s l.1 f rest s' e) :
    Counted s' ((s.callEvent l s').toList ++ log) := by
  have hcalls (p : Fin n) : Calls s s' p (s.callEvent l s') :=
    h.calls (fun p hp => mt (hc.alive p) hp) hs ht p
  have same {p : Fin n} {e : Option (CallEvent n)}
      (he : ∀ e' ∈ e, e' ≠ .allocated p ∧ e' ≠ .entered p) :
      entries (e.toList ++ log) p = entries log p := by
    cases e with
    | none => rfl
    | some e => exact entries_other (he e rfl).1 (he e rfl).2
  refine ⟨fun p => h.alive_of_entering hc.alive hs ht, fun p hp => ?_, fun p hp => ?_⟩
  · generalize s.callEvent l s' = e' at hcalls ⊢
    cases hcalls p with
    | same hcount hentering he =>
      rw [same he, hcount]
      exact hc.entering p (hentering.mp hp)
    | allocated hcount hentering => exact absurd hp hentering
    | entered hcount hold hnew => exact ⟨_, entries_entered, hcount.trans (hc.settled p hold)⟩
    | counted hcount hold hnew => exact absurd hp hnew
  · generalize s.callEvent l s' = e' at hcalls ⊢
    cases hcalls p with
    | same hcount hentering he =>
      rw [same he, hcount]
      exact hc.settled p (mt hentering.mpr hp)
    | allocated hcount hentering =>
      change _ = wrapInt (entries (.allocated p :: log) p)
      rw [hcount, entries_allocated]
      rfl
    | entered hcount hold hnew => exact absurd hnew hp
    | counted hcount hold hnew =>
      obtain ⟨k, hk, hcount'⟩ := hc.entering p hold
      rw [hcount, hcount']
      change _ = wrapInt (entries log p)
      rw [hk, wrapInt, wrapInt, wrapInt, Int.bmod_add_bmod]
      rfl

theorem boot (b : C) : Counted (State.boot b : State n C) [] := by
  have hnone (p : Fin n) : ¬(State.boot b : State n C).Entering p := fun hp => by
    obtain ⟨pc, hpc⟩ := State.boot_main hp
    cases hpc
  have hzero : wrapInt 0 = 0 := by decide
  exact ⟨fun p hp => absurd hp (hnone p), fun p hp => absurd hp (hnone p), fun _ _ => hzero.symm⟩

theorem of_reachable {b : C} {y : State n C × List (CallEvent n)}
    (hy : (callHistory n nofile b).Reachable y) : Counted y.1 y.2 := by
  refine hy.invariant (fun y => Counted y.1 y.2) (boot b) ?_
  intro y l z hr ih hstep
  obtain ⟨hstep, hlog⟩ := System.step_recorded hstep
  have h := Sound.of_reachable hr.fst
  obtain ⟨f, rest, e, hs, hturn, -⟩ := h.turn hstep
  rw [hlog]
  exact ih.step h hs hturn

end Counted

section Step

variable {y : Choice}

theorem State.step_eq_act (hs : s.stack (s.running c) = f :: rest) (hf : ∀ msg, f ≠ .panic msg)
    (hy : y ≠ .interrupt) :
    s.step nofile (c, y) = s.act c (s.running c) f rest (code (s.ctx nofile c y) f) := by
  simp only [State.step, hs]

theorem State.step_getsyscount (hs : s.stack (s.running c) = .syscall p .dispatch :: rest)
    (hnum : (s.shared.image p).argint .a7 = 22) (hy : y ≠ .interrupt) :
    s.step nofile (c, y) =
      some (s.setStack (s.running c) (.syscall p (.store (s.shared.image p).syscalls) :: rest)) := by
  rw [State.step_eq_act hs (fun _ => nofun) hy]
  have hcode : code (s.ctx nofile c y) (.syscall p .dispatch) =
      .exec s.shared (.syscall p (.store (s.shared.image p).syscalls)) := by
    simp only [code, Kernel.syscall, Ctx.image, State.ctx, hnum, dispatch, Int.reduceEq, ↓reduceIte]
  rw [hcode]
  rfl

theorem Sound.count_eq {l : C × Choice} (h : Sound s) (ht : s.step nofile l = some s')
    (he : s.callEvent l s' = some (.count p v)) :
    v = (s.shared.image p).syscalls ∧ ¬s.Entering p := by
  obtain ⟨c, y⟩ := l
  obtain ⟨f, rest, e, hs, hturn, -⟩ := h.turn ht
  cases hg : s'.stack (s'.running c) with
  | nil =>
    rw [State.callEvent, hs, hg] at he
    cases he
  | cons g fs =>
    rw [State.callEvent, hs, hg] at he
    obtain ⟨_, _, _, _, he'⟩ | ⟨_, _, _, _, he'⟩ | ⟨q, q', v', rfl, rfl, he'⟩ :=
      Frame.callEvent_cases he
    · cases he'
    · cases he'
    · cases he'
      have hon : s.running c = .proc p := by
        have hok := h.stack (s.running c)
        rw [hs] at hok
        exact hok.on
      have hstack : s.stack (.proc p) = .syscall p .dispatch :: rest := by rw [← hon, hs]
      refine ⟨?_, h.not_entering hstack (.inr ⟨p, .dispatch, rfl, nofun⟩)⟩
      have hnum : (s.shared.image p).argint .a7 = 22 := by
        by_contra hne
        change (if _ then some _ else none) = some _ at he
        rw [if_neg hne] at he
        cases he
      obtain rfl | hy := eq_or_ne y .interrupt
      · simp only [State.step, hs] at ht
        split at ht <;> cases ht
        rw [State.setStack_stack] at hg
        change Function.update s.stack (s.running c) _ (s.running c) = _ at hg
        rw [Function.update_self] at hg
        cases hg
      · rw [State.step_getsyscount hs hnum hy] at ht
        cases ht
        rw [State.setStack_stack] at hg
        change Function.update s.stack (s.running c) _ (s.running c) = _ at hg
        rw [Function.update_self] at hg
        cases hg
        rfl

end Step

theorem told {b : C} {y : State n C × List (CallEvent n)}
    (hy : (callHistory n nofile b).Reachable y) :
    ∀ later before p (v : Int), y.2 = later ++ .count p v :: before → entries before p < 2 ^ 31 →
      v = entries before p := by
  refine hy.invariant (fun y => ∀ later before p (v : Int), y.2 = later ++ .count p v :: before →
    entries before p < 2 ^ 31 → v = entries before p) ?_ ?_
  · intro later before p v hlog
    exact absurd hlog.symm (List.append_ne_nil_of_right_ne_nil _ (List.cons_ne_nil _ _))
  · intro y l z hr ih hstep later before p v hlog hfew
    obtain ⟨hstep, hlog'⟩ := System.step_recorded hstep
    rw [hlog'] at hlog
    cases he : y.1.callEvent l z.1 with
    | none =>
      rw [he] at hlog
      exact ih later before p v hlog hfew
    | some e =>
      rw [he] at hlog
      cases later with
      | nil =>
        obtain ⟨rfl, rfl⟩ := List.cons.inj hlog
        obtain ⟨hv, hsettled⟩ := (Sound.of_reachable hr.fst).count_eq hstep he
        rw [hv, (Counted.of_reachable hr).settled p hsettled]
        change entries y.2 p < 2 ^ 31 at hfew
        refine wrapInt_eq ?_ ?_ <;> omega
      | cons e' later => exact ih later before p v (List.cons.inj hlog).2 hfew

/-- What `sys_getsyscount()` returns is the number of calls that the process has made since its
slot was allocated, this call included. -/
theorem getsyscount_exact {b : C} (hr : (callHistory n nofile b).Reachable (s, log)) :
    (∀ later before p (v : Int), log = later ++ .count p v :: before → entries before p < 2 ^ 31 →
      v = entries before p) ∧
    (∀ l s', s.step nofile l = some s' → ∀ p, s.callEvent l s' = some (.entered p) ↔
      s'.Entering p ∧ ¬s.Entering p) ∧
    (∀ c y p rest s', s.stack (s.running c) = .syscall p .dispatch :: rest →
      (s.shared.image p).argint .a7 = 22 → y ≠ .interrupt → s.step nofile (c, y) = some s' →
      ∃ v : Int, s'.stack (s'.running c) = .syscall p (.store v) :: rest ∧
        s.callEvent (c, y) s' = some (.count p v) ∧
        (entries log p < 2 ^ 31 → v = entries log p)) ∧
    ∀ c y p v rest s', s.stack (s.running c) = .syscall p (.store v) :: rest → y ≠ .interrupt →
      s.step nofile (c, y) = some s' →
      s'.shared.image p = (s.shared.image p).setReg .a0 (BitVec.ofInt 64 v) := by
  have h := Sound.of_reachable hr.fst
  refine ⟨told hr, fun l s' ht p => ?_, fun c y p rest s' hs hnum hy ht => ?_,
    fun c y p v rest s' hs hy ht => ?_⟩
  · obtain ⟨f, rest, e, hs, hturn, -⟩ := h.turn ht
    have hcalls := h.calls (fun p hp => mt ((Counted.of_reachable hr).alive p) hp) hs hturn p
    generalize s.callEvent l s' = e' at hcalls ⊢
    constructor
    · rintro rfl
      cases hcalls with
      | same _ _ he => exact absurd rfl (he _ rfl).2
      | entered _ hold hnew => exact ⟨hnew, hold⟩
    · rintro ⟨hnew, hold⟩
      cases hcalls with
      | same _ hentering => exact absurd (hentering.mp hnew) hold
      | allocated _ hentering => exact absurd hnew hentering
      | entered => rfl
      | counted _ hold' => exact absurd hold' hold
  · have hon : s.running c = .proc p := by
      have hok := h.stack (s.running c)
      rw [hs] at hok
      exact hok.on
    have hstack : s.stack (.proc p) = .syscall p .dispatch :: rest := by rw [← hon, hs]
    have hold : ¬s.Entering p := h.not_entering hstack (.inr ⟨p, .dispatch, rfl, nofun⟩)
    rw [State.step_getsyscount hs hnum hy] at ht
    cases ht
    have htop : (s.setStack (s.running c)
        (.syscall p (.store (s.shared.image p).syscalls) :: rest)).stack (s.running c) =
        .syscall p (.store (s.shared.image p).syscalls) :: rest := Function.update_self ..
    refine ⟨_, htop, ?_, fun hfew => ?_⟩
    · have he : s.callEvent (c, y) _ = _ := State.callEvent_eq hs htop
      exact he.trans (if_pos hnum)
    · have hcount : (s.shared.image p).syscalls = wrapInt (entries log p) :=
        (Counted.of_reachable hr).settled p hold
      rw [hcount]
      refine wrapInt_eq ?_ ?_ <;> omega
  · rw [State.step_eq_act hs (fun _ => nofun) hy] at ht
    cases ht
    exact Function.update_self ..

def forkThenCount : List (Unit × Choice) :=
  steps 14 ++ ((), .alloc 0) :: steps 23 ++ ((), .ret 0) :: steps 3 ++ ((), .ret 0) :: steps 4 ++
    trapWith 1 0 0 :: steps 20 ++ ((), .alloc 0) :: steps 20 ++ trapWith 100 0 0 :: steps 5 ++
      trapWith 22 0 0 :: steps 3

theorem getsyscount_exact_forked : ∃ (s : State 2 Unit) (before : List (CallEvent 2)),
    (callHistory 2 0 ()).Reachable (s, .count 0 3 :: before) ∧ (3 : Int) = entries before 0 := by
  have hrun : ((callHistory 2 0 ()).run (callHistory 2 0 ()).init forkThenCount).any fun y =>
      decide (y.2.head? = some (.count 0 3)) && decide (entries y.2.tail 0 < 2 ^ 31) := by
    decide +kernel
  obtain ⟨⟨s, log⟩, hs, hrun⟩ := (Option.any_eq_true _ _).mp hrun
  have hr := System.reachable_of_run _ hs
  obtain ⟨hhead, hfew⟩ := Bool.and_eq_true_iff.mp hrun
  cases log with
  | nil => cases of_decide_eq_true hhead
  | cons e before =>
    obtain rfl := Option.some.inj (of_decide_eq_true hhead)
    exact ⟨s, before, hr, (getsyscount_exact hr).1 [] before 0 3 rfl (of_decide_eq_true hfew)⟩

end MultithreadMayhem.Kernel
