import MultithreadMayhem.Kernel.Dependence
import MultithreadMayhem.Kernel.Children
import MultithreadMayhem.Kernel.Kin

/-!
# No data races

Two CPUs never use the same place at the same time when one of them writes it, but for
the flag `started` and the parent of a process that a failing `fork` gives up: there the
store leaves the null pointer that it finds.
-/

namespace MultithreadMayhem.Kernel

open Foundation

variable {n nofile : ℕ} {C : Type} [DecidableEq C] {s s' : State n C} {c c' : C} {f f' g : Frame n}
  {rest : List (Frame n)} {e : Option (Event n)} {x : Ctx n} {p j : Fin n} {l : Place n}

section Uses

namespace Frame

/-- The frame gives up the process that it is making; it does not hold `wait_lock`. -/
def abandons : Frame n → Option (Fin n)
  | allocproc (.freeproc j) | kfork _ (.freeproc j) => some j
  | _ => none

/-- The slot is the frame's to fill in or to clear: it is unused, being made, or a zombie. -/
def Keeps (f : Frame n) (j : Fin n) : Prop :=
  j ∈ f.builds ∨ (j, .unused) ∈ f.knows ∨ (j, .zombie) ∈ f.knows

/-- The frame runs for the process, which is not on its way to `swtch`. -/
def Owns (me : Option (Fin n)) (f : Frame n) (j : Fin n) : Prop :=
  f.leaving = false ∧ (f.fn = .process j ∨ f.fn = .kfork j ∨ f.fn = .kexit j ∨ f.fn = .syscall j ∨
    f.fn = .ext ∧ me = some j)

/-- What a frame that writes the place can show for it. -/
def MayWrite (me : Option (Fin n)) (f : Frame n) : Place n → Prop
  | .field j a => Lock.proc j ∈ f.locks ∧ (a = .pid ∨ a = .group → f.Keeps j)
  | .parent j => (∃ p pid, f = kfork p (.setParent j pid)) ∨ (∃ p, f = reparent p (.setParent j)) ∨
      (∃ p addr pid, f = kwait p addr (.freeproc j pid)) ∨ f.abandons = some j
  | .image j => f.Keeps j ∨ f.Owns me j
  | .nextpid => Lock.pidLock ∈ f.locks
  | .initproc => ∃ pc, f = userinit pc
  | .first => ∃ p, f = forkret p .clearFirst
  | .started => ∃ pc, f = main pc

def MayRead (me : Option (Fin n)) (f : Frame n) : Place n → Prop
  | .field j a => Lock.proc j ∈ f.locks ∨ f = sched j .testState ∨
      f = syscall j .dispatch ∧ (a = .pid ∨ a = .group)
  | .parent _ => Lock.waitLock ∈ f.locks ∨ ∃ p pc, f = reparent p pc
  | .image j => f.Keeps j ∨ f.Owns me j
  | .nextpid => Lock.pidLock ∈ f.locks
  | .initproc => ∃ p, f.fn = .reparent p ∨ f.fn = .kexit p
  | .first => ∃ p pc, f = forkret p pc
  | .started => ∃ pc, f = main pc

theorem writes_may (f : Frame n) (me : Option (Fin n)) : ∀ l ∈ f.writes me, f.MayWrite me l := by
  cases f with
  | main pc => cases pc <;> simp [writes, MainPc.writes, MayWrite]
  | userinit pc =>
    cases pc with
    | setCwd p =>
      cases p <;> simp [writes, UserinitPc.writes, Place.own, MayWrite, Keeps, builds]
    | _ => simp [writes, UserinitPc.writes, MayWrite, locks, UserinitPc.locks]
  | allocproc pc =>
    cases pc <;> simp [writes, AllocprocPc.writes, Place.freed, MayWrite, Keeps, builds, knows, locks,
      AllocprocPc.locks, abandons]
  | allocpid pc => cases pc <;> simp [writes, AllocpidPc.writes, MayWrite, locks, AllocpidPc.locks]
  | kfork p pc =>
    cases pc <;> simp [writes, KforkPc.writes, Place.freed, MayWrite, Keeps, builds, locks,
      KforkPc.locks, abandons]
  | forkret p pc => cases pc <;> simp [writes, ForkretPc.writes, MayWrite, Owns, fn, leaving]
  | scheduler pc => cases pc <;> simp [writes, SchedulerPc.writes, MayWrite, locks, SchedulerPc.locks]
  | yield p pc => cases pc <;> simp [writes, YieldPc.writes, MayWrite, locks, YieldPc.locks]
  | sleep p ch lk pc => cases pc <;> simp [writes, SleepPc.writes, MayWrite, locks, SleepPc.locks]
  | wakeup ch pc => cases pc <;> simp [writes, WakeupPc.writes, MayWrite, locks, WakeupPc.locks]
  | reparent p pc => cases pc <;> simp [writes, ReparentPc.writes, MayWrite]
  | kexit p status pc =>
    cases pc <;> simp [writes, KexitPc.writes, MayWrite, Owns, fn, leaving, locks, KexitPc.locks]
  | kwait p addr pc =>
    cases pc <;> simp [writes, KwaitPc.writes, Place.freed, MayWrite, Keeps, knows, locks,
      KwaitPc.locks]
  | setkilled p pc => cases pc <;> simp [writes, SetkilledPc.writes, MayWrite, locks, SetkilledPc.locks]
  | pidScan op pc =>
    cases pc with
    | test p => cases op <;> simp [writes, PidScanPc.writes, PidOp.writes, MayWrite, locks, PidScanPc.locks]
    | _ => simp [writes, PidScanPc.writes]
  | syscall p pc => cases pc <;> simp [writes, SyscallPc.writes, MayWrite, Owns, fn, leaving]
  | user p pc => cases pc <;> simp [writes, UserPc.writes, MayWrite, Owns, fn, leaving]
  | ext kind pc =>
    cases kind <;> cases pc <;> cases me <;>
      simp [writes, ExtPc.writes, Place.own, MayWrite, Owns, fn, ExtKind.fn, leaving]
  | _ => simp [writes]

theorem reads_may (f : Frame n) (me : Option (Fin n)) : ∀ l ∈ f.reads me, f.MayRead me l := by
  cases f with
  | main pc => cases pc <;> simp [reads, MainPc.reads, MayRead]
  | userinit pc =>
    cases pc with
    | setCwd p => cases p <;> simp [reads, UserinitPc.reads, Place.own, MayRead, Keeps, builds]
    | _ => simp [reads, UserinitPc.reads]
  | allocproc pc =>
    cases pc <;> simp [reads, AllocprocPc.reads, MayRead, Keeps, builds, knows, locks, AllocprocPc.locks]
  | allocpid pc => cases pc <;> simp [reads, AllocpidPc.reads, MayRead, locks, AllocpidPc.locks]
  | kfork p pc =>
    cases pc <;> simp [reads, KforkPc.reads, MayRead, Keeps, Owns, fn, leaving, builds, locks,
      KforkPc.locks]
  | forkret p pc => cases pc <;> simp [reads, ForkretPc.reads, MayRead, Owns, fn, leaving]
  | scheduler pc =>
    cases pc with
    | test p best => cases best <;> simp [reads, SchedulerPc.reads, MayRead, locks, SchedulerPc.locks]
    | _ => simp [reads, SchedulerPc.reads]
  | sched p pc => cases pc <;> simp [reads, SchedPc.reads, MayRead]
  | wakeup ch pc => cases pc <;> simp [reads, WakeupPc.reads, MayRead, locks, WakeupPc.locks]
  | reparent p pc =>
    cases pc with
    | loop i =>
      obtain hi | hi := em (i < n) <;> simp [reads, ReparentPc.reads, Place.parentAt, hi, MayRead]
    | _ => simp [reads, ReparentPc.reads, MayRead, fn]
  | kexit p status pc =>
    cases pc <;> simp [reads, KexitPc.reads, MayRead, Owns, fn, leaving, locks, KexitPc.locks]
  | kwait p addr pc =>
    cases pc with
    | loop i havekids =>
      obtain hi | hi := em (i < n) <;>
        simp [reads, KwaitPc.reads, Place.parentAt, hi, MayRead, locks, KwaitPc.locks]
    | _ => simp [reads, KwaitPc.reads, MayRead, Keeps, knows, locks, KwaitPc.locks]
  | killed p pc => cases pc <;> simp [reads, KilledPc.reads, MayRead, locks, KilledPc.locks]
  | pidScan op pc =>
    cases pc with
    | test p => cases op <;> simp [reads, PidScanPc.reads, PidOp.reads, MayRead, locks, PidScanPc.locks]
    | _ => simp [reads, PidScanPc.reads]
  | syscall p pc => cases pc <;> simp [reads, SyscallPc.reads, MayRead, Owns, fn, leaving]
  | user p pc => cases pc <;> simp [reads, UserPc.reads, MayRead, Owns, fn, leaving]
  | ext kind pc =>
    cases kind <;> cases pc <;> cases me <;>
      simp [reads, ExtPc.reads, Place.own, MayRead, Owns, fn, ExtKind.fn, leaving]
  | _ => simp [reads]

end Frame

end Uses

section First

def Frame.tested : Frame n → Bool
  | user _ _ | forkret _ .kexec | forkret _ .executing | forkret _ (.setA0 _) | forkret _ (.testA0 _)
  | forkret _ .userret => true
  | _ => false

def ForkretPc.testing : ForkretPc → Bool
  | .fsinit | .initializing | .clearFirst => true
  | _ => false

/-- Before the first process has cleared `first`, none is past the test, and none has a parent. Only
the first process gets to clear it. -/
structure Untried (s : State n C) : Prop where
  tested : s.shared.first = true → ∀ t, ∀ f ∈ s.stack t, f.tested = false
  parent : s.shared.first = true → ∀ j, s.shared.parent j = none
  testing : ∀ t p pc, .forkret p pc ∈ s.stack t → pc.testing = true →
    s.shared.first = true ∧ s.shared.started = true ∧ s.shared.initproc = some p

theorem first_exec {sh : Shared n} (ha : code x f = .exec sh g) (h : sh.first = true) :
    x.shared.first = true := by
  by_cases hw : Place.first ∈ f.writes x.me
  · obtain ⟨p, rfl⟩ := f.writes_may x.me .first hw
    cases ha
    cases h
  · exact (code_writes ha hw).trans h

theorem next_tested {a : Act n} (ha : code x f = a) (hnext : a.next = some g) (hfn : g.fn = f.fn)
    (hg : g.tested = true) : f.tested = true ∨ (a.shared x.shared).first = false := by
  subst ha
  cases f with
  | user p pc => exact .inl rfl
  | forkret p pc =>
    cases pc with
    | kexec | executing | setA0 | testA0 | userret => exact .inl rfl
    | clearFirst => exact .inr rfl
    | testFirst =>
      simp only [code, forkret] at hnext ⊢
      split at hnext
      · cases hnext
        cases hg
      · rename_i hfirst
        rw [if_neg hfirst]
        exact .inr (Bool.eq_false_iff.mpr hfirst)
    | release | fsinit =>
      cases hnext
      cases hg
    | initializing => cases hnext
  | ext kind pc =>
    cases g with
    | user | forkret => cases kind <;> cases hfn
    | _ => cases hg
  | _ =>
    cases g with
    | user | forkret => cases hfn
    | _ => cases hg

theorem resume_tested {r : Frame n} {v : Val n} {fn : Fn n} (hr : r.Awaits fn)
    (h : (r.resume v).tested = true) : r.tested = true := by
  cases hr.calls with
  | kexec | trapExit | trapSetkilled | trapKilled | trapYield | trapOther | trapSyscall => rfl
  | forkAllocproc =>
    obtain _ | _ | _ := v <;> cases h
  | _ => cases v <;> cases h

omit [DecidableEq C] in
theorem StackOk.user_of_kfork {t : Thread n C} {pc : KforkPc n}
    (h : StackOk t (.kfork p pc :: rest)) : .user p .trapping ∈ rest := by
  cases rest with
  | nil => obtain hf | ⟨q, hf⟩ := h.1 <;> cases hf
  | cons r rest =>
    obtain hi | hp | hawaits := h.1
    · cases hi
    · cases hp
    · cases hawaits.calls
      rw [h.tail.rest_of_syscall]
      exact List.mem_cons_of_mem _ (List.mem_singleton_self _)

namespace Untried

theorem tested_step (hu : Untried s) (h : Sound s) (hs : s.stack (s.running c) = f :: rest)
    (hturn : Turn nofile s c f rest s' e) (hfirst : s'.shared.first = true) {t : Thread n C}
    {r : Frame n} (hmem : r ∈ s'.stack t) : r.tested = false := by
  have hold : s.shared.first = true := by
    obtain ⟨hsh, -⟩ | ⟨y, g, ha, -⟩ := hturn.written
    · rwa [← hsh]
    · exact first_exec ha hfirst
  have htop {r : Frame n} (hr : r ∈ f :: rest) : r.tested = false :=
    hu.tested hold (s.running c) r (by rwa [hs])
  obtain ⟨pre, below, hstack⟩ := List.append_of_mem hmem
  cases hturn.comes hs hstack with
  | @old above heq =>
    apply hu.tested hold t
    rw [heq]
    exact List.mem_append_right _ List.mem_cons_self
  | @next y a htr ha hnext hsh =>
    cases hr : r.tested with
    | false => rfl
    | true =>
      obtain hf | hf := next_tested ha hnext ((h.disciplined hs ha).next_fn hnext) hr
      · exact hf.symm.trans (htop List.mem_cons_self)
      · rw [hsh] at hfirst
        exact hfirst.symm.trans hf
  | call htr ha =>
    have hstarts := code_starts ha
    cases r with
    | user => cases hstarts
    | forkret => cases hstarts
    | _ => rfl
  | @resume y v r' htr ha hrest hawaits hsh hh =>
    cases hr : r.tested with
    | false => rfl
    | true =>
      rw [hh] at hr
      have hmem : r' ∈ f :: rest := by
        rw [hrest]
        exact List.mem_cons_of_mem _ List.mem_cons_self
      exact (resume_tested hawaits hr).symm.trans (htop hmem)
  | other hh => obtain rfl | ⟨msg, rfl⟩ | ⟨pc, rfl⟩ | ⟨q, rfl⟩ | ⟨q, rfl⟩ := hh <;> rfl

theorem parent_step (hu : Untried s) (h : Sound s) (ht : Tidy nofile s)
    (hs : s.stack (s.running c) = f :: rest) (hturn : Turn nofile s c f rest s' e)
    (hfirst : s'.shared.first = true) (j : Fin n) : s'.shared.parent j = none := by
  obtain ⟨hsh, -⟩ | ⟨y, g, ha, -, -, hw⟩ := hturn.written
  · rw [hsh] at hfirst ⊢
    exact hu.parent hfirst j
  have hold : s.shared.first = true := first_exec ha hfirst
  cases hw.parent j with
  | same hsame => exact hsame.trans (hu.parent hold j)
  | @fork p pid hf hparent =>
    subst hf
    have hok := h.stack (s.running c)
    rw [hs] at hok
    have huser := hu.tested hold (s.running c) (.user p .trapping)
    rw [hs] at huser
    cases huser (List.mem_cons_of_mem _ hok.user_of_kfork)
  | @reparent p hf hparent =>
    subst hf
    have hp : s.shared.parent j = some p := ht.moving c p j ⟨rest, hs⟩
    cases hp.symm.trans (hu.parent hold j)
  | free hf hparent => exact hparent

omit [DecidableEq C] in
/-- While `first` is set, a process that runs is the first one. -/
theorem eq_initproc (hu : Untried s) (h : Sound s) (hb : Booted s) (hk : Kin s)
    (hfirst : s.shared.first = true) (hr : s.running c = .proc p) (halive : s.shared.Alive p) :
    s.shared.started = true ∧ s.shared.initproc = some p := by
  refine ⟨hb.started_of_running h hr, ?_⟩
  by_contra hne
  exact hk.raised p (.inl halive) hne (hu.parent hfirst p)

theorem testing_step (hu : Untried s) (h : Sound s) (hb : Booted s) (hk : Kin s)
    (hs : s.stack (s.running c) = f :: rest) (hturn : Turn nofile s c f rest s' e) {t : Thread n C}
    {pc : ForkretPc} (hmem : .forkret p pc ∈ s'.stack t) (hpc : pc.testing = true) :
    s'.shared.first = true ∧ s'.shared.started = true ∧ s'.shared.initproc = some p := by
  have hok := h.stack (s.running c)
  rw [hs] at hok
  obtain ⟨pre, below, hstack⟩ := List.append_of_mem hmem
  cases hturn.comes hs hstack with
  | @old above hold hquiet =>
    have hin : .forkret p pc ∈ s.stack t := by
      rw [hold]
      exact List.mem_append_right _ List.mem_cons_self
    obtain ⟨hfirst, hstarted, hinit⟩ := hu.testing t p pc hin hpc
    obtain ⟨hsh, -⟩ | ⟨y, g, ha, -⟩ := hturn.written
    · rw [hsh]
      exact ⟨hfirst, hstarted, hinit⟩
    · refine ⟨?_, started_mono ha hstarted, (hb.initproc_eq h hs ha hstarted).trans hinit⟩
      by_cases hw : Place.first ∈ f.writes (s.me c)
      · -- The process that clears `first` is the first one, and it is at this statement.
        obtain ⟨q, rfl⟩ := f.writes_may (s.me c) .first hw
        obtain ⟨-, -, hq⟩ := hu.testing (s.running c) q .clearFirst (by rw [hs]; exact List.mem_cons_self) rfl
        obtain rfl := Option.some.inj (hq.symm.trans hinit)
        have ht : t = s.running c := by
          have hon := h.stack t
          rw [hold] at hon
          exact hon.drop.on.trans hok.on.symm
        rw [ht, hs, hok.rest_eq_nil (.inr ⟨q, rfl⟩)] at hold
        obtain _ | ⟨r, above⟩ := above
        · cases hold
          obtain ⟨-, hsh⟩ | hne := hquiet ht
          · rw [hsh]
            exact hfirst
          · exact absurd rfl hne
        · cases above <;> cases hold
      · exact ((code_writes ha hw).symm.trans hfirst)
  | @next y a htr ha hnext hsh =>
    have hfn := (h.disciplined hs ha).next_fn hnext
    rw [hsh]
    subst ha
    cases f with
    | forkret q pc' =>
      cases hfn
      cases pc' with
      | testFirst =>
        simp only [code, forkret] at hnext ⊢
        split at hnext
        · rename_i hfirst
          rw [if_pos hfirst]
          refine ⟨hfirst, hu.eq_initproc h hb hk hfirst hok.on ?_⟩
          rw [Shared.Alive, h.not_leaving hok.on (by rw [← hok.on, hs]; rfl)]
          rfl
        · cases hnext
          cases hpc
      | fsinit => exact hu.testing (s.running c) p .fsinit (by rw [hs]; exact List.mem_cons_self) rfl
      | initializing | executing | userret => cases hnext
      | testA0 v =>
        simp only [code, forkret] at hnext
        split at hnext <;> cases hnext
        cases hpc
      | release | clearFirst | kexec | setA0 =>
        cases hnext
        cases hpc
    | user q pc' =>
      cases pc' with
      | run =>
        simp only [code, user, Ctx.withProc] at hnext
        repeat' split at hnext
        all_goals cases hnext
      | syscall =>
        simp only [code, user, Ctx.withProc] at hnext
        split at hnext <;> cases hnext
      | trapping => cases hnext
    | ext kind pc' => cases kind <;> cases hfn
    | _ => cases hfn
  | call htr ha =>
    have hstarts := code_starts ha
    cases hstarts
  | @resume y v r htr ha hrest hawaits hsh hh =>
    rw [hsh]
    have hr : r = .forkret p .initializing := by
      generalize f.fn = fn at hawaits
      cases hawaits.calls with
      | fsinit =>
        cases hh
        rfl
      | kexec =>
        cases v <;> cases hh <;> cases hpc
      | forkAllocproc => obtain _ | _ | _ := v <;> cases hh
      | _ => cases v <;> cases hh
    apply hu.testing (s.running c) p .initializing ?_ rfl
    rw [hs, hrest, hr]
    exact List.mem_cons_of_mem _ List.mem_cons_self
  | other hh =>
    obtain hh | ⟨msg, hh⟩ | ⟨pc', hh⟩ | ⟨q, hh⟩ | ⟨q, hh⟩ := hh <;> cases hh
    cases hpc

theorem of_reachable {b : C} (hs : (kernel n nofile b).Reachable s) : Untried s := by
  refine hs.invariant Untried ⟨fun _ t f hf => ?_, fun _ _ => rfl, fun t p pc hf => ?_⟩ ?_
  · obtain ⟨pc, rfl⟩ := State.boot_main hf
    rfl
  · obtain ⟨pc', hf⟩ := State.boot_main hf
    cases hf
  · intro s l s' hr hu hstep
    have h := Sound.of_reachable hr
    obtain ⟨f, rest, e, hs, hturn, -⟩ := h.turn hstep
    exact ⟨fun hfirst _ _ hmem => hu.tested_step h hs hturn hfirst hmem,
      fun hfirst j => hu.parent_step h (.of_reachable hr) hs hturn hfirst j,
      fun _ _ _ hmem hpc => hu.testing_step h (.of_reachable hr) (.of_reachable hr) hs hturn hmem hpc⟩

end Untried

end First

section Races

/-- A race that does no harm: the flag `started`, which another CPU waits for, or the parent of a
process that is given up, which is null already. -/
def State.Harmless (s : State n C) (f : Frame n) : Place n → Prop
  | .started => True
  | .parent j => f.abandons = some j ∧ s.shared.parent j = none
  | _ => False

namespace Sound

omit [DecidableEq C]

theorem keeps (h : Sound s) (hf : s.Top c f) (hk : f.Keeps j) :
    j ∈ built (s.stack (s.running c)) ∧ s.shared.states j = .used ∨
      Lock.proc j ∈ held (s.stack (s.running c)) ∧
        (s.shared.states j = .unused ∨ s.shared.states j = .zombie) := by
  obtain ⟨rest, hs⟩ := hf
  obtain hb | hu | hz := hk
  · have hbuilt : j ∈ built (s.stack (s.running c)) := by
      rw [hs]
      exact mem_built List.mem_cons_self hb
    exact .inl ⟨hbuilt, h.built _ j hbuilt⟩
  · have hknown : (j, .unused) ∈ known (s.stack (s.running c)) := by
      rw [hs]
      exact List.mem_append_left _ hu
    exact .inr ⟨mem_held_of_known hknown, .inl (h.known c _ hknown)⟩
  · have hknown : (j, .zombie) ∈ known (s.stack (s.running c)) := by
      rw [hs]
      exact List.mem_append_left _ hz
    exact .inr ⟨mem_held_of_known hknown, .inr (h.known c _ hknown)⟩

theorem keeps_not_running (h : Sound s) (hf : s.Top c f) (hk : f.Keeps j) :
    s.shared.states j ≠ .running := by
  obtain ⟨-, hst⟩ | ⟨-, hst | hst⟩ := h.keeps hf hk
  all_goals
    rw [hst]
    rintro ⟨⟩

theorem owns (h : Sound s) (hf : s.Top c f) (ho : f.Owns (s.me c) j) :
    s.running c = .proc j ∧ s.shared.states j = .running := by
  obtain ⟨rest, hs⟩ := hf
  have hr : s.running c = .proc j := by
    have hok := h.stack (s.running c)
    rw [hs] at hok
    have hon := hok.on
    obtain hfn | hfn | hfn | hfn | ⟨hfn, hme⟩ := ho.2
    · rwa [hfn] at hon
    · rwa [hfn] at hon
    · rwa [hfn] at hon
    · rwa [hfn] at hon
    · refine h.me_eq hs ?_ ?_ j hme
      all_goals
        rw [hfn]
        rintro ⟨⟩
  refine ⟨hr, h.not_leaving hr ?_⟩
  rw [← hr, hs]
  exact ho.1

/-- One CPU at most may use the private fields of a process. -/
theorem image_eq (h : Sound s) (hf : s.Top c f) (hg : s.Top c' g)
    (hfj : f.Keeps j ∨ f.Owns (s.me c) j) (hgj : g.Keeps j ∨ g.Owns (s.me c') j) : c = c' := by
  obtain hfj | hfj := hfj
  · obtain hgj | hgj := hgj
    · obtain ⟨hb, hst⟩ | ⟨hl, hst⟩ := h.keeps hf hfj
      · obtain ⟨hb', -⟩ | ⟨-, hst'⟩ := h.keeps hg hgj
        · exact h.one c c' (h.builtBy _ _ j hb hb')
        · rw [hst] at hst'
          obtain hst' | hst' := hst' <;> cases hst'
      · obtain ⟨-, hst'⟩ | ⟨hl', -⟩ := h.keeps hg hgj
        · rw [hst'] at hst
          obtain hst | hst := hst <;> cases hst
        · exact h.cpu_eq hl hl'
    · exact absurd (h.owns hg hgj).2 (h.keeps_not_running hf hfj)
  · obtain hgj | hgj := hgj
    · exact absurd (h.owns hf hfj).2 (h.keeps_not_running hg hgj)
    · exact h.one c c' ((h.owns hf hfj).1.trans (h.owns hg hgj).1.symm)

theorem wait_locked (h : Sound s) (hf : s.Top c f)
    (hl : Lock.waitLock ∈ f.locks ∨ ∃ p pc, f = .reparent p pc) :
    Lock.waitLock ∈ held (s.stack (s.running c)) := by
  obtain hl | ⟨p, pc, rfl⟩ := hl
  · exact hf.mem_held hl
  · obtain ⟨rest, hs⟩ := hf
    have hok := h.stack (s.running c)
    rw [hs] at hok ⊢
    exact Multiset.mem_add.mpr (.inr hok.held_of_reparent)

end Sound

theorem Frame.keeps_of_abandons (h : f.abandons = some j) :
    f.making = some j ∧ Lock.proc j ∈ f.locks ∧ j ∈ f.builds := by
  unfold Frame.abandons at h
  split at h
  all_goals cases h
  · exact ⟨rfl, Multiset.mem_singleton_self _, Multiset.mem_singleton_self _⟩
  · exact ⟨rfl, Multiset.mem_singleton_self _, Multiset.mem_singleton_self _⟩

omit [DecidableEq C] in
theorem Tidy.abandoned (ht : Tidy nofile s) (hf : s.Top c f) (hj : f.abandons = some j) :
    s.shared.parent j = none :=
  (ht.made c f j hf (Frame.keeps_of_abandons hj).1).newborn.parent

omit [DecidableEq C] in
theorem Sound.parent_written (h : Sound s) (ht : Tidy nofile s) (hf : s.Top c f) (hg : s.Top c' g)
    (hw : f.MayWrite (s.me c) (.parent j)) (hgj : g.abandons = some j) :
    f.abandons = some j ∨ c = c' := by
  obtain ⟨-, hlock, hbuilds⟩ := Frame.keeps_of_abandons hgj
  have hnone := ht.abandoned hg hgj
  obtain ⟨p, pid, rfl⟩ | ⟨p, rfl⟩ | ⟨p, addr, pid, rfl⟩ | hfj := hw
  · exact .inr (h.image_eq hf hg (.inl (.inl (Multiset.mem_singleton_self j))) (.inl (.inl hbuilds)))
  · cases (ht.moving c p j hf).symm.trans hnone
  · exact .inr (h.eq_of_locked hf hg (by simp [Frame.locks, KwaitPc.locks]) hlock)
  · exact .inl hfj

theorem harmless_of_used {b : C} (hs : (kernel n nofile b).Reachable s) (hne : c ≠ c')
    (hf : s.Top c f) (hf' : s.Top c' f') (hw : l ∈ f.writes (s.me c))
    (huse : l ∈ f'.writes (s.me c') ∨ l ∈ f'.reads (s.me c')) : s.Harmless f l := by
  have h := Sound.of_reachable hs
  have hb : Booted s := .of_reachable hs
  have ht : Tidy nofile s := .of_reachable hs
  have hmay := f.writes_may _ l hw
  have huse : f'.MayWrite (s.me c') l ∨ f'.MayRead (s.me c') l :=
    huse.imp (f'.writes_may _ l) (f'.reads_may _ l)
  cases l with
  | field j a =>
    have hl := hf.mem_held hmay.1
    obtain huse | huse | rfl | ⟨rfl, ha⟩ := huse
    · exact absurd (h.cpu_eq hl (hf'.mem_held huse.1)) hne
    · exact absurd (h.cpu_eq hl (hf'.mem_held huse)) hne
    · -- `sched` runs with the lock that its caller has taken.
      obtain ⟨rest, hs'⟩ := hf'
      refine absurd (h.cpu_eq hl ?_) hne
      have hok := h.stack (s.running c')
      rw [hs'] at hok ⊢
      have hpre : held rest = {.proc j} := hok.pre
      rw [held_cons, hpre]
      exact Multiset.mem_add.mpr (.inr (Multiset.mem_singleton_self _))
    · have hown : (Frame.syscall j .dispatch).Owns (s.me c') j := ⟨rfl, .inr (.inr (.inr (.inl rfl)))⟩
      exact absurd (h.owns hf' hown).2 (h.keeps_not_running hf (hmay.2 ha))
  | parent j =>
    obtain hfj | hfj := em (f.abandons = some j)
    · exact ⟨hfj, ht.abandoned hf hfj⟩
    have hlocked {c : C} {f : Frame n} (hf : s.Top c f) (hmay : f.MayWrite (s.me c) (.parent j))
        (hfj : f.abandons ≠ some j) : Lock.waitLock ∈ held (s.stack (s.running c)) := by
      obtain ⟨p, pid, rfl⟩ | ⟨p, rfl⟩ | ⟨p, addr, pid, rfl⟩ | hj := hmay
      · exact hf.mem_held (Multiset.mem_singleton_self _)
      · exact h.wait_locked hf (.inr ⟨p, _, rfl⟩)
      · exact hf.mem_held (Multiset.mem_cons_of_mem (Multiset.mem_singleton_self _))
      · exact absurd hj hfj
    obtain huse | huse := huse
    · obtain hgj | hgj := em (f'.abandons = some j)
      · exact absurd ((h.parent_written ht hf hf' hmay hgj).resolve_left hfj) hne
      · exact absurd (h.cpu_eq (hlocked hf hmay hfj) (hlocked hf' huse hgj)) hne
    · exact absurd (h.cpu_eq (hlocked hf hmay hfj) (h.wait_locked hf' huse)) hne
  | image j =>
    refine absurd (h.image_eq hf hf' hmay ?_) hne
    exact huse.elim id id
  | nextpid =>
    refine absurd (h.cpu_eq (hf.mem_held hmay) (hf'.mem_held ?_)) hne
    exact huse.elim id id
  | initproc =>
    obtain ⟨pc, rfl⟩ := hmay
    obtain ⟨rest, hs⟩ := hf
    obtain ⟨rest', hs'⟩ := hf'
    obtain ⟨pc', rfl⟩ | ⟨p, hfn⟩ := huse
    · have hpre : s.stack (s.running c) = [] ++ .userinit pc :: rest := hs
      have hpre' : s.stack (s.running c') = [] ++ .userinit pc' :: rest' := hs'
      obtain ⟨d, hd, -, hbase, -⟩ := hb.not_started h hpre
      obtain ⟨d', hd', -, hbase', -⟩ := hb.not_started h hpre'
      obtain rfl := hb.one d d' _ _ hbase hbase' rfl rfl
      exact absurd (h.one c c' (hd.trans hd'.symm)) hne
    · have hok := h.stack (s.running c')
      rw [hs'] at hok
      have hon := hok.on
      refine absurd ?_ (hb.not_userinit h hs c' p)
      obtain hfn | hfn := hfn
      · rwa [hfn] at hon
      · rwa [hfn] at hon
  | first =>
    obtain ⟨p, rfl⟩ := hmay
    have hu : Untried s := .of_reachable hs
    obtain ⟨q, pc, rfl⟩ : ∃ q pc, f' = .forkret q pc := by
      obtain ⟨q, rfl⟩ | huse := huse
      · exact ⟨q, _, rfl⟩
      · exact huse
    obtain ⟨rest, hs₁⟩ := hf
    obtain ⟨rest', hs'⟩ := hf'
    have hok := h.stack (s.running c)
    have hok' := h.stack (s.running c')
    rw [hs₁] at hok
    rw [hs'] at hok'
    obtain ⟨hfirst, -, hp⟩ := hu.testing (s.running c) p .clearFirst (by rw [hs₁]; exact List.mem_cons_self) rfl
    have halive : s.shared.Alive q := by
      rw [Shared.Alive, h.not_leaving hok'.on (by rw [← hok'.on, hs']; rfl)]
      rfl
    obtain ⟨-, hq⟩ := hu.eq_initproc h hb (.of_reachable hs) hfirst hok'.on halive
    obtain rfl := Option.some.inj (hp.symm.trans hq)
    exact absurd (h.one c c' (hok.on.trans hok'.on.symm)) hne
  | started => trivial

omit [DecidableEq C] in
theorem State.Top.base_start (hf : s.Top c (.main .start)) (h : Sound s) :
    s.base c = some (.main .start) := by
  obtain ⟨rest, hs⟩ := hf
  have hok := h.stack (s.running c)
  rw [hs] at hok
  rw [State.base, ← h.running_cpu hs rfl, hs, hok.rest_eq_nil (.inl rfl)]
  rfl

theorem Frame.eq_start {me : Option (Fin n)} (hw : .started ∈ f.writes me) : f = .main .start := by
  obtain ⟨pc, rfl⟩ := f.writes_may _ _ hw
  cases pc <;> first | rfl | cases hw

/-- No two CPUs are about to write the same place, and of what one is about to write another is about
to read no more than a harmless place. -/
theorem race_free {b : C} (hs : (kernel n nofile b).Reachable s) (hne : c ≠ c') (hf : s.Top c f)
    (hg : s.Top c' g) (hw : l ∈ f.writes (s.me c)) :
    l ∉ g.writes (s.me c') ∧ (l ∈ g.reads (s.me c') → s.Harmless f l) := by
  refine ⟨fun hw' => ?_, fun hr => harmless_of_used hs hne hf hg hw (.inr hr)⟩
  have h := Sound.of_reachable hs
  have hl := harmless_of_used hs hne hf hg hw (.inl hw')
  have hl' := harmless_of_used hs hne.symm hg hf hw' (.inl hw)
  cases l with
  | started =>
    obtain rfl := Frame.eq_start hw
    obtain rfl := Frame.eq_start hw'
    have hb : Booted s := .of_reachable hs
    exact hne (hb.one c c' _ _ (hf.base_start h) (hg.base_start h) rfl rfl)
  | parent j =>
    obtain ⟨-, -, hb⟩ := Frame.keeps_of_abandons hl.1
    obtain ⟨-, -, hb'⟩ := Frame.keeps_of_abandons hl'.1
    exact hne (h.image_eq hf hg (.inl (.inl hb)) (.inl (.inl hb')))
  | _ => exact hl

def bootstrap (c : C) : List (C × Choice) :=
  List.replicate 14 (c, .run) ++ (c, .alloc 0) :: List.replicate 7 (c, .run)

theorem race_free_started : ∃ s : State 1 (Fin 2), (kernel 1 0 0).Reachable s ∧
    s.Top 0 (.main .start) ∧ s.Top 1 (.main .waiting) ∧
    Place.started ∉ (Frame.main (n := 1) .waiting).writes (s.me 1) ∧
    (Place.started ∈ (Frame.main (n := 1) .waiting).reads (s.me 1) →
      s.Harmless (.main .start) .started) := by
  have hrun : ∃ s : State 1 (Fin 2), (kernel 1 0 0).run (kernel 1 0 0).init (bootstrap 0) = some s ∧
      s.Top 0 (.main .start) ∧ s.Top 1 (.main .waiting) := ⟨_, rfl, ⟨_, rfl⟩, ⟨_, rfl⟩⟩
  obtain ⟨s, hs, htop, htop'⟩ := hrun
  have hr := System.reachable_of_run _ hs
  exact ⟨s, hr, htop, htop', race_free hr (by decide) htop htop' (List.mem_singleton_self _)⟩

end Races

end MultithreadMayhem.Kernel
