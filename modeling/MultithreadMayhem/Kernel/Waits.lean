import MultithreadMayhem.Kernel.Children
import MultithreadMayhem.Kernel.Kin
import MultithreadMayhem.Kernel.Lineage

/-!
# What the frames know about the history

A wait that has reaped a child owes its pid until it returns, and it knows that the
child has exited and who has forked it. A fork knows that its event is in the history.
-/

namespace MultithreadMayhem.Kernel

variable {n nofile : ℕ} {C : Type} {x : Ctx n} {a : Act n} {f g r : Frame n} {j p : Fin n}
  {rest : List (Frame n)} {sh : Shared n} {e : Option (Event n)} {t : Thread n C} {v : Int}

def KexitPc.living : KexitPc → Bool
  | .releaseWait | .sched | .scheduling | .zombieExit => false
  | _ => true

def KforkPc.forked : KforkPc n → Option Int
  | .releaseWait _ v | .reacquire _ v | .setState _ v | .releaseAgain _ v | .done v => some v
  | _ => none

def KwaitPc.result : KwaitPc n → Option Int
  | .releaseSlot _ v | .releaseWait v | .done v => some v
  | _ => none

/-- What the frame has established about the history. -/
def Frame.Vouches (sh : Shared n) (log : Log n C) : Frame n → Prop
  | kexit p _ pc => pc.living = true → sh.Alive p
  | kwait p _ pc => ∀ v ∈ pc.result, v = -1 ∨ sh.started = true ∧
      log.Reared sh.initproc (sh.proc p).pid (.proc p) v
  | kfork p pc => ∀ v ∈ pc.forked, v = -1 ∨ ∃ u, (u, .fork (sh.proc p).pid v) ∈ log
  | _ => True

/-- What the frame owes to the process that waits. -/
def Frame.owes : Frame n → Option Debt
  | kwait _ addr (.freeproc _ pid) => if addr = 0 then none else some (.copied pid)
  | kwait _ _ pc => pc.result.bind fun v => if v = -1 then none else some (.reaped v)
  | _ => none

def owing (fs : List (Frame n)) : Option Debt := fs.findSome? Frame.owes

section Goes

variable {log log' : Log n C}

theorem kexit_vouches {status : Int} {pc : KexitPc} (ha : code x (.kexit p status pc) = a)
    (hnext : a.next = some g)
    (halive : pc.living = true → pc ≠ .setState → (a.shared x.shared).Alive p) :
    g.Vouches (a.shared x.shared) log' := by
  obtain ⟨pc', rfl, hgoes⟩ := kexit_goes ha hnext
  generalize a.shared x.shared = sh at hgoes halive ⊢
  cases hgoes with
  | setState | releaseWait | sched => rintro ⟨⟩
  | _ => exact fun _ => halive rfl (by rintro ⟨⟩)

theorem kwait_vouches {addr : BitVec 64} {pc : KwaitPc n} (ha : code x (.kwait p addr pc) = a)
    (hnext : a.next = some g)
    (hreap : ∀ j pid, pc = .freeproc j pid → (a.shared x.shared).started = true ∧
      log'.Reared (a.shared x.shared).initproc ((a.shared x.shared).proc p).pid (.proc p) pid)
    (hold : ∀ v ∈ pc.result, v = -1 ∨ (a.shared x.shared).started = true ∧
      log'.Reared (a.shared x.shared).initproc ((a.shared x.shared).proc p).pid (.proc p) v) :
    g.Vouches (a.shared x.shared) log' := by
  obtain ⟨pc', rfl, hgoes⟩ := kwait_goes ha hnext
  generalize a.shared x.shared = sh at hgoes hreap hold ⊢
  cases hgoes with
  | alone | failed | dead => exact fun v hv => .inl (Option.some.inj hv).symm
  | freed =>
    intro v hv
    obtain rfl := Option.some.inj hv
    exact .inr (hreap _ _ rfl)
  | releaseSlot | releaseWait => exact hold
  | _ => rintro v ⟨⟩

theorem kfork_vouches {pc : KforkPc n} (ha : code x (.kfork p pc) = a) (hnext : a.next = some g)
    (hfork : ∀ np pid, pc = .setParent np pid →
      ∃ u, (u, Event.fork ((a.shared x.shared).proc p).pid pid) ∈ log')
    (hold : ∀ v ∈ pc.forked, v = -1 ∨
      ∃ u, (u, Event.fork ((a.shared x.shared).proc p).pid v) ∈ log') :
    g.Vouches (a.shared x.shared) log' := by
  cases pc with
  | uvmcopy np | filedup np i =>
    simp only [code, kfork] at ha
    repeat' split at ha
    all_goals
      subst ha
      cases hnext
      rintro v ⟨⟩
  | releaseFreed np =>
    subst ha
    cases hnext
    exact fun v hv => .inl (Option.some.inj hv).symm
  | setParent np pid =>
    subst ha
    cases hnext
    intro v hv
    obtain rfl := Option.some.inj hv
    exact .inr (hfork _ _ rfl)
  | releaseWait np v | reacquire np v | setState np v | releaseAgain np v =>
    subst ha
    cases hnext
    exact hold
  | _ =>
    subst ha
    cases hnext <;> rintro v ⟨⟩

theorem call_vouches {callee : Frame n} (ha : code x f = .call callee g)
    (halive : ∀ p, callee.InFamily p → x.shared.Alive p) : callee.Vouches x.shared log := by
  have hstarts := code_starts ha
  cases callee with
  | kexit p status pc => exact fun _ => halive p (.inr (.inl rfl))
  | kfork p pc =>
    cases pc with
    | allocproc => rintro v ⟨⟩
    | _ => cases hstarts
  | kwait p addr pc =>
    cases pc with
    | acquireWait => rintro v ⟨⟩
    | _ => cases hstarts
  | _ => trivial

theorem resume_vouches {v : Val n} {fn : Fn n} (hawaits : r.Awaits fn) (hr : r.Vouches sh log) :
    (r.resume v).Vouches sh log := by
  cases hawaits.calls with
  | forkAllocproc =>
    obtain _ | _ | np := v
    · rintro w ⟨⟩
    · exact fun w hw => .inl (Option.some.inj hw).symm
    · rintro w ⟨⟩
  | fileclose | beginOp | iput | endOp | reparent | exitWakeup => exact fun _ => hr rfl
  | exitSched => rintro ⟨⟩
  | waitKilled => cases v <;> rintro w ⟨⟩
  | waitSleep => rintro w ⟨⟩
  | initAllocproc | allocpid | kexec | sysFork | sysExit | sysWait | sysPid | sysOther =>
    cases v <;> trivial
  | _ => trivial

theorem next_owes (ha : code x f = a) (hnext : a.next = some g) (hfn : g.fn = f.fn) :
    (∃ p addr j pid, f = .kwait p addr (.copyout j pid) ∧ g = .kwait p addr (.freeproc j pid)) ∨
      (∃ p addr j pid, f = .kwait p addr (.freeproc j pid) ∧
        g = .kwait p addr (.releaseSlot j pid)) ∨ g.owes = f.owes := by
  cases f with
  | kwait p addr pc =>
    obtain ⟨pc', rfl, hgoes⟩ := kwait_goes ha hnext
    generalize a.shared x.shared = sh at hgoes
    cases hgoes with
    | copied => exact .inl ⟨p, addr, _, _, rfl, rfl⟩
    | freed => exact .inr (.inl ⟨p, addr, _, _, rfl, rfl⟩)
    | _ => exact .inr (.inr rfl)
  | _ =>
    refine .inr (.inr ?_)
    cases g with
    | kwait q addr pc =>
      obtain ⟨addr', pc', hf⟩ := Frame.eq_kwait_of_fn hfn.symm
      cases hf
    | _ => rfl

theorem owes_of_starts (h : f.starts = true) : f.owes = none := by
  cases f with
  | kwait p addr pc =>
    cases pc with
    | acquireWait => rfl
    | _ => cases h
  | _ => rfl

theorem owes_of_awaits {v : Val n} {fn : Fn n} (hawaits : r.Awaits fn) :
    r.owes = none ∧ (r.resume v).owes = none := by
  cases hawaits.calls with
  | forkAllocproc => obtain _ | _ | np := v <;> exact ⟨rfl, rfl⟩
  | initAllocproc | allocpid | kexec | waitKilled | sysFork | sysExit | sysWait | sysPid | sysOther =>
    cases v <;> exact ⟨rfl, rfl⟩
  | _ => exact ⟨rfl, rfl⟩

theorem owes_of_fn (h : ∀ p, f.fn ≠ .kwait p) : f.owes = none := by
  cases f with
  | kwait p addr pc => exact absurd rfl (h p)
  | _ => rfl

theorem ret_owes {v : Val n} (ha : code x f = .ret v) :
    (∃ p addr w, f = .kwait p addr (.done w)) ∨ f.owes = none := by
  cases f with
  | kwait p addr pc =>
    obtain ⟨w, rfl⟩ := kwait_ret ha
    exact .inl ⟨p, addr, w, rfl⟩
  | _ => exact .inr rfl

end Goes

end MultithreadMayhem.Kernel
