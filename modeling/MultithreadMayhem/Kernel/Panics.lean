import MultithreadMayhem.Kernel.DataRaces
import MultithreadMayhem.Kernel.Handoff

/-!
# Which panics can occur

A process that has become a zombie is never run again, only the first process calls
`kexec` from `forkret`, and nobody releases a lock that he does not hold. So `proc.c`
panics only when the first process cannot be made, cannot load its program or exits.
-/

namespace MultithreadMayhem.Kernel

open Foundation

variable {n nofile : ℕ} {C : Type} [DecidableEq C] {s s' : State n C} {c : C} {f g : Frame n}
  {rest : List (Frame n)} {e : Option (Event n)} {x y : Choice} {sh : Shared n} {p : Fin n}
  {msg : String}

section Dead

def KexitPc.dead : KexitPc → Bool
  | .releaseWait | .sched | .scheduling | .zombieExit => true
  | _ => false

def Dead (s : State n C) : Prop :=
  ∀ t p status pc, .kexit p status pc ∈ s.stack t → pc.dead = true → ¬s.shared.Alive p

theorem Write.revived (hw : Write (s.ctx nofile c y) (s.running c) sh f g e) (h : Sound s)
    (hs : s.stack (s.running c) = f :: rest) (ha : code (s.ctx nofile c y) f = .exec sh g)
    (hold : ¬s.shared.Alive p) (hnew : sh.Alive p) : s.stack (.proc p) = [.forkret p .release] := by
  cases hw.state_write (h.relies hs y) ha p with
  | same hst =>
    rw [Shared.Alive, hst] at hnew
    exact absurd hnew hold
  | move halive => exact absurd halive hold
  | exit _ hrun =>
    refine absurd ?_ hold
    rw [Shared.Alive, show s.shared.states p = .running from hrun]
    rfl
  | init _ hst | free _ hst =>
    rw [Shared.Alive, hst] at hnew
    cases hnew
  | publish hf =>
    refine h.readied (s.running c) p ?_
    rw [hs]
    obtain rfl | ⟨q, pid, rfl⟩ := hf
    · exact Multiset.mem_add.mpr (.inl (Multiset.mem_singleton_self p))
    · exact Multiset.mem_add.mpr (.inl (Multiset.mem_singleton_self p))

namespace Dead

theorem step (hd : Dead s) (h : Sound s) (hs : s.stack (s.running c) = f :: rest)
    (hturn : Turn nofile s c f rest s' e) : Dead s' := by
  intro t p status pc hmem hpc
  -- A zombie is not revived, since a new process has an empty stack.
  have keep {t : Thread n C} {pc : KexitPc} (hmem : .kexit p status pc ∈ s.stack t)
      (hpc : pc.dead = true) : ¬s'.shared.Alive p := by
    have hold := hd t p status pc hmem hpc
    obtain ⟨hsh, -⟩ | ⟨y, g, ha, -, -, hw⟩ := hturn.written
    · rwa [hsh]
    · intro hnew
      have hstack := hw.revived h hs ha hold hnew
      have hon : t = .proc p := (h.stack t).of_mem hmem
      rw [hon, hstack] at hmem
      cases List.mem_singleton.mp hmem
  obtain ⟨pre, below, hstack⟩ := List.append_of_mem hmem
  cases hturn.comes hs hstack with
  | old hold =>
    refine keep (t := t) ?_ hpc
    rw [hold]
    exact List.mem_append_right _ List.mem_cons_self
  | @next y a htr ha hnext hsh =>
    have hfn := (h.disciplined hs ha).next_fn hnext
    cases f with
    | kexit q status' pc' =>
      obtain ⟨pc'', hg, hgoes⟩ := kexit_goes ha hnext
      cases hg
      have htop : .kexit p status pc' ∈ s.stack (s.running c) := by
        rw [hs]
        exact List.mem_cons_self
      have hgoes : pc'.Goes (s.ctx nofile c y) p status pc s'.shared := by
        rw [hsh]
        exact hgoes
      generalize hsh' : s'.shared = sh' at hgoes ⊢
      cases hgoes with
      | setState =>
        rw [Shared.Alive, Shared.states_setState, Function.update_self]
        rintro ⟨⟩
      | releaseWait | sched =>
        rw [← hsh']
        exact keep htop rfl
      | _ => cases hpc
    | ext kind => cases kind <;> cases hfn
    | _ => cases hfn
  | call htr ha =>
    have hstarts := code_starts ha
    cases pc with
    | testInit => cases hpc
    | _ => cases hstarts
  | @resume y v r htr ha hrest hawaits hsh hh =>
    obtain rfl : r = .kexit p status .scheduling := by
      generalize f.fn = fn at hawaits
      cases hawaits.calls with
      | exitSched =>
        cases hh
        rfl
      | forkAllocproc => obtain _ | _ | _ := v <;> cases hh
      | _ => cases v <;> cases hh <;> cases hpc
    rw [hsh]
    refine hd (s.running c) p status .scheduling ?_ rfl
    rw [hs, hrest]
    exact List.mem_cons_of_mem _ List.mem_cons_self
  | other hh => obtain hh | ⟨msg, hh⟩ | ⟨pc', hh⟩ | ⟨q, hh⟩ | ⟨q, hh⟩ := hh <;> cases hh

theorem of_reachable {b : C} (hs : (kernel n nofile b).Reachable s) : Dead s := by
  refine hs.invariant Dead ?_ ?_
  · intro t p status pc hmem
    obtain ⟨pc', hf⟩ := State.boot_main hmem
    cases hf
  · intro s l s' hr hd hstep
    have h := Sound.of_reachable hr
    obtain ⟨f, rest, e, hs, hturn, -⟩ := h.turn hstep
    exact hd.step h hs hturn

end Dead

end Dead

section Loading

def ForkretPc.loading : ForkretPc → Bool
  | .kexec | .executing | .setA0 _ | .testA0 _ => true
  | _ => false

def Loading (s : State n C) : Prop :=
  ∀ t p pc, .forkret p pc ∈ s.stack t → pc.loading = true →
    s.shared.started = true ∧ s.shared.initproc = some p

namespace Loading

theorem step (hl : Loading s) (hu : Untried s) (h : Sound s) (hb : Booted s)
    (hs : s.stack (s.running c) = f :: rest) (hturn : Turn nofile s c f rest s' e) : Loading s' := by
  intro t p pc hmem hpc
  have keep (hold : s.shared.started = true ∧ s.shared.initproc = some p) :
      s'.shared.started = true ∧ s'.shared.initproc = some p := by
    obtain ⟨hsh, -⟩ | ⟨y, g, ha, -⟩ := hturn.written
    · rwa [hsh]
    · exact ⟨started_mono ha hold.1, (hb.initproc_eq h hs ha hold.1).trans hold.2⟩
  obtain ⟨pre, below, hstack⟩ := List.append_of_mem hmem
  cases hturn.comes hs hstack with
  | old hold =>
    refine keep (hl t p pc ?_ hpc)
    rw [hold]
    exact List.mem_append_right _ List.mem_cons_self
  | @next y a htr ha hnext hsh =>
    have hfn := (h.disciplined hs ha).next_fn hnext
    subst ha
    cases f with
    | forkret q pc' =>
      cases hfn
      have htop : .forkret p pc' ∈ s.stack (s.running c) := by
        rw [hs]
        exact List.mem_cons_self
      cases pc' with
      | clearFirst => exact keep (hu.testing (s.running c) p .clearFirst htop rfl).2
      | kexec | setA0 v => exact keep (hl (s.running c) p _ htop rfl)
      | initializing | executing | userret => cases hnext
      | testA0 v =>
        simp only [code, forkret] at hnext
        split at hnext <;> cases hnext
        cases hpc
      | testFirst =>
        simp only [code, forkret] at hnext
        split at hnext <;> cases hnext <;> cases hpc
      | release | fsinit =>
        cases hnext
        cases hpc
    | user q pc' =>
      cases pc' with
      | run =>
        simp only [code, user, Ctx.withProc] at hnext
        repeat' split at hnext
        all_goals cases hnext
      | syscall =>
        simp only [code, user, Ctx.withProc] at hnext
        split at hnext <;> cases hnext
      | trapping => cases hnext
    | ext kind pc' => cases kind <;> cases hfn
    | _ => cases hfn
  | call htr ha => cases code_starts ha
  | @resume y v r htr ha hrest hawaits hsh hh =>
    obtain rfl : r = .forkret p .executing := by
      generalize f.fn = fn at hawaits
      cases hawaits.calls with
      | kexec =>
        cases v with
        | int v =>
          cases hh
          rfl
        | proc q =>
          cases hh
          rfl
      | forkAllocproc => obtain _ | _ | _ := v <;> cases hh
      | _ => cases v <;> cases hh <;> cases hpc
    refine keep (hl (s.running c) p .executing ?_ rfl)
    rw [hs, hrest]
    exact List.mem_cons_of_mem _ List.mem_cons_self
  | other hh =>
    obtain hh | ⟨msg, hh⟩ | ⟨pc', hh⟩ | ⟨q, hh⟩ | ⟨q, hh⟩ := hh <;> cases hh
    cases hpc

theorem of_reachable {b : C} (hs : (kernel n nofile b).Reachable s) : Loading s := by
  refine hs.invariant Loading ?_ ?_
  · intro t p pc hmem
    obtain ⟨pc', hf⟩ := State.boot_main hmem
    cases hf
  · intro s l s' hr hl hstep
    have h := Sound.of_reachable hr
    obtain ⟨f, rest, e, hs, hturn, -⟩ := h.turn hstep
    exact hl.step (.of_reachable hr) h (.of_reachable hr) hs hturn

end Loading

end Loading

section Panics

/-- How the CPU comes to panic: there is no memory for the first process, the first process cannot
load its program or exits, or code of another file takes a lock that its CPU holds already. -/
inductive State.Panics (s : State n C) (c : C) : Frame n → String → Prop
  | memory : Panics s c (.userinit (.setCwd none)) "kerneltrap"
  | exec {p : Fin n} {v : Int} (hp : s.shared.initproc = some p) (hr : s.running c = .proc p)
      (hv : BitVec.ofInt 64 v = BitVec.ofInt 64 (-1)) : Panics s c (.forkret p (.testA0 v)) "exec"
  | exiting {p : Fin n} {status : Int} (hp : s.shared.initproc = some p)
      (hr : s.running c = .proc p) : Panics s c (.kexit p status .testInit) "init exiting"
  | twice {kind : ExtKind} {held : List ℕ} {k : ℕ} (hk : s.holder (.ext k) = some c) :
      Panics s c (.ext kind (.run held)) "acquire"

theorem ne_panic_ite {q : Prop} [Decidable q] {a b : Act n} (ha : a ≠ .panic msg) (hb : b ≠ .panic msg) :
    (if q then a else b) ≠ .panic msg := by
  split
  · exact ha
  · exact hb

theorem dispatch_ne_panic (x : Ctx n) (p : Fin n) (num : Int) : dispatch x p num ≠ .panic msg := by
  have hproc {k : Fin n → Act n} (hk : ∀ q, k q ≠ .panic msg) : x.withProc k ≠ .panic msg := by
    unfold Ctx.withProc
    split
    · exact hk _
    · rintro ⟨⟩
  unfold dispatch
  refine ne_panic_ite (hproc fun q => by rintro ⟨⟩) (ne_panic_ite (hproc fun q => by rintro ⟨⟩)
    (ne_panic_ite (hproc fun q => by rintro ⟨⟩) ?_))
  repeat' apply ne_panic_ite
  all_goals first
  | rintro ⟨⟩
  | (split <;> rintro ⟨⟩)

/-- The statements that call `panic`. -/
inductive Frame.CallsPanic (k : Ctx n) : Frame n → String → Prop
  | sched {p : Fin n} {pc : SchedPc} {m : String} (hm : m ∈ schedPanics) : CallsPanic k (.sched p pc) m
  | memory : CallsPanic k (.userinit (.setCwd none)) "kerneltrap"
  | exec {p : Fin n} {v : Int} (hv : BitVec.ofInt 64 v = BitVec.ofInt 64 (-1)) :
      CallsPanic k (.forkret p (.testA0 v)) "exec"
  | exiting {p : Fin n} {status : Int} (hp : k.shared.initproc = some p) :
      CallsPanic k (.kexit p status .testInit) "init exiting"
  | zombie {p : Fin n} {status : Int} : CallsPanic k (.kexit p status .zombieExit) "zombie exit"

variable {k : Ctx n}

theorem sched_callsPanic {pc : SchedPc} (ha : code k (.sched p pc) = .panic msg) :
    (Frame.sched p pc).CallsPanic k msg := by
  refine .sched ?_
  cases pc with
  | testLock | testLocks | testState | testIntr =>
    simp only [code, sched] at ha
    split at ha <;> cases ha
    decide
  | _ => cases ha

theorem userinit_callsPanic {pc : UserinitPc n} (ha : code k (.userinit pc) = .panic msg) :
    (Frame.userinit pc).CallsPanic k msg := by
  cases pc with
  | setCwd p =>
    cases p with
    | none =>
      cases ha
      exact .memory
    | some p => cases ha
  | _ => cases ha

theorem forkret_callsPanic {pc : ForkretPc} (ha : code k (.forkret p pc) = .panic msg) :
    (Frame.forkret p pc).CallsPanic k msg := by
  cases pc with
  | testA0 v =>
    simp only [code, forkret] at ha
    split at ha <;> cases ha
    exact .exec ‹_›
  | testFirst =>
    simp only [code, forkret] at ha
    split at ha <;> cases ha
  | _ => cases ha

theorem kexit_callsPanic {status : Int} {pc : KexitPc} (ha : code k (.kexit p status pc) = .panic msg) :
    (Frame.kexit p status pc).CallsPanic k msg := by
  cases pc with
  | testInit =>
    simp only [code, kexit] at ha
    split at ha <;> cases ha
    exact .exiting ‹_›
  | zombieExit =>
    cases ha
    exact .zombie
  | testFile fd =>
    simp only [code, kexit] at ha
    repeat' split at ha
    all_goals cases ha
  | sched =>
    simp only [code, kexit, Ctx.withProc] at ha
    split at ha <;> cases ha
  | _ => cases ha

theorem code_callsPanic (ha : code k f = .panic msg) : f.CallsPanic k msg := by
  cases f with
  | sched p pc => exact sched_callsPanic ha
  | userinit pc => exact userinit_callsPanic ha
  | forkret p pc => exact forkret_callsPanic ha
  | kexit p status pc => exact kexit_callsPanic ha
  | panic m => cases ha
  | syscall p pc =>
    cases pc with
    | dispatch => exact absurd ha (dispatch_ne_panic _ p _)
    | _ => cases ha
  | _ pc =>
    cases pc <;>
      simp only [code, main, allocproc, allocpid, kfork, scheduler, Kernel.yield, Kernel.sleep, wakeup,
        reparent, kwait, Kernel.killed, Kernel.setkilled, pidScan, user, ext, Ctx.withProc] at ha <;>
      (repeat' split at ha) <;> cases ha

theorem panics_of_code (h : Sound s) (hd : Dead s) (hl : Loading s)
    (hs : s.stack (s.running c) = f :: rest) (ha : code (s.ctx nofile c x) f = .panic msg) :
    s.Panics c f msg := by
  have hok := h.stack (s.running c)
  rw [hs] at hok
  have hmem : f ∈ s.stack (s.running c) := by
    rw [hs]
    exact List.mem_cons_self
  cases code_callsPanic ha with
  | sched hm => exact absurd hm (not_mem_schedPanics ha (h.plays hs ha))
  | memory => exact .memory
  | exec hv => exact .exec (hl _ _ _ hmem rfl).2 hok.on hv
  | exiting hp => exact .exiting hp hok.on
  | @zombie p status =>
    refine absurd ?_ (hd _ p status .zombieExit hmem rfl)
    rw [Shared.Alive, h.not_leaving hok.on (by rw [← hok.on, hs]; rfl)]
    rfl

@[simp]
theorem Lock.ext_not_mem_slot (k : ℕ) (p : Option (Fin n)) : .ext k ∉ Lock.slot p := by
  cases p <;> simp [Lock.slot]

theorem Frame.of_ext_locked {k : ℕ} (h : .ext k ∈ f.locks) :
    (∃ kind pc, f = .ext kind pc) ∨ ∃ p ch lk pc, f = .sleep p ch lk pc := by
  cases f with
  | ext kind pc => exact .inl ⟨kind, pc, rfl⟩
  | sleep p ch lk pc => exact .inr ⟨p, ch, lk, pc, rfl⟩
  | userinit pc => cases pc <;> simp [locks, UserinitPc.locks] at h
  | allocproc pc => cases pc <;> simp [locks, AllocprocPc.locks] at h
  | allocpid pc => cases pc <;> simp [locks, AllocpidPc.locks] at h
  | kfork p pc => cases pc <;> simp [locks, KforkPc.locks] at h
  | scheduler pc => cases pc <;> simp [locks, SchedulerPc.locks] at h
  | yield p pc => cases pc <;> simp [locks, YieldPc.locks] at h
  | wakeup ch pc => cases pc <;> simp [locks, WakeupPc.locks] at h
  | kexit p status pc => cases pc <;> simp [locks, KexitPc.locks] at h
  | kwait p addr pc => cases pc <;> simp [locks, KwaitPc.locks] at h
  | killed p pc => cases pc <;> simp [locks, KilledPc.locks] at h
  | setkilled p pc => cases pc <;> simp [locks, SetkilledPc.locks] at h
  | pidScan op pc => cases pc <;> simp [locks, PidScanPc.locks] at h
  | forkret p pc => cases pc <;> simp [locks] at h
  | _ => simp [locks] at h

theorem panics_of_acquire {l : Lock n} (h : Sound s) (hs : s.stack (s.running c) = f :: rest)
    (ha : code (s.ctx nofile c x) f = .acquire l g) (hl : s.holder l = some c) :
    s.Panics c f "acquire" := by
  have hd := h.disciplined hs ha
  have hmem := (h.holder l c).mp hl
  rw [hs, held_cons] at hmem
  have hok := h.stack (s.running c)
  rw [hs] at hok
  cases l with
  | ext k =>
    have hg : .ext k ∈ g.locks := by
      rw [hd.1]
      exact Multiset.mem_cons_self _ _
    obtain ⟨kind, pc, rfl⟩ | ⟨p, ch, lk, pc, rfl⟩ := Frame.of_ext_locked hg
    · have hfn : kind.fn = f.fn := hd.2.1
      cases f with
      | ext kind' pc' =>
        cases pc' with
        | run held => exact .twice hl
        | done v =>
          simp only [code, ext] at ha
          split at ha <;> cases ha
        | _ => cases ha
      | _ => cases kind <;> cases hfn
    · -- `sleep` takes its condition lock again when it holds no other.
      have hfn : Fn.sleep p lk = f.fn := hd.2.1
      cases f with
      | sleep p' ch' lk' pc' =>
        cases pc' with
        | reacquire =>
          have hrest : held rest = 0 := hok.pre
          rw [hrest] at hmem
          cases hmem
        | sched =>
          simp only [code, Kernel.sleep, Ctx.withProc] at ha
          split at ha <;> cases ha
        | _ => cases ha
      | ext kind' pc' => cases kind' <;> cases hfn
      | _ => cases hfn
  | _ => exact absurd (hd.2.2.2 rfl _ hmem) (lt_irrefl _)

theorem Turn.panicked (h : Sound s) (hs : s.stack (s.running c) = f :: rest)
    (hturn : Turn nofile s c f rest s' e) (hm : s'.Panicked msg) :
    s.Panicked msg ∨ s'.stack (s'.running c) = .panic msg :: f :: rest := by
  obtain ⟨t, hm⟩ := hm
  have moved {fs : List (Frame n)} (hstack : s'.stack t = Function.update s.stack (s.running c) fs t)
      (hfs : .panic msg ∈ fs → .panic msg ∈ f :: rest) : s.Panicked msg := by
    rw [hstack] at hm
    obtain rfl | ht := eq_or_ne t (s.running c)
    · rw [Function.update_self] at hm
      refine ⟨s.running c, ?_⟩
      rw [hs]
      exact hfs hm
    · rw [Function.update_of_ne ht] at hm
      exact ⟨t, hm⟩
  have drop {g : Frame n} {fs : List (Frame n)} (hg : g.fn ≠ .panic) (hm : .panic msg ∈ g :: fs) :
      .panic msg ∈ fs := by
    refine (List.mem_cons.mp hm).resolve_left ?_
    rintro rfl
    exact hg rfl
  have same {x : Choice} {a : Act n} {g : Frame n} (ha : code (s.ctx nofile c x) f = a) (hnext : a.next = some g)
      (hb : a ≠ .block) : g.fn ≠ .panic := by
    rw [(h.disciplined hs ha).next_fn hnext]
    exact fn_ne_panic ha hb
  have next {x : Choice} {a : Act n} {g : Frame n} (ha : code (s.ctx nofile c x) f = a)
      (hnext : a.next = some g) (hb : a ≠ .block)
      (hstack : s'.stack = Function.update s.stack (s.running c) (g :: rest)) : s.Panicked msg :=
    moved (by rw [hstack]) fun hm => List.mem_cons_of_mem _ (drop (same ha hnext hb) hm)
  cases hturn with
  | lock ha hstack =>
    obtain ha | ha := ha
    · exact .inl (next ha rfl (by rintro ⟨⟩) hstack)
    · exact .inl (next ha rfl (by rintro ⟨⟩) hstack)
  | exec ha he hw hstack => exact .inl (next ha rfl (by rintro ⟨⟩) hstack)
  | call ha hstack =>
    have hcallee := (Frame.Awaits.fn_ne_base (h.disciplined hs ha).2.2.2.1).2.2
    refine .inl (moved (by rw [hstack]) fun hm => ?_)
    exact List.mem_cons_of_mem _ (drop (same ha rfl (by rintro ⟨⟩)) (drop hcallee hm))
  | @ret x v r rest' ha hrest hawaits hstack =>
    have hr : (r.resume v).fn ≠ .panic := by
      rw [Frame.resume_fn]
      exact hawaits.not_idle.1
    refine .inl (moved (by rw [hstack]) fun hm => ?_)
    rw [hrest]
    exact List.mem_cons_of_mem _ (List.mem_cons_of_mem _ (drop hr hm))
  | interrupt hn hstack => exact .inl (moved (by rw [hstack]) (drop (by rintro ⟨⟩)))
  | @panic x m ha hstack hrun =>
    obtain rfl | hne := eq_or_ne msg m
    · refine .inr ?_
      rw [hrun, hstack, Function.update_self]
    · refine .inl (moved (by rw [hstack]) fun hm => ?_)
      refine (List.mem_cons.mp hm).resolve_left ?_
      rintro ⟨⟩
      exact hne rfl
  | iret hrest hf hheld hstack => exact .inl (moved (by rw [hstack]) (List.mem_cons_of_mem _))
  | @context p hf hidle hstack =>
    refine .inl ?_
    obtain rfl | ht := eq_or_ne t (.proc p)
    · rw [hstack, Function.update_self] at hm
      cases List.mem_singleton.mp hm
    · exact moved (by rw [hstack, Function.update_of_ne ht])
        fun hm => List.mem_cons_of_mem _ (drop (by rintro ⟨⟩) hm)
  | switch hf hg hstack =>
    refine .inl (moved (by rw [hstack]) fun hm => List.mem_cons_of_mem _ (drop ?_ hm))
    obtain ⟨pc, pc', -, rfl⟩ | ⟨q, -, rfl⟩ := hf <;> rintro ⟨⟩

theorem panics_of_step (h : Sound s) (hd : Dead s) (hl : Loading s)
    (hs : s.stack (s.running c) = f :: rest) (htr : Transition nofile s c s')
    (htop : s'.stack (s'.running c) = .panic msg :: f :: rest) : s.Panics c f msg := by
  have self {fs gs : List (Frame n)} (hgs : Function.update s.stack (s.running c) fs (s.running c) = gs) :
      fs = gs := by
    rwa [Function.update_self] at hgs
  have short {f' g : Frame n} {rest' : List (Frame n)} (hs' : s.stack (s.running c) = f' :: rest')
      (hgs : g :: rest' = .panic msg :: f :: rest) : s.Panics c f msg := by
    obtain ⟨rfl, rfl⟩ := List.cons.inj (hs.symm.trans hs')
    exact absurd (congrArg List.length (List.cons.inj hgs).2) (by simp)
  cases htr with
  | acquireAgain hs' ha hl' =>
    obtain ⟨rfl, rfl⟩ := List.cons.inj (hs.symm.trans hs')
    cases self htop
    exact panics_of_acquire h hs ha hl'
  | releaseOther hs' ha hl' =>
    refine absurd (h.holder_of_mem ?_) hl'
    rw [hs', held_cons, (h.disciplined hs' ha).1]
    exact Multiset.mem_add.mpr (.inl (Multiset.mem_cons_self _ _))
  | panic hs' ha =>
    obtain ⟨rfl, rfl⟩ := List.cons.inj (hs.symm.trans hs')
    cases self htop
    exact panics_of_code h hd hl hs ha
  | acquire hs' | release hs' | exec hs' | setProc hs' => exact short hs' (self htop)
  | call hs' ha =>
    cases self htop
    cases code_starts ha
  | ret hs' | iret hs' =>
    obtain ⟨rfl, rfl⟩ := List.cons.inj (hs.symm.trans hs')
    exact absurd (congrArg List.length (self htop)) (by simp)
  | interrupt => cases self htop
  | @setContext x f' g rest' p hs' ha =>
    change Function.update (Function.update s.stack (s.running c) (g :: rest')) (.proc p)
      [Frame.forkret p .release] (s.running c) = _ at htop
    obtain hp | hp := eq_or_ne (s.running c) (.proc p)
    · rw [hp, Function.update_self] at htop
      cases htop
    · rw [Function.update_of_ne hp] at htop
      exact short hs' (self htop)
  | @swtchTo x f' g rest' p hs' ha =>
    obtain ⟨rfl, rfl⟩ := h.plays hs' ha
    have hok := h.stack (s.running c)
    rw [hs'] at hok
    obtain rfl := hok.rest_eq_nil (.inl rfl)
    have hrun := h.running_cpu hs' rfl
    have hstate : s.shared.states p = .running :=
      h.known c (p, .running) (by rw [hs']; exact List.mem_cons_self)
    have hidle : s.Idle p := h.idle c p (by rw [← hrun, hs']; rfl)
    obtain ⟨g, below, hfs, hg⟩ := h.resumable p hidle (.inr (.inr hstate))
    change Function.update s.stack (s.running c) _ (Function.update s.running c (.proc p) c) = _ at htop
    have hgs : s.stack (.proc p) = .panic msg :: f :: rest := by
      rwa [Function.update_self, Function.update_of_ne (hidle c).symm] at htop
    obtain rfl | rfl := hg <;> cases hfs.symm.trans hgs
  | @swtchBack x f' g rest' hs' ha =>
    obtain ⟨q, rfl, rfl⟩ := h.plays hs' ha
    have hok := h.stack (s.running c)
    rw [hs'] at hok
    have hrun : s.running c = .proc q := hok.on
    obtain hcpu | ⟨q', -, hcpu⟩ := h.mode c
    · cases hrun.symm.trans hcpu
    · have hne : (Thread.cpu c : Thread n C) ≠ s.running c := by
        rw [hrun]
        rintro ⟨⟩
      change Function.update s.stack (s.running c) _ (Function.update s.running c (.cpu c) c) = _ at htop
      rw [Function.update_self, Function.update_of_ne hne, hcpu] at htop
      cases htop

/-- The only panics in a run are those of the first process, when there is no memory for it, its
program cannot be loaded or it exits, and of code of other files that takes a lock twice. -/
theorem panics_of_reachable {b : C} (hr : (kernel n nofile b).Reachable s) :
    (∀ msg, s.Panicked msg → msg ∈ ["kerneltrap", "exec", "init exiting", "acquire"]) ∧
      ∀ c x s' f rest msg, s.step nofile (c, x) = some s' → s.stack (s.running c) = f :: rest →
        s'.stack (s'.running c) = .panic msg :: f :: rest → s.Panics c f msg := by
  have step {s : State n C} (hr : (kernel n nofile b).Reachable s) {c : C} {s' : State n C}
      {f : Frame n} {rest : List (Frame n)} {msg : String} (htr : Transition nofile s c s')
      (hs : s.stack (s.running c) = f :: rest)
      (htop : s'.stack (s'.running c) = .panic msg :: f :: rest) : s.Panics c f msg :=
    panics_of_step (.of_reachable hr) (.of_reachable hr) (.of_reachable hr) hs htr htop
  refine ⟨?_, fun c x s' f rest msg hstep hs htop => step hr (State.step_transition hstep) hs htop⟩
  induction hr with
  | init =>
    rintro msg ⟨t, hm⟩
    obtain ⟨pc, hf⟩ := State.boot_main hm
    cases hf
  | @step s s' l hr hstep ih =>
    intro msg hm
    have h := Sound.of_reachable hr
    have htr : Transition nofile s l.1 s' := State.step_transition hstep
    obtain ⟨f, rest, e, hs, hturn⟩ := h.turn_transition htr
    obtain hold | htop := hturn.panicked h hs hm
    · exact ih msg hold
    · cases step hr htr hs htop <;> decide

def firstExits : List (Unit × Choice) :=
  steps 14 ++ ((), .alloc 0) :: steps 23 ++ ((), .ret 0) :: steps 3 ++ ((), .ret 0) :: steps 4 ++
    trapWith 2 0 0 :: steps 3

theorem panics_of_reachable_first : ∃ s : State 2 Unit, (kernel 2 0 ()).Reachable s ∧
    ∃ f, s.Top () f ∧ s.Panics () f "init exiting" := by
  have hrun : ∃ (s s' : State 2 Unit) (f : Frame 2) (rest : List (Frame 2)),
      (kernel 2 0 ()).run (kernel 2 0 ()).init firstExits = some s ∧
        s.step 0 ((), .run) = some s' ∧ s.stack (s.running ()) = f :: rest ∧
        s'.stack (s'.running ()) = .panic "init exiting" :: f :: rest :=
    ⟨_, _, _, _, rfl, rfl, rfl, rfl⟩
  obtain ⟨s, s', f, rest, hs, hstep, hstack, htop⟩ := hrun
  have hr := System.reachable_of_run _ hs
  exact ⟨s, hr, f, ⟨rest, hstack⟩,
    (panics_of_reachable hr).2 () .run s' f rest "init exiting" hstep hstack htop⟩

end Panics

end MultithreadMayhem.Kernel
