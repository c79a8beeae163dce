import MultithreadMayhem.Kernel.Plays

/-!
# Sleepers, zombies and parents

`Deed` lists the statements of the kernel by which a process falls asleep, becomes a
zombie or gets a parent, and those that set `initproc` and `started`. All the others
are quiet: at most they wake a process, free a slot or clear a parent.
-/

namespace MultithreadMayhem.Kernel

variable {n : ℕ} {x : Ctx n} {sh sh' : Shared n} {f next : Frame n} {p j : Fin n}

def Shared.Asleep (sh : Shared n) (j : Fin n) : Prop :=
  (sh.proc j).state = .sleeping ∧ (sh.proc j).chan = some (.proc j)

structure Quiet (sh sh' : Shared n) : Prop where
  asleep : ∀ j, sh'.Asleep j → sh.Asleep j
  zombie : ∀ j, (sh'.proc j).state = .zombie → (sh.proc j).state = .zombie
  parent : ∀ j p, sh'.parent j = some p → sh.parent j = some p
  initproc : sh'.initproc = sh.initproc
  started : sh'.started = sh.started

inductive Deed (sh sh' : Shared n) : Frame n → Frame n → Prop
  | quiet {f g : Frame n} (h : Quiet sh sh') : Deed sh sh' f g
  | setChan {p : Fin n} {ch : Chan n} {lk : Lock n}
      (h : sh' = sh.setProc p { sh.proc p with chan := some ch }) :
      Deed sh sh' (.sleep p ch lk .setChan) (.sleep p ch lk .setState)
  | sleep {p : Fin n} {ch : Chan n} {lk : Lock n} (h : sh' = sh.setState p .sleeping) :
      Deed sh sh' (.sleep p ch lk .setState) (.sleep p ch lk .sched)
  | exit {p : Fin n} {status : Int} (h : sh' = sh.setState p .zombie) :
      Deed sh sh' (.kexit p status .setState) (.kexit p status .releaseWait)
  | fork {p np : Fin n} {pid : Int} (h : sh' = sh.setParent np (some p)) :
      Deed sh sh' (.kfork p (.setParent np pid)) (.kfork p (.releaseWait np pid))
  | reparent {p pp : Fin n} (h : sh' = sh.setParent pp sh.initproc) :
      Deed sh sh' (.reparent p (.setParent pp)) (.reparent p (.wakeup pp))
  | initproc {p : Option (Fin n)} (h : sh' = { sh with initproc := p }) :
      Deed sh sh' (.userinit (.setInitproc p)) (.userinit (.setCwd p))
  | start (h : sh' = { sh with started := true }) :
      Deed sh sh' (.main .start) (.scheduler .start)

namespace Quiet

theorem refl : Quiet sh sh :=
  ⟨fun _ h => h, fun _ h => h, fun _ _ h => h, rfl, rfl⟩

theorem setImage {m : Image} : Quiet sh (sh.setImage j m) :=
  ⟨fun _ h => h, fun _ h => h, fun _ _ h => h, rfl, rfl⟩

theorem trans {sh'' : Shared n} (h : Quiet sh sh') (h' : Quiet sh' sh'') : Quiet sh sh'' :=
  ⟨fun j hj => h.asleep j (h'.asleep j hj), fun j hj => h.zombie j (h'.zombie j hj),
    fun j p hj => h.parent j p (h'.parent j p hj), h'.initproc.trans h.initproc,
    h'.started.trans h.started⟩

theorem setProc {q : Proc n}
    (hst : q.state = (sh.proc j).state ∨ q.state ≠ .sleeping ∧ q.state ≠ .zombie)
    (hch : q.chan = (sh.proc j).chan ∨ q.chan = none) : Quiet sh (sh.setProc j q) := by
  refine ⟨fun k hk => ?_, fun k hk => ?_, fun _ _ h => h, rfl, rfl⟩
  · by_cases hkj : k = j
    · subst k
      obtain ⟨hk, hk'⟩ := hk
      rw [Shared.setProc_proc, Function.update_self] at hk hk'
      obtain hst | ⟨hst, -⟩ := hst
      · obtain hch | hch := hch
        · exact ⟨hst.symm.trans hk, hch.symm.trans hk'⟩
        · rw [hch] at hk'
          cases hk'
      · exact absurd hk hst
    · unfold Shared.Asleep at hk
      rwa [Shared.setProc_proc, Function.update_of_ne hkj] at hk
  · by_cases hkj : k = j
    · subst k
      rw [Shared.setProc_proc, Function.update_self] at hk
      obtain hst | ⟨-, hst⟩ := hst
      · exact hst.symm.trans hk
      · exact absurd hk hst
    · rwa [Shared.setProc_proc, Function.update_of_ne hkj] at hk

theorem setState {st : Procstate} (hs : st ≠ .sleeping) (hz : st ≠ .zombie) :
    Quiet sh (sh.setState j st) := setProc (.inr ⟨hs, hz⟩) (.inl rfl)

theorem freeproc : Quiet sh (sh.freeproc j) := by
  have hproc : Quiet sh (sh.setProc j (sh.proc j).freed) :=
    setProc (.inr ⟨nofun, nofun⟩) (.inr rfl)
  refine hproc.trans ?_
  refine ⟨fun _ h => h, fun _ h => h, fun k p hk => ?_, rfl, rfl⟩
  by_cases hkj : k = j
  · subst k
    rw [Shared.freeproc_parent, Function.update_self] at hk
    cases hk
  · rwa [Shared.freeproc_parent, Function.update_of_ne hkj] at hk

end Quiet

section Code

theorem main_deed {pc : MainPc} (ha : main x pc = .exec sh next) :
    Deed x.shared sh (.main pc) next := by
  cases pc with
  | start =>
    cases ha
    exact .start rfl
  | waiting =>
    simp only [main] at ha
    split at ha <;> cases ha
    exact .quiet .refl
  | _ => cases ha

theorem userinit_deed {pc : UserinitPc n} (ha : userinit x pc = .exec sh next) :
    Deed x.shared sh (.userinit pc) next := by
  cases pc with
  | setInitproc p =>
    cases ha
    exact .initproc rfl
  | setCwd p =>
    cases p with
    | none => cases ha
    | some p =>
      cases ha
      exact .quiet .setImage
  | setState p =>
    cases ha
    exact .quiet (.setState nofun nofun)
  | _ => cases ha

theorem allocproc_deed {pc : AllocprocPc n} (ha : allocproc x pc = .exec sh next) :
    Deed x.shared sh (.allocproc pc) next := by
  cases pc with
  | loop i =>
    simp only [allocproc] at ha
    split at ha <;> cases ha <;> exact .quiet .refl
  | test p =>
    simp only [allocproc] at ha
    split at ha <;> cases ha <;> exact .quiet .refl
  | setPid p pid =>
    cases ha
    exact .quiet (.setProc (.inl rfl) (.inl rfl))
  | init p =>
    cases ha
    have hproc : Quiet x.shared (x.shared.setProc p (x.proc p).initialized) :=
      .setProc (.inr ⟨by rintro ⟨⟩, by rintro ⟨⟩⟩) (.inl rfl)
    exact .quiet (hproc.trans .setImage)
  | trapframe p =>
    simp only [allocproc] at ha
    split at ha <;> cases ha <;> exact .quiet .setImage
  | pagetable p =>
    simp only [allocproc] at ha
    split at ha <;> cases ha <;> exact .quiet .setImage
  | freeproc p =>
    cases ha
    exact .quiet .freeproc
  | _ => cases ha

theorem allocpid_deed {pc : AllocpidPc} (ha : allocpid x pc = .exec sh next) :
    Deed x.shared sh (.allocpid pc) next := by
  cases pc with
  | read =>
    cases ha
    exact .quiet .refl
  | advance pid =>
    cases ha
    exact .quiet ⟨fun _ h => h, fun _ h => h, fun _ _ h => h, rfl, rfl⟩
  | _ => cases ha

theorem kfork_deed {pc : KforkPc n} (ha : kfork x p pc = .exec sh next) :
    Deed x.shared sh (.kfork p pc) next := by
  cases pc with
  | uvmcopy np =>
    simp only [kfork] at ha
    split at ha <;> cases ha <;> exact .quiet .refl
  | freeproc np =>
    cases ha
    exact .quiet .freeproc
  | filedup np i =>
    simp only [kfork] at ha
    repeat' split at ha
    all_goals
      cases ha
      first | exact .quiet .setImage | exact .quiet .refl
  | readPid np =>
    cases ha
    exact .quiet .refl
  | setParent np pid =>
    cases ha
    exact .fork rfl
  | setState np pid =>
    cases ha
    exact .quiet (.setState (by rintro ⟨⟩) (by rintro ⟨⟩))
  | setSz np | copyTrapframe np | setA0 np | idup np | copyName np =>
    cases ha
    exact .quiet .setImage
  | _ => cases ha

theorem forkret_deed {pc : ForkretPc} (ha : forkret x p pc = .exec sh next) :
    Deed x.shared sh (.forkret p pc) next := by
  cases pc with
  | testFirst =>
    simp only [forkret] at ha
    split at ha <;> cases ha <;> exact .quiet .refl
  | clearFirst =>
    cases ha
    exact .quiet ⟨fun _ h => h, fun _ h => h, fun _ _ h => h, rfl, rfl⟩
  | setA0 v =>
    cases ha
    exact .quiet .setImage
  | testA0 v =>
    simp only [forkret] at ha
    split at ha <;> cases ha
    exact .quiet .refl
  | userret =>
    cases ha
    exact .quiet .refl
  | _ => cases ha

theorem scheduler_deed {pc : SchedulerPc n} (ha : scheduler x pc = .exec sh next) :
    Deed x.shared sh (.scheduler pc) next := by
  cases pc with
  | start =>
    cases ha
    exact .quiet .refl
  | loop i best =>
    simp only [scheduler] at ha
    repeat' split at ha
    all_goals
      cases ha
      exact .quiet .refl
  | test p best =>
    simp only [scheduler] at ha
    repeat' split at ha
    all_goals
      cases ha
      exact .quiet .refl
  | setState b =>
    cases ha
    exact .quiet (.setState (by rintro ⟨⟩) (by rintro ⟨⟩))
  | _ => cases ha

theorem sched_deed {pc : SchedPc} (ha : sched x p pc = .exec sh next) :
    Deed x.shared sh (.sched p pc) next := by
  cases pc with
  | testLock | testLocks | testState | testIntr =>
    simp only [sched] at ha
    split at ha <;> cases ha
    exact .quiet .refl
  | _ => cases ha

theorem yield_deed {pc : YieldPc} (ha : Kernel.yield x p pc = .exec sh next) :
    Deed x.shared sh (.yield p pc) next := by
  cases pc with
  | setState =>
    cases ha
    exact .quiet (.setState nofun nofun)
  | sched =>
    simp only [Kernel.yield, Ctx.withProc] at ha
    split at ha <;> cases ha
  | _ => cases ha

theorem sleep_deed {ch : Chan n} {lk : Lock n} {pc : SleepPc}
    (ha : Kernel.sleep x p ch lk pc = .exec sh next) : Deed x.shared sh (.sleep p ch lk pc) next := by
  cases pc with
  | setChan =>
    cases ha
    exact .setChan rfl
  | setState =>
    cases ha
    exact .sleep rfl
  | sched =>
    simp only [Kernel.sleep, Ctx.withProc] at ha
    split at ha <;> cases ha
  | clearChan =>
    cases ha
    exact .quiet (.setProc (.inl rfl) (.inr rfl))
  | _ => cases ha

theorem wakeup_deed {ch : Option (Chan n)} {pc : WakeupPc n} (ha : wakeup x ch pc = .exec sh next) :
    Deed x.shared sh (.wakeup ch pc) next := by
  cases pc with
  | loop i =>
    simp only [wakeup] at ha
    repeat' split at ha
    all_goals
      cases ha
      exact .quiet .refl
  | test p =>
    simp only [wakeup] at ha
    split at ha <;> cases ha
    · exact .quiet (.setState (by rintro ⟨⟩) (by rintro ⟨⟩))
    · exact .quiet .refl
  | _ => cases ha

theorem reparent_deed {pc : ReparentPc n} (ha : reparent x p pc = .exec sh next) :
    Deed x.shared sh (.reparent p pc) next := by
  cases pc with
  | loop i =>
    simp only [reparent] at ha
    repeat' split at ha
    all_goals
      cases ha
      exact .quiet .refl
  | setParent pp =>
    cases ha
    exact .reparent rfl
  | _ => cases ha

theorem kexit_deed {status : Int} {pc : KexitPc} (ha : kexit x p status pc = .exec sh next) :
    Deed x.shared sh (.kexit p status pc) next := by
  cases pc with
  | testInit =>
    simp only [kexit] at ha
    split at ha <;> cases ha
    exact .quiet .refl
  | testFile fd =>
    simp only [kexit] at ha
    repeat' split at ha
    all_goals
      cases ha
      exact .quiet .refl
  | clearFile fd | clearCwd =>
    cases ha
    exact .quiet .setImage
  | setXstate =>
    cases ha
    exact .quiet (.setProc (.inl rfl) (.inl rfl))
  | setState =>
    cases ha
    exact .exit rfl
  | sched =>
    simp only [kexit, Ctx.withProc] at ha
    split at ha <;> cases ha
  | _ => cases ha

theorem kwait_deed {addr : BitVec 64} {pc : KwaitPc n} (ha : kwait x p addr pc = .exec sh next) :
    Deed x.shared sh (.kwait p addr pc) next := by
  cases pc with
  | loop i havekids =>
    simp only [kwait] at ha
    repeat' split at ha
    all_goals
      cases ha
      exact .quiet .refl
  | test pp | testKilled k =>
    simp only [kwait] at ha
    split at ha <;> cases ha <;> exact .quiet .refl
  | copyout pp pid =>
    simp only [kwait] at ha
    repeat' split at ha
    all_goals
      cases ha
      exact .quiet .refl
  | freeproc pp pid =>
    cases ha
    exact .quiet .freeproc
  | sleep =>
    simp only [kwait, Ctx.withProc] at ha
    split at ha <;> cases ha
  | _ => cases ha

theorem killed_deed {pc : KilledPc} (ha : Kernel.killed x p pc = .exec sh next) :
    Deed x.shared sh (.killed p pc) next := by
  cases pc with
  | read =>
    cases ha
    exact .quiet .refl
  | _ => cases ha

theorem setkilled_deed {pc : SetkilledPc} (ha : Kernel.setkilled x p pc = .exec sh next) :
    Deed x.shared sh (.setkilled p pc) next := by
  cases pc with
  | set =>
    cases ha
    exact .quiet (.setProc (.inl rfl) (.inl rfl))
  | _ => cases ha

theorem PidOp.hit_chan {op : PidOp} {p q : Proc n} {v : Int} (h : op.hit p = some (q, v)) :
    q.chan = p.chan := by
  cases op with
  | kkill pid =>
    simp only [PidOp.hit, Kernel.kkill] at h
    split at h <;> cases h
    rfl
  | setPriority pid prio =>
    simp only [PidOp.hit, Kernel.setPriority] at h
    split at h <;> cases h
    rfl
  | getPriority pid =>
    simp only [PidOp.hit, Kernel.getPriority] at h
    split at h <;> cases h
    rfl

theorem pidScan_deed {op : PidOp} {pc : PidScanPc n} (ha : pidScan x op pc = .exec sh next) :
    Deed x.shared sh (.pidScan op pc) next := by
  cases pc with
  | loop i =>
    simp only [pidScan] at ha
    split at ha <;> cases ha <;> exact .quiet .refl
  | test p =>
    simp only [pidScan] at ha
    split at ha
    · rename_i q v hq
      cases ha
      refine .quiet (.setProc ?_ (.inl (PidOp.hit_chan hq)))
      obtain hst | ⟨-, hst⟩ := PidOp.hit_state hq
      · exact .inl hst
      · rw [hst]
        exact .inr ⟨by rintro ⟨⟩, by rintro ⟨⟩⟩
    · cases ha
      exact .quiet .refl
  | _ => cases ha

theorem syscall_deed {pc : SyscallPc} (ha : syscall x p pc = .exec sh next) :
    Deed x.shared sh (.syscall p pc) next := by
  cases pc with
  | count | store v =>
    cases ha
    exact .quiet .setImage
  | dispatch =>
    simp only [syscall, dispatch, Ctx.withProc] at ha
    repeat' split at ha
    all_goals cases ha <;> exact .quiet .refl
  | _ => cases ha

theorem user_deed {pc : UserPc} (ha : user x p pc = .exec sh next) :
    Deed x.shared sh (.user p pc) next := by
  cases pc with
  | run =>
    simp only [user, Ctx.withProc] at ha
    repeat' split at ha
    all_goals cases ha <;> exact .quiet .setImage
  | syscall =>
    simp only [user, Ctx.withProc] at ha
    split at ha <;> cases ha
  | _ => cases ha

theorem ext_deed {kind : ExtKind} {pc : ExtPc} (ha : ext x kind pc = .exec sh next) :
    Deed x.shared sh (.ext kind pc) next := by
  cases pc with
  | run held =>
    simp only [ext, Ctx.withProc] at ha
    repeat' split at ha
    all_goals cases ha <;> first | exact .quiet .setImage | exact .quiet .refl
  | done v =>
    simp only [ext] at ha
    split at ha <;> cases ha
  | _ => cases ha

theorem code_deed (ha : code x f = .exec sh next) : Deed x.shared sh f next := by
  cases f with
  | main pc => exact main_deed ha
  | userinit pc => exact userinit_deed ha
  | allocproc pc => exact allocproc_deed ha
  | allocpid pc => exact allocpid_deed ha
  | kfork p pc => exact kfork_deed ha
  | forkret p pc => exact forkret_deed ha
  | scheduler pc => exact scheduler_deed ha
  | sched p pc => exact sched_deed ha
  | yield p pc => exact yield_deed ha
  | sleep p ch lk pc => exact sleep_deed ha
  | wakeup ch pc => exact wakeup_deed ha
  | reparent p pc => exact reparent_deed ha
  | kexit p status pc => exact kexit_deed ha
  | kwait p addr pc => exact kwait_deed ha
  | killed p pc => exact killed_deed ha
  | setkilled p pc => exact setkilled_deed ha
  | pidScan op pc => exact pidScan_deed ha
  | syscall p pc => exact syscall_deed ha
  | user p pc => exact user_deed ha
  | ext kind pc => exact ext_deed ha
  | panic msg => cases ha

end Code

end MultithreadMayhem.Kernel
