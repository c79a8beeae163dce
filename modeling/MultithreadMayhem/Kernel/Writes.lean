import MultithreadMayhem.Kernel.Dispatch
import MultithreadMayhem.Kernel.Event

/-!
# What the statements write

`Write` lists the writes of the kernel to the table, to `nextpid` and to the private
fields of the processes, with the frames before and after the statement. A write to a
process that runs is one of its own, and a process that is being made is written by its
maker.
-/

namespace MultithreadMayhem.Kernel

variable {n nofile : ℕ} {C : Type} {x : Ctx n} {t : Thread n C} {sh : Shared n}
  {f g : Frame n} {p : Fin n}

def Frame.special : Frame n → Bool
  | allocproc (.setPid _ _) | allocproc (.init _) | allocproc (.freeproc _) | allocpid (.advance _)
  | kfork _ (.freeproc _) | kfork _ (.setParent _ _) | reparent _ (.setParent _)
  | kexit _ _ (.clearFile _) | kexit _ _ .clearCwd | kexit _ _ .setXstate | kexit _ _ .setState
  | kwait _ _ (.freeproc _ _) | setkilled _ .set | syscall _ .count => true
  | _ => false

inductive Frame.Frees (sh : Shared n) (j : Fin n) : Frame n → Frame n → Event n → Prop
  | alloc : Frees sh j (allocproc (.freeproc j)) (allocproc (.releaseFreed j))
      (.abandon j (sh.proc j).pid)
  | fork {p : Fin n} : Frees sh j (kfork p (.freeproc j)) (kfork p (.releaseFreed j))
      (.abandon j (sh.proc j).pid)
  | reap {p : Fin n} {addr : BitVec 64} {pid : Int} :
      Frees sh j (kwait p addr (.freeproc j pid)) (kwait p addr (.releaseSlot j pid))
        (.reap (sh.proc p).pid j (sh.proc j).pid)

inductive Write (x : Ctx n) (t : Thread n C) :
    Shared n → Frame n → Frame n → Option (Event n) → Prop
  | globals {sh : Shared n} {f g : Frame n} (hf : f.special = false)
      (hproc : sh.proc = x.shared.proc)
      (hparent : sh.parent = x.shared.parent) (himage : sh.image = x.shared.image)
      (hnext : sh.nextpid = x.shared.nextpid) : Write x t sh f g none
  | copyout {p j : Fin n} {addr : BitVec 64} {pid : Int} :
      Write x t x.shared (.kwait p addr (.copyout j pid)) (.kwait p addr (.freeproc j pid))
        (some (.copyout (x.proc j).pid (x.proc j).xstate))
  | info {p : Fin n} {v : Int} : Write x t x.shared (.syscall p .dispatch) (.syscall p (.store v))
        (some (.info p (x.proc p).threadInfo))
  | advance {pid : Int} : Write x t { x.shared with nextpid := wrapInt (x.shared.nextpid + 1) }
      (.allocpid (.advance pid)) (.allocpid (.release pid)) (some (.pid pid))
  | setPid {p : Fin n} {pid : Int} : Write x t (x.shared.setProc p { x.proc p with pid := pid })
      (.allocproc (.setPid p pid)) (.allocproc (.init p)) none
  | init {p : Fin n} :
      Write x t ((x.shared.setProc p (x.proc p).initialized).setImage p
        { x.image p with syscalls := 0 }) (.allocproc (.init p)) (.allocproc (.trapframe p))
        (some (.alloc p (x.proc p).pid))
  | free {j : Fin n} {f g : Frame n} {e : Event n} (hf : f.Frees x.shared j g e) :
      Write x t (x.shared.freeproc j) f g (some e)
  | state {j : Fin n} {st : Procstate} {f g : Frame n} (hf : f.special = false)
      (hj : Lock.proc j ∈ f.locks)
      (hold : x.shared.states j ≠ .unused ∧ x.shared.states j ≠ .zombie)
      (hnew : st = .runnable ∨ st = .running ∨ st = .sleeping) :
      Write x t (x.shared.setState j st) f g none
  | chan {p : Fin n} {ch : Chan n} {lk : Lock n} {pc pc' : SleepPc} {ch' : Option (Chan n)}
      (hrun : x.shared.states p = .running) (hp : Lock.proc p ∈ (Frame.sleep p ch lk pc).locks) :
      Write x t (x.shared.setProc p { x.proc p with chan := ch' }) (.sleep p ch lk pc)
        (.sleep p ch lk pc') none
  | fork {p np : Fin n} {pid : Int} (hnp : x.shared.states np = .used) :
      Write x t (x.shared.setParent np (some p)) (.kfork p (.setParent np pid))
        (.kfork p (.releaseWait np pid)) (some (.fork (x.proc p).pid pid))
  | reparent {p pp : Fin n} : Write x t (x.shared.setParent pp x.shared.initproc)
      (.reparent p (.setParent pp)) (.reparent p (.wakeup pp)) none
  | setXstate {p : Fin n} {status : Int} (hrun : x.shared.states p = .running) :
      Write x t (x.shared.setProc p { x.proc p with xstate := status })
        (.kexit p status .setXstate) (.kexit p status .setState) none
  | exit {p : Fin n} {status : Int} (hrun : x.shared.states p = .running) :
      Write x t (x.shared.setState p .zombie) (.kexit p status .setState)
        (.kexit p status .releaseWait) (some (.exit (x.proc p).pid status))
  | setkilled {p : Fin n} (hrun : x.shared.states p = .running) :
      Write x t (x.shared.setProc p { x.proc p with killed := 1 }) (.setkilled p .set)
        (.setkilled p .release) none
  | hit {op : PidOp} {p : Fin n} {q : Proc n} {v : Int} (hq : op.hit (x.proc p) = some (q, v)) :
      Write x t (x.shared.setProc p q) (.pidScan op (.test p)) (.pidScan op (.releaseFound p v))
        (some (.hit op p (x.proc p)))
  /-- The maker of a process fills in its private fields. -/
  | make {j : Fin n} {m : Image} {f g : Frame n} (hf : f.special = false)
      (hj : x.shared.states j = .used) (hbuilds : f.builds = {j} ∧ g.builds = {j}) (hlock : Lock.proc j ∈ f.locks)
      (hready : f.ready = {j} ∨ m.ofile = (x.image j).ofile ∧ m.cwd = (x.image j).cwd)
      (hm : m.syscalls = (x.image j).syscalls) : Write x t (x.shared.setImage j m) f g none
  /-- A process changes its own private fields, but not its count of system calls. -/
  | own {p : Fin n} {m : Image} {f g : Frame n} (hf : f.special = false) (ht : t = .proc p)
      (hrun : x.shared.states p = .running)
      (hfn : f.fn = .process p ∨ f.fn = .syscall p ∨ f.fn = .ext)
      (hm : m.syscalls = (x.image p).syscalls)
      (hfiles : ∀ fd, x.nofile ≤ fd → m.ofile fd = (x.image p).ofile fd) :
      Write x t (x.shared.setImage p m) f g none
  | count {p : Fin n} (hrun : x.shared.states p = .running) :
      Write x t (x.shared.setImage p
        { x.image p with syscalls := wrapInt ((x.image p).syscalls + 1) })
        (.syscall p .count) (.syscall p .dispatch) none
  | clearFile {p : Fin n} {status : Int} {fd : ℕ} (hrun : x.shared.states p = .running) :
      Write x t (x.shared.setImage p
        { x.image p with ofile := Function.update (x.image p).ofile fd none })
        (.kexit p status (.clearFile fd)) (.kexit p status (.testFile (fd + 1))) none
  | clearCwd {p : Fin n} {status : Int} (hrun : x.shared.states p = .running) :
      Write x t (x.shared.setImage p { x.image p with cwd := none })
        (.kexit p status .clearCwd) (.kexit p status .acquireWait) none

namespace Write

theorem refl (hf : f.special = false) : Write x t x.shared f g none := .globals hf rfl rfl rfl rfl

end Write

theorem PidOp.hit_ids {op : PidOp} {p q : Proc n} {v : Int} (h : op.hit p = some (q, v)) :
    q.pid = p.pid ∧ q.tgid = p.tgid ∧ q.isThread = p.isThread ∧
      (q.state = .unused ↔ p.state = .unused) := by
  cases op with
  | kkill pid =>
    simp only [PidOp.hit, Kernel.kkill] at h
    split at h <;> cases h
    refine ⟨rfl, rfl, rfl, ?_⟩
    change (if p.state = .sleeping then Procstate.runnable else p.state) = .unused ↔ _
    split
    · rename_i hst
      rw [hst]
      exact ⟨by rintro ⟨⟩, by rintro ⟨⟩⟩
    · rfl
  | setPriority pid prio =>
    simp only [PidOp.hit, Kernel.setPriority] at h
    split at h <;> cases h
    exact ⟨rfl, rfl, rfl, .rfl⟩
  | getPriority pid =>
    simp only [PidOp.hit, Kernel.getPriority] at h
    split at h <;> cases h
    exact ⟨rfl, rfl, rfl, .rfl⟩

section Code

theorem Frame.Relies.self (h : f.Relies x t) (ht : t = .proc p) (hl : f.leaving = false) :
    x.shared.states p = .running := by
  have hrun := h.running p ht
  rw [hl] at hrun
  exact hrun

theorem Frame.Frees.ends {j : Fin n} {e : Event n} (h : f.Frees x.shared j g e)
    (hrel : f.Relies x t) : x.shared.states j = .used ∨ x.shared.states j = .zombie := by
  cases h with
  | alloc | fork => exact .inl (hrel.builds j (Multiset.mem_singleton_self j))
  | reap => exact .inr (hrel.knows (j, .zombie) (List.mem_singleton_self _))

theorem Frame.Frees.live {j : Fin n} {e : Event n} (h : f.Frees x.shared j g e)
    (hrel : f.Relies x t) : x.shared.states j ≠ .unused := by
  obtain hj | hj := h.ends hrel
  · rw [hj]
    exact nofun
  · rw [hj]
    exact nofun

theorem main_write {pc : MainPc} (ha : main x pc = .exec sh g) :
    Write x t sh (.main pc) g ((Frame.main pc).event x.shared g) := by
  cases pc with
  | start =>
    cases ha
    exact .globals rfl rfl rfl rfl rfl
  | waiting =>
    simp only [main] at ha
    split at ha <;> cases ha
    exact .refl rfl
  | _ => cases ha

theorem userinit_write {pc : UserinitPc n} (h : (Frame.userinit pc).Relies x t)
    (ha : userinit x pc = .exec sh g) :
    Write x t sh (.userinit pc) g ((Frame.userinit pc).event x.shared g) := by
  cases pc with
  | setInitproc p =>
    cases ha
    exact .globals rfl rfl rfl rfl rfl
  | setCwd p =>
    cases p with
    | none => cases ha
    | some p =>
      cases ha
      exact .make rfl (h.builds p (Multiset.mem_singleton_self p)) ⟨rfl, rfl⟩
        (Multiset.mem_singleton_self _) (.inl rfl) rfl
  | setState p =>
    cases ha
    have hused := h.builds p (Multiset.mem_singleton_self p)
    refine .state rfl (Multiset.mem_singleton_self _) ?_ (.inl rfl)
    rw [hused]
    exact ⟨nofun, nofun⟩
  | _ => cases ha

theorem allocproc_write {pc : AllocprocPc n} (h : (Frame.allocproc pc).Relies x t)
    (ha : allocproc x pc = .exec sh g) :
    Write x t sh (.allocproc pc) g ((Frame.allocproc pc).event x.shared g) := by
  cases pc with
  | loop i =>
    simp only [allocproc] at ha
    split at ha <;> cases ha <;> exact .refl rfl
  | test p =>
    simp only [allocproc] at ha
    split at ha <;> cases ha <;> exact .refl rfl
  | setPid p pid =>
    cases ha
    exact .setPid
  | init p =>
    cases ha
    exact .init
  | trapframe p | pagetable p =>
    have hused := h.builds p (Multiset.mem_singleton_self p)
    simp only [allocproc] at ha
    split at ha <;> cases ha <;>
      exact .make rfl hused ⟨rfl, rfl⟩ (Multiset.mem_singleton_self _) (.inr ⟨rfl, rfl⟩) rfl
  | freeproc p =>
    cases ha
    exact .free .alloc
  | _ => cases ha

theorem allocpid_write {pc : AllocpidPc} (ha : allocpid x pc = .exec sh g) :
    Write x t sh (.allocpid pc) g ((Frame.allocpid pc).event x.shared g) := by
  cases pc with
  | read =>
    cases ha
    exact .refl rfl
  | advance pid =>
    cases ha
    exact .advance
  | _ => cases ha

theorem kfork_write {pc : KforkPc n} (h : (Frame.kfork p pc).Relies x t)
    (ha : kfork x p pc = .exec sh g) :
    Write x t sh (.kfork p pc) g ((Frame.kfork p pc).event x.shared g) := by
  have make {np : Fin n} {m : Image} {pc' : KforkPc n} (hpc : (Frame.kfork p pc).builds = {np})
      (hpc' : (Frame.kfork p pc').builds = {np}) (hlock : Lock.proc np ∈ (Frame.kfork p pc).locks)
      (hready : (Frame.kfork p pc).ready = {np}) (hf : (Frame.kfork p pc).special = false) (hm : m.syscalls = (x.image np).syscalls) :
      Write x t (x.shared.setImage np m) (.kfork p pc) (.kfork p pc') none :=
    .make hf (h.builds np (hpc ▸ Multiset.mem_singleton_self np)) ⟨hpc, hpc'⟩ hlock (.inl hready) hm
  cases pc with
  | uvmcopy np =>
    simp only [kfork] at ha
    split at ha <;> cases ha <;> exact .refl rfl
  | freeproc np =>
    cases ha
    exact .free .fork
  | filedup np i =>
    simp only [kfork] at ha
    repeat' split at ha
    · cases ha
      exact make rfl rfl (Multiset.mem_singleton_self _) rfl rfl rfl
    · cases ha
      exact .refl rfl
    · cases ha
      exact .refl rfl
  | readPid np =>
    cases ha
    exact .refl rfl
  | setParent np pid =>
    cases ha
    exact .fork (h.builds np (Multiset.mem_singleton_self np))
  | setState np pid =>
    cases ha
    have hused := h.builds np (Multiset.mem_singleton_self np)
    refine .state rfl (Multiset.mem_singleton_self _) ?_ (.inl rfl)
    rw [hused]
    exact ⟨by rintro ⟨⟩, by rintro ⟨⟩⟩
  | setSz np | copyTrapframe np | setA0 np | idup np | copyName np =>
    cases ha
    exact make rfl rfl (Multiset.mem_singleton_self _) rfl rfl rfl
  | _ => cases ha

theorem forkret_write {pc : ForkretPc} (h : (Frame.forkret p pc).Relies x t)
    (ha : forkret x p pc = .exec sh g) :
    Write x t sh (.forkret p pc) g ((Frame.forkret p pc).event x.shared g) := by
  cases pc with
  | testFirst =>
    simp only [forkret] at ha
    split at ha <;> cases ha <;> exact .refl rfl
  | clearFirst =>
    cases ha
    exact .globals rfl rfl rfl rfl rfl
  | setA0 v =>
    cases ha
    exact .own rfl h.on (h.self h.on rfl) (.inl rfl) rfl fun _ _ => rfl
  | testA0 v =>
    simp only [forkret] at ha
    split at ha <;> cases ha
    exact .refl rfl
  | userret =>
    cases ha
    exact .refl rfl
  | _ => cases ha

theorem scheduler_write {pc : SchedulerPc n} (h : (Frame.scheduler pc).Relies x t)
    (ha : scheduler x pc = .exec sh g) :
    Write x t sh (.scheduler pc) g ((Frame.scheduler pc).event x.shared g) := by
  cases pc with
  | start =>
    cases ha
    exact .refl rfl
  | loop i best =>
    simp only [scheduler] at ha
    repeat' split at ha
    all_goals
      cases ha
      exact .refl rfl
  | test p best =>
    simp only [scheduler] at ha
    repeat' split at ha
    all_goals
      cases ha
      exact .refl rfl
  | setState b =>
    cases ha
    have hrunnable := h.knows (b, .runnable) (List.mem_singleton_self _)
    refine .state rfl (Multiset.mem_singleton_self _) ?_ (.inr (.inl rfl))
    rw [hrunnable]
    exact ⟨by rintro ⟨⟩, by rintro ⟨⟩⟩
  | _ => cases ha

theorem sched_write {pc : SchedPc} (ha : sched x p pc = .exec sh g) :
    Write x t sh (.sched p pc) g ((Frame.sched p pc).event x.shared g) := by
  cases pc with
  | testLock | testLocks | testState | testIntr =>
    simp only [sched] at ha
    split at ha <;> cases ha
    exact .refl rfl
  | _ => cases ha

theorem yield_write {pc : YieldPc} (h : (Frame.yield p pc).Relies x t)
    (ha : Kernel.yield x p pc = .exec sh g) :
    Write x t sh (.yield p pc) g ((Frame.yield p pc).event x.shared g) := by
  cases pc with
  | setState =>
    cases ha
    refine .state rfl (Multiset.mem_singleton_self _) ?_ (.inl rfl)
    rw [h.self h.on rfl]
    exact ⟨nofun, nofun⟩
  | sched =>
    simp only [Kernel.yield, Ctx.withProc] at ha
    split at ha <;> cases ha
  | _ => cases ha

theorem sleep_write {ch : Chan n} {lk : Lock n} {pc : SleepPc}
    (h : (Frame.sleep p ch lk pc).Relies x t) (ha : Kernel.sleep x p ch lk pc = .exec sh g) :
    Write x t sh (.sleep p ch lk pc) g ((Frame.sleep p ch lk pc).event x.shared g) := by
  cases pc with
  | setChan | clearChan =>
    cases ha
    exact .chan (h.self h.on rfl) (Multiset.mem_singleton_self _)
  | setState =>
    cases ha
    refine .state rfl (Multiset.mem_singleton_self _) ?_ (.inr (.inr rfl))
    rw [h.self h.on rfl]
    exact ⟨nofun, nofun⟩
  | sched =>
    simp only [Kernel.sleep, Ctx.withProc] at ha
    split at ha <;> cases ha
  | _ => cases ha

theorem wakeup_write {ch : Option (Chan n)} {pc : WakeupPc n} (ha : wakeup x ch pc = .exec sh g) :
    Write x t sh (.wakeup ch pc) g ((Frame.wakeup ch pc).event x.shared g) := by
  cases pc with
  | loop i =>
    simp only [wakeup] at ha
    repeat' split at ha
    all_goals
      cases ha
      exact .refl rfl
  | test p =>
    simp only [wakeup] at ha
    split at ha
    · rename_i hsleeping
      cases ha
      have hstate : x.shared.states p = .sleeping := hsleeping.1
      refine .state rfl (Multiset.mem_singleton_self _) ?_ (.inl rfl)
      rw [hstate]
      exact ⟨by rintro ⟨⟩, by rintro ⟨⟩⟩
    · cases ha
      exact .refl rfl
  | _ => cases ha

theorem reparent_write {pc : ReparentPc n} (ha : reparent x p pc = .exec sh g) :
    Write x t sh (.reparent p pc) g ((Frame.reparent p pc).event x.shared g) := by
  cases pc with
  | loop i =>
    simp only [reparent] at ha
    repeat' split at ha
    all_goals
      cases ha
      exact .refl rfl
  | setParent pp =>
    cases ha
    exact .reparent
  | _ => cases ha

theorem kexit_write {status : Int} {pc : KexitPc} (h : (Frame.kexit p status pc).Relies x t)
    (ha : kexit x p status pc = .exec sh g) :
    Write x t sh (.kexit p status pc) g ((Frame.kexit p status pc).event x.shared g) := by
  cases pc with
  | testInit =>
    simp only [kexit] at ha
    split at ha <;> cases ha
    exact .refl rfl
  | testFile fd =>
    simp only [kexit] at ha
    repeat' split at ha
    all_goals
      cases ha
      exact .refl rfl
  | clearFile fd =>
    cases ha
    exact .clearFile (h.self h.on rfl)
  | clearCwd =>
    cases ha
    exact .clearCwd (h.self h.on rfl)
  | setXstate =>
    cases ha
    exact .setXstate (h.self h.on rfl)
  | setState =>
    cases ha
    exact .exit (h.self h.on rfl)
  | sched =>
    simp only [kexit, Ctx.withProc] at ha
    split at ha <;> cases ha
  | _ => cases ha

theorem kwait_write {addr : BitVec 64} {pc : KwaitPc n} (ha : kwait x p addr pc = .exec sh g) :
    Write x t sh (.kwait p addr pc) g ((Frame.kwait p addr pc).event x.shared g) := by
  cases pc with
  | loop i havekids =>
    simp only [kwait] at ha
    repeat' split at ha
    all_goals
      cases ha
      exact .refl rfl
  | test pp | testKilled k =>
    simp only [kwait] at ha
    split at ha <;> cases ha <;> exact .refl rfl
  | copyout pp pid =>
    have copied : Write x t x.shared (.kwait p addr (.copyout pp pid))
        (.kwait p addr (.freeproc pp pid)) ((Frame.kwait p addr (.copyout pp pid)).event x.shared
          (.kwait p addr (.freeproc pp pid))) := by
      simp only [Frame.event]
      split
      · exact .refl rfl
      · exact .copyout
    simp only [kwait] at ha
    repeat' split at ha
    · cases ha
      exact copied
    · cases ha
      exact .refl rfl
    · cases ha
      exact copied
  | freeproc pp pid =>
    cases ha
    exact .free .reap
  | sleep =>
    simp only [kwait, Ctx.withProc] at ha
    split at ha <;> cases ha
  | _ => cases ha

theorem killed_write {pc : KilledPc} (ha : Kernel.killed x p pc = .exec sh g) :
    Write x t sh (.killed p pc) g ((Frame.killed p pc).event x.shared g) := by
  cases pc with
  | read =>
    cases ha
    exact .refl rfl
  | _ => cases ha

theorem setkilled_write {pc : SetkilledPc} (h : (Frame.setkilled p pc).Relies x t)
    (ha : Kernel.setkilled x p pc = .exec sh g) :
    Write x t sh (.setkilled p pc) g ((Frame.setkilled p pc).event x.shared g) := by
  cases pc with
  | set =>
    cases ha
    exact .setkilled (h.self h.on rfl)
  | _ => cases ha

theorem pidScan_write {op : PidOp} {pc : PidScanPc n} (ha : pidScan x op pc = .exec sh g) :
    Write x t sh (.pidScan op pc) g ((Frame.pidScan op pc).event x.shared g) := by
  cases pc with
  | loop i =>
    simp only [pidScan] at ha
    split at ha <;> cases ha <;> exact .refl rfl
  | test p =>
    simp only [pidScan] at ha
    split at ha
    · rename_i q v hq
      cases ha
      exact .hit hq
    · cases ha
      exact .refl rfl
  | _ => cases ha

theorem syscall_write {pc : SyscallPc} (h : (Frame.syscall p pc).Relies x t)
    (ha : syscall x p pc = .exec sh g) :
    Write x t sh (.syscall p pc) g ((Frame.syscall p pc).event x.shared g) := by
  cases pc with
  | count =>
    cases ha
    exact .count (h.self h.on rfl)
  | store v =>
    cases ha
    exact .own rfl h.on (h.self h.on rfl) (.inr (.inl rfl)) rfl fun _ _ => rfl
  | dispatch =>
    have stored (v : Int) : Write x t x.shared (.syscall p .dispatch) (.syscall p (.store v))
        ((Frame.syscall p .dispatch).event x.shared (.syscall p (.store v))) := by
      simp only [Frame.event]
      split
      · exact .info
      · exact .refl rfl
    simp only [syscall, dispatch, Ctx.withProc] at ha
    repeat' split at ha
    all_goals cases ha <;> exact stored _
  | _ => cases ha

theorem user_write {pc : UserPc} (h : (Frame.user p pc).Relies x t)
    (ha : user x p pc = .exec sh g) :
    Write x t sh (.user p pc) g ((Frame.user p pc).event x.shared g) := by
  cases pc with
  | run =>
    simp only [user, Ctx.withProc] at ha
    repeat' split at ha
    all_goals cases ha <;> exact .own rfl h.on (h.self h.on rfl) (.inl rfl) rfl fun _ _ => rfl
  | syscall =>
    simp only [user, Ctx.withProc] at ha
    split at ha <;> cases ha
  | _ => cases ha

theorem ext_write {kind : ExtKind} {pc : ExtPc} (h : (Frame.ext kind pc).Relies x t)
    (hme : ∀ q, x.me = some q → t = .proc q) (ha : ext x kind pc = .exec sh g) :
    Write x t sh (.ext kind pc) g ((Frame.ext kind pc).event x.shared g) := by
  cases pc with
  | run held =>
    simp only [ext, Ctx.withProc] at ha
    split at ha
    case h_7 =>
      split at ha
      · cases ha
      · rename_i hkind
        obtain rfl := not_not.mp hkind
        split at ha <;> cases ha
        exact .own rfl (hme _ ‹_›) (h.self (hme _ ‹_›) rfl) (.inr (.inr rfl)) rfl fun fd hfd =>
          if_neg (not_lt.mpr hfd)
    all_goals
      repeat' split at ha
      all_goals cases ha <;> exact .refl rfl
  | done v =>
    simp only [ext] at ha
    split at ha <;> cases ha
  | _ => cases ha

theorem code_write (h : f.Relies x t) (hme : f.fn ≠ .idle → ∀ q, x.me = some q → t = .proc q)
    (ha : code x f = .exec sh g) :
    Write x t sh f g (f.event x.shared g) := by
  cases f with
  | main pc => exact main_write ha
  | userinit pc => exact userinit_write h ha
  | allocproc pc => exact allocproc_write h ha
  | allocpid pc => exact allocpid_write ha
  | kfork p pc => exact kfork_write h ha
  | forkret p pc => exact forkret_write h ha
  | scheduler pc => exact scheduler_write h ha
  | sched p pc => exact sched_write ha
  | yield p pc => exact yield_write h ha
  | sleep p ch lk pc => exact sleep_write h ha
  | wakeup ch pc => exact wakeup_write ha
  | reparent p pc => exact reparent_write ha
  | kexit p status pc => exact kexit_write h ha
  | kwait p addr pc => exact kwait_write ha
  | killed p pc => exact killed_write ha
  | setkilled p pc => exact setkilled_write h ha
  | pidScan op pc => exact pidScan_write ha
  | syscall p pc => exact syscall_write h ha
  | user p pc => exact user_write h ha
  | ext kind pc => exact ext_write h (hme (by cases kind <;> nofun)) ha
  | panic msg => cases ha

end Code

variable [DecidableEq C] {s : State n C} {c : C} {rest : List (Frame n)} {y : Choice}

theorem Sound.write (h : Sound s) (hs : s.stack (s.running c) = f :: rest)
    (ha : code (s.ctx nofile c y) f = .exec sh g) :
    Write (s.ctx nofile c y) (s.running c) sh f g (f.event s.shared g) := by
  refine code_write (h.relies hs y) (fun hf => h.me_eq hs (fun hp => ?_) hf) ha
  cases f with
  | panic msg => cases ha
  | ext kind => cases kind <;> cases hp
  | _ => cases hp

end MultithreadMayhem.Kernel
