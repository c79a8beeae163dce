import MultithreadMayhem.Kernel.Code

/-!
# What the statements use

The places in the globals that a statement reads and writes. The code of a statement
depends on the places it reads only, and it leaves all places alone that it does not
write.
-/

namespace MultithreadMayhem.Kernel

variable {n : ℕ}

/-- The fields of `Proc`, with `tgid` and `is_thread` as one. -/
inductive Field
  | state
  | chan
  | killed
  | xstate
  | pid
  | priority
  | group
  deriving DecidableEq

inductive Place (n : ℕ)
  | field (j : Fin n) (a : Field)
  | parent (j : Fin n)
  | image (j : Fin n)
  | nextpid
  | initproc
  | first
  | started
  deriving DecidableEq

def Field.Same (p q : Proc n) : Field → Prop
  | state => p.state = q.state
  | chan => p.chan = q.chan
  | killed => p.killed = q.killed
  | xstate => p.xstate = q.xstate
  | pid => p.pid = q.pid
  | priority => p.priority = q.priority
  | group => p.isThread = q.isThread ∧ p.tgid = q.tgid

def Place.Same (sh sh' : Shared n) : Place n → Prop
  | field j a => a.Same (sh.proc j) (sh'.proc j)
  | parent j => sh.parent j = sh'.parent j
  | image j => sh.image j = sh'.image j
  | nextpid => sh.nextpid = sh'.nextpid
  | initproc => sh.initproc = sh'.initproc
  | first => sh.first = sh'.first
  | started => sh.started = sh'.started

namespace Place

def freed (j : Fin n) : List (Place n) :=
  [image j, parent j, field j .state, field j .chan, field j .killed, field j .xstate, field j .pid]

def own (me : Option (Fin n)) : List (Place n) := (me.map image).toList

end Place

section Writes

def MainPc.writes : MainPc → List (Place n)
  | .start => [.started]
  | _ => []

def UserinitPc.writes : UserinitPc n → List (Place n)
  | .setInitproc _ => [.initproc]
  | .setCwd p => Place.own p
  | .setState p => [.field p .state]
  | _ => []

def AllocprocPc.writes : AllocprocPc n → List (Place n)
  | .setPid p _ => [.field p .pid]
  | .init p => [.field p .group, .field p .priority, .field p .state, .image p]
  | .trapframe p | .pagetable p => [.image p]
  | .freeproc p => Place.freed p
  | _ => []

def AllocpidPc.writes : AllocpidPc → List (Place n)
  | .advance _ => [.nextpid]
  | _ => []

def KforkPc.writes : KforkPc n → List (Place n)
  | .freeproc np => Place.freed np
  | .setSz np | .copyTrapframe np | .setA0 np | .filedup np _ | .idup np | .copyName np => [.image np]
  | .setParent np _ => [.parent np]
  | .setState np _ => [.field np .state]
  | _ => []

def ForkretPc.writes (p : Fin n) : ForkretPc → List (Place n)
  | .clearFirst => [.first]
  | .setA0 _ => [.image p]
  | _ => []

def SchedulerPc.writes : SchedulerPc n → List (Place n)
  | .setState b => [.field b .state]
  | _ => []

def YieldPc.writes (p : Fin n) : YieldPc → List (Place n)
  | .setState => [.field p .state]
  | _ => []

def SleepPc.writes (p : Fin n) : SleepPc → List (Place n)
  | .setState => [.field p .state]
  | .setChan | .clearChan => [.field p .chan]
  | _ => []

def WakeupPc.writes : WakeupPc n → List (Place n)
  | .test p => [.field p .state]
  | _ => []

def ReparentPc.writes : ReparentPc n → List (Place n)
  | .setParent pp => [.parent pp]
  | _ => []

def KexitPc.writes (p : Fin n) : KexitPc → List (Place n)
  | .clearFile _ | .clearCwd => [.image p]
  | .setXstate => [.field p .xstate]
  | .setState => [.field p .state]
  | _ => []

def KwaitPc.writes : KwaitPc n → List (Place n)
  | .freeproc pp _ => Place.freed pp
  | _ => []

def SetkilledPc.writes (p : Fin n) : SetkilledPc → List (Place n)
  | .set => [.field p .killed]
  | _ => []

def PidOp.writes (p : Fin n) : PidOp → List (Place n)
  | kkill _ => [.field p .killed, .field p .state]
  | setPriority _ _ => [.field p .priority]
  | getPriority _ => []

def PidScanPc.writes (op : PidOp) : PidScanPc n → List (Place n)
  | .test p => op.writes p
  | _ => []

def SyscallPc.writes (p : Fin n) : SyscallPc → List (Place n)
  | .count | .store _ => [.image p]
  | _ => []

def UserPc.writes (p : Fin n) : UserPc → List (Place n)
  | .run => [.image p]
  | _ => []

def ExtPc.writes (me : Option (Fin n)) : ExtPc → List (Place n)
  | .run _ => Place.own me
  | _ => []

/-- The places that the next statement of the frame may write. -/
def Frame.writes (me : Option (Fin n)) : Frame n → List (Place n)
  | main pc => pc.writes
  | userinit pc => pc.writes
  | allocproc pc => pc.writes
  | allocpid pc => pc.writes
  | kfork _ pc => pc.writes
  | forkret p pc => pc.writes p
  | scheduler pc => pc.writes
  | yield p pc => pc.writes p
  | sleep p _ _ pc => pc.writes p
  | wakeup _ pc => pc.writes
  | reparent _ pc => pc.writes
  | kexit p _ pc => pc.writes p
  | kwait _ _ pc => pc.writes
  | setkilled p pc => pc.writes p
  | pidScan op pc => pc.writes op
  | syscall p pc => pc.writes p
  | user p pc => pc.writes p
  | ext .service pc => pc.writes me
  | _ => []

end Writes

section Reads

def MainPc.reads : MainPc → List (Place n)
  | .waiting => [.started]
  | _ => []

def UserinitPc.reads : UserinitPc n → List (Place n)
  | .setCwd p => Place.own p
  | _ => []

def AllocprocPc.reads : AllocprocPc n → List (Place n)
  | .test p => [.field p .state]
  | .init p => [.field p .pid, .image p]
  | .trapframe p | .pagetable p | .freeproc p => [.image p]
  | _ => []

def AllocpidPc.reads : AllocpidPc → List (Place n)
  | .read | .advance _ => [.nextpid]
  | _ => []

def KforkPc.reads (p : Fin n) : KforkPc n → List (Place n)
  | .freeproc np => [.image np]
  | .setSz np | .copyTrapframe np | .setA0 np | .filedup np _ | .idup np | .copyName np =>
    [.image p, .image np]
  | .readPid np => [.field np .pid]
  | _ => []

def ForkretPc.reads (p : Fin n) : ForkretPc → List (Place n)
  | .testFirst => [.first]
  | .setA0 _ => [.image p]
  | _ => []

def SchedulerPc.reads : SchedulerPc n → List (Place n)
  | .test p none => [.field p .state]
  | .test p (some b) => [.field p .state, .field p .priority, .field b .priority]
  | _ => []

def SchedPc.reads (p : Fin n) : SchedPc → List (Place n)
  | .testState => [.field p .state]
  | _ => []

def WakeupPc.reads : WakeupPc n → List (Place n)
  | .test p => [.field p .state, .field p .chan]
  | _ => []

def Place.parentAt (i : ℕ) : List (Place n) := if h : i < n then [.parent ⟨i, h⟩] else []

def ReparentPc.reads : ReparentPc n → List (Place n)
  | .loop i => Place.parentAt i
  | .setParent _ | .wakeup _ => [.initproc]
  | _ => []

def KexitPc.reads (p : Fin n) : KexitPc → List (Place n)
  | .testInit => [.initproc]
  | .testFile _ | .clearFile _ | .clearCwd => [.image p]
  | .wakeup => [.parent p]
  | _ => []

def KwaitPc.reads : KwaitPc n → List (Place n)
  | .loop i _ => Place.parentAt i
  | .test pp => [.field pp .state, .field pp .pid]
  | .copyout pp _ => [.field pp .xstate]
  | .freeproc pp _ => [.image pp]
  | _ => []

def KilledPc.reads (p : Fin n) : KilledPc → List (Place n)
  | .read => [.field p .killed]
  | _ => []

def PidOp.reads (p : Fin n) : PidOp → List (Place n)
  | kkill _ => [.field p .pid, .field p .state, .field p .killed]
  | setPriority _ _ | getPriority _ => [.field p .pid, .field p .state, .field p .priority]

def PidScanPc.reads (op : PidOp) : PidScanPc n → List (Place n)
  | .test p => op.reads p
  | _ => []

def SyscallPc.reads (p : Fin n) : SyscallPc → List (Place n)
  | .count | .store _ => [.image p]
  | .dispatch => [.image p, .field p .pid, .field p .group]
  | _ => []

def UserPc.reads (p : Fin n) : UserPc → List (Place n)
  | .run => [.image p]
  | _ => []

def ExtPc.reads (me : Option (Fin n)) : ExtPc → List (Place n)
  | .run _ => Place.own me
  | _ => []

/-- The places that the next statement of the frame may read. -/
def Frame.reads (me : Option (Fin n)) : Frame n → List (Place n)
  | main pc => pc.reads
  | userinit pc => pc.reads
  | allocproc pc => pc.reads
  | allocpid pc => pc.reads
  | kfork p pc => pc.reads p
  | forkret p pc => pc.reads p
  | scheduler pc => pc.reads
  | sched p pc => pc.reads p
  | wakeup _ pc => pc.reads
  | reparent _ pc => pc.reads
  | kexit p _ pc => pc.reads p
  | kwait _ _ pc => pc.reads
  | killed p pc => pc.reads p
  | pidScan op pc => pc.reads op
  | syscall p pc => pc.reads p
  | user p pc => pc.reads p
  | ext .service pc => pc.reads me
  | _ => []

end Reads

namespace Place

variable {sh : Shared n} {l : Place n} {j : Fin n}

theorem same_refl (sh : Shared n) (l : Place n) : l.Same sh sh := by
  cases l with
  | field j a => cases a <;> first | rfl | exact ⟨rfl, rfl⟩
  | _ => rfl

theorem same_setProc {q : Proc n} (h : ∀ a, l = field j a → a.Same (sh.proc j) q) :
    l.Same sh (sh.setProc j q) := by
  cases l with
  | field i a =>
    simp only [Same, Shared.setProc_proc]
    obtain rfl | hij := eq_or_ne i j
    · rw [Function.update_self]
      exact h a rfl
    · rw [Function.update_of_ne hij]
      exact same_refl sh (field i a)
  | _ => rfl

theorem same_setField {q : Proc n} (a : Field) (h : l ≠ field j a)
    (hq : ∀ b, b = a ∨ b.Same (sh.proc j) q) : l.Same sh (sh.setProc j q) := by
  apply same_setProc
  intro b hb
  refine (hq b).resolve_left ?_
  rintro rfl
  exact h hb

theorem same_setState {st : Procstate} (h : l ≠ field j .state) : l.Same sh (sh.setState j st) := by
  apply same_setField .state h
  rintro (_ | _ | _ | _ | _ | _ | _) <;> first | exact .inl rfl | exact .inr rfl | exact .inr ⟨rfl, rfl⟩

theorem same_setParent {p : Option (Fin n)} (h : l ≠ parent j) : l.Same sh (sh.setParent j p) := by
  cases l with
  | parent i => exact (Function.update_of_ne (fun hij => h (congrArg parent hij)) _ _).symm
  | field i a => exact same_refl sh (field i a)
  | _ => rfl

theorem same_setImage {m : Image} (h : l ≠ image j) : l.Same sh (sh.setImage j m) := by
  cases l with
  | image i => exact (Function.update_of_ne (fun hij => h (congrArg image hij)) _ _).symm
  | field i a => exact same_refl sh (field i a)
  | _ => rfl

theorem same_freeproc (h : l ∉ freed j) : l.Same sh (sh.freeproc j) := by
  have hp : l.Same sh (sh.setProc j (sh.proc j).freed) := by
    apply same_setProc
    rintro (_ | _ | _ | _ | _ | _ | _) rfl
    case priority => rfl
    case group => exact ⟨rfl, rfl⟩
    all_goals exact absurd (by simp [freed]) h
  cases l with
  | parent i => exact (Function.update_of_ne (fun hij => h (by simp [freed, hij])) _ _).symm
  | image i => exact (Function.update_of_ne (fun hij => h (by simp [freed, hij])) _ _).symm
  | _ => exact hp

end Place

section Writes

variable {x : Ctx n} {sh : Shared n} {g : Frame n} {p : Fin n} {l : Place n}

theorem ne_of_not_mem_singleton {a : Place n} (h : l ∉ [a]) : l ≠ a :=
  fun hl => h (List.mem_singleton.mpr hl)

theorem main_writes {pc : MainPc} (ha : main x pc = .exec sh g)
    (hl : l ∉ (Frame.main pc).writes x.me) : l.Same x.shared sh := by
  cases pc with
  | start =>
    cases ha
    cases l with
    | started => exact absurd (List.mem_singleton_self _) hl
    | field j a => exact Place.same_refl x.shared (.field j a)
    | _ => rfl
  | waiting =>
    simp only [main] at ha
    split at ha <;> cases ha
    exact Place.same_refl _ l
  | _ => cases ha

theorem userinit_writes {pc : UserinitPc n} (ha : userinit x pc = .exec sh g)
    (hl : l ∉ (Frame.userinit pc).writes x.me) : l.Same x.shared sh := by
  cases pc with
  | setInitproc q =>
    cases ha
    cases l with
    | initproc => exact absurd (List.mem_singleton_self _) hl
    | field j a => exact Place.same_refl x.shared (.field j a)
    | _ => rfl
  | setCwd q =>
    cases q <;> cases ha
    exact Place.same_setImage (ne_of_not_mem_singleton hl)
  | setState q =>
    cases ha
    exact Place.same_setState (ne_of_not_mem_singleton hl)
  | _ => cases ha

theorem allocproc_writes {pc : AllocprocPc n} (ha : allocproc x pc = .exec sh g)
    (hl : l ∉ (Frame.allocproc pc).writes x.me) : l.Same x.shared sh := by
  cases pc with
  | loop i | test q =>
    simp only [allocproc] at ha
    split at ha <;> cases ha <;> exact Place.same_refl _ l
  | setPid q pid =>
    cases ha
    apply Place.same_setField .pid (ne_of_not_mem_singleton hl)
    rintro (_ | _ | _ | _ | _ | _ | _) <;> first | exact .inl rfl | exact .inr rfl | exact .inr ⟨rfl, rfl⟩
  | init q =>
    cases ha
    have hp : l.Same x.shared (x.shared.setProc q (x.proc q).initialized) := by
      apply Place.same_setProc
      rintro (_ | _ | _ | _ | _ | _ | _) rfl
      case chan | killed | xstate | pid => rfl
      all_goals exact absurd (by simp [Frame.writes, AllocprocPc.writes]) hl
    cases l with
    | image i =>
      exact (Function.update_of_ne (fun hij => hl (by simp [Frame.writes, AllocprocPc.writes, hij])) _ _).symm
    | _ => exact hp
  | trapframe q | pagetable q =>
    simp only [allocproc] at ha
    split at ha <;> cases ha <;> exact Place.same_setImage (ne_of_not_mem_singleton hl)
  | freeproc q =>
    cases ha
    exact Place.same_freeproc hl
  | _ => cases ha

theorem allocpid_writes {pc : AllocpidPc} (ha : allocpid x pc = .exec sh g)
    (hl : l ∉ (Frame.allocpid (n := n) pc).writes x.me) : l.Same x.shared sh := by
  cases pc with
  | read =>
    cases ha
    exact Place.same_refl _ l
  | advance pid =>
    cases ha
    cases l with
    | nextpid => exact absurd (List.mem_singleton_self _) hl
    | field j a => exact Place.same_refl x.shared (.field j a)
    | _ => rfl
  | _ => cases ha

theorem kfork_writes {pc : KforkPc n} (ha : kfork x p pc = .exec sh g)
    (hl : l ∉ (Frame.kfork p pc).writes x.me) : l.Same x.shared sh := by
  cases pc with
  | uvmcopy np =>
    simp only [kfork] at ha
    split at ha <;> cases ha <;> exact Place.same_refl _ l
  | freeproc np =>
    cases ha
    exact Place.same_freeproc hl
  | filedup np i =>
    simp only [kfork] at ha
    split at ha
    · split at ha <;> cases ha
      · exact Place.same_setImage (ne_of_not_mem_singleton hl)
      · exact Place.same_refl _ l
    · cases ha
      exact Place.same_refl _ l
  | setSz np | copyTrapframe np | setA0 np | idup np | copyName np =>
    cases ha
    exact Place.same_setImage (ne_of_not_mem_singleton hl)
  | readPid np =>
    cases ha
    exact Place.same_refl _ l
  | setParent np pid =>
    cases ha
    exact Place.same_setParent (ne_of_not_mem_singleton hl)
  | setState np pid =>
    cases ha
    exact Place.same_setState (ne_of_not_mem_singleton hl)
  | _ => cases ha

theorem forkret_writes {pc : ForkretPc} (ha : forkret x p pc = .exec sh g)
    (hl : l ∉ (Frame.forkret p pc).writes x.me) : l.Same x.shared sh := by
  cases pc with
  | testFirst | testA0 v =>
    simp only [forkret] at ha
    split at ha <;> cases ha <;> exact Place.same_refl _ l
  | clearFirst =>
    cases ha
    cases l with
    | first => exact absurd (List.mem_singleton_self _) hl
    | field j a => exact Place.same_refl x.shared (.field j a)
    | _ => rfl
  | setA0 v =>
    cases ha
    exact Place.same_setImage (ne_of_not_mem_singleton hl)
  | userret =>
    cases ha
    exact Place.same_refl _ l
  | _ => cases ha

theorem scheduler_writes {pc : SchedulerPc n} (ha : scheduler x pc = .exec sh g)
    (hl : l ∉ (Frame.scheduler pc).writes x.me) : l.Same x.shared sh := by
  cases pc with
  | setState b =>
    cases ha
    exact Place.same_setState (ne_of_not_mem_singleton hl)
  | start =>
    cases ha
    exact Place.same_refl _ l
  | loop i best | test q best =>
    simp only [scheduler] at ha
    repeat' split at ha
    all_goals
      cases ha
      exact Place.same_refl _ l
  | _ => cases ha

theorem yield_writes {pc : YieldPc} (ha : Kernel.yield x p pc = .exec sh g)
    (hl : l ∉ (Frame.yield p pc).writes x.me) : l.Same x.shared sh := by
  cases pc with
  | setState =>
    cases ha
    exact Place.same_setState (ne_of_not_mem_singleton hl)
  | sched =>
    simp only [Kernel.yield, Ctx.withProc] at ha
    split at ha <;> cases ha
  | _ => cases ha

theorem sleep_writes {ch : Chan n} {lk : Lock n} {pc : SleepPc}
    (ha : Kernel.sleep x p ch lk pc = .exec sh g)
    (hl : l ∉ (Frame.sleep p ch lk pc).writes x.me) : l.Same x.shared sh := by
  cases pc with
  | setState =>
    cases ha
    exact Place.same_setState (ne_of_not_mem_singleton hl)
  | setChan | clearChan =>
    cases ha
    apply Place.same_setField .chan (ne_of_not_mem_singleton hl)
    rintro (_ | _ | _ | _ | _ | _ | _) <;> first | exact .inl rfl | exact .inr rfl | exact .inr ⟨rfl, rfl⟩
  | sched =>
    simp only [Kernel.sleep, Ctx.withProc] at ha
    split at ha <;> cases ha
  | _ => cases ha

theorem wakeup_writes {ch : Option (Chan n)} {pc : WakeupPc n} (ha : wakeup x ch pc = .exec sh g)
    (hl : l ∉ (Frame.wakeup ch pc).writes x.me) : l.Same x.shared sh := by
  cases pc with
  | loop i =>
    simp only [wakeup] at ha
    repeat' split at ha
    all_goals
      cases ha
      exact Place.same_refl _ l
  | test q =>
    simp only [wakeup] at ha
    split at ha <;> cases ha
    · exact Place.same_setState (ne_of_not_mem_singleton hl)
    · exact Place.same_refl _ l
  | _ => cases ha

theorem reparent_writes {pc : ReparentPc n} (ha : reparent x p pc = .exec sh g)
    (hl : l ∉ (Frame.reparent p pc).writes x.me) : l.Same x.shared sh := by
  cases pc with
  | loop i =>
    simp only [reparent] at ha
    repeat' split at ha
    all_goals
      cases ha
      exact Place.same_refl _ l
  | setParent pp =>
    cases ha
    exact Place.same_setParent (ne_of_not_mem_singleton hl)
  | _ => cases ha

theorem kexit_writes {status : Int} {pc : KexitPc} (ha : kexit x p status pc = .exec sh g)
    (hl : l ∉ (Frame.kexit p status pc).writes x.me) : l.Same x.shared sh := by
  cases pc with
  | testInit =>
    simp only [kexit] at ha
    split at ha <;> cases ha
    exact Place.same_refl _ l
  | testFile fd =>
    simp only [kexit] at ha
    repeat' split at ha
    all_goals
      cases ha
      exact Place.same_refl _ l
  | clearFile fd =>
    cases ha
    exact Place.same_setImage (ne_of_not_mem_singleton hl)
  | clearCwd =>
    cases ha
    exact Place.same_setImage (ne_of_not_mem_singleton hl)
  | setXstate =>
    cases ha
    apply Place.same_setField .xstate (ne_of_not_mem_singleton hl)
    rintro (_ | _ | _ | _ | _ | _ | _) <;> first | exact .inl rfl | exact .inr rfl | exact .inr ⟨rfl, rfl⟩
  | setState =>
    cases ha
    exact Place.same_setState (ne_of_not_mem_singleton hl)
  | sched =>
    simp only [kexit, Ctx.withProc] at ha
    split at ha <;> cases ha
  | _ => cases ha

theorem kwait_writes {addr : BitVec 64} {pc : KwaitPc n} (ha : kwait x p addr pc = .exec sh g)
    (hl : l ∉ (Frame.kwait p addr pc).writes x.me) : l.Same x.shared sh := by
  cases pc with
  | freeproc pp pid =>
    cases ha
    exact Place.same_freeproc hl
  | loop i havekids | test pp | copyout pp pid | testKilled k =>
    simp only [kwait] at ha
    repeat' split at ha
    all_goals
      cases ha
      exact Place.same_refl _ l
  | sleep =>
    simp only [kwait, Ctx.withProc] at ha
    split at ha <;> cases ha
  | _ => cases ha

theorem pidScan_writes {op : PidOp} {pc : PidScanPc n} (ha : pidScan x op pc = .exec sh g)
    (hl : l ∉ (Frame.pidScan op pc).writes x.me) : l.Same x.shared sh := by
  cases pc with
  | loop i =>
    simp only [pidScan] at ha
    split at ha <;> cases ha <;> exact Place.same_refl _ l
  | test q =>
    simp only [pidScan] at ha
    split at ha
    · rename_i r v hq
      cases ha
      cases op with
      | kkill pid =>
        simp only [PidOp.hit, kkill] at hq
        split at hq <;> cases hq
        apply Place.same_setProc
        rintro (_ | _ | _ | _ | _ | _ | _) rfl
        case state | killed => exact absurd (by simp [Frame.writes, PidScanPc.writes, PidOp.writes]) hl
        all_goals first | rfl | exact ⟨rfl, rfl⟩
      | setPriority pid prio =>
        simp only [PidOp.hit, setPriority] at hq
        split at hq <;> cases hq
        apply Place.same_setField .priority (ne_of_not_mem_singleton hl)
        rintro (_ | _ | _ | _ | _ | _ | _) <;>
          first | exact .inl rfl | exact .inr rfl | exact .inr ⟨rfl, rfl⟩
      | getPriority pid =>
        simp only [PidOp.hit, getPriority] at hq
        split at hq <;> cases hq
        rw [show x.proc q = x.shared.proc q from rfl]
        apply Place.same_setProc
        rintro (_ | _ | _ | _ | _ | _ | _) - <;> first | rfl | exact ⟨rfl, rfl⟩
    · cases ha
      exact Place.same_refl _ l
  | _ => cases ha

theorem syscall_writes {pc : SyscallPc} (ha : syscall x p pc = .exec sh g)
    (hl : l ∉ (Frame.syscall p pc).writes x.me) : l.Same x.shared sh := by
  cases pc with
  | count | store v =>
    cases ha
    exact Place.same_setImage (ne_of_not_mem_singleton hl)
  | dispatch =>
    simp only [syscall, dispatch, Ctx.withProc] at ha
    repeat' split at ha
    all_goals
      cases ha
      try exact Place.same_refl _ l
  | _ => cases ha

theorem user_writes {pc : UserPc} (ha : user x p pc = .exec sh g)
    (hl : l ∉ (Frame.user p pc).writes x.me) : l.Same x.shared sh := by
  cases pc with
  | run =>
    simp only [user, Ctx.withProc] at ha
    repeat' split at ha
    all_goals
      cases ha
      try exact Place.same_setImage (ne_of_not_mem_singleton hl)
  | syscall =>
    simp only [user, Ctx.withProc] at ha
    split at ha <;> cases ha
  | _ => cases ha

theorem ext_writes {kind : ExtKind} {pc : ExtPc} (ha : ext x kind pc = .exec sh g)
    (hl : l ∉ (Frame.ext kind pc).writes x.me) : l.Same x.shared sh := by
  cases pc with
  | run held =>
    simp only [ext, Ctx.withProc] at ha
    split at ha
    case h_7 m =>
      split at ha
      · cases ha
      · rename_i hkind
        split at ha <;> cases ha
        rename_i q hq
        obtain rfl := not_not.mp hkind
        refine Place.same_setImage (ne_of_not_mem_singleton ?_)
        rw [Frame.writes, ExtPc.writes, hq] at hl
        exact hl
    all_goals
      repeat' split at ha
      all_goals
        cases ha
        try exact Place.same_refl _ l
  | done v =>
    simp only [ext] at ha
    split at ha <;> cases ha
  | _ => cases ha

end Writes

/-- A statement leaves all places alone that it does not write. -/
theorem code_writes {x : Ctx n} {sh : Shared n} {f g : Frame n} (ha : code x f = .exec sh g)
    {l : Place n} (hl : l ∉ f.writes x.me) : l.Same x.shared sh := by
  cases f with
  | main pc => exact main_writes ha hl
  | userinit pc => exact userinit_writes ha hl
  | allocproc pc => exact allocproc_writes ha hl
  | allocpid pc => exact allocpid_writes ha hl
  | kfork p pc => exact kfork_writes ha hl
  | forkret p pc => exact forkret_writes ha hl
  | scheduler pc => exact scheduler_writes ha hl
  | sched p pc =>
    cases pc <;> simp only [code, sched] at ha <;> (try split at ha) <;> cases ha <;>
      exact Place.same_refl _ l
  | yield p pc => exact yield_writes ha hl
  | sleep p ch lk pc => exact sleep_writes ha hl
  | wakeup ch pc => exact wakeup_writes ha hl
  | reparent p pc => exact reparent_writes ha hl
  | kexit p status pc => exact kexit_writes ha hl
  | kwait p addr pc => exact kwait_writes ha hl
  | killed p pc =>
    cases pc <;> cases ha
    exact Place.same_refl _ l
  | setkilled p pc =>
    cases pc <;> cases ha
    apply Place.same_setField .killed (ne_of_not_mem_singleton hl)
    rintro (_ | _ | _ | _ | _ | _ | _) <;> first | exact .inl rfl | exact .inr rfl | exact .inr ⟨rfl, rfl⟩
  | pidScan op pc => exact pidScan_writes ha hl
  | syscall p pc => exact syscall_writes ha hl
  | user p pc => exact user_writes ha hl
  | ext kind pc => exact ext_writes ha hl
  | panic msg => cases ha

end MultithreadMayhem.Kernel
