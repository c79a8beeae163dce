import MultithreadMayhem.Kernel.Boot

/-!
# How exits and waits go on

Each statement of `kexit` and `kwait` is an edge from one place in the code to another,
with what it writes.
-/

namespace MultithreadMayhem.Kernel

variable {n : ℕ} {x : Ctx n} {a : Act n} {g : Frame n} {p : Fin n} {addr : BitVec 64}
  {status : Int}

inductive KexitPc.Goes (x : Ctx n) (p : Fin n) (status : Int) :
    KexitPc → KexitPc → Shared n → Prop
  | start (hp : x.shared.initproc ≠ some p) : Goes x p status .testInit (.testFile 0) x.shared
  | file {fd : ℕ} : Goes x p status (.testFile fd) (.fileclose fd) x.shared
  | noFile {fd : ℕ} (hfd : (x.image p).ofile fd = none) :
      Goes x p status (.testFile fd) (.testFile (fd + 1)) x.shared
  | beginOp {fd : ℕ} (hfd : x.nofile ≤ fd) : Goes x p status (.testFile fd) .beginOp x.shared
  | fileclose {fd : ℕ} : Goes x p status (.fileclose fd) (.closing fd) x.shared
  | clearFile {fd : ℕ} : Goes x p status (.clearFile fd) (.testFile (fd + 1))
      (x.shared.setImage p
        { x.image p with ofile := Function.update (x.image p).ofile fd none })
  | beginning : Goes x p status .beginOp .beginning x.shared
  | putting : Goes x p status .iput .putting x.shared
  | ending : Goes x p status .endOp .ending x.shared
  | clearCwd : Goes x p status .clearCwd .acquireWait
      (x.shared.setImage p { x.image p with cwd := none })
  | acquireWait : Goes x p status .acquireWait .reparent x.shared
  | reparent : Goes x p status .reparent .reparenting x.shared
  | wakeup : Goes x p status .wakeup .waking x.shared
  | acquire : Goes x p status .acquire .setXstate x.shared
  | setXstate : Goes x p status .setXstate .setState
      (x.shared.setProc p { x.proc p with xstate := status })
  | setState : Goes x p status .setState .releaseWait (x.shared.setState p .zombie)
  | releaseWait : Goes x p status .releaseWait .sched x.shared
  | sched : Goes x p status .sched .scheduling x.shared

theorem kexit_goes {pc : KexitPc} (ha : code x (.kexit p status pc) = a)
    (hnext : a.next = some g) :
    ∃ pc', g = .kexit p status pc' ∧ pc.Goes x p status pc' (a.shared x.shared) := by
  cases pc with
  | testInit =>
    simp only [code, kexit] at ha
    split at ha <;> subst ha <;> cases hnext
    exact ⟨_, rfl, .start ‹_›⟩
  | testFile fd =>
    simp only [code, kexit] at ha
    repeat' split at ha
    all_goals
      subst ha
      cases hnext
    · exact ⟨_, rfl, .file⟩
    · exact ⟨_, rfl, .noFile ‹_›⟩
    · exact ⟨_, rfl, .beginOp (not_lt.mp ‹_›)⟩
  | sched =>
    simp only [code, kexit, Ctx.withProc] at ha
    split at ha <;> subst ha <;> cases hnext
    exact ⟨_, rfl, .sched⟩
  | closing | beginning | putting | ending | reparenting | waking | scheduling | zombieExit =>
    subst ha
    cases hnext
  | _ =>
    subst ha
    cases hnext
    exact ⟨_, rfl, by constructor⟩

theorem kexit_not_ret {pc : KexitPc} {v : Val n} : code x (.kexit p status pc) ≠ .ret v := by
  intro ha
  cases pc with
  | testInit | testFile | sched =>
    simp only [code, kexit, Ctx.withProc] at ha
    repeat' split at ha
    all_goals cases ha
  | _ => cases ha

inductive KwaitPc.Goes (x : Ctx n) (p : Fin n) (addr : BitVec 64) :
    KwaitPc n → KwaitPc n → Shared n → Prop
  | acquireWait : Goes x p addr .acquireWait (.loop 0 false) x.shared
  | child {i : ℕ} {k : Bool} (hi : i < n) (hp : x.shared.parent ⟨i, hi⟩ = some p) :
      Goes x p addr (.loop i k) (.acquire ⟨i, hi⟩) x.shared
  | skip {i : ℕ} {k : Bool} : Goes x p addr (.loop i k) (.loop (i + 1) k) x.shared
  | wait {i : ℕ} {k : Bool} : Goes x p addr (.loop i k) .killed x.shared
  | alone {i : ℕ} {k : Bool} : Goes x p addr (.loop i k) (.releaseWait (-1)) x.shared
  | acquire {j : Fin n} : Goes x p addr (.acquire j) (.test j) x.shared
  | found {j : Fin n} : Goes x p addr (.test j) (.copyout j (x.proc j).pid) x.shared
  | living {j : Fin n} : Goes x p addr (.test j) (.release j) x.shared
  | release {j : Fin n} : Goes x p addr (.release j) (.loop (j + 1) true) x.shared
  | copied {j : Fin n} {pid : Int} : Goes x p addr (.copyout j pid) (.freeproc j pid) x.shared
  | failed {j : Fin n} {pid : Int} (haddr : addr ≠ 0) :
      Goes x p addr (.copyout j pid) (.releaseSlot j (-1)) x.shared
  | freed {j : Fin n} {pid : Int} :
      Goes x p addr (.freeproc j pid) (.releaseSlot j pid) (x.shared.freeproc j)
  | releaseSlot {j : Fin n} {v : Int} : Goes x p addr (.releaseSlot j v) (.releaseWait v) x.shared
  | releaseWait {v : Int} : Goes x p addr (.releaseWait v) (.done v) x.shared
  | killed : Goes x p addr .killed .killing x.shared
  | dead {k : Int} : Goes x p addr (.testKilled k) (.releaseWait (-1)) x.shared
  | undisturbed {k : Int} : Goes x p addr (.testKilled k) .sleep x.shared
  | sleep : Goes x p addr .sleep .sleeping x.shared

theorem kwait_goes {pc : KwaitPc n} (ha : code x (.kwait p addr pc) = a) (hnext : a.next = some g) :
    ∃ pc', g = .kwait p addr pc' ∧ pc.Goes x p addr pc' (a.shared x.shared) := by
  cases pc with
  | loop i havekids =>
    simp only [code, kwait] at ha
    repeat' split at ha
    all_goals
      subst ha
      cases hnext
    · exact ⟨_, rfl, .child _ ‹_›⟩
    · exact ⟨_, rfl, .skip⟩
    · exact ⟨_, rfl, .wait⟩
    · exact ⟨_, rfl, .alone⟩
  | test pp =>
    simp only [code, kwait] at ha
    split at ha <;> subst ha <;> cases hnext
    · exact ⟨_, rfl, .found⟩
    · exact ⟨_, rfl, .living⟩
  | copyout pp pid =>
    simp only [code, kwait] at ha
    repeat' split at ha
    all_goals
      subst ha
      cases hnext
    · exact ⟨_, rfl, .copied⟩
    · exact ⟨_, rfl, .failed ‹_›⟩
    · exact ⟨_, rfl, .copied⟩
  | testKilled k =>
    simp only [code, kwait] at ha
    split at ha <;> subst ha <;> cases hnext
    · exact ⟨_, rfl, .dead⟩
    · exact ⟨_, rfl, .undisturbed⟩
  | sleep =>
    simp only [code, kwait, Ctx.withProc] at ha
    split at ha <;> subst ha <;> cases hnext
    exact ⟨_, rfl, .sleep⟩
  | acquireWait | acquire | release | freeproc | releaseSlot | releaseWait | killed =>
    subst ha
    cases hnext
    exact ⟨_, rfl, by constructor⟩
  | killing | sleeping | done =>
    subst ha
    cases hnext

theorem kwait_ret {pc : KwaitPc n} {v : Val n} (ha : code x (.kwait p addr pc) = .ret v) :
    ∃ w, pc = .done w := by
  cases pc with
  | done w => exact ⟨w, rfl⟩
  | loop i havekids | copyout pp pid =>
    simp only [code, kwait] at ha
    repeat' split at ha
    all_goals cases ha
  | test pp | testKilled k =>
    simp only [code, kwait] at ha
    split at ha <;> cases ha
  | sleep =>
    simp only [code, kwait, Ctx.withProc] at ha
    split at ha <;> cases ha
  | _ => cases ha

end MultithreadMayhem.Kernel
