import MultithreadMayhem.Kernel.Lookups

/-!
# `kkill` and the slots that it can hit

`kkill` compares pids without a look at the state, and an unused slot has the pid 0. In a
run in which no `kkill(0)` comes to an unused slot, only processes are killed, and every
process is born alive.
-/

namespace MultithreadMayhem.Kernel

open Foundation

variable {n nofile : ℕ} {C : Type} {f g : Frame n} {rest rest' : List (Frame n)} {i j : Fin n}
  {e : Option (Event n)} {sh : Shared n}

def Frame.born : Frame n → Option (Fin n)
  | allocproc (.trapframe j) | allocproc (.pagetable j) | allocproc (.context j)
  | allocproc (.freeproc j) | allocproc (.done (some j)) => some j
  | _ => none

theorem Frame.born_locked (h : f.born = some j) : Lock.proc j ∈ f.locks := by
  unfold born at h
  split at h <;> cases h <;> exact Multiset.mem_singleton_self _

theorem Frame.born_fn (h : f.born = some j) : f.fn = .allocproc := by
  unfold born at h
  split at h <;> cases h <;> rfl

theorem Frame.Awaits.resume_born {fn : Fn n} {v : Val n} (h : g.Awaits fn) :
    (g.resume v).born = none := by
  cases h.calls with
  | initAllocproc | forkAllocproc => obtain _ | _ | _ := v <;> rfl
  | allocpid | kexec | waitKilled | sysFork | sysExit | sysWait | sysPid | sysOther => cases v <;> rfl
  | _ => rfl

theorem next_born {x : Ctx n} {a : Act n} (ha : code x f = a) (hnext : a.next = some g)
    (hfn : g.fn = f.fn) (hg : g.born = some j) : f.fn = .allocproc ∧ Lock.proc j ∈ f.locks ∧
      (f.born = some j ∨ f = .allocproc (.init j)) := by
  obtain ⟨pc, rfl⟩ := Frame.eq_allocproc_of_fn (hfn.symm.trans (Frame.born_fn hg))
  subst ha
  cases pc with
  | loop i | test p =>
    simp only [code, allocproc] at hnext
    split at hnext <;> cases hnext <;> cases hg
  | init p =>
    cases hnext
    cases hg
    exact ⟨rfl, Multiset.mem_singleton_self _, .inr rfl⟩
  | trapframe p | pagetable p =>
    simp only [code, allocproc] at hnext
    split at hnext <;> cases hnext <;> cases hg <;>
      exact ⟨rfl, Multiset.mem_singleton_self _, .inl rfl⟩
  | context p =>
    cases hnext
    cases hg
    exact ⟨rfl, Multiset.mem_singleton_self _, .inl rfl⟩
  | _ => cases hnext <;> cases hg

inductive Killing (sh sh' : Shared n) (f : Frame n) (j : Fin n) : Prop
  | same (hkilled : (sh'.proc j).killed = (sh.proc j).killed)
      (hst : sh'.states j = .unused → sh.states j = .unused)
  | freed (hkilled : (sh'.proc j).killed = 0)
  | self (hf : f = .setkilled j .set) (hst : sh'.states j ≠ .unused)
  | hit {pid : Int} (hf : f = .pidScan (.kkill pid) (.test j)) (hpid : (sh.proc j).pid = pid)
      (hst : sh'.states j = .unused → sh.states j = .unused)

theorem Killing.of_update {sh sh' : Shared n} {q : Proc n}
    (hproc : sh'.proc = Function.update sh.proc i q) (hi : i = j → Killing sh sh' f j) :
    Killing sh sh' f j := by
  obtain rfl | hij := eq_or_ne i j
  · exact hi rfl
  · refine .same ?_ fun h => ?_
    · rw [hproc, Function.update_of_ne hij.symm]
    · rwa [Shared.states, hproc, Function.update_of_ne hij.symm] at h

theorem Write.killing {x : Ctx n} {t : Thread n C} (h : Write x t sh f g e) (j : Fin n) :
    Killing x.shared sh f j := by
  have same (hproc : sh.proc = x.shared.proc) : Killing x.shared sh f j := by
    refine .same (by rw [hproc]) fun h => ?_
    rwa [Shared.states, hproc] at h
  -- The statement changes other fields of one slot.
  have slot {i : Fin n} {q : Proc n} (hproc : sh.proc = Function.update x.shared.proc i q)
      (hkilled : q.killed = (x.proc i).killed)
      (hst : q.state = .unused → x.shared.states i = .unused) : Killing x.shared sh f j := by
    refine .of_update hproc ?_
    rintro rfl
    refine .same ?_ fun h => ?_
    · rw [hproc, Function.update_self]
      exact hkilled
    · rw [Shared.states, hproc, Function.update_self] at h
      exact hst h
  cases h with
  | globals hf hproc => exact same hproc
  | copyout | info | advance | fork | reparent | make | own | count | clearFile | clearCwd =>
    exact same rfl
  | setPid | chan | setXstate => exact slot rfl rfl id
  | init | exit => exact slot rfl rfl (by rintro ⟨⟩)
  | state hf hj hold hnew =>
    refine slot rfl rfl fun h => ?_
    obtain rfl | rfl | rfl := hnew <;> cases h
  | @free i f g e hf =>
    refine .of_update rfl ?_
    rintro rfl
    refine .freed ?_
    rw [Shared.freeproc_proc, Function.update_self]
    rfl
  | @setkilled p hrun =>
    refine .of_update rfl ?_
    rintro rfl
    refine .self rfl ?_
    rw [Shared.states_setProc, Function.update_self]
    change x.shared.states p ≠ .unused
    rw [hrun]
    rintro ⟨⟩
  | @hit op p q v hq =>
    obtain ⟨-, -, -, hst⟩ := PidOp.hit_ids hq
    cases op with
    | kkill pid =>
      refine .of_update rfl ?_
      rintro rfl
      have hpid : (x.shared.proc p).pid = pid := by
        simp only [PidOp.hit, Kernel.kkill] at hq
        split at hq
        · assumption
        · cases hq
      refine .hit rfl hpid fun h => ?_
      rw [Shared.states_setProc, Function.update_self] at h
      exact hst.mp h
    | setPriority pid prio =>
      refine slot rfl ?_ hst.mp
      simp only [PidOp.hit, Kernel.setPriority] at hq
      split at hq <;> cases hq
      rfl
    | getPriority pid =>
      refine slot rfl ?_ hst.mp
      simp only [PidOp.hit, Kernel.getPriority] at hq
      split at hq <;> cases hq
      rfl

variable [DecidableEq C] {s s' : State n C} {c : C} {log : Log n C}

/-- The CPU is about to compare 0 with the pid of an unused slot in `kkill(0)`. -/
def State.killsFree (s : State n C) (l : C × Choice) : Bool :=
  match s.stack (s.running l.1) with
  | .pidScan (.kkill pid) (.test j) :: _ => decide (pid = 0 ∧ s.shared.states j = .unused)
  | _ => false

/-- No unused slot is marked as killed, and no process that `allocproc` is about to return. -/
structure Unkilled (s : State n C) : Prop where
  free : ∀ j, s.shared.states j = .unused → (s.shared.proc j).killed = 0
  born : ∀ c f j, s.Top c f → f.born = some j → (s.shared.proc j).killed = 0

omit [DecidableEq C] in
theorem State.FreePids.of_locked (hfree : s.FreePids) (h : Sound s) (hs : s.Top c f)
    (hlock : Lock.proc j ∈ f.locks) (hf : f ≠ .allocproc (.init j))
    (hj : s.shared.states j = .unused) : (s.shared.proc j).pid = 0 := by
  obtain hpid | ⟨c', hc'⟩ := hfree j hj
  · exact hpid
  · obtain rfl := h.eq_of_locked hs hc' hlock (Multiset.mem_singleton_self _)
    exact absurd (hs.eq hc') hf

theorem Turn.killing (ht : Turn nofile s c f rest s' e) (j : Fin n) :
    Killing s.shared s'.shared f j := by
  obtain ⟨hsh, -⟩ | ⟨x, g, -, -, -, hw⟩ := ht.written
  · rw [hsh]
    exact .same rfl id
  · exact hw.killing j

namespace Unkilled

theorem step {l : C × Choice} (hu : Unkilled s) (hfree : s.FreePids) (h : Sound s)
    (ht : Transition nofile s l.1 s') (hs : s.stack (s.running l.1) = f :: rest)
    (hturn : Turn nofile s l.1 f rest s' e) (hok : s.killsFree l = false) : Unkilled s' := by
  have htop : s.Top l.1 f := ⟨rest, hs⟩
  constructor
  · intro j hj
    cases hturn.killing j with
    | same hkilled hst =>
      rw [hkilled]
      exact hu.free j (hst hj)
    | freed hkilled => exact hkilled
    | self hf hst => exact absurd hj hst
    | @hit pid hf hpid hst =>
      subst hf
      have hzero := hfree.of_locked h htop (Multiset.mem_singleton_self _) nofun (hst hj)
      rw [State.killsFree, hs] at hok
      exact absurd ⟨hpid.symm.trans hzero, hst hj⟩ (of_decide_eq_false hok)
  · intro c' g j hg hborn
    have hlock := Frame.born_locked hborn
    obtain rfl | hc := eq_or_ne c' l.1
    · -- The statement is one of `allocproc`, after the slot has become used.
      obtain ⟨rest', hg⟩ := hg
      have hfn := Frame.born_fn hborn
      have keep (hf : f.fn = .allocproc) (hj : (s.shared.proc j).killed = 0) :
          (s'.shared.proc j).killed = 0 := by
        cases hturn.killing j with
        | same hkilled hst => exact hkilled.trans hj
        | freed hkilled => exact hkilled
        | self hf' => rw [hf'] at hf; cases hf
        | hit hf' => rw [hf'] at hf; cases hf
      cases hturn.newTop hg with
      | next ha hnext =>
        obtain ⟨hf, -, hfborn | rfl⟩ := next_born ha hnext ((h.disciplined hs ha).next_fn hnext) hborn
        · exact keep hf (hu.born _ f j htop hfborn)
        · refine keep hf (hu.free j (h.known l.1 (j, .unused) ?_))
          rw [hs]
          exact List.mem_cons_self
      | start hstart =>
        unfold Frame.born at hborn
        split at hborn <;> first | cases hstart | cases hborn
      | ret ha hrest hawaits hg' =>
        rw [hg', hawaits.resume_born] at hborn
        cases hborn
      | panic hg' =>
        subst hg'
        cases hborn
      | free hheld =>
        rw [locks_eq_zero hheld] at hlock
        cases hlock
      | switch hsw => obtain ⟨pc, rfl⟩ | ⟨q, rfl | rfl⟩ := hsw <;> cases hborn
    · have hg' := (h.top_other ht hc).mp hg
      rw [(h.others ht hc).2.2.2 j ?_]
      · exact hu.born c' g j hg' hborn
      · obtain ⟨rest', hg'⟩ := hg'
        refine h.holder_of_mem ?_
        rw [hg']
        exact Multiset.mem_add.mpr (.inl hlock)

end Unkilled

/-- The runs in which no `kkill(0)` comes to an unused slot. -/
def careful (n nofile : ℕ) (b : C) : System (State n C × Log n C) (C × Choice) :=
  (history n nofile b).guarded fun y l => y.1.killsFree l = false

theorem Unkilled.of_reachable {b : C} {y : State n C × Log n C}
    (hy : (careful n nofile b).Reachable y) : Unkilled y.1 := by
  refine hy.invariant (fun y => Unkilled y.1) ⟨fun _ _ => rfl, fun _ _ _ _ _ => rfl⟩ ?_
  intro y l z hr hu hstep
  obtain ⟨hok, hstep⟩ := System.step_guarded hstep
  have hstep := (System.step_recorded hstep).1
  have h := Sound.of_reachable hr.of_guarded.fst
  obtain ⟨f, rest, e, hs, hturn, -⟩ := h.turn hstep
  exact hu.step (.of_reachable hr.of_guarded.fst) h (State.step_transition hstep) hs hturn hok

omit [DecidableEq C] in
theorem PidScanPc.Goes.kkill {sh sh' : Shared n} {pid : Int} {pc pc' : PidScanPc n}
    (h : pc.Goes (.kkill pid) sh pc' sh' e) : sh' = sh ∨ ∃ j, pc = .test j ∧ (sh.proc j).pid = pid ∧
      sh' = sh.setProc j { sh.proc j with
        killed := 1, state := if (sh.proc j).state = .sleeping then .runnable else (sh.proc j).state } ∧
      e = some (.hit (.kkill pid) j (sh.proc j)) := by
  cases h with
  | @hit j q v hq =>
    simp only [PidOp.hit, Kernel.kkill] at hq
    split at hq <;> cases hq
    exact .inr ⟨j, rfl, ‹_›, rfl, rfl⟩
  | _ => exact .inl rfl

end MultithreadMayhem.Kernel
