import MultithreadMayhem.Foundation.LifeCycle
import MultithreadMayhem.Kernel.Children
import MultithreadMayhem.Kernel.ExitNotice
import MultithreadMayhem.Kernel.Kin

/-!
# The process table refines the life cycle

Whatever the CPUs do, the table of the kernel goes through the events of the abstract life
cycle only: `allocproc` creates, `kfork` has a child adopted and launches it, the scheduler
dispatches, and so on. The statements of `reparent` and `kexit` and the reaping in `kwait`
happen when the cycle allows them.
-/

namespace MultithreadMayhem.Kernel

open Foundation

variable {n nofile : ℕ} {C : Type} {f g : Frame n} {j p : Fin n} {rest : List (Frame n)}
  {e : Option (Event n)} {v : Event n} {sh sh' : Shared n} {t : Thread n C} {x : Ctx n} {y : Choice}

def Procstate.stage : Procstate → Stage
  | .unused => .absent
  | .used => .embryo
  | .sleeping => .blocked
  | .runnable => .ready
  | .running => .running
  | .zombie => .zombie

/-- What the life cycle sees of the process table. -/
def Shared.table (sh : Shared n) : ProcessTable (Fin n) where
  stage j := (sh.states j).stage
  parent := sh.parent
  root := sh.initproc

section Table

theorem table_congr (hst : sh'.states = sh.states) (hparent : sh'.parent = sh.parent)
    (hroot : sh'.initproc = sh.initproc) : sh'.table = sh.table :=
  ProcessTable.ext (congrArg (Procstate.stage ∘ ·) hst) hparent hroot

theorem stages_enter {st : Procstate} (hst : sh'.states = Function.update sh.states j st) :
    sh'.table.stage = Function.update sh.table.stage j st.stage := by
  change (fun k => (sh'.states k).stage) = _
  rw [hst]
  exact Function.comp_update Procstate.stage sh.states j st

theorem table_enter {st : Procstate}
    (hst : sh'.states = Function.update sh.states j st) (hparent : sh'.parent = sh.parent)
    (hroot : sh'.initproc = sh.initproc) : sh'.table = sh.table.enter j st.stage :=
  ProcessTable.ext (stages_enter hst) hparent hroot

theorem table_freeproc : (sh.freeproc j).table = (sh.table.enter j .absent).entrust j none :=
  ProcessTable.ext (stages_enter (Shared.states_freeproc ..)) rfl rfl

theorem stage_of {st : Procstate} (h : sh.states j = st) : sh.table.stage j = st.stage :=
  congrArg Procstate.stage h

theorem Change.table (hc : Change t f g sh.states sh'.states) (hparent : sh'.parent = sh.parent)
    (hroot : sh'.initproc = sh.initproc)
    (hunused : ∀ j, sh'.states j = .unused → sh.states j = .unused)
    (hzombie : ∀ j, sh'.states j = .zombie → sh.states j = .zombie)
    (halloc : ∀ j, f = .allocproc (.init j) → sh.parent j = none)
    (hpublish : ∀ j, sh'.states j = .runnable → sh'.parent j ≠ none ∨ sh'.initproc = some j) :
    sh'.table = sh.table ∨ sh.table.Step sh'.table := by
  have self {j : Fin n} {st : Procstate} (hst : sh'.states = Function.update sh.states j st) :
      sh'.states j = st := by rw [hst, Function.update_self]
  cases hc with
  | same hst => exact .inl (table_congr hst hparent hroot)
  | wake j hj hst =>
    right
    rw [table_enter hst hparent hroot]
    exact .wake (stage_of hj)
  | dispatch j hj hst =>
    right
    rw [table_enter hst hparent hroot]
    exact .dispatch (stage_of hj)
  | alloc j hj hst hf =>
    right
    rw [table_enter hst hparent hroot]
    exact .create (stage_of hj) (halloc j hf)
  | reap j hj hst | abandon j hj hst => cases hj.symm.trans (hunused j (self hst))
  | publish j hj hst =>
    right
    rw [table_enter hst hparent hroot]
    refine .launch (stage_of hj) ?_
    have hraised := hpublish j (self hst)
    rwa [hparent, hroot] at hraised
  | leave j st₁ hj hst ht hfn hl hok =>
    right
    rw [table_enter hst hparent hroot]
    obtain rfl | rfl | rfl := hok
    · exact .preempt (stage_of hj)
    · exact .block (stage_of hj)
    · cases hj.symm.trans (hzombie j (self hst))

/-- What the threads have established when they change the tree. -/
structure Frame.Licensed (sh sh' : Shared n) (f : Frame n) : Prop where
  kin : f.Kin sh
  init : ∀ j, f = .allocproc (.init j) → sh.parent j = none
  made : ∀ j, f.making = some j → sh.parent j = none
  found : ∀ p addr j pid, f = .kwait p addr (.freeproc j pid) → sh.parent j = some p
  moving : ∀ p j, f = .reparent p (.setParent j) → sh.parent j = some p
  rooted : sh.started = true → sh.Rooted
  raised : ∀ j, sh'.states j = .runnable → sh'.parent j ≠ none ∨ sh'.initproc = some j

theorem Frame.Frees.table (hfrees : f.Frees x.shared j g v) (hrel : f.Relies x t)
    (hl : f.Licensed x.shared sh) : x.shared.table.Step (x.shared.freeproc j).table := by
  rw [table_freeproc]
  have abandon (hmaking : f.making = some j) :
      x.shared.table.Step ((x.shared.table.enter j .absent).entrust j none) := by
    have hused := hrel.builds j (by rw [(making_held hmaking).2]; exact Multiset.mem_singleton_self j)
    have hnone : x.shared.table.parent j = none := hl.made j hmaking
    have hstep := ProcessTable.Step.abandon (stage_of hused) hnone
    rwa [← ProcessTable.entrust_self (t := x.shared.table.enter j .absent) hnone] at hstep
  cases hfrees with
  | alloc | fork => exact abandon rfl
  | @reap p addr pid =>
    have hzombie : x.shared.states j = .zombie := hrel.knows (j, .zombie) (List.mem_singleton_self _)
    have hrun : x.shared.states p = .running := hrel.self hrel.on rfl
    exact .reap (stage_of hzombie) (hl.found p addr j pid rfl) (stage_of hrun)

theorem Write.table (hw : Write x t sh f g e) (hrel : f.Relies x t)
    (hc : Change t f g x.shared.states sh.states) (hdeed : Deed x.shared sh f g)
    (hl : f.Licensed x.shared sh) :
    sh.table = x.shared.table ∨ x.shared.table.Step sh.table := by
  have hf := hl.kin
  cases hw with
  | globals hspecial hproc hparent =>
    have hst : sh.states = x.shared.states := by
      funext j
      rw [Shared.states, Shared.states, hproc]
    cases hdeed with
    | quiet hquiet => exact .inl (table_congr hst hparent hquiet.initproc)
    | @initproc p hsh =>
      cases p with
      | none =>
        refine .inl (table_congr hst hparent ?_)
        rw [hsh, show x.shared.initproc = none from hf]
      | some p =>
        right
        subst hsh
        exact .elect (stage_of (hrel.builds p (Multiset.mem_singleton_self p))) hf
    | start hsh => exact .inl (table_congr hst hparent (by rw [hsh]))
    | setChan hsh | sleep hsh => exact .inl (table_congr hst hparent (by rw [hsh]; rfl))
    | exit | fork | reparent => cases hspecial
  | copyout | info | advance | make | own | count | clearFile | clearCwd => exact .inl rfl
  | setPid | chan | setXstate | setkilled =>
    exact .inl (table_congr (Shared.states_setProc_same _ _ rfl) rfl rfl)
  | @init p =>
    have hst : x.shared.states p = .unused := hrel.knows (p, .unused) (List.mem_singleton_self _)
    have hnew : ((x.shared.setProc p (x.proc p).initialized).setImage p
        { x.image p with syscalls := 0 }).states = Function.update x.shared.states p .used :=
      Shared.states_setProc ..
    right
    rw [table_enter hnew rfl rfl]
    exact .create (stage_of hst) (hl.init p rfl)
  | free hfrees => exact .inr (hfrees.table hrel hl)
  | @state i st f g hspecial hlock hold hnew =>
    have kept {k : Fin n} {st' : Procstate} (hst' : st ≠ st')
        (hk : (x.shared.setState i st).states k = st') : x.shared.states k = st' := by
      rw [Shared.states_setState] at hk
      obtain rfl | hne := eq_or_ne k i
      · rw [Function.update_self] at hk
        exact absurd hk hst'
      · rwa [Function.update_of_ne hne] at hk
    refine hc.table rfl rfl (fun k => kept ?_) (fun k => kept ?_) hl.init hl.raised
    · rintro rfl
      obtain h | h | h := hnew <;> cases h
    · rintro rfl
      obtain h | h | h := hnew <;> cases h
  | @fork p np pid hnp =>
    have hrun : x.shared.states p = .running := hrel.self hrel.on rfl
    exact .inr (.adopt (stage_of hnp) hf.2.1 (stage_of hrun))
  | @reparent p pp =>
    have hrun : x.shared.states p = .running := hrel.self hrel.on rfl
    obtain ⟨hstarted, hne, -⟩ := hf
    obtain ⟨r, hr, -⟩ := hl.rooted hstarted
    right
    rw [hr]
    refine .orphan (hl.moving p pp rfl) (stage_of hrun) hr ?_
    rintro rfl
    exact hne hr
  | @exit p status hrun =>
    obtain hf | ⟨-, hroot, hnone⟩ := hf
    · cases hf
    right
    rw [table_enter (Shared.states_setState ..) rfl rfl]
    exact .exit (stage_of hrun) hroot (hnone rfl)
  | @hit op p q v hq =>
    have kept {k : Fin n} {st' : Procstate} (hst' : .runnable ≠ st')
        (hk : (x.shared.setProc p q).states k = st') : x.shared.states k = st' := by
      rw [Shared.states_setProc] at hk
      obtain rfl | hne := eq_or_ne k p
      · rw [Function.update_self] at hk
        obtain hq | ⟨-, hq⟩ := PidOp.hit_state hq
        · exact hq.symm.trans hk
        · exact absurd (hq.symm.trans hk) hst'
      · rwa [Function.update_of_ne hne] at hk
    refine hc.table rfl rfl (fun k => kept ?_) (fun k => kept ?_) hl.init hl.raised <;>
      rintro ⟨⟩

end Table

section Runs

variable [DecidableEq C] {s s' : State n C} {c : C}

theorem licensed {b : C} (hr : (kernel n nofile b).Reachable s)
    (hr' : (kernel n nofile b).Reachable s') (hs : s.stack (s.running c) = f :: rest)
    (hf : f.Relies (s.ctx nofile c y) (s.running c)) : f.Licensed s.shared s'.shared := by
  have hk : Kin s := .of_reachable hr
  have ht : Tidy nofile s := .of_reachable hr
  have hch : Children s := .of_reachable hr
  have htop : s.Top c f := ⟨rest, hs⟩
  constructor
  · exact hk.frames (s.running c) f (by rw [hs]; exact List.mem_cons_self)
  · rintro j rfl
    have hunused : s.shared.states j = .unused := hf.knows (j, .unused) (List.mem_singleton_self _)
    exact (ht.unused j hunused).parent
  · intro j hj
    exact (ht.made c f j htop hj).newborn.parent
  · rintro p addr j pid rfl
    exact hch.mine c p addr _ j htop rfl
  · rintro p j rfl
    exact ht.moving c p j htop
  · exact hk.rooted
  · intro j hj
    obtain hroot | hroot := em (s'.shared.initproc = some j)
    · exact .inr hroot
    · refine .inl ((Kin.of_reachable hr').raised j (.inl ?_) hroot)
      rw [Shared.Alive, hj]
      rfl

/-- The kernel refines the life cycle: every statement of a CPU is one event of it, or
nothing that the cycle sees. -/
theorem refines_life_cycle {b : C} (hr : (kernel n nofile b).Reachable s) :
    Relation.ReflTransGen ProcessTable.Step .empty s.shared.table ∧
    ∀ c x s', s.step nofile (c, x) = some s' →
      s'.shared.table = s.shared.table ∨ s.shared.table.Step s'.shared.table := by
  have event {s s' : State n C} {l : C × Choice} (hr : (kernel n nofile b).Reachable s)
      (hstep : s.step nofile l = some s') :
      s'.shared.table = s.shared.table ∨ s.shared.table.Step s'.shared.table := by
    have h := Sound.of_reachable hr
    obtain ⟨f, rest, e, hs, hturn, -⟩ := h.turn hstep
    obtain ⟨hsame, -⟩ | ⟨y, g, ha, -⟩ := hturn.written
    · exact .inl (congrArg Shared.table hsame)
    · have hrel : f.Relies (s.ctx nofile l.1 y) (s.running l.1) := h.relies hs y
      exact (h.write hs ha).table hrel (h.plays hs ha).1 (code_deed ha)
        (licensed hr (hr.step hstep) hs hrel)
  constructor
  · exact hr.refines (fun s => s.shared.table) ProcessTable.Step fun _ _ _ => event
  · intro c x s' hstep
    exact event hr hstep

theorem refines_life_cycle_forked : ∃ s : State 2 Unit, (kernel 2 0 ()).Reachable s ∧
    s.shared.table.parent 1 = some 0 ∧
    Relation.ReflTransGen ProcessTable.Step .empty s.shared.table := by
  have hrun : ((kernel 2 0 ()).run (kernel 2 0 ()).init forkThenWait).any fun s =>
      decide (s.shared.table.parent 1 = some 0) := by
    decide +kernel
  obtain ⟨s, hs, hparent⟩ := (Option.any_eq_true _ _).mp hrun
  have hr := System.reachable_of_run _ hs
  exact ⟨s, hr, of_decide_eq_true hparent, (refines_life_cycle hr).1⟩

end Runs

end MultithreadMayhem.Kernel
