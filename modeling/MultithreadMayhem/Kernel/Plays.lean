import MultithreadMayhem.Kernel.Roles

/-!
# The code plays its part

One lemma for each C function: from what its frame may rely on, every statement
makes one of the changes of process states that are listed for it, changes a slot
only under the lock of that slot, and establishes what the next frame relies on.
-/

namespace MultithreadMayhem.Kernel

variable {n : ℕ} {C : Type} {x : Ctx n} {t : Thread n C}

theorem Act.plays_quiet {f next : Frame n} {sh : Shared n} (hp : sh.proc = x.shared.proc)
    (ha : f.Alike next) (hk : ∀ e ∈ next.knows, x.shared.states e.1 = e.2) :
    (Act.exec sh next).Plays x t f := by
  have hst : sh.states = x.shared.states := by
    funext j
    rw [Shared.states, hp, Shared.states]
  refine ⟨.same hst ha, fun j hj => absurd (congrFun hp j) hj, fun e he => ?_⟩
  rw [hst]
  exact hk e he

theorem Act.plays_slot {f next : Frame n} {j : Fin n} {p : Proc n}
    (hc : Change t f next x.shared.states (Function.update x.shared.states j p.state))
    (hl : Lock.proc j ∈ f.locks)
    (hk : ∀ e ∈ next.knows, Function.update x.shared.states j p.state e.1 = e.2) :
    (Act.exec (x.shared.setProc j p) next).Plays x t f := by
  refine ⟨?_, fun k hk => ?_, fun e he => ?_⟩
  · rw [Shared.states_setProc]
    exact hc
  · rw [Shared.setProc_changes _ _ hk]
    exact hl
  · rw [Shared.states_setProc]
    exact hk e he

theorem Act.plays_slot_same {f next : Frame n} {j : Fin n} {p : Proc n}
    (hp : p.state = (x.proc j).state) (ha : f.Alike next) (hl : Lock.proc j ∈ f.locks)
    (hk : ∀ e ∈ next.knows, x.shared.states e.1 = e.2) :
    (Act.exec (x.shared.setProc j p) next).Plays x t f := by
  have hst : Function.update x.shared.states j p.state = x.shared.states := by
    rw [hp]
    exact Function.update_eq_self j x.shared.states
  refine Act.plays_slot (.same hst ha) hl fun e he => ?_
  rw [hst]
  exact hk e he

theorem Ctx.withProc_plays {f : Frame n} {a : Fin n → Act n}
    (h : ∀ q, x.me = some q → (a q).Plays x t f) : (x.withProc a).Plays x t f := by
  unfold Ctx.withProc
  split
  · exact h _ ‹_›
  · trivial

theorem main_plays (pc : MainPc) : (main x pc).Plays x t (.main pc) := by
  cases pc with
  | userinit => exact ⟨rfl, rfl, nofun, rfl, rfl, rfl, rfl, rfl⟩
  | initializing => trivial
  | start => exact Act.plays_quiet rfl ⟨rfl, rfl, rfl, rfl, rfl⟩ nofun
  | waiting =>
    simp only [main]
    split
    · exact Act.plays_quiet rfl ⟨rfl, rfl, rfl, rfl, rfl⟩ nofun
    · trivial

theorem userinit_plays {pc : UserinitPc n} (h : (Frame.userinit pc).Relies x t) :
    (userinit x pc).Plays x t (.userinit pc) := by
  cases pc with
  | allocproc => exact ⟨rfl, rfl, nofun, rfl, rfl, rfl, rfl, rfl⟩
  | allocating => trivial
  | setInitproc p => cases p <;> exact Act.plays_quiet rfl ⟨rfl, rfl, rfl, rfl, rfl⟩ nofun
  | setCwd p =>
    cases p with
    | none => rfl
    | some p => exact Act.plays_quiet rfl ⟨rfl, rfl, rfl, rfl, rfl⟩ nofun
  | setState p =>
    have hused := h.builds p (Multiset.mem_singleton_self p)
    exact Act.plays_slot (.publish p hused rfl nofun ⟨rfl, rfl⟩ ⟨rfl, rfl⟩ rfl)
      (Multiset.mem_singleton_self _) nofun
  | release p => exact ⟨⟨rfl, rfl, rfl, rfl, rfl⟩, nofun⟩
  | done => exact ⟨rfl, rfl, rfl⟩

theorem allocproc_plays {pc : AllocprocPc n} (h : (Frame.allocproc pc).Relies x t) :
    (allocproc x pc).Plays x t (.allocproc pc) := by
  cases pc with
  | loop i =>
    simp only [allocproc]
    split <;> exact Act.plays_quiet rfl ⟨rfl, rfl, rfl, rfl, rfl⟩ (List.forall_mem_nil _)
  | acquire p => exact ⟨⟨rfl, rfl, rfl, rfl, rfl⟩, List.forall_mem_nil _⟩
  | test p =>
    simp only [allocproc]
    split
    · rename_i hunused
      refine Act.plays_quiet rfl ⟨rfl, rfl, rfl, rfl, rfl⟩ fun e he => ?_
      obtain rfl := List.mem_singleton.mp he
      exact hunused
    · exact Act.plays_quiet rfl ⟨rfl, rfl, rfl, rfl, rfl⟩ (List.forall_mem_nil _)
  | release p => exact ⟨⟨rfl, rfl, rfl, rfl, rfl⟩, List.forall_mem_nil _⟩
  | allocpid p => exact ⟨rfl, rfl, List.Subset.refl _, rfl, rfl, rfl, rfl, rfl⟩
  | allocating p => trivial
  | setPid p pid =>
    exact Act.plays_slot_same rfl ⟨rfl, rfl, rfl, rfl, rfl⟩ (Multiset.mem_singleton_self _) h.knows
  | init p =>
    have hunused := h.knows (p, .unused) (List.mem_singleton_self _)
    refine ⟨.alloc p hunused ?_ rfl rfl, fun k hk => ?_, List.forall_mem_nil _⟩
    · rw [Shared.states_setImage, Shared.states_setProc]
      rfl
    · rw [Shared.setProc_changes _ _ hk]
      exact Multiset.mem_singleton_self _
  | trapframe p =>
    simp only [allocproc]
    split <;> exact Act.plays_quiet rfl ⟨rfl, rfl, rfl, rfl, rfl⟩ (List.forall_mem_nil _)
  | pagetable p =>
    simp only [allocproc]
    split <;> exact Act.plays_quiet rfl ⟨rfl, rfl, rfl, rfl, rfl⟩ (List.forall_mem_nil _)
  | context p => exact ⟨rfl, rfl⟩
  | freeproc p =>
    have hused := h.builds p (Multiset.mem_singleton_self p)
    refine ⟨.abandon p hused ?_ (by rintro ⟨⟩) ⟨rfl, rfl⟩ ⟨rfl, rfl⟩, fun k hk => ?_, List.forall_mem_nil _⟩
    · exact Shared.states_freeproc _ _
    · rw [Shared.setProc_changes _ _ hk]
      exact Multiset.mem_singleton_self _
  | releaseFreed p => exact ⟨⟨rfl, rfl, rfl, rfl, rfl⟩, List.forall_mem_nil _⟩
  | done p => cases p <;> exact ⟨rfl, rfl, rfl⟩

theorem allocpid_plays (pc : AllocpidPc) : (allocpid x pc).Plays x t (.allocpid pc) := by
  cases pc with
  | acquire => exact ⟨⟨rfl, rfl, rfl, rfl, rfl⟩, nofun⟩
  | release pid => exact ⟨⟨rfl, rfl, rfl, rfl, rfl⟩, nofun⟩
  | done pid => exact ⟨rfl, rfl, rfl⟩
  | _ => exact Act.plays_quiet rfl ⟨rfl, rfl, rfl, rfl, rfl⟩ nofun

theorem kfork_plays {p : Fin n} {pc : KforkPc n} (h : (Frame.kfork p pc).Relies x t) :
    (kfork x p pc).Plays x t (.kfork p pc) := by
  cases pc with
  | allocproc => exact ⟨rfl, rfl, List.forall_mem_nil _, rfl, rfl, rfl, rfl, rfl⟩
  | allocating => trivial
  | uvmcopy np =>
    simp only [kfork]
    split <;> exact Act.plays_quiet rfl ⟨rfl, rfl, rfl, rfl, rfl⟩ (List.forall_mem_nil _)
  | freeproc np =>
    have hused := h.builds np (Multiset.mem_singleton_self np)
    refine ⟨.abandon np hused ?_ (by rintro ⟨⟩) ⟨rfl, rfl⟩ ⟨rfl, rfl⟩, fun k hk => ?_, List.forall_mem_nil _⟩
    · exact Shared.states_freeproc _ _
    · rw [Shared.setProc_changes _ _ hk]
      exact Multiset.mem_singleton_self _
  | filedup np i =>
    simp only [kfork]
    split
    · split <;> exact Act.plays_quiet rfl ⟨rfl, rfl, rfl, rfl, rfl⟩ (List.forall_mem_nil _)
    · exact Act.plays_quiet rfl ⟨rfl, rfl, rfl, rfl, rfl⟩ (List.forall_mem_nil _)
  | setState np pid =>
    have hused := h.builds np (Multiset.mem_singleton_self np)
    exact Act.plays_slot (.publish np hused rfl (by rintro ⟨⟩) ⟨rfl, rfl⟩ ⟨rfl, rfl⟩ rfl)
      (Multiset.mem_singleton_self _) (List.forall_mem_nil _)
  | releaseFreed | release | acquireWait | releaseWait | reacquire | releaseAgain =>
    exact ⟨⟨rfl, rfl, rfl, rfl, rfl⟩, List.forall_mem_nil _⟩
  | done v => exact ⟨rfl, rfl, rfl⟩
  | _ => exact Act.plays_quiet rfl ⟨rfl, rfl, rfl, rfl, rfl⟩ (List.forall_mem_nil _)

theorem forkret_plays {p : Fin n} (pc : ForkretPc) :
    (forkret x p pc).Plays x t (.forkret p pc) := by
  cases pc with
  | release => exact ⟨⟨rfl, rfl, rfl, rfl, rfl⟩, List.forall_mem_nil _⟩
  | testFirst =>
    simp only [forkret]
    split <;> exact Act.plays_quiet rfl ⟨rfl, rfl, rfl, rfl, rfl⟩ (List.forall_mem_nil _)
  | fsinit => exact ⟨rfl, rfl, List.forall_mem_nil _, rfl, rfl, rfl, rfl, rfl⟩
  | kexec => exact ⟨rfl, rfl, List.forall_mem_nil _, rfl, rfl, rfl, rfl, rfl⟩
  | testA0 v =>
    simp only [forkret]
    split
    · rfl
    · exact Act.plays_quiet rfl ⟨rfl, rfl, rfl, rfl, rfl⟩ (List.forall_mem_nil _)
  | initializing => trivial
  | executing => trivial
  | _ => exact Act.plays_quiet rfl ⟨rfl, rfl, rfl, rfl, rfl⟩ (List.forall_mem_nil _)

theorem scheduler_plays {pc : SchedulerPc n} (h : (Frame.scheduler pc).Relies x t) :
    (scheduler x pc).Plays x t (.scheduler pc) := by
  cases pc with
  | start => exact Act.plays_quiet rfl ⟨rfl, rfl, rfl, rfl, rfl⟩ (List.forall_mem_nil _)
  | loop i best =>
    cases best with
    | none =>
      simp only [scheduler]
      split <;> exact Act.plays_quiet rfl ⟨rfl, rfl, rfl, rfl, rfl⟩ (List.forall_mem_nil _)
    | some b =>
      simp only [scheduler]
      split <;> exact Act.plays_quiet rfl ⟨rfl, rfl, rfl, rfl, rfl⟩ h.knows
  | acquire p best => cases best <;> exact ⟨⟨rfl, rfl, rfl, rfl, rfl⟩, List.Subset.refl _⟩
  | test p best =>
    simp only [scheduler]
    split
    · rename_i hrunnable
      cases best with
      | none =>
        refine Act.plays_quiet rfl ⟨rfl, rfl, rfl, rfl, rfl⟩ fun e he => ?_
        obtain rfl := List.mem_singleton.mp he
        exact hrunnable
      | some b =>
        simp only
        split
        · refine Act.plays_quiet rfl ⟨rfl, rfl, rfl, rfl, rfl⟩ fun e he => ?_
          obtain rfl := List.mem_singleton.mp he
          exact hrunnable
        · exact Act.plays_quiet rfl ⟨rfl, rfl, rfl, rfl, rfl⟩ h.knows
    · cases best with
      | none => exact Act.plays_quiet rfl ⟨rfl, rfl, rfl, rfl, rfl⟩ (List.forall_mem_nil _)
      | some b => exact Act.plays_quiet rfl ⟨rfl, rfl, rfl, rfl, rfl⟩ h.knows
  | releaseBest p b => exact ⟨⟨rfl, rfl, rfl, rfl, rfl⟩, List.Subset.refl _⟩
  | releaseSlot p best => cases best <;> exact ⟨⟨rfl, rfl, rfl, rfl, rfl⟩, List.Subset.refl _⟩
  | setState b =>
    have hrunnable := h.knows (b, .runnable) (List.mem_singleton_self _)
    refine Act.plays_slot (.dispatch b hrunnable rfl rfl rfl) (Multiset.mem_singleton_self _)
      fun e he => ?_
    obtain rfl := List.mem_singleton.mp he
    exact Function.update_self ..
  | setProc b => exact .inl ⟨b, rfl, rfl, rfl⟩
  | swtch b => exact ⟨rfl, rfl⟩
  | clearProc b => exact .inr ⟨b, rfl, rfl, rfl⟩
  | release b => exact ⟨⟨rfl, rfl, rfl, rfl, rfl⟩, List.forall_mem_nil _⟩

theorem sched_plays {p : Fin n} {pc : SchedPc} (h : (Frame.sched p pc).Relies x t) :
    (sched x p pc).Plays x t (.sched p pc) := by
  cases pc with
  | testLock =>
    have hl := (h.sched p .testLock rfl rfl).1
    simp only [sched, if_pos hl]
    exact Act.plays_quiet rfl ⟨rfl, rfl, rfl, rfl, rfl⟩ (List.forall_mem_nil _)
  | testLocks =>
    have hn := (h.sched p .testLocks rfl rfl).2
    simp only [sched, if_pos hn]
    exact Act.plays_quiet rfl ⟨rfl, rfl, rfl, rfl, rfl⟩ (List.forall_mem_nil _)
  | testState =>
    have hr : (x.proc p).state ≠ .running := by
      obtain hst | hst | hst := h.running p h.on <;> exact fun hrun => by
        rw [Shared.states] at hst
        rw [Ctx.proc, hst] at hrun
        cases hrun
    simp only [sched, if_neg hr]
    exact Act.plays_quiet rfl ⟨rfl, rfl, rfl, rfl, rfl⟩ (List.forall_mem_nil _)
  | testIntr =>
    have hn : x.noff = 1 := (h.sched p .testIntr rfl rfl).2
    have hoff : x.intrGet = false := by simp [Ctx.intrGet, hn]
    simp only [sched, hoff]
    exact Act.plays_quiet rfl ⟨rfl, rfl, rfl, rfl, rfl⟩ (List.forall_mem_nil _)
  | swtch => exact ⟨p, rfl, rfl⟩
  | done => exact ⟨rfl, rfl, rfl⟩

theorem yield_plays {p : Fin n} {pc : YieldPc} (h : (Frame.yield p pc).Relies x t) :
    (Kernel.yield x p pc).Plays x t (.yield p pc) := by
  cases pc with
  | acquire => exact ⟨⟨rfl, rfl, rfl, rfl, rfl⟩, nofun⟩
  | setState =>
    exact Act.plays_slot (.leave p .runnable (h.running p h.on) rfl h.on nofun ⟨rfl, rfl⟩ (.inl rfl)
      ⟨rfl, rfl⟩) (Multiset.mem_singleton_self _) nofun
  | sched =>
    exact Ctx.withProc_plays fun q _ => ⟨rfl, rfl, nofun, rfl, rfl, rfl, rfl, rfl⟩
  | scheduling => trivial
  | release => exact ⟨⟨rfl, rfl, rfl, rfl, rfl⟩, nofun⟩
  | done => exact ⟨rfl, rfl, rfl⟩

theorem sleep_plays {p : Fin n} {chan : Chan n} {lk : Lock n} {pc : SleepPc}
    (h : (Frame.sleep p chan lk pc).Relies x t) :
    (sleep x p chan lk pc).Plays x t (.sleep p chan lk pc) := by
  cases pc with
  | setChan =>
    exact Act.plays_slot_same rfl ⟨rfl, rfl, rfl, rfl, rfl⟩ (Multiset.mem_singleton_self _) nofun
  | setState =>
    exact Act.plays_slot (.leave p .sleeping (h.running p h.on) rfl h.on nofun ⟨rfl, rfl⟩
      (.inr (.inl rfl)) ⟨rfl, rfl⟩) (Multiset.mem_singleton_self _) nofun
  | sched =>
    exact Ctx.withProc_plays fun q _ => ⟨rfl, rfl, nofun, rfl, rfl, rfl, rfl, rfl⟩
  | scheduling => trivial
  | clearChan =>
    exact Act.plays_slot_same rfl ⟨rfl, rfl, rfl, rfl, rfl⟩ (Multiset.mem_singleton_self _) nofun
  | done => exact ⟨rfl, rfl, rfl⟩
  | _ => exact ⟨⟨rfl, rfl, rfl, rfl, rfl⟩, nofun⟩

theorem wakeup_plays {chan : Option (Chan n)} (pc : WakeupPc n) :
    (wakeup x chan pc).Plays x t (.wakeup chan pc) := by
  cases pc with
  | loop i =>
    simp only [wakeup]
    split
    · split <;> exact Act.plays_quiet rfl ⟨rfl, rfl, rfl, rfl, rfl⟩ (List.forall_mem_nil _)
    · exact Act.plays_quiet rfl ⟨rfl, rfl, rfl, rfl, rfl⟩ (List.forall_mem_nil _)
  | test p =>
    simp only [wakeup]
    split
    · rename_i hsleeping
      exact Act.plays_slot (.wake p hsleeping.1 rfl rfl ⟨rfl, rfl, rfl, rfl, rfl⟩)
        (Multiset.mem_singleton_self _) (List.forall_mem_nil _)
    · exact Act.plays_quiet rfl ⟨rfl, rfl, rfl, rfl, rfl⟩ (List.forall_mem_nil _)
  | done => exact ⟨rfl, rfl, rfl⟩
  | _ => exact ⟨⟨rfl, rfl, rfl, rfl, rfl⟩, List.forall_mem_nil _⟩

theorem reparent_plays {p : Fin n} (pc : ReparentPc n) :
    (reparent x p pc).Plays x t (.reparent p pc) := by
  cases pc with
  | loop i =>
    simp only [reparent]
    split
    · split <;> exact Act.plays_quiet rfl ⟨rfl, rfl, rfl, rfl, rfl⟩ (List.forall_mem_nil _)
    · exact Act.plays_quiet rfl ⟨rfl, rfl, rfl, rfl, rfl⟩ (List.forall_mem_nil _)
  | setParent pp => exact Act.plays_quiet rfl ⟨rfl, rfl, rfl, rfl, rfl⟩ (List.forall_mem_nil _)
  | wakeup pp => exact ⟨rfl, rfl, List.forall_mem_nil _, rfl, rfl, rfl, rfl, rfl⟩
  | waking pp => trivial
  | done => exact ⟨rfl, rfl, rfl⟩

theorem kexit_plays {p : Fin n} {status : Int} {pc : KexitPc}
    (h : (Frame.kexit p status pc).Relies x t) :
    (kexit x p status pc).Plays x t (.kexit p status pc) := by
  cases pc with
  | testInit =>
    simp only [kexit]
    split
    · rfl
    · exact Act.plays_quiet rfl ⟨rfl, rfl, rfl, rfl, rfl⟩ (List.forall_mem_nil _)
  | testFile fd =>
    simp only [kexit]
    split
    · split <;> exact Act.plays_quiet rfl ⟨rfl, rfl, rfl, rfl, rfl⟩ (List.forall_mem_nil _)
    · exact Act.plays_quiet rfl ⟨rfl, rfl, rfl, rfl, rfl⟩ (List.forall_mem_nil _)
  | fileclose | beginOp | iput | endOp | reparent | wakeup =>
    exact ⟨rfl, rfl, List.forall_mem_nil _, rfl, rfl, rfl, rfl, rfl⟩
  | setXstate =>
    exact Act.plays_slot_same rfl ⟨rfl, rfl, rfl, rfl, rfl⟩
      (Multiset.mem_cons_of_mem (Multiset.mem_singleton_self _)) (List.forall_mem_nil _)
  | setState =>
    exact Act.plays_slot (.leave p .zombie (h.running p h.on) rfl h.on (by rintro ⟨⟩) ⟨rfl, rfl⟩
      (.inr (.inr rfl)) ⟨rfl, rfl⟩) (Multiset.mem_cons_of_mem (Multiset.mem_singleton_self _)) (List.forall_mem_nil _)
  | sched =>
    exact Ctx.withProc_plays fun q _ => ⟨rfl, rfl, List.forall_mem_nil _, rfl, rfl, rfl, rfl, rfl⟩
  | acquireWait | acquire | releaseWait => exact ⟨⟨rfl, rfl, rfl, rfl, rfl⟩, List.forall_mem_nil _⟩
  | closing | beginning | putting | ending | reparenting | waking | scheduling => trivial
  | zombieExit => rfl
  | _ => exact Act.plays_quiet rfl ⟨rfl, rfl, rfl, rfl, rfl⟩ (List.forall_mem_nil _)

theorem kwait_plays {p : Fin n} {addr : BitVec 64} {pc : KwaitPc n}
    (h : (Frame.kwait p addr pc).Relies x t) :
    (kwait x p addr pc).Plays x t (.kwait p addr pc) := by
  cases pc with
  | loop i havekids =>
    simp only [kwait]
    split
    · split <;> exact Act.plays_quiet rfl ⟨rfl, rfl, rfl, rfl, rfl⟩ (List.forall_mem_nil _)
    · split <;> exact Act.plays_quiet rfl ⟨rfl, rfl, rfl, rfl, rfl⟩ (List.forall_mem_nil _)
  | test pp =>
    simp only [kwait]
    split
    · rename_i hzombie
      refine Act.plays_quiet rfl ⟨rfl, rfl, rfl, rfl, rfl⟩ fun e he => ?_
      obtain rfl := List.mem_singleton.mp he
      exact hzombie
    · exact Act.plays_quiet rfl ⟨rfl, rfl, rfl, rfl, rfl⟩ (List.forall_mem_nil _)
  | copyout pp pid =>
    simp only [kwait]
    split
    · exact Act.plays_quiet rfl ⟨rfl, rfl, rfl, rfl, rfl⟩ h.knows
    · split
      · exact Act.plays_quiet rfl ⟨rfl, rfl, rfl, rfl, rfl⟩ (List.forall_mem_nil _)
      · exact Act.plays_quiet rfl ⟨rfl, rfl, rfl, rfl, rfl⟩ h.knows
  | freeproc pp pid =>
    have hzombie := h.knows (pp, .zombie) (List.mem_singleton_self _)
    refine ⟨.reap pp hzombie ?_ rfl ⟨rfl, rfl, rfl, rfl, rfl⟩, fun k hk => ?_, List.forall_mem_nil _⟩
    · exact Shared.states_freeproc _ _
    · rw [Shared.setProc_changes _ _ hk]
      exact Multiset.mem_cons_self (Lock.proc pp) {.waitLock}
  | killed => exact ⟨rfl, rfl, List.forall_mem_nil _, rfl, rfl, rfl, rfl, rfl⟩
  | killing => trivial
  | testKilled k =>
    simp only [kwait]
    split <;> exact Act.plays_quiet rfl ⟨rfl, rfl, rfl, rfl, rfl⟩ (List.forall_mem_nil _)
  | sleep =>
    exact Ctx.withProc_plays fun q _ => ⟨rfl, rfl, List.forall_mem_nil _, rfl, rfl, rfl, rfl, rfl⟩
  | sleeping => trivial
  | done v => exact ⟨rfl, rfl, rfl⟩
  | _ => exact ⟨⟨rfl, rfl, rfl, rfl, rfl⟩, List.forall_mem_nil _⟩

theorem killed_plays {p : Fin n} (pc : KilledPc) : (killed x p pc).Plays x t (.killed p pc) := by
  cases pc with
  | read => exact Act.plays_quiet rfl ⟨rfl, rfl, rfl, rfl, rfl⟩ nofun
  | done k => exact ⟨rfl, rfl, rfl⟩
  | _ => exact ⟨⟨rfl, rfl, rfl, rfl, rfl⟩, nofun⟩

theorem setkilled_plays {p : Fin n} (pc : SetkilledPc) :
    (setkilled x p pc).Plays x t (.setkilled p pc) := by
  cases pc with
  | set =>
    exact Act.plays_slot_same rfl ⟨rfl, rfl, rfl, rfl, rfl⟩ (Multiset.mem_singleton_self _) nofun
  | done => exact ⟨rfl, rfl, rfl⟩
  | _ => exact ⟨⟨rfl, rfl, rfl, rfl, rfl⟩, nofun⟩

theorem PidOp.hit_state {op : PidOp} {p q : Proc n} {v : Int} (h : op.hit p = some (q, v)) :
    q.state = p.state ∨ p.state = .sleeping ∧ q.state = .runnable := by
  cases op with
  | kkill pid =>
    simp only [PidOp.hit, Kernel.kkill] at h
    split at h <;> cases h
    by_cases hs : p.state = .sleeping
    · exact .inr ⟨hs, if_pos hs⟩
    · exact .inl (if_neg hs)
  | setPriority pid prio =>
    simp only [PidOp.hit, Kernel.setPriority] at h
    split at h <;> cases h
    exact .inl rfl
  | getPriority pid =>
    simp only [PidOp.hit, Kernel.getPriority] at h
    split at h <;> cases h
    exact .inl rfl

theorem pidScan_plays {op : PidOp} (pc : PidScanPc n) :
    (pidScan x op pc).Plays x t (.pidScan op pc) := by
  cases pc with
  | loop i =>
    simp only [pidScan]
    split <;> exact Act.plays_quiet rfl ⟨rfl, rfl, rfl, rfl, rfl⟩ (List.forall_mem_nil _)
  | test p =>
    simp only [pidScan]
    split
    · rename_i q v hq
      obtain hsame | ⟨hs, hw⟩ := PidOp.hit_state hq
      · exact Act.plays_slot_same hsame ⟨rfl, rfl, rfl, rfl, rfl⟩ (Multiset.mem_singleton_self _)
          (List.forall_mem_nil _)
      · refine Act.plays_slot (.wake p hs ?_ rfl ⟨rfl, rfl, rfl, rfl, rfl⟩)
          (Multiset.mem_singleton_self _) (List.forall_mem_nil _)
        rw [hw]
    · exact Act.plays_quiet rfl ⟨rfl, rfl, rfl, rfl, rfl⟩ (List.forall_mem_nil _)
  | done v => exact ⟨rfl, rfl, rfl⟩
  | _ => exact ⟨⟨rfl, rfl, rfl, rfl, rfl⟩, List.forall_mem_nil _⟩

theorem syscall_plays {p : Fin n} (pc : SyscallPc) : (syscall x p pc).Plays x t (.syscall p pc) := by
  have quiet {sh : Shared n} {pc' : SyscallPc} (hp : sh.proc = x.shared.proc) :
      (Act.exec sh (.syscall p pc')).Plays x t (.syscall p pc) :=
    Act.plays_quiet hp ⟨rfl, rfl, rfl, rfl, rfl⟩ nofun
  have calls {callee : Frame n} (hb : callee.builds = 0) (hk : callee.knows = [])
      (hl : callee.leaving = false) :
      (Act.call callee (.syscall p .calling)).Plays x t (.syscall p pc) :=
    ⟨rfl, rfl, nofun, rfl, rfl, hb, hk, hl⟩
  have current {callee : Fin n → Frame n} (hb : ∀ q, (callee q).builds = 0)
      (hk : ∀ q, (callee q).knows = []) (hl : ∀ q, (callee q).leaving = false) :
      (x.withProc fun q => .call (callee q) (.syscall p .calling)).Plays x t (.syscall p pc) :=
    Ctx.withProc_plays fun q _ => calls (hb q) (hk q) (hl q)
  cases pc with
  | dispatch =>
    simp only [syscall, dispatch]
    split
    · exact current (fun _ => rfl) (fun _ => rfl) fun _ => rfl
    split
    · exact current (fun _ => rfl) (fun _ => rfl) fun _ => rfl
    split
    · exact current (fun _ => rfl) (fun _ => rfl) fun _ => rfl
    split
    · exact calls rfl rfl rfl
    split
    · exact quiet rfl
    split
    · exact quiet rfl
    split
    · exact calls rfl rfl rfl
    split
    · exact calls rfl rfl rfl
    split
    · split <;> exact quiet rfl
    split
    · exact calls rfl rfl rfl
    · exact quiet rfl
  | calling => trivial
  | done => exact ⟨rfl, rfl, rfl⟩
  | _ => exact quiet rfl

theorem user_plays {p : Fin n} (pc : UserPc) : (user x p pc).Plays x t (.user p pc) := by
  have current {callee : Fin n → Frame n} (hb : ∀ q, (callee q).builds = 0)
      (hk : ∀ q, (callee q).knows = []) (hl : ∀ q, (callee q).leaving = false) :
      (x.withProc fun q => .call (callee q) (.user p .trapping)).Plays x t (.user p pc) :=
    Ctx.withProc_plays fun q _ => ⟨rfl, rfl, List.forall_mem_nil _, rfl, rfl, hb q, hk q, hl q⟩
  cases pc with
  | run =>
    simp only [user]
    split
    · exact Act.plays_quiet rfl ⟨rfl, rfl, rfl, rfl, rfl⟩ (List.forall_mem_nil _)
    · exact current (fun _ => rfl) (fun _ => rfl) fun _ => rfl
    · exact current (fun _ => rfl) (fun _ => rfl) fun _ => rfl
    · exact current (fun _ => rfl) (fun _ => rfl) fun _ => rfl
    · exact current (fun _ => rfl) (fun _ => rfl) fun _ => rfl
    · exact ⟨rfl, rfl, List.forall_mem_nil _, rfl, rfl, rfl, rfl, rfl⟩
    · trivial
  | syscall => exact current (fun _ => rfl) (fun _ => rfl) fun _ => rfl
  | trapping => trivial

theorem ext_plays {kind : ExtKind} (pc : ExtPc) : (ext x kind pc).Plays x t (.ext kind pc) := by
  have current {callee : Fin n → Frame n} {next : ExtPc} (hb : ∀ q, (callee q).builds = 0)
      (hk : ∀ q, (callee q).knows = []) (hl : ∀ q, (callee q).leaving = false) :
      (x.withProc fun q => .call (callee q) (.ext kind next)).Plays x t (.ext kind pc) :=
    Ctx.withProc_plays fun q _ => ⟨rfl, rfl, List.forall_mem_nil _, rfl, rfl, hb q, hk q, hl q⟩
  cases pc with
  | run held =>
    simp only [ext]
    split
    · exact ⟨⟨rfl, rfl, rfl, rfl, rfl⟩, List.forall_mem_nil _⟩
    · split
      · exact ⟨⟨rfl, rfl, rfl, rfl, rfl⟩, List.forall_mem_nil _⟩
      · trivial
    · exact ⟨rfl, rfl, List.forall_mem_nil _, rfl, rfl, rfl, rfl, rfl⟩
    · exact current (fun _ => rfl) (fun _ => rfl) fun _ => rfl
    · split
      · exact current (fun _ => rfl) (fun _ => rfl) fun _ => rfl
      · trivial
    · split
      · exact current (fun _ => rfl) (fun _ => rfl) fun _ => rfl
      · trivial
    · split
      · trivial
      · exact Ctx.withProc_plays fun q _ =>
          Act.plays_quiet rfl ⟨rfl, rfl, rfl, rfl, rfl⟩ (List.forall_mem_nil _)
    · split
      · exact Act.plays_quiet rfl ⟨rfl, rfl, rfl, rfl, rfl⟩ (List.forall_mem_nil _)
      · trivial
    · trivial
  | calling => trivial
  | sleeping => trivial
  | done v =>
    cases kind with
    | handler => exact ⟨rfl, rfl⟩
    | service | file => exact ⟨rfl, rfl, rfl⟩

theorem code_plays {f : Frame n} (h : f.Relies x t) : (code x f).Plays x t f := by
  cases f with
  | main pc => exact main_plays pc
  | userinit pc => exact userinit_plays h
  | allocproc pc => exact allocproc_plays h
  | allocpid pc => exact allocpid_plays pc
  | kfork p pc => exact kfork_plays h
  | forkret p pc => exact forkret_plays pc
  | scheduler pc => exact scheduler_plays h
  | sched p pc => exact sched_plays h
  | yield p pc => exact yield_plays h
  | sleep p chan lk pc => exact sleep_plays h
  | wakeup chan pc => exact wakeup_plays pc
  | reparent p pc => exact reparent_plays pc
  | kexit p status pc => exact kexit_plays h
  | kwait p addr pc => exact kwait_plays h
  | killed p pc => exact killed_plays pc
  | setkilled p pc => exact setkilled_plays pc
  | pidScan op pc => exact pidScan_plays pc
  | syscall p pc => exact syscall_plays pc
  | user p pc => exact user_plays pc
  | ext kind pc => exact ext_plays pc
  | panic msg => trivial

end MultithreadMayhem.Kernel
