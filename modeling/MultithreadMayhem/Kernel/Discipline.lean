import MultithreadMayhem.Kernel.Locks

/-!
# The code follows the lock annotation

One lemma for each C function. The scheduler is the only one that takes a lock of
the table while it has another; it goes upwards through the table, so the lock it
keeps comes before the one it takes.
-/

namespace MultithreadMayhem.Kernel

variable {n : ℕ} {C : Type} {x : Ctx n} {t : Thread n C} {H : Multiset (Lock n)}

theorem Lock.Outer.rank_lt_proc {l : Lock n} (h : l.Outer) (j : Fin n) :
    l.rank < (Lock.proc j).rank := by
  have hl : l.rank < 2 := h
  change l.rank < 2 + j.val
  omega

theorem Ctx.withProc_disciplined {f : Frame n} {a : Fin n → Act n}
    (h : ∀ q, x.me = some q → (a q).Disciplined t H f) : (x.withProc a).Disciplined t H f := by
  unfold Ctx.withProc
  split
  · exact h _ ‹_›
  · trivial

theorem main_disciplined (hon : ∃ c, t = .cpu c) (hpre : H = 0) (pc : MainPc) :
    (main x pc).Disciplined t H (.main pc) := by
  subst hpre
  cases pc with
  | userinit => exact ⟨rfl, rfl, trivial, rfl, rfl, trivial, hon⟩
  | initializing => trivial
  | start => exact ⟨rfl, rfl, trivial⟩
  | waiting =>
    simp only [main]
    split
    · exact ⟨rfl, rfl, trivial⟩
    · trivial

theorem userinit_disciplined (hpre : H = 0) (pc : UserinitPc n) :
    (userinit x pc).Disciplined t H (.userinit pc) := by
  subst hpre
  cases pc with
  | allocproc => exact ⟨rfl, rfl, trivial, rfl, rfl, trivial, trivial⟩
  | setCwd p =>
    cases p with
    | none => trivial
    | some p => exact ⟨rfl, rfl, trivial⟩
  | done => exact ⟨rfl, nofun, nofun⟩
  | allocating => trivial
  | _ => exact ⟨rfl, rfl, trivial⟩

theorem allocproc_disciplined (hpre : H = 0) (pc : AllocprocPc n) :
    (allocproc x pc).Disciplined t H (.allocproc pc) := by
  subst hpre
  cases pc with
  | loop i =>
    simp only [allocproc]
    split <;> exact ⟨rfl, rfl, trivial⟩
  | acquire p => exact ⟨rfl, rfl, trivial, fun _ l' hl => by cases hl⟩
  | test p =>
    simp only [allocproc]
    split <;> exact ⟨rfl, rfl, trivial⟩
  | allocpid p =>
    refine ⟨rfl, rfl, trivial, rfl, fun l' hl => ?_, trivial, trivial⟩
    obtain rfl : l' = .proc p := by simpa [Frame.locks, AllocprocPc.locks] using hl
    simp only [Lock.rank]
    omega
  | trapframe p =>
    simp only [allocproc]
    split <;> exact ⟨rfl, rfl, trivial⟩
  | pagetable p =>
    simp only [allocproc]
    split <;> exact ⟨rfl, rfl, trivial⟩
  | done p => exact ⟨rfl, by rintro ⟨⟩, by rintro ⟨⟩⟩
  | allocating => trivial
  | _ => exact ⟨rfl, rfl, trivial⟩

theorem allocpid_disciplined (hpre : ∀ l ∈ H, l.rank < 2 + n) (pc : AllocpidPc) :
    (allocpid x pc).Disciplined t H (.allocpid pc) := by
  cases pc with
  | acquire =>
    refine ⟨rfl, rfl, trivial, fun _ l' hl => hpre l' ?_⟩
    simpa [Frame.locks, AllocpidPc.locks] using hl
  | done pid => exact ⟨rfl, by rintro ⟨⟩, by rintro ⟨⟩⟩
  | _ => exact ⟨rfl, rfl, trivial⟩

theorem kfork_disciplined {p : Fin n} (hpre : H = 0) (pc : KforkPc n) :
    (kfork x p pc).Disciplined t H (.kfork p pc) := by
  subst hpre
  cases pc with
  | allocproc => exact ⟨rfl, rfl, trivial, rfl, rfl, trivial, trivial⟩
  | allocating => trivial
  | uvmcopy np =>
    simp only [kfork]
    split <;> exact ⟨rfl, rfl, trivial⟩
  | filedup np i =>
    simp only [kfork]
    split
    · split <;> exact ⟨rfl, rfl, trivial⟩
    · exact ⟨rfl, rfl, trivial⟩
  | acquireWait np pid => exact ⟨rfl, rfl, trivial, fun _ l' hl => by cases hl⟩
  | reacquire np pid => exact ⟨rfl, rfl, trivial, fun _ l' hl => by cases hl⟩
  | done v => exact ⟨rfl, nofun, nofun⟩
  | _ => exact ⟨rfl, rfl, trivial⟩

theorem forkret_disciplined {p : Fin n} (hpre : H = 0) (pc : ForkretPc) :
    (forkret x p pc).Disciplined t H (.forkret p pc) := by
  subst hpre
  cases pc with
  | testFirst =>
    simp only [forkret]
    split <;> exact ⟨rfl, rfl, trivial⟩
  | fsinit => exact ⟨rfl, rfl, trivial, rfl, rfl, trivial, trivial⟩
  | kexec => exact ⟨rfl, rfl, trivial, rfl, rfl, trivial, trivial⟩
  | testA0 v =>
    simp only [forkret]
    split
    · trivial
    · exact ⟨rfl, rfl, trivial⟩
  | initializing => trivial
  | executing => trivial
  | _ => exact ⟨rfl, rfl, trivial⟩

theorem scheduler_disciplined (hpre : H = 0) (pc : SchedulerPc n)
    (hwf : (Frame.scheduler pc).WF) :
    (scheduler x pc).Disciplined t H (.scheduler pc) := by
  subst hpre
  cases pc with
  | start => exact ⟨rfl, rfl, fun b hb => by cases hb⟩
  | loop i best =>
    simp only [scheduler]
    split
    · exact ⟨rfl, rfl, hwf⟩
    · cases best <;> exact ⟨rfl, rfl, trivial⟩
  | acquire p best =>
    refine ⟨rfl, rfl, hwf, fun _ l' hl => ?_⟩
    rw [Multiset.add_zero] at hl
    obtain ⟨b, hb, rfl⟩ := Lock.mem_slot.mp hl
    have : b < p := hwf b hb
    simp only [Lock.rank]
    omega
  | test p best =>
    simp only [scheduler]
    split
    · cases best with
      | none =>
        refine ⟨rfl, rfl, fun b hb => ?_⟩
        cases hb
        exact Nat.lt_succ_self _
      | some b =>
        have hlt : b < p := hwf b rfl
        simp only
        split
        · exact ⟨Multiset.cons_swap (Lock.proc b) (.proc p) 0, rfl, hlt⟩
        · exact ⟨rfl, rfl, hwf⟩
    · exact ⟨rfl, rfl, hwf⟩
  | releaseBest p best =>
    refine ⟨rfl, rfl, fun b hb => ?_⟩
    cases hb
    exact Nat.lt_succ_self _
  | releaseSlot p best => exact ⟨rfl, rfl, fun b hb => Nat.lt_succ_of_lt (hwf b hb)⟩
  | _ => exact ⟨rfl, rfl, trivial⟩

theorem sched_disciplined {p : Fin n} (pc : SchedPc) :
    (sched x p pc).Disciplined t H (.sched p pc) := by
  cases pc with
  | testLock =>
    simp only [sched]
    split
    · exact ⟨rfl, rfl, trivial⟩
    · trivial
  | testLocks =>
    simp only [sched]
    split
    · exact ⟨rfl, rfl, trivial⟩
    · trivial
  | testState | testIntr =>
    simp only [sched]
    split
    · trivial
    · exact ⟨rfl, rfl, trivial⟩
  | swtch => exact ⟨rfl, rfl, trivial⟩
  | done => exact ⟨rfl, nofun, nofun⟩

theorem yield_disciplined {p : Fin n} (hme : ∀ q, x.me = some q → t = .proc q)
    (hon : t = .proc p) (hpre : H = 0) (pc : YieldPc) :
    (Kernel.yield x p pc).Disciplined t H (.yield p pc) := by
  subst hpre
  cases pc with
  | acquire => exact ⟨rfl, rfl, trivial, fun _ l' hl => by cases hl⟩
  | sched =>
    refine Ctx.withProc_disciplined fun q hq => ?_
    obtain rfl : p = q := by simpa [hon] using hme q hq
    exact ⟨rfl, rfl, trivial, rfl, rfl, trivial, hon⟩
  | scheduling => trivial
  | done => exact ⟨rfl, nofun, nofun⟩
  | _ => exact ⟨rfl, rfl, trivial⟩

theorem sleep_disciplined {p : Fin n} {chan : Chan n} {lk : Lock n}
    (hme : ∀ q, x.me = some q → t = .proc q) (hon : t = .proc p) (hpre : H = 0) (hlk : lk.Outer)
    (pc : SleepPc) : (sleep x p chan lk pc).Disciplined t H (.sleep p chan lk pc) := by
  subst hpre
  cases pc with
  | acquire =>
    refine ⟨Multiset.cons_swap lk (.proc p) 0, rfl, hlk, fun _ l' hl => ?_⟩
    obtain rfl : l' = lk := by simpa [Frame.locks, SleepPc.locks] using hl
    exact hlk.rank_lt_proc p
  | sched =>
    refine Ctx.withProc_disciplined fun q hq => ?_
    obtain rfl : p = q := by simpa [hon] using hme q hq
    exact ⟨rfl, rfl, hlk, rfl, rfl, trivial, hon⟩
  | scheduling => trivial
  | reacquire => exact ⟨rfl, rfl, hlk, fun _ l' hl => by cases hl⟩
  | done => exact ⟨rfl, by rintro ⟨⟩, by rintro ⟨⟩⟩
  | _ => exact ⟨rfl, rfl, hlk⟩

theorem wakeup_disciplined {chan : Option (Chan n)} (hpre : ∀ l ∈ H, l.Outer) (pc : WakeupPc n) :
    (wakeup x chan pc).Disciplined t H (.wakeup chan pc) := by
  cases pc with
  | loop i =>
    simp only [wakeup]
    split
    · split <;> exact ⟨rfl, rfl, trivial⟩
    · exact ⟨rfl, rfl, trivial⟩
  | acquire p =>
    refine ⟨rfl, rfl, trivial, fun _ l' hl => (hpre l' ?_).rank_lt_proc p⟩
    simpa [Frame.locks, WakeupPc.locks] using hl
  | test p =>
    simp only [wakeup]
    split <;> exact ⟨rfl, rfl, trivial⟩
  | release p => exact ⟨rfl, rfl, trivial⟩
  | done => exact ⟨rfl, by rintro ⟨⟩, by rintro ⟨⟩⟩

theorem reparent_disciplined {p : Fin n} (hpre : ∀ l ∈ H, l.Outer) (pc : ReparentPc n) :
    (reparent x p pc).Disciplined t H (.reparent p pc) := by
  cases pc with
  | loop i =>
    simp only [reparent]
    split
    · split <;> exact ⟨rfl, rfl, trivial⟩
    · exact ⟨rfl, rfl, trivial⟩
  | setParent pp => exact ⟨rfl, rfl, trivial⟩
  | wakeup pp =>
    refine ⟨rfl, rfl, trivial, rfl, fun l hl => hpre l ?_, trivial, trivial⟩
    simpa [Frame.locks] using hl
  | waking => trivial
  | done => exact ⟨rfl, by rintro ⟨⟩, by rintro ⟨⟩⟩

theorem kexit_disciplined {p : Fin n} {status : Int} (hme : ∀ q, x.me = some q → t = .proc q)
    (hon : t = .proc p) (hpre : H = 0) (pc : KexitPc) :
    (kexit x p status pc).Disciplined t H (.kexit p status pc) := by
  subst hpre
  have outer : ∀ l ∈ ({.waitLock} : Multiset (Lock n)) + 0, l.Outer := by
    intro l hl
    obtain rfl : l = .waitLock := by simpa using hl
    exact Nat.lt_succ_self 1
  have foreign {next : Frame n} {pc' : KexitPc} (hl : (Frame.kexit p status pc').locks = 0)
      (hn : next.locks = 0) (hf : next.fn = .kexit p) (hw : next.WF)
      (ha : next.Awaits (Fn.file : Fn n)) :
      (Act.call (.ext .file (.run [])) next).Disciplined t 0 (.kexit p status pc') :=
    ⟨by rw [hn, hl]; rfl, hf, hw, ha, by rw [hn]; rfl, trivial, trivial⟩
  cases pc with
  | testInit =>
    simp only [kexit]
    split
    · trivial
    · exact ⟨rfl, rfl, trivial⟩
  | testFile fd =>
    simp only [kexit]
    split
    · split <;> exact ⟨rfl, rfl, trivial⟩
    · exact ⟨rfl, rfl, trivial⟩
  | fileclose fd => exact foreign rfl rfl rfl trivial rfl
  | beginOp => exact foreign rfl rfl rfl trivial rfl
  | iput => exact foreign rfl rfl rfl trivial rfl
  | endOp => exact foreign rfl rfl rfl trivial rfl
  | acquireWait => exact ⟨rfl, rfl, trivial, fun _ l' hl => by cases hl⟩
  | reparent => exact ⟨rfl, rfl, trivial, rfl, outer, trivial, hon⟩
  | wakeup => exact ⟨rfl, rfl, trivial, rfl, outer, trivial, trivial⟩
  | acquire =>
    exact ⟨Multiset.cons_swap Lock.waitLock (.proc p) 0, rfl, trivial,
      fun _ l' hl => (outer l' hl).rank_lt_proc p⟩
  | sched =>
    refine Ctx.withProc_disciplined fun q hq => ?_
    obtain rfl : p = q := by simpa [hon] using hme q hq
    exact ⟨rfl, rfl, trivial, rfl, rfl, trivial, hon⟩
  | closing | beginning | putting | ending | reparenting | waking | scheduling => trivial
  | zombieExit => trivial
  | _ => exact ⟨rfl, rfl, trivial⟩

theorem kwait_disciplined {p : Fin n} {addr : BitVec 64} (hme : ∀ q, x.me = some q → t = .proc q)
    (hon : t = .proc p) (hpre : H = 0) (pc : KwaitPc n) :
    (kwait x p addr pc).Disciplined t H (.kwait p addr pc) := by
  subst hpre
  have outer : ∀ l ∈ ({.waitLock} : Multiset (Lock n)) + 0, l.Outer := by
    intro l hl
    obtain rfl : l = .waitLock := by simpa using hl
    exact Nat.lt_succ_self 1
  cases pc with
  | acquireWait => exact ⟨rfl, rfl, trivial, fun _ l' hl => by cases hl⟩
  | loop i havekids =>
    simp only [kwait]
    split
    · split <;> exact ⟨rfl, rfl, trivial⟩
    · split <;> exact ⟨rfl, rfl, trivial⟩
  | acquire pp =>
    exact ⟨rfl, rfl, trivial, fun _ l' hl => (outer l' hl).rank_lt_proc pp⟩
  | test pp =>
    simp only [kwait]
    split <;> exact ⟨rfl, rfl, trivial⟩
  | copyout pp pid =>
    simp only [kwait]
    split
    · exact ⟨rfl, rfl, trivial⟩
    · split <;> exact ⟨rfl, rfl, trivial⟩
  | killed => exact ⟨rfl, rfl, trivial, rfl, outer, trivial, trivial⟩
  | testKilled k =>
    simp only [kwait]
    split <;> exact ⟨rfl, rfl, trivial⟩
  | sleep =>
    refine Ctx.withProc_disciplined fun q hq => ?_
    obtain rfl : p = q := by simpa [hon] using hme q hq
    exact ⟨rfl, rfl, trivial, rfl, rfl, Nat.lt_succ_self 1, hon⟩
  | killing => trivial
  | sleeping => trivial
  | done v => exact ⟨rfl, nofun, nofun⟩
  | _ => exact ⟨rfl, rfl, trivial⟩

theorem killed_disciplined {p : Fin n} (hpre : ∀ l ∈ H, l.Outer) (pc : KilledPc) :
    (killed x p pc).Disciplined t H (.killed p pc) := by
  cases pc with
  | acquire =>
    refine ⟨rfl, rfl, trivial, fun _ l' hl => (hpre l' ?_).rank_lt_proc p⟩
    simpa [Frame.locks, KilledPc.locks] using hl
  | done k => exact ⟨rfl, by rintro ⟨⟩, by rintro ⟨⟩⟩
  | _ => exact ⟨rfl, rfl, trivial⟩

theorem setkilled_disciplined {p : Fin n} (hpre : H = 0) (pc : SetkilledPc) :
    (setkilled x p pc).Disciplined t H (.setkilled p pc) := by
  subst hpre
  cases pc with
  | acquire => exact ⟨rfl, rfl, trivial, fun _ l' hl => by cases hl⟩
  | done => exact ⟨rfl, nofun, nofun⟩
  | _ => exact ⟨rfl, rfl, trivial⟩

theorem pidScan_disciplined {op : PidOp} (hpre : H = 0) (pc : PidScanPc n) :
    (pidScan x op pc).Disciplined t H (.pidScan op pc) := by
  subst hpre
  cases pc with
  | loop i =>
    simp only [pidScan]
    split <;> exact ⟨rfl, rfl, trivial⟩
  | acquire p => exact ⟨rfl, rfl, trivial, fun _ l' hl => by cases hl⟩
  | test p =>
    simp only [pidScan]
    split <;> exact ⟨rfl, rfl, trivial⟩
  | done v => exact ⟨rfl, nofun, nofun⟩
  | _ => exact ⟨rfl, rfl, trivial⟩

theorem syscall_disciplined {p : Fin n} (hme : ∀ q, x.me = some q → t = .proc q)
    (hon : t = .proc p) (hpre : H = 0) (pc : SyscallPc) :
    (syscall x p pc).Disciplined t H (.syscall p pc) := by
  subst hpre
  have calls {callee : Frame n} (hl : callee.locks = 0)
      (ha : (Frame.syscall p .calling).Awaits callee.fn) (hp : callee.fn.Pre 0) (hw : callee.WF)
      (ho : callee.fn.On t) :
      (Act.call callee (.syscall p .calling)).Disciplined t 0 (.syscall p .dispatch) :=
    ⟨by rw [hl]; rfl, rfl, trivial, ha, hp, hw, ho⟩
  have current {a : Fin n → Act n} (h : (a p).Disciplined t 0 (.syscall p .dispatch)) :
      (x.withProc a).Disciplined t 0 (.syscall p .dispatch) := by
    refine Ctx.withProc_disciplined fun q hq => ?_
    obtain rfl : p = q := by simpa [hon] using hme q hq
    exact h
  cases pc with
  | dispatch =>
    simp only [syscall, dispatch]
    split
    · exact current (calls rfl (.inl rfl) rfl trivial hon)
    split
    · exact current (calls rfl (.inr (.inl rfl)) rfl trivial hon)
    split
    · exact current (calls rfl (.inr (.inr (.inl rfl))) rfl trivial hon)
    split
    · exact calls rfl (.inr (.inr (.inr (.inl rfl)))) rfl trivial trivial
    split
    · exact ⟨rfl, rfl, trivial⟩
    split
    · exact ⟨rfl, rfl, trivial⟩
    split
    · exact calls rfl (.inr (.inr (.inr (.inl rfl)))) rfl trivial trivial
    split
    · exact calls rfl (.inr (.inr (.inr (.inl rfl)))) rfl trivial trivial
    split
    · split <;> exact ⟨rfl, rfl, trivial⟩
    split
    · exact calls rfl (.inr (.inr (.inr (.inr rfl)))) rfl trivial trivial
    · exact ⟨rfl, rfl, trivial⟩
  | calling => trivial
  | done => exact ⟨rfl, nofun, nofun⟩
  | _ => exact ⟨rfl, rfl, trivial⟩

theorem user_disciplined {p : Fin n} (hme : ∀ q, x.me = some q → t = .proc q)
    (hon : t = .proc p) (hpre : H = 0) (pc : UserPc) :
    (user x p pc).Disciplined t H (.user p pc) := by
  subst hpre
  have calls {pc' : UserPc} {callee : Frame n} (hl : callee.locks = 0)
      (ha : (Frame.user p .trapping).Awaits callee.fn) (hp : callee.fn.Pre 0) (hw : callee.WF)
      (ho : callee.fn.On t) :
      (Act.call callee (.user p .trapping)).Disciplined t 0 (.user p pc') :=
    ⟨by rw [hl]; rfl, rfl, trivial, ha, hp, hw, ho⟩
  have current {pc' : UserPc} {a : Fin n → Act n} (h : (a p).Disciplined t 0 (.user p pc')) :
      (x.withProc a).Disciplined t 0 (.user p pc') := by
    refine Ctx.withProc_disciplined fun q hq => ?_
    obtain rfl : p = q := by simpa [hon] using hme q hq
    exact h
  cases pc with
  | run =>
    simp only [user]
    split
    · exact ⟨rfl, rfl, trivial⟩
    · exact current (calls rfl (.inl rfl) rfl trivial hon)
    · exact current (calls rfl (.inr (.inl rfl)) rfl trivial hon)
    · exact current (calls rfl (.inr (.inr (.inl rfl))) (fun l hl => by cases hl) trivial trivial)
    · exact current (calls rfl (.inr (.inr (.inr (.inl rfl)))) rfl trivial hon)
    · exact calls rfl (.inr (.inr (.inr (.inr (.inl rfl))))) rfl trivial trivial
    · trivial
  | syscall => exact current (calls rfl (.inr (.inr (.inr (.inr (.inr rfl))))) rfl trivial hon)
  | trapping => trivial

theorem ext_disciplined {kind : ExtKind} (hme : ∀ q, x.me = some q → t = .proc q) (hpre : H = 0)
    (pc : ExtPc) : (ext x kind pc).Disciplined t H (.ext kind pc) := by
  subst hpre
  have outer (held : List ℕ) :
      ∀ l ∈ (held : Multiset ℕ).map (Lock.ext (n := n)) + 0, l.Outer := by
    intro l hl
    rw [Multiset.add_zero] at hl
    obtain ⟨k, _, rfl⟩ := Multiset.mem_map.mp hl
    exact Nat.zero_lt_two
  cases pc with
  | run held =>
    simp only [ext]
    split
    · refine ⟨?_, rfl, trivial, fun hk => by cases hk⟩
      simp [Frame.locks, ExtPc.locks, ← Multiset.cons_coe]
    · split
      · rename_i k _ hk
        refine ⟨?_, rfl, trivial⟩
        change Multiset.map Lock.ext (held : Multiset ℕ) =
          Lock.ext k ::ₘ Multiset.map Lock.ext (held.erase k : Multiset ℕ)
        rw [← Multiset.map_cons, ← Multiset.coe_erase, Multiset.cons_erase (Multiset.mem_coe.mpr hk)]
      · trivial
    · exact ⟨zero_add _, rfl, trivial, .inl rfl, outer held, trivial, trivial⟩
    · refine Ctx.withProc_disciplined fun q hq => ?_
      exact ⟨zero_add _, rfl, trivial, .inr (.inl rfl), outer held, trivial, trivial⟩
    · split
      · rename_i hheld
        subst hheld
        refine Ctx.withProc_disciplined fun q hq => ?_
        exact ⟨rfl, rfl, trivial, .inr (.inr ⟨q, rfl⟩), rfl, trivial, hme q hq⟩
      · trivial
    · split
      · rename_i hheld
        obtain ⟨rfl, _⟩ := hheld
        refine Ctx.withProc_disciplined fun q hq => ?_
        exact ⟨rfl, rfl, trivial, ⟨q, rfl⟩, rfl, Nat.zero_lt_two, hme q hq⟩
      · trivial
    · split
      · trivial
      · exact Ctx.withProc_disciplined fun q _ => ⟨rfl, rfl, trivial⟩
    · split
      · rename_i hheld
        subst hheld
        exact ⟨rfl, rfl, trivial⟩
      · trivial
    · trivial
  | calling => trivial
  | sleeping => trivial
  | done v =>
    cases kind with
    | handler => exact ⟨rfl, rfl⟩
    | service | file => exact ⟨rfl, by rintro ⟨⟩, by rintro ⟨⟩⟩

/-- The discipline of all code. `me` is the process of the thread, except in the scheduler, which
sets it. -/
theorem code_disciplined {f : Frame n} (hme : f.fn ≠ .idle → ∀ q, x.me = some q → t = .proc q)
    (hon : f.fn.On t) (hpre : f.fn.Pre H) (hwf : f.WF) : (code x f).Disciplined t H f := by
  cases f with
  | main pc => exact main_disciplined hon hpre pc
  | userinit pc => exact userinit_disciplined hpre pc
  | allocproc pc => exact allocproc_disciplined hpre pc
  | allocpid pc => exact allocpid_disciplined hpre pc
  | kfork p pc => exact kfork_disciplined hpre pc
  | forkret p pc => exact forkret_disciplined hpre pc
  | scheduler pc => exact scheduler_disciplined hpre pc hwf
  | sched p pc => exact sched_disciplined pc
  | yield p pc => exact yield_disciplined (hme nofun) hon hpre pc
  | sleep p chan lk pc => exact sleep_disciplined (hme nofun) hon hpre hwf pc
  | wakeup chan pc => exact wakeup_disciplined hpre pc
  | reparent p pc => exact reparent_disciplined hpre pc
  | kexit p status pc => exact kexit_disciplined (hme nofun) hon hpre pc
  | kwait p addr pc => exact kwait_disciplined (hme nofun) hon hpre pc
  | killed p pc => exact killed_disciplined hpre pc
  | setkilled p pc => exact setkilled_disciplined hpre pc
  | pidScan op pc => exact pidScan_disciplined hpre pc
  | syscall p pc => exact syscall_disciplined (hme nofun) hon hpre pc
  | user p pc => exact user_disciplined (hme nofun) hon hpre pc
  | ext kind pc =>
    have hzero : H = 0 := by cases kind <;> exact hpre
    exact ext_disciplined (hme (by cases kind <;> nofun)) hzero pc
  | panic msg => trivial

end MultithreadMayhem.Kernel
