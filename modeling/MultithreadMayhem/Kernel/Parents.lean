import MultithreadMayhem.Kernel.Parking

/-!
# Who still has to wake a parent

A parent falls asleep in `kwait` only after a scan that has found no zombie among its
children, and a child wakes its parent before it becomes a zombie; both hold
`wait_lock` meanwhile. `Frame.Role` says what the frames of the CPU that has
`wait_lock` have established so far.
-/

namespace MultithreadMayhem.Kernel

variable {n : ℕ} {x : Ctx n} {sh sh' : Shared n} {f g : Frame n} {rest : List (Frame n)}
  {p P : Fin n} {parking parking' : Fin n → Prop}

def Shared.NoZombie (sh : Shared n) (p : Fin n) (i : ℕ) : Prop :=
  ∀ z : Fin n, z < i → sh.parent z = some p → (sh.proc z).state ≠ .zombie

def WakeupPc.Passed (P : Fin n) : WakeupPc n → Prop
  | .loop i => P < i
  | .acquire p | .test p => P < p
  | .release p => P ≤ p
  | .done => True

def KwaitPc.Scanned (sh : Shared n) (p : Fin n) : KwaitPc n → Prop
  | .loop i _ => sh.NoZombie p i
  | .acquire pp | .test pp => sh.NoZombie p pp
  | .release pp => sh.NoZombie p (pp + 1)
  | .killed | .killing | .testKilled _ | .sleep => sh.NoZombie p n
  | _ => True

/-- `kexit` has woken the parent and the process is not yet a zombie. -/
def KexitPc.notified : KexitPc → Bool
  | .acquire | .setXstate | .setState => true
  | _ => false

def SleepPc.entered : SleepPc → Bool
  | .acquire | .releaseLk => true
  | _ => false

namespace Frame

/-- What the frame has established for parents and children, while its CPU has `wait_lock`. -/
def Role (sh : Shared n) (parking : Fin n → Prop) (rest : List (Frame n)) : Frame n → Prop
  | kwait p _ pc => pc.Scanned sh p
  | killed _ _ => ∀ p addr pc rest', rest = kwait p addr pc :: rest' → sh.NoZombie p n
  | sleep _ _ _ pc => pc.entered = true →
      ∀ p addr pc' rest', rest = kwait p addr pc' :: rest' → sh.NoZombie p n
  | kexit z _ pc => pc.notified = true → ∀ P, sh.parent z = some P → ¬parking P
  | wakeup ch pc => ∀ z status pc' rest', rest = kexit z status pc' :: rest' →
      ∀ P, sh.parent z = some P → ch = some (.proc P) ∧ (pc.Passed P → ¬parking P)
  | _ => True

/-- The frame is going to wake the process if it sleeps on its own address. -/
def Owes (sh : Shared n) (P : Fin n) : Frame n → Prop
  | reparent _ (.wakeup _) => sh.initproc = some P
  | wakeup ch pc => ch = some (.proc P) ∧ ¬pc.Passed P
  | _ => False

theorem eq_wakeup_of_fn (h : f.fn = .wakeup) : ∃ ch pc, f = wakeup ch pc := by
  cases f with
  | wakeup ch pc => exact ⟨ch, pc, rfl⟩
  | ext kind => cases kind <;> cases h
  | _ => cases h

theorem eq_killed_of_fn (h : f.fn = .killed) : ∃ q pc, f = killed q pc := by
  cases f with
  | killed q pc => exact ⟨q, pc, rfl⟩
  | ext kind => cases kind <;> cases h
  | _ => cases h

theorem Awaits.of_reparent (h : g.Awaits (.reparent p)) :
    ∃ status, g = kexit p status .reparenting := by
  cases h.calls
  exact ⟨_, rfl⟩

theorem role_of_inert (h : f.inert = true) : f.Role sh parking rest := by
  cases f with
  | sleep | wakeup | reparent | kexit | kwait | killed => cases h
  | _ => trivial

theorem Owes.not_locked (h : f.Owes sh P) : .waitLock ∉ f.locks := by
  cases f with
  | reparent q pc => exact Multiset.notMem_zero _
  | wakeup ch pc =>
    cases pc with
    | test q | release q => exact fun hl => nomatch Multiset.mem_singleton.mp hl
    | _ => exact Multiset.notMem_zero _
  | _ => exact h.elim

theorem Owes.not_inert (h : f.Owes sh P) : f.inert = false := by
  cases f with
  | reparent q pc => rfl
  | wakeup ch pc => rfl
  | _ => exact h.elim

theorem Owes.mono (h : f.Owes sh P) (hi : f.fn ≠ .wakeup → sh'.initproc = sh.initproc) :
    f.Owes sh' P := by
  cases f with
  | reparent q pc =>
    cases pc with
    | wakeup pp => exact (hi nofun).trans h
    | _ => exact h.elim
  | wakeup ch pc => exact h
  | _ => exact h.elim

theorem Role.mono (h : f.Role sh parking rest)
    (hz : ∀ p i, sh.NoZombie p i → sh'.NoZombie p i)
    (hp : ∀ z P, sh'.parent z = some P → sh.parent z = some P)
    (hk : ∀ P, parking' P → parking P) : f.Role sh' parking' rest := by
  cases f with
  | kwait p addr pc =>
    cases pc with
    | loop i havekids => exact hz p i h
    | acquire pp | test pp | release pp => exact hz p _ h
    | killed | killing | testKilled k | sleep => exact hz p n h
    | _ => trivial
  | killed q pc => exact fun p addr pc' rest' hr => hz p n (h p addr pc' rest' hr)
  | sleep q ch lk pc => exact fun he p addr pc' rest' hr => hz p n (h he p addr pc' rest' hr)
  | kexit z status pc => exact fun hn P hzP hpk => h hn P (hp z P hzP) (hk P hpk)
  | wakeup ch pc =>
    intro z status pc' rest' hr P hzP
    obtain ⟨hch, hpass⟩ := h z status pc' rest' hr P (hp z P hzP)
    exact ⟨hch, fun hpc hpk => hpass hpc (hk P hpk)⟩
  | _ => trivial

end Frame

structure Calm (sh sh' : Shared n) : Prop where
  zombie : ∀ z, (sh'.proc z).state = .zombie → (sh.proc z).state = .zombie
  parent : ∀ z P, sh'.parent z = some P → sh.parent z = some P

theorem Calm.noZombie (h : Calm sh sh') (p : Fin n) (i : ℕ) (hz : sh.NoZombie p i) :
    sh'.NoZombie p i :=
  fun z hzi hp hst => hz z hzi (h.parent z p hp) (h.zombie z hst)

theorem Calm.setProc {j : Fin n} {q : Proc n}
    (hq : q.state = .zombie → (sh.proc j).state = .zombie) : Calm sh (sh.setProc j q) := by
  refine ⟨fun z hz => ?_, fun _ _ h => h⟩
  by_cases hj : z = j
  · subst z
    rw [Shared.setProc_proc, Function.update_self] at hz
    exact hq hz
  · rwa [Shared.setProc_proc, Function.update_of_ne hj] at hz

/-- What happens in a family, under `wait_lock`. -/
inductive Family (sh sh' : Shared n) : Frame n → Frame n → Prop
  | exit {p : Fin n} {status : Int} (h : sh' = sh.setState p .zombie) :
      Family sh sh' (.kexit p status .setState) (.kexit p status .releaseWait)
  | fork {p np : Fin n} {pid : Int} (h : sh' = sh.setParent np (some p)) :
      Family sh sh' (.kfork p (.setParent np pid)) (.kfork p (.releaseWait np pid))
  | reparent {p pp : Fin n} (h : sh' = sh.setParent pp sh.initproc) :
      Family sh sh' (.reparent p (.setParent pp)) (.reparent p (.wakeup pp))

theorem Deed.family (h : Deed sh sh' f g) : Calm sh sh' ∨ Family sh sh' f g := by
  cases h with
  | quiet h => exact .inl ⟨h.zombie, h.parent⟩
  | setChan h =>
    subst h
    exact .inl (.setProc id)
  | sleep h =>
    subst h
    exact .inl (.setProc nofun)
  | exit h => exact .inr (.exit h)
  | fork h => exact .inr (.fork h)
  | reparent h => exact .inr (.reparent h)
  | initproc h =>
    subst h
    exact .inl ⟨fun _ h => h, fun _ _ h => h⟩
  | start h =>
    subst h
    exact .inl ⟨fun _ h => h, fun _ _ h => h⟩

theorem Family.locked {C : Type} {t : Thread n C} (h : Family sh sh' f g)
    (hok : StackOk t (f :: rest)) : .waitLock ∈ held (f :: rest) := by
  cases h with
  | @exit p => exact Multiset.mem_add.mpr (.inl (Multiset.mem_cons_self Lock.waitLock {Lock.proc p}))
  | fork => exact Multiset.mem_add.mpr (.inl (Multiset.mem_singleton_self _))
  | reparent =>
    cases rest with
    | nil => obtain hf | ⟨q, hf⟩ := hok.1 <;> cases hf
    | cons r rest =>
      obtain hi | hp | hawaits := hok.1
      · cases hi
      · cases hp
      · obtain ⟨status, rfl⟩ := hawaits.of_reparent
        exact Multiset.mem_add.mpr (.inr (Multiset.mem_add.mpr
          (.inl (Multiset.mem_singleton_self _))))

def Act.Keeps (sh : Shared n) (parking : Fin n → Prop) (rest : List (Frame n)) : Act n → Prop
  | .acquire _ g | .release _ g => g.Role sh parking rest
  | .exec sh' g => g.Role sh' parking rest
  | .call callee g => callee.Role sh parking (g :: rest)
  | _ => True

/-- The loop of `wakeup` passes a slot only when its process is not parking. -/
def Frame.Passes (parking : Fin n → Prop) (a : Act n) : Frame n → Prop
  | .wakeup ch pc => ∀ ch' pc' P, a.next = some (.wakeup ch' pc') → ch = some (.proc P) →
      pc'.Passed P → pc.Passed P ∨ ¬parking P
  | _ => True

section Keeps

theorem kwait_keeps {addr : BitVec 64} {pc : KwaitPc n} (h : pc.Scanned x.shared p) :
    (kwait x p addr pc).Keeps x.shared parking rest := by
  cases pc with
  | acquireWait => exact fun z hz => absurd hz (Nat.not_lt_zero z)
  | loop i havekids =>
    have h : x.shared.NoZombie p i := h
    simp only [kwait]
    split
    · split
      · exact h
      · rename_i hi hparent
        intro z hz hp
        obtain hlt | heq := Nat.lt_succ_iff_lt_or_eq.mp hz
        · exact h z hlt hp
        · obtain rfl : z = ⟨i, hi⟩ := Fin.ext heq
          exact absurd hp hparent
    · rename_i hi
      split
      · exact fun z _ hp => h z (z.isLt.trans_le (Nat.not_lt.mp hi)) hp
      · trivial
  | acquire pp => exact h
  | test pp =>
    have h : x.shared.NoZombie p pp := h
    simp only [kwait]
    split
    · trivial
    · rename_i hst
      intro z hz hp
      obtain hlt | heq := Nat.lt_succ_iff_lt_or_eq.mp hz
      · exact h z hlt hp
      · obtain rfl := Fin.ext heq
        exact hst
  | release pp => exact h
  | copyout pp pid =>
    simp only [kwait]
    repeat' split
    all_goals trivial
  | killed =>
    rintro p' addr' pc' rest' hr
    cases hr
    exact h
  | testKilled k =>
    simp only [kwait]
    split
    · trivial
    · exact h
  | sleep =>
    simp only [kwait, Ctx.withProc]
    split
    · rintro _ p' addr' pc' rest' hr
      cases hr
      exact h
    · trivial
  | _ => trivial

theorem kexit_keeps {status : Int} {pc : KexitPc}
    (h : pc.notified = true → ∀ P, x.shared.parent p = some P → ¬parking P) :
    (kexit x p status pc).Keeps x.shared parking rest := by
  cases pc with
  | acquire | setXstate => exact fun _ => h rfl
  | wakeup =>
    rintro z status' pc' rest' hr P hP
    cases hr
    exact ⟨by rw [hP]; rfl, fun hpass => absurd hpass (Nat.not_lt_zero P)⟩
  | testInit =>
    simp only [kexit]
    split
    · trivial
    · rintro ⟨⟩
  | testFile fd =>
    simp only [kexit]
    repeat' split
    all_goals rintro ⟨⟩
  | sched =>
    simp only [kexit, Ctx.withProc]
    split <;> trivial
  | _ => first | trivial | rintro ⟨⟩

theorem sleep_keeps {ch : Chan n} {lk : Lock n} {pc : SleepPc}
    (h : pc.entered = true → ∀ p addr pc' rest', rest = .kwait p addr pc' :: rest' →
      x.shared.NoZombie p n) : (Kernel.sleep x p ch lk pc).Keeps x.shared parking rest := by
  cases pc with
  | acquire => exact fun _ => h rfl
  | sched =>
    simp only [Kernel.sleep, Ctx.withProc]
    split <;> trivial
  | _ => first | trivial | rintro ⟨⟩

theorem wakeup_next (x : Ctx n) (ch : Option (Chan n)) (pc : WakeupPc n) : pc = .done ∨ ∃ pc',
    (∃ p, wakeup x ch pc = .acquire (.proc p) (.wakeup ch pc')) ∨
      (∃ p, wakeup x ch pc = .release (.proc p) (.wakeup ch pc')) ∨
      ∃ sh : Shared n, sh.parent = x.shared.parent ∧
        wakeup x ch pc = .exec sh (.wakeup ch pc') := by
  cases pc with
  | loop i =>
    simp only [wakeup]
    repeat' split
    all_goals exact .inr ⟨_, .inr (.inr ⟨_, rfl, rfl⟩)⟩
  | test p =>
    simp only [wakeup]
    split
    · exact .inr ⟨_, .inr (.inr ⟨_, Shared.setState_parent _ _ _, rfl⟩)⟩
    · exact .inr ⟨_, .inr (.inr ⟨_, rfl, rfl⟩)⟩
  | acquire p => exact .inr ⟨_, .inl ⟨p, rfl⟩⟩
  | release p => exact .inr ⟨_, .inr (.inl ⟨p, rfl⟩)⟩
  | done => exact .inl rfl

theorem wakeup_keeps {ch : Option (Chan n)} {pc : WakeupPc n}
    (h : (Frame.wakeup ch pc).Role x.shared parking rest)
    (hpass : (Frame.wakeup ch pc).Passes parking (wakeup x ch pc)) :
    (wakeup x ch pc).Keeps x.shared parking rest := by
  have goes {sh : Shared n} {pc' : WakeupPc n} (hsh : sh.parent = x.shared.parent)
      (hnext : (wakeup x ch pc).next = some (.wakeup ch pc')) :
      (Frame.wakeup ch pc').Role sh parking rest := by
    intro z status pc'' rest' hr P hP
    rw [hsh] at hP
    obtain ⟨hch, hno⟩ := h z status pc'' rest' hr P hP
    refine ⟨hch, fun hp => ?_⟩
    obtain hp | hp := hpass ch pc' P hnext hch hp
    · exact hno hp
    · exact hp
  obtain rfl | ⟨pc', ⟨q, ha⟩ | ⟨q, ha⟩ | ⟨sh, hsh, ha⟩⟩ := wakeup_next x ch pc
  · trivial
  · rw [ha] at goes ⊢
    exact goes rfl rfl
  · rw [ha] at goes ⊢
    exact goes rfl rfl
  · rw [ha] at goes ⊢
    exact goes hsh rfl

theorem killed_keeps {pc : KilledPc} (h : (Frame.killed p pc).Role x.shared parking rest) :
    (Kernel.killed x p pc).Keeps x.shared parking rest := by
  cases pc with
  | done k => trivial
  | _ => exact h

/-- The functions that have no part in this call none that has one while they hold a lock. -/
theorem code_keeps (h : f.Role x.shared parking rest) (hpass : f.Passes parking (code x f)) :
    (code x f).Keeps x.shared parking rest := by
  cases f with
  | kwait p addr pc => exact kwait_keeps h
  | kexit p status pc => exact kexit_keeps h
  | sleep p ch lk pc => exact sleep_keeps h
  | wakeup ch pc => exact wakeup_keeps h hpass
  | killed q pc => exact killed_keeps h
  | reparent p pc =>
    cases pc with
    | loop i =>
      simp only [code, reparent]
      repeat' split
      all_goals trivial
    | wakeup pp =>
      rintro z status pc' rest' hr
      cases hr
    | _ => trivial
  | panic msg => trivial
  | _ =>
    simp only [code]
    simp only [main.eq_def, userinit.eq_def, allocproc.eq_def, allocpid.eq_def, kfork.eq_def,
      forkret.eq_def, scheduler.eq_def, sched.eq_def, Kernel.yield.eq_def, Kernel.setkilled.eq_def,
      pidScan.eq_def, syscall.eq_def, dispatch, user.eq_def, ext.eq_def, Ctx.withProc]
    repeat' split
    all_goals
      first
      | trivial
      | (simp only [Act.Keeps, Frame.Role]; intros; injections)

theorem acquire_role (ha : code x f = .acquire .waitLock g) : g.Role sh parking rest := by
  cases f with
  | kwait p addr pc =>
    cases pc with
    | acquireWait =>
      cases ha
      exact fun z hz => absurd hz (Nat.not_lt_zero z)
    | loop i havekids | test pp | copyout pp pid | testKilled k | sleep =>
      simp only [code, kwait, Ctx.withProc] at ha
      repeat' split at ha
      all_goals cases ha
    | _ => cases ha
  | kexit p status pc =>
    cases pc with
    | acquireWait =>
      cases ha
      rintro ⟨⟩
    | testInit | testFile fd | sched =>
      simp only [code, kexit, Ctx.withProc] at ha
      repeat' split at ha
      all_goals cases ha
    | _ => cases ha
  | sleep p ch lk pc =>
    cases pc with
    | reacquire =>
      cases ha
      rintro ⟨⟩
    | sched =>
      simp only [code, Kernel.sleep, Ctx.withProc] at ha
      split at ha <;> cases ha
    | _ => cases ha
  | kfork p pc =>
    cases pc with
    | acquireWait np pid =>
      cases ha
      trivial
    | uvmcopy np | filedup np i =>
      simp only [code, kfork] at ha
      repeat' split at ha
      all_goals cases ha
    | _ => cases ha
  | panic msg => cases ha
  | _ =>
    exfalso
    simp only [code] at ha
    simp only [main.eq_def, userinit.eq_def, allocproc.eq_def, allocpid.eq_def, forkret.eq_def,
      scheduler.eq_def, sched.eq_def, Kernel.yield.eq_def, wakeup.eq_def, reparent.eq_def,
      Kernel.killed.eq_def, Kernel.setkilled.eq_def, pidScan.eq_def, syscall.eq_def, dispatch,
      user.eq_def, ext.eq_def, Ctx.withProc] at ha
    repeat' split at ha
    all_goals cases ha

theorem ret_role {v : Val n} (h : f.Role sh parking (g :: rest)) (hawaits : g.Awaits f.fn)
    (ha : code x f = .ret v) : (g.resume v).Role sh parking rest := by
  have hcalls := hawaits.calls
  generalize hfn : f.fn = fn at hcalls
  cases hcalls with
  | @waitKilled p addr =>
    obtain ⟨q, pc, rfl⟩ := Frame.eq_killed_of_fn hfn
    cases v with
    | int k => exact h p addr _ rest rfl
    | proc q => exact h p addr _ rest rfl
  | waitSleep => exact fun z hz => absurd hz (Nat.not_lt_zero z)
  | @exitWakeup z status =>
    obtain ⟨ch, pc, rfl⟩ := Frame.eq_wakeup_of_fn hfn
    obtain rfl | ⟨pc', ⟨q, ha'⟩ | ⟨q, ha'⟩ | ⟨sh', _, ha'⟩⟩ := wakeup_next x ch pc
    · exact fun _ P hP => (h z status _ rest rfl P hP).2 trivial
    all_goals cases ha'.symm.trans ha
  | sleepSched | fileclose | beginOp | iput | endOp | reparent | exitSched => exact nofun
  | initAllocproc | forkAllocproc => obtain _ | _ | q := v <;> trivial
  | allocpid | kexec | sysFork | sysExit | sysWait | sysPid | sysOther => cases v <;> trivial
  | _ => trivial

end Keeps

theorem wakeup_passed {ch : Option (Chan n)} {pc pc' : WakeupPc n} {a : Act n}
    (ha : wakeup x ch pc = a) (hnext : a.next = some (.wakeup ch pc')) (hch : ch = some (.proc P))
    (hpc : pc'.Passed P) : pc.Passed P ∨ x.me = some P ∨
      pc = .test P ∧ ¬(a.shared x.shared).Asleep P := by
  cases pc with
  | loop i =>
    simp only [wakeup] at ha
    split at ha
    · rename_i hi
      split at ha
      · subst ha
        cases hnext
        obtain hlt | heq := Nat.lt_succ_iff_lt_or_eq.mp hpc
        · exact .inl hlt
        · obtain rfl : P = ⟨i, hi⟩ := Fin.ext heq
          exact .inr (.inl ‹_›)
      · subst ha
        cases hnext
        exact .inl hpc
    · rename_i hi
      exact .inl (P.isLt.trans_le (Nat.not_lt.mp hi))
  | test p =>
    simp only [wakeup] at ha
    split at ha
    · subst ha
      cases hnext
      obtain hlt | rfl := lt_or_eq_of_le (show P ≤ p from hpc)
      · exact .inl hlt
      · refine .inr (.inr ⟨rfl, fun hP => ?_⟩)
        have hst := hP.1
        rw [Act.shared, Shared.setState_proc, Function.update_self] at hst
        cases hst
    · rename_i hno
      subst ha
      cases hnext
      obtain hlt | rfl := lt_or_eq_of_le (show P ≤ p from hpc)
      · exact .inl hlt
      · exact .inr (.inr ⟨rfl, fun hP => hno ⟨hP.1, hP.2.trans hch.symm⟩⟩)
  | acquire p =>
    subst ha
    cases hnext
    exact .inl hpc
  | release p =>
    subst ha
    cases hnext
    exact .inl (Nat.lt_succ_iff.mp hpc)
  | done =>
    subst ha
    cases hnext

section Owes

def Act.Owes (sh : Shared n) (P : Fin n) : Act n → Prop
  | .acquire _ g | .release _ g => g.Owes sh P
  | .exec sh' g => g.Owes sh' P
  | .call callee _ => callee.Owes sh P
  | _ => False

theorem wakeup_owes {ch : Option (Chan n)} {pc : WakeupPc n}
    (h : (Frame.wakeup ch pc).Owes x.shared P)
    (hpass : (Frame.wakeup ch pc).Passes parking (wakeup x ch pc)) (hp : parking P) :
    (wakeup x ch pc).Owes x.shared P := by
  obtain ⟨hch, hnot⟩ := h
  have goes (sh : Shared n) {pc' : WakeupPc n}
      (hnext : (wakeup x ch pc).next = some (.wakeup ch pc')) :
      (Frame.wakeup ch pc').Owes sh P := by
    refine ⟨hch, fun hpc => ?_⟩
    obtain hpc | hno := hpass ch pc' P hnext hch hpc
    · exact hnot hpc
    · exact hno hp
  obtain rfl | ⟨pc', ⟨q, ha⟩ | ⟨q, ha⟩ | ⟨sh, _, ha⟩⟩ := wakeup_next x ch pc
  · exact absurd trivial hnot
  · rw [ha] at goes ⊢
    exact goes x.shared rfl
  · rw [ha] at goes ⊢
    exact goes x.shared rfl
  · rw [ha] at goes ⊢
    exact goes sh rfl

/-- A wakeup that a frame owes stays owed until the process has been woken. -/
theorem code_owes (h : f.Owes x.shared P) (hpass : f.Passes parking (code x f)) (hp : parking P) :
    (code x f).Owes x.shared P := by
  cases f with
  | reparent q pc =>
    cases pc with
    | wakeup pp =>
      have h : x.shared.initproc = some P := h
      refine ⟨?_, Nat.not_lt_zero P⟩
      rw [h]
      rfl
    | _ => exact h.elim
  | wakeup ch pc => exact wakeup_owes h hpass hp
  | _ => exact h.elim

theorem not_panic_of_owes (h : f.Owes sh P) : (∀ m, code x f ≠ .panic m) ∧
    ∀ k g, code x f ≠ .acquire (.ext k) g := by
  cases f with
  | reparent q pc =>
    cases pc with
    | wakeup pp => exact ⟨nofun, nofun⟩
    | _ => exact h.elim
  | wakeup ch pc =>
    change (∀ m, wakeup x ch pc ≠ .panic m) ∧ ∀ k g, wakeup x ch pc ≠ .acquire (.ext k) g
    obtain rfl | ⟨pc', ⟨q, ha⟩ | ⟨q, ha⟩ | ⟨sh', -, ha⟩⟩ := wakeup_next x ch pc
    · exact absurd trivial h.2
    all_goals
      rw [ha]
      exact ⟨nofun, nofun⟩
  | _ => exact h.elim

end Owes

end MultithreadMayhem.Kernel
