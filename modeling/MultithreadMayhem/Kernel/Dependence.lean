import MultithreadMayhem.Kernel.Footprint

/-!
# What the statements depend on

A statement takes the same branch and writes the same contents if the places that it
reads are the same. One lemma for each C function that reads the globals.
-/

namespace MultithreadMayhem.Kernel

variable {n : ℕ}

def Ctx.on (x : Ctx n) (sh : Shared n) : Ctx n := { x with shared := sh }

/-- The actions are the same but for the contents of places outside of `W`. -/
def Act.Agree (W : List (Place n)) : Act n → Act n → Prop
  | .exec sh g, b => ∃ sh', b = .exec sh' g ∧ ∀ l ∈ W, l.Same sh sh'
  | a, b => b = a

section Reads

variable {x : Ctx n} {sh : Shared n} {p : Fin n}

@[simp]
theorem Ctx.on_shared : (x.on sh).shared = sh := rfl

@[simp]
theorem Ctx.on_me : (x.on sh).me = x.me := rfl

@[simp]
theorem Ctx.on_choice : (x.on sh).choice = x.choice := rfl

@[simp]
theorem Ctx.on_nofile : (x.on sh).nofile = x.nofile := rfl

theorem Act.Agree.exec {W : List (Place n)} {sh sh' : Shared n} {g : Frame n}
    (h : ∀ l ∈ W, l.Same sh sh') : Act.Agree W (.exec sh g) (.exec sh' g) := ⟨sh', rfl, h⟩

theorem Act.Agree.quiet {sh sh' : Shared n} {g : Frame n} :
    Act.Agree [] (.exec sh g) (.exec sh' g) := ⟨sh', rfl, List.forall_mem_nil _⟩

theorem Act.Agree.refl (W : List (Place n)) (a : Act n) : a.Agree W a := by
  cases a with
  | exec sh g => exact .exec fun l _ => Place.same_refl sh l
  | _ => rfl

theorem Act.Agree.ite {W : List (Place n)} {c : Prop} [Decidable c] {a a' b b' : Act n}
    (ha : a.Agree W a') (hb : b.Agree W b') :
    (if c then a else b).Agree W (if c then a' else b') := by
  split
  · exact ha
  · exact hb

theorem Place.same_images {sh sh' : Shared n} {j : Fin n} {m m' : Image} (h : m = m') :
    ∀ l ∈ [Place.image j], l.Same (sh.setImage j m) (sh'.setImage j m') := by
  rintro _ hl
  obtain rfl := List.mem_singleton.mp hl
  simp only [Place.Same, Shared.setImage, Function.update_self]
  exact h

theorem Place.same_fields {sh sh' : Shared n} {j : Fin n} {q q' : Proc n} (a : Field)
    (h : a.Same q q') : ∀ l ∈ [Place.field j a], l.Same (sh.setProc j q) (sh'.setProc j q') := by
  rintro _ hl
  obtain rfl := List.mem_singleton.mp hl
  simp only [Place.Same, Shared.setProc_proc, Function.update_self]
  exact h

theorem Place.same_parents {sh sh' : Shared n} {j : Fin n} {q q' : Option (Fin n)} (h : q = q') :
    ∀ l ∈ [Place.parent j], l.Same (sh.setParent j q) (sh'.setParent j q') := by
  rintro _ hl
  obtain rfl := List.mem_singleton.mp hl
  simp only [Place.Same, Shared.setParent, Function.update_self]
  exact h

theorem Place.same_freed {sh sh' : Shared n} {j : Fin n} (h : sh.image j = sh'.image j) :
    ∀ l ∈ freed j, l.Same (sh.freeproc j) (sh'.freeproc j) := by
  intro l hl
  simp only [freed, List.mem_cons, List.not_mem_nil, or_false] at hl
  obtain rfl | rfl | rfl | rfl | rfl | rfl | rfl := hl
  · simp [Same, Shared.freeproc, Shared.setImage, h]
  · simp [Same]
  all_goals simp [Same, Field.Same, Proc.freed]

theorem allocproc_reads {pc : AllocprocPc n}
    (h : ∀ l ∈ (Frame.allocproc pc).reads x.me, l.Same x.shared sh) :
    (allocproc x pc).Agree ((Frame.allocproc pc).writes x.me)
      (allocproc (x.on sh) pc) := by
  cases pc with
  | loop i =>
    simp only [allocproc]
    split <;> exact .quiet
  | test q =>
    have hq : (x.proc q).state = ((x.on sh).proc q).state := h _ (List.mem_singleton_self _)
    simp only [allocproc, Ctx.on_shared]
    rw [hq]
    split_ifs <;> exact .quiet
  | setPid q pid => exact .exec (Place.same_fields .pid rfl)
  | init q =>
    have hpid : (x.shared.proc q).pid = (sh.proc q).pid := h (.field q .pid) List.mem_cons_self
    have himage : x.shared.image q = sh.image q :=
      h (.image q) (List.mem_cons_of_mem _ (List.mem_singleton_self _))
    refine .exec fun l hl => ?_
    simp only [Frame.writes, AllocprocPc.writes, List.mem_cons, List.not_mem_nil, or_false] at hl
    obtain rfl | rfl | rfl | rfl := hl
    all_goals
      simp [Place.Same, Field.Same, Proc.initialized, Ctx.proc, Ctx.image, Shared.setImage, hpid, himage]
  | trapframe q | pagetable q =>
    have himage : x.image q = (x.on sh).image q := h _ (List.mem_singleton_self _)
    simp only [allocproc, Ctx.on_choice, Ctx.on_shared, himage]
    split <;> exact .exec (Place.same_images rfl)
  | freeproc q => exact .exec (Place.same_freed (h _ (List.mem_singleton_self _)))
  | _ => rfl

theorem kfork_reads {pc : KforkPc n} (h : ∀ l ∈ (Frame.kfork p pc).reads x.me, l.Same x.shared sh) :
    (kfork x p pc).Agree ((Frame.kfork p pc).writes x.me) (kfork (x.on sh) p pc) := by
  cases pc with
  | uvmcopy np =>
    simp only [kfork, Ctx.on_choice]
    split <;> exact .quiet
  | freeproc np => exact .exec (Place.same_freed (h _ (List.mem_singleton_self _)))
  | setSz np | copyTrapframe np | setA0 np | idup np | copyName np =>
    have hp : x.image p = (x.on sh).image p := h (.image p) List.mem_cons_self
    have hnp : x.image np = (x.on sh).image np :=
      h (.image np) (List.mem_cons_of_mem _ (List.mem_singleton_self _))
    exact .exec (Place.same_images (by simp only [hp, hnp]))
  | filedup np i =>
    have hp : x.image p = (x.on sh).image p := h (.image p) List.mem_cons_self
    have hnp : x.image np = (x.on sh).image np :=
      h (.image np) (List.mem_cons_of_mem _ (List.mem_singleton_self _))
    simp only [kfork]
    rw [hp, hnp, Ctx.on_nofile]
    split_ifs
    · split
      · exact .exec (Place.same_images rfl)
      · refine .exec fun l hl => ?_
        obtain rfl := List.mem_singleton.mp hl
        exact hnp
    · refine .exec fun l hl => ?_
      obtain rfl := List.mem_singleton.mp hl
      exact hnp
  | readPid np =>
    have hnp : (x.proc np).pid = ((x.on sh).proc np).pid := h _ (List.mem_singleton_self _)
    simp only [kfork, hnp]
    exact .quiet
  | setParent np pid => exact .exec (Place.same_parents rfl)
  | setState np pid => exact .exec (Place.same_fields .state rfl)
  | _ => rfl

theorem forkret_reads {pc : ForkretPc}
    (h : ∀ l ∈ (Frame.forkret p pc).reads x.me, l.Same x.shared sh) :
    (forkret x p pc).Agree ((Frame.forkret p pc).writes x.me)
      (forkret (x.on sh) p pc) := by
  cases pc with
  | testFirst =>
    have hfirst : x.shared.first = sh.first := h _ (List.mem_singleton_self _)
    simp only [forkret]
    rw [hfirst, Ctx.on_shared]
    split_ifs <;> exact .quiet
  | clearFirst =>
    refine .exec fun l hl => ?_
    obtain rfl := List.mem_singleton.mp hl
    rfl
  | setA0 v =>
    have himage : x.image p = (x.on sh).image p := h _ (List.mem_singleton_self _)
    exact .exec (Place.same_images (by simp only [himage]))
  | testA0 v =>
    simp only [forkret]
    split
    · rfl
    · exact .quiet
  | userret => exact .quiet
  | _ => rfl

theorem scheduler_reads {pc : SchedulerPc n}
    (h : ∀ l ∈ (Frame.scheduler pc).reads x.me, l.Same x.shared sh) :
    (scheduler x pc).Agree ((Frame.scheduler pc).writes x.me)
      (scheduler (x.on sh) pc) := by
  cases pc with
  | start => exact .quiet
  | loop i best =>
    simp only [scheduler]
    split_ifs
    · exact .quiet
    · split <;> exact .quiet
  | test q best =>
    cases best with
    | none =>
      have hq : (x.proc q).state = ((x.on sh).proc q).state := h _ (List.mem_singleton_self _)
      simp only [scheduler, Ctx.on_shared]
      rw [hq]
      split_ifs <;> exact .quiet
    | some b =>
      have hq : (x.proc q).state = ((x.on sh).proc q).state :=
        h (.field q .state) List.mem_cons_self
      have hqp : (x.proc q).priority = ((x.on sh).proc q).priority :=
        h (.field q .priority) (List.mem_cons_of_mem _ List.mem_cons_self)
      have hbp : (x.proc b).priority = ((x.on sh).proc b).priority :=
        h (.field b .priority) (List.mem_cons_of_mem _ (List.mem_cons_of_mem _ (List.mem_singleton_self _)))
      simp only [scheduler, Ctx.on_shared]
      rw [hq, hqp, hbp]
      split_ifs <;> exact .quiet
  | setState b => exact .exec (Place.same_fields .state rfl)
  | _ => rfl

theorem wakeup_reads {ch : Option (Chan n)} {pc : WakeupPc n}
    (h : ∀ l ∈ (Frame.wakeup ch pc).reads x.me, l.Same x.shared sh) :
    (wakeup x ch pc).Agree ((Frame.wakeup ch pc).writes x.me)
      (wakeup (x.on sh) ch pc) := by
  cases pc with
  | loop i =>
    simp only [wakeup]
    rw [Ctx.on_me]
    split_ifs <;> exact .quiet
  | test q =>
    have hst : (x.proc q).state = ((x.on sh).proc q).state :=
      h (.field q .state) List.mem_cons_self
    have hch : (x.proc q).chan = ((x.on sh).proc q).chan :=
      h (.field q .chan) (List.mem_cons_of_mem _ (List.mem_singleton_self _))
    simp only [wakeup, Ctx.on_shared]
    rw [hst, hch]
    split_ifs
    · exact .exec (Place.same_fields .state rfl)
    · refine .exec fun l hl => ?_
      obtain rfl := List.mem_singleton.mp hl
      exact hst
  | _ => rfl

theorem reparent_reads {pc : ReparentPc n}
    (h : ∀ l ∈ (Frame.reparent p pc).reads x.me, l.Same x.shared sh) :
    (reparent x p pc).Agree ((Frame.reparent p pc).writes x.me)
      (reparent (x.on sh) p pc) := by
  cases pc with
  | loop i =>
    simp only [reparent]
    by_cases hi : i < n
    · have hparent : x.shared.parent ⟨i, hi⟩ = sh.parent ⟨i, hi⟩ := by
        refine h (.parent ⟨i, hi⟩) ?_
        rw [Frame.reads, ReparentPc.reads, Place.parentAt, dif_pos hi]
        exact List.mem_singleton_self _
      rw [dif_pos hi, dif_pos hi, hparent, Ctx.on_shared]
      split_ifs <;> exact .quiet
    · rw [dif_neg hi, dif_neg hi]
      exact .quiet
  | setParent pp =>
    have hinit : x.shared.initproc = sh.initproc := h _ (List.mem_singleton_self _)
    exact .exec (Place.same_parents hinit)
  | wakeup pp =>
    have hinit : x.shared.initproc = sh.initproc := h _ (List.mem_singleton_self _)
    simp only [reparent, Ctx.on_shared, hinit]
    rfl
  | _ => rfl

theorem kexit_reads {status : Int} {pc : KexitPc}
    (h : ∀ l ∈ (Frame.kexit p status pc).reads x.me, l.Same x.shared sh) :
    (kexit x p status pc).Agree ((Frame.kexit p status pc).writes x.me)
      (kexit (x.on sh) p status pc) := by
  cases pc with
  | testInit =>
    have hinit : x.shared.initproc = sh.initproc := h _ (List.mem_singleton_self _)
    simp only [kexit]
    rw [hinit, Ctx.on_shared]
    split_ifs
    · rfl
    · exact .quiet
  | testFile fd =>
    have himage : x.image p = (x.on sh).image p := h _ (List.mem_singleton_self _)
    simp only [kexit]
    rw [himage, Ctx.on_nofile]
    split_ifs
    · split <;> exact .quiet
    · exact .quiet
  | clearFile fd =>
    have himage : x.image p = (x.on sh).image p := h _ (List.mem_singleton_self _)
    exact .exec (Place.same_images (by simp only [himage]))
  | clearCwd =>
    have himage : x.image p = (x.on sh).image p := h _ (List.mem_singleton_self _)
    exact .exec (Place.same_images (by simp only [himage]))
  | wakeup =>
    have hparent : x.shared.parent p = sh.parent p := h _ (List.mem_singleton_self _)
    simp only [kexit, Ctx.on_shared, hparent]
    rfl
  | setXstate => exact .exec (Place.same_fields .xstate rfl)
  | setState => exact .exec (Place.same_fields .state rfl)
  | sched =>
    simp only [kexit, Ctx.withProc, Ctx.on_me]
    split <;> rfl
  | _ => rfl

theorem kwait_reads {addr : BitVec 64} {pc : KwaitPc n}
    (h : ∀ l ∈ (Frame.kwait p addr pc).reads x.me, l.Same x.shared sh) :
    (kwait x p addr pc).Agree ((Frame.kwait p addr pc).writes x.me)
      (kwait (x.on sh) p addr pc) := by
  cases pc with
  | loop i havekids =>
    simp only [kwait]
    by_cases hi : i < n
    · have hparent : x.shared.parent ⟨i, hi⟩ = sh.parent ⟨i, hi⟩ := by
        refine h (.parent ⟨i, hi⟩) ?_
        rw [Frame.reads, KwaitPc.reads, Place.parentAt, dif_pos hi]
        exact List.mem_singleton_self _
      rw [dif_pos hi, dif_pos hi, hparent, Ctx.on_shared]
      split_ifs <;> exact .quiet
    · rw [dif_neg hi, dif_neg hi]
      split_ifs <;> exact .quiet
  | test pp =>
    have hst : (x.proc pp).state = ((x.on sh).proc pp).state :=
      h (.field pp .state) List.mem_cons_self
    have hpid : (x.proc pp).pid = ((x.on sh).proc pp).pid := 
      h (.field pp .pid) (List.mem_cons_of_mem _ (List.mem_singleton_self _))
    simp only [kwait, Ctx.on_shared]
    rw [hst, hpid]
    split_ifs <;> exact .quiet
  | copyout pp pid =>
    simp only [kwait, Ctx.on_choice]
    split_ifs
    · exact .quiet
    · split <;> exact .quiet
  | freeproc pp pid => exact .exec (Place.same_freed (h _ (List.mem_singleton_self _)))
  | testKilled k =>
    simp only [kwait]
    split <;> exact .quiet
  | sleep =>
    simp only [kwait, Ctx.withProc, Ctx.on_me]
    split <;> rfl
  | _ => rfl

theorem pidScan_reads {op : PidOp} {pc : PidScanPc n}
    (h : ∀ l ∈ (Frame.pidScan op pc).reads x.me, l.Same x.shared sh) :
    (pidScan x op pc).Agree ((Frame.pidScan op pc).writes x.me)
      (pidScan (x.on sh) op pc) := by
  cases pc with
  | loop i =>
    simp only [pidScan]
    split <;> exact .quiet
  | test q =>
    cases op with
    | kkill pid =>
      have hpid : (x.proc q).pid = ((x.on sh).proc q).pid :=
        h (.field q .pid) List.mem_cons_self
      have hst : (x.proc q).state = ((x.on sh).proc q).state :=
        h (.field q .state) (List.mem_cons_of_mem _ List.mem_cons_self)
      have hkilled : (x.shared.proc q).killed = (sh.proc q).killed :=
        h (.field q .killed) (List.mem_cons_of_mem _ (List.mem_cons_of_mem _ (List.mem_singleton_self _)))
      simp only [pidScan, PidOp.hit, kkill]
      rw [hpid, hst]
      by_cases hc : ((x.on sh).proc q).pid = pid
      · rw [if_pos hc, if_pos hc]
        refine .exec fun l hl => ?_
        simp only [Frame.writes, PidScanPc.writes, PidOp.writes, List.mem_cons, List.not_mem_nil, or_false] at hl
        obtain rfl | rfl := hl <;> simp [Place.Same, Field.Same]
      · rw [if_neg hc, if_neg hc]
        refine .exec fun l hl => ?_
        simp only [Frame.writes, PidScanPc.writes, PidOp.writes, List.mem_cons, List.not_mem_nil, or_false] at hl
        obtain rfl | rfl := hl
        · exact hkilled
        · exact hst
    | setPriority pid prio | getPriority pid =>
      have hpid : (x.proc q).pid = ((x.on sh).proc q).pid :=
        h (.field q .pid) List.mem_cons_self
      have hst : (x.proc q).state = ((x.on sh).proc q).state :=
        h (.field q .state) (List.mem_cons_of_mem _ List.mem_cons_self)
      have hprio : (x.proc q).priority = ((x.on sh).proc q).priority :=
        h (.field q .priority) (List.mem_cons_of_mem _ (List.mem_cons_of_mem _ (List.mem_singleton_self _)))
      simp only [pidScan, PidOp.hit, setPriority, getPriority]
      rw [hpid, hst, hprio]
      by_cases hc : ((x.on sh).proc q).pid = pid ∧ ((x.on sh).proc q).state ≠ .unused
      · rw [if_pos hc, if_pos hc]
        first | exact .exec (Place.same_fields .priority rfl) | exact .quiet
      · rw [if_neg hc, if_neg hc]
        first
        | exact .quiet
        | refine .exec fun l hl => ?_
          obtain rfl := List.mem_singleton.mp hl
          exact hprio
  | _ => rfl

theorem syscall_reads {pc : SyscallPc} (h : ∀ l ∈ (Frame.syscall p pc).reads x.me, l.Same x.shared sh) :
    (syscall x p pc).Agree ((Frame.syscall p pc).writes x.me)
      (syscall (x.on sh) p pc) := by
  cases pc with
  | count | store v =>
    have himage : x.image p = (x.on sh).image p := h _ (List.mem_singleton_self _)
    exact .exec (Place.same_images (by simp only [himage]))
  | dispatch =>
    have himage : x.image p = (x.on sh).image p := h (.image p) List.mem_cons_self
    have hpid : (x.proc p).pid = ((x.on sh).proc p).pid := 
      h (.field p .pid) (List.mem_cons_of_mem _ List.mem_cons_self)
    simp only [syscall, dispatch]
    rw [himage, hpid, Ctx.on_choice]
    refine .ite (.refl _ _) (.ite (.refl _ _) (.ite (.refl _ _) (.ite (.refl _ _) (.ite .quiet
      (.ite .quiet (.ite (.refl _ _) (.ite (.refl _ _) (.ite ?_ (.ite (.refl _ _) .quiet)))))))))
    split <;> exact .quiet
  | _ => rfl

theorem user_reads {pc : UserPc} (h : ∀ l ∈ (Frame.user p pc).reads x.me, l.Same x.shared sh) :
    (user x p pc).Agree ((Frame.user p pc).writes x.me) (user (x.on sh) p pc) := by
  cases pc with
  | run =>
    have himage : x.image p = (x.on sh).image p := h _ (List.mem_singleton_self _)
    simp only [user, Ctx.withProc, Ctx.on_me, Ctx.on_choice, himage]
    repeat' split
    all_goals first | rfl | exact .exec (Place.same_images rfl)
  | syscall =>
    simp only [user, Ctx.withProc, Ctx.on_me]
    split <;> rfl
  | _ => rfl

theorem ext_reads {kind : ExtKind} {pc : ExtPc}
    (h : ∀ l ∈ (Frame.ext kind pc).reads x.me, l.Same x.shared sh) :
    (ext x kind pc).Agree ((Frame.ext kind pc).writes x.me) (ext (x.on sh) kind pc) := by
  cases pc with
  | run held =>
    simp only [ext, Ctx.on_choice]
    split
    case h_7 m =>
      by_cases hkind : kind ≠ .service
      · rw [if_pos hkind, if_pos hkind]
        rfl
      · obtain rfl := not_not.mp hkind
        rw [if_neg hkind, if_neg hkind]
        simp only [Ctx.withProc, Ctx.on_me]
        cases hme : x.me with
        | none => rfl
        | some q =>
          have himage : x.image q = (x.on sh).image q := by
            refine h (.image q) ?_
            simp [Frame.reads, ExtPc.reads, Place.own, hme]
          simp only [himage, Frame.writes, ExtPc.writes, Place.own]
          exact .exec (Place.same_images rfl)
    case h_8 v =>
      refine .ite (.exec fun l hl => h l ?_) (.refl _ _)
      cases kind <;> exact hl
    all_goals exact .refl _ _
  | done v =>
    simp only [ext]
    split <;> rfl
  | _ => rfl

end Reads

/-- What a statement does depends on the places that it reads. -/
theorem code_reads {x : Ctx n} {sh : Shared n} {f : Frame n}
    (h : ∀ l ∈ f.reads x.me, l.Same x.shared sh) :
    (code x f).Agree (f.writes x.me) (code (x.on sh) f) := by
  cases f with
  | main pc =>
    cases pc with
    | start =>
      refine .exec fun l hl => ?_
      obtain rfl := List.mem_singleton.mp hl
      rfl
    | waiting =>
      have hstarted : x.shared.started = sh.started := h _ (List.mem_singleton_self _)
      simp only [code, main]
      rw [hstarted, Ctx.on_shared]
      exact .ite .quiet (.refl _ _)
    | _ => rfl
  | userinit pc =>
    cases pc with
    | setInitproc q =>
      refine .exec fun l hl => ?_
      obtain rfl := List.mem_singleton.mp hl
      rfl
    | setCwd q =>
      cases q with
      | none => rfl
      | some q =>
        have himage : x.image q = (x.on sh).image q := h _ (List.mem_singleton_self _)
        exact .exec (Place.same_images (by simp only [himage]))
    | setState q => exact .exec (Place.same_fields .state rfl)
    | _ => rfl
  | allocproc pc => exact allocproc_reads h
  | allocpid pc =>
    cases pc with
    | read =>
      have hnext : x.shared.nextpid = sh.nextpid := h _ (List.mem_singleton_self _)
      simp only [code, allocpid, Ctx.on_shared, hnext]
      exact .quiet
    | advance pid =>
      have hnext : x.shared.nextpid = sh.nextpid := h _ (List.mem_singleton_self _)
      refine .exec fun l hl => ?_
      obtain rfl := List.mem_singleton.mp hl
      simp only [Place.Same, Ctx.on_shared, hnext]
    | _ => rfl
  | kfork p pc => exact kfork_reads h
  | forkret p pc => exact forkret_reads h
  | scheduler pc => exact scheduler_reads h
  | sched p pc =>
    cases pc with
    | testLock | testLocks =>
      simp only [code, sched]
      exact .ite .quiet (.refl _ _)
    | testState =>
      have hst : (x.proc p).state = ((x.on sh).proc p).state := h _ (List.mem_singleton_self _)
      simp only [code, sched]
      rw [hst]
      exact .ite (.refl _ _) .quiet
    | testIntr =>
      simp only [code, sched]
      exact .ite (.refl _ _) .quiet
    | _ => rfl
  | yield p pc =>
    cases pc with
    | setState => exact .exec (Place.same_fields .state rfl)
    | _ => exact .refl _ _
  | sleep p ch lk pc =>
    cases pc with
    | setState => exact .exec (Place.same_fields .state rfl)
    | setChan | clearChan => exact .exec (Place.same_fields .chan rfl)
    | _ => exact .refl _ _
  | wakeup ch pc => exact wakeup_reads h
  | reparent p pc => exact reparent_reads h
  | kexit p status pc => exact kexit_reads h
  | kwait p addr pc => exact kwait_reads h
  | killed p pc =>
    cases pc with
    | read =>
      have hkilled : (x.proc p).killed = ((x.on sh).proc p).killed := h _ (List.mem_singleton_self _)
      simp only [code, Kernel.killed, hkilled]
      exact .quiet
    | _ => rfl
  | setkilled p pc =>
    cases pc with
    | set => exact .exec (Place.same_fields .killed rfl)
    | _ => rfl
  | pidScan op pc => exact pidScan_reads h
  | syscall p pc => exact syscall_reads h
  | user p pc => exact user_reads h
  | ext kind pc => exact ext_reads h
  | panic msg => rfl

end MultithreadMayhem.Kernel
