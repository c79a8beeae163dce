import MultithreadMayhem.Kernel.Turn

/-!
# What a statement does to one slot

Each group of fields has its own writers. The private fields of a process are written by
its maker, by the process itself and by `freeproc`; the parent by `kfork`, `reparent` and
`freeproc`; and only `freeproc` and `kexit` lead to the states `UNUSED` and `ZOMBIE`.
-/

namespace MultithreadMayhem.Kernel

variable {n nofile : ℕ} {C : Type} {x : Ctx n} {t : Thread n C} {sh : Shared n} {f g h : Frame n}
  {e : Option (Event n)} {i j : Fin n} {rest pre below : List (Frame n)}

def Image.SameFiles (m m' : Image) : Prop := m'.ofile = m.ofile ∧ m'.cwd = m.cwd

/-- Who writes the private fields of the slot. -/
inductive ImageWrite (x : Ctx n) (t : Thread n C) (sh : Shared n) (f g : Frame n) (j : Fin n) : Prop
  | same (himage : sh.image j = x.shared.image j)
  | init (hf : f = .allocproc (.init j)) (himage : sh.image j = { x.shared.image j with syscalls := 0 })
      (hst : sh.states j = .used)
  | free {e : Event n} (hf : f.Frees x.shared j g e) (himage : sh.image j = (x.shared.image j).freed)
  | make (hj : x.shared.states j = .used) (hst : sh.states j = .used) (hbuilds : f.builds = {j})
      (hlock : Lock.proc j ∈ f.locks)
      (hready : f.ready = {j} ∨ (x.shared.image j).SameFiles (sh.image j))
  | own (ht : t = .proc j) (hj : x.shared.states j = .running) (hst : sh.states j = .running)
      (hfn : f.fn = .process j ∨ f.fn = .syscall j ∨ f.fn = .ext ∨ f.fn = .kexit j)

/-- Who writes the parent of the slot. -/
inductive ParentWrite (x : Ctx n) (sh : Shared n) (f g : Frame n) (j : Fin n) : Prop
  | same (hparent : sh.parent j = x.shared.parent j)
  | fork {p : Fin n} {pid : Int} (hf : f = .kfork p (.setParent j pid))
      (hparent : sh.parent j = some p)
  | reparent {p : Fin n} (hf : f = .reparent p (.setParent j))
      (hparent : sh.parent j = x.shared.initproc)
  | free {e : Event n} (hf : f.Frees x.shared j g e) (hparent : sh.parent j = none)

theorem Write.image (hw : Write x t sh f g e) (hrel : f.Relies x t) (j : Fin n) :
    ImageWrite x t sh f g j := by
  have slot {i : Fin n} {m : Image} (himage : sh.image = Function.update x.shared.image i m)
      (hi : i = j → sh.image i = m → ImageWrite x t sh f g j) : ImageWrite x t sh f g j := by
    obtain rfl | hij := eq_or_ne i j
    · exact hi rfl (by rw [himage, Function.update_self])
    · exact .same (by rw [himage, Function.update_of_ne hij.symm])
  cases hw with
  | globals hf hproc hparent himage => exact .same (by rw [himage])
  | copyout | info | advance | setPid | state | chan | fork | reparent | setXstate | exit
  | setkilled | hit => exact .same rfl
  | @init p =>
    refine slot rfl ?_
    rintro rfl himage
    refine .init rfl himage ?_
    rw [Shared.states_setImage, Shared.states_setProc, Function.update_self]
    rfl
  | free hf =>
    refine slot rfl ?_
    rintro rfl himage
    exact .free hf himage
  | make hf hj hbuilds hlock hready =>
    refine slot rfl ?_
    rintro rfl himage
    refine .make hj hj hbuilds.1 hlock (hready.imp_right fun hm => ?_)
    rw [himage]
    exact hm
  | own hf ht hj hfn =>
    refine slot rfl ?_
    rintro rfl -
    exact .own ht hj hj (hfn.imp_right (Or.imp_right .inl))
  | @count p hj =>
    refine slot rfl ?_
    rintro rfl -
    exact .own hrel.on hj hj (.inr (.inl rfl))
  | @clearFile p status fd hj =>
    refine slot rfl ?_
    rintro rfl -
    exact .own hrel.on hj hj (.inr (.inr (.inr rfl)))
  | @clearCwd p status hj =>
    refine slot rfl ?_
    rintro rfl -
    exact .own hrel.on hj hj (.inr (.inr (.inr rfl)))

theorem Write.parent (hw : Write x t sh f g e) (j : Fin n) : ParentWrite x sh f g j := by
  have slot {i : Fin n} {p : Option (Fin n)}
      (hparent : sh.parent = Function.update x.shared.parent i p)
      (hi : i = j → sh.parent i = p → ParentWrite x sh f g j) : ParentWrite x sh f g j := by
    obtain rfl | hij := eq_or_ne i j
    · exact hi rfl (by rw [hparent, Function.update_self])
    · exact .same (by rw [hparent, Function.update_of_ne hij.symm])
  cases hw with
  | globals hf hproc hparent => exact .same (by rw [hparent])
  | fork hnp =>
    refine slot rfl ?_
    rintro rfl hparent
    exact .fork rfl hparent
  | reparent =>
    refine slot rfl ?_
    rintro rfl hparent
    exact .reparent rfl hparent
  | free hf =>
    refine slot rfl ?_
    rintro rfl hparent
    exact .free hf hparent
  | _ => exact .same rfl

theorem Write.unused (hw : Write x t sh f g e) (hj : sh.states j = .unused) :
    (x.shared.states j = .unused ∧ (sh.proc j).chan = (x.shared.proc j).chan ∧
      (sh.proc j).xstate = (x.shared.proc j).xstate) ∨
    ∃ e', f.Frees x.shared j g e' ∧ sh = x.shared.freeproc j := by
  have same (hproc : sh.proc = x.shared.proc) : x.shared.states j = .unused ∧
      (sh.proc j).chan = (x.shared.proc j).chan ∧ (sh.proc j).xstate = (x.shared.proc j).xstate := by
    rw [Shared.states, hproc] at hj
    rw [hproc]
    exact ⟨hj, rfl, rfl⟩
  have slot {i : Fin n} {q : Proc n} (hproc : sh.proc = Function.update x.shared.proc i q)
      (hq : q.state = .unused → x.shared.states i = .unused ∧ q.chan = (x.shared.proc i).chan ∧
        q.xstate = (x.shared.proc i).xstate) : x.shared.states j = .unused ∧
      (sh.proc j).chan = (x.shared.proc j).chan ∧ (sh.proc j).xstate = (x.shared.proc j).xstate := by
    rw [Shared.states, hproc] at hj
    rw [hproc]
    obtain rfl | hij := eq_or_ne j i
    · rw [Function.update_self] at hj ⊢
      exact hq hj
    · rw [Function.update_of_ne hij] at hj ⊢
      exact ⟨hj, rfl, rfl⟩
  have running {p : Fin n} {Q : Prop} (hrun : x.shared.states p = .running)
      (h : (x.shared.proc p).state = .unused) : Q := by
    rw [show (x.shared.proc p).state = .running from hrun] at h
    cases h
  cases hw with
  | globals hf hproc => exact .inl (same hproc)
  | copyout | info | advance | fork | reparent | make | own | count | clearFile | clearCwd =>
    exact .inl (same rfl)
  | setPid => exact .inl (slot rfl fun h => ⟨h, rfl, rfl⟩)
  | init | exit => exact .inl (slot rfl (by rintro ⟨⟩))
  | state hf hj hold hnew =>
    refine .inl (slot rfl fun h => ?_)
    obtain rfl | rfl | rfl := hnew <;> cases h
  | chan hrun => exact .inl (slot rfl fun h => running hrun h)
  | setXstate hrun => exact .inl (slot rfl fun h => running hrun h)
  | setkilled hrun => exact .inl (slot rfl fun h => running hrun h)
  | @hit op p q v hq =>
    have hfields : q.chan = (x.proc p).chan ∧ q.xstate = (x.proc p).xstate := by
      cases op <;> simp only [PidOp.hit, Kernel.kkill, Kernel.setPriority, Kernel.getPriority] at hq <;>
        split at hq <;> cases hq <;> exact ⟨rfl, rfl⟩
    exact .inl (slot rfl fun h => ⟨(PidOp.hit_ids hq).2.2.2.mp h, hfields⟩)
  | @free i f g e hf =>
    obtain rfl | hij := eq_or_ne i j
    · exact .inr ⟨e, hf, rfl⟩
    · refine .inl ?_
      rw [Shared.states_freeproc, Function.update_of_ne hij.symm] at hj
      rw [Shared.freeproc_proc, Function.update_of_ne hij.symm]
      exact ⟨hj, rfl, rfl⟩

theorem Write.zombie (hw : Write x t sh f g e) (hj : sh.states j = .zombie) :
    x.shared.states j = .zombie ∨ ∃ status, f = .kexit j status .setState := by
  have same (hproc : sh.proc = x.shared.proc) : x.shared.states j = .zombie := by
    rwa [Shared.states, hproc] at hj
  have slot {i : Fin n} {q : Proc n} (hproc : sh.proc = Function.update x.shared.proc i q)
      (hq : q.state = .zombie → x.shared.states i = .zombie) : x.shared.states j = .zombie := by
    rw [Shared.states, hproc] at hj
    obtain rfl | hij := eq_or_ne j i
    · rw [Function.update_self] at hj
      exact hq hj
    · rwa [Function.update_of_ne hij] at hj
  cases hw with
  | globals hf hproc => exact .inl (same hproc)
  | copyout | info | advance | fork | reparent | make | own | count | clearFile | clearCwd =>
    exact .inl (same rfl)
  | setPid | chan | setXstate | setkilled => exact .inl (slot rfl id)
  | init | free => exact .inl (slot rfl (by rintro ⟨⟩))
  | state hf hj hold hnew =>
    refine .inl (slot rfl fun h => ?_)
    obtain rfl | rfl | rfl := hnew <;> cases h
  | @hit op p q v hq =>
    refine .inl (slot rfl fun h => ?_)
    cases op with
    | kkill pid =>
      simp only [PidOp.hit, Kernel.kkill] at hq
      split at hq
      · cases hq
        change (if (x.proc p).state = .sleeping then Procstate.runnable else (x.proc p).state) = .zombie at h
        split at h
        · cases h
        · exact h
      · cases hq
    | setPriority pid prio =>
      simp only [PidOp.hit, Kernel.setPriority] at hq
      split at hq <;> cases hq
      exact h
    | getPriority pid =>
      simp only [PidOp.hit, Kernel.getPriority] at hq
      split at hq <;> cases hq
      exact h
  | @exit p status hrun =>
    obtain rfl | hij := eq_or_ne j p
    · exact .inr ⟨status, rfl⟩
    · rw [Shared.states_setState, Function.update_of_ne hij] at hj
      exact .inl hj

namespace Procstate

def alive : Procstate → Bool
  | .runnable | .running | .sleeping => true
  | _ => false

end Procstate

def Shared.Alive (sh : Shared n) (j : Fin n) : Prop := (sh.states j).alive = true

/-- Who takes the slot from one stage of its life to the next. -/
inductive StateWrite (x : Ctx n) (sh : Shared n) (f g : Frame n) (j : Fin n) : Prop
  | same (hst : sh.states j = x.shared.states j)
  | move (hold : x.shared.Alive j) (hnew : sh.Alive j)
  | init (hf : f = .allocproc (.init j)) (hnew : sh.states j = .used)
  | publish (hf : f = .userinit (.setState j) ∨ ∃ p pid, f = .kfork p (.setState j pid))
      (hnew : sh.Alive j)
  | exit {status : Int} (hf : f = .kexit j status .setState) (hold : x.shared.states j = .running)
      (hnew : sh.states j = .zombie)
  | free {e : Event n} (hf : f.Frees x.shared j g e) (hnew : sh.states j = .unused)

/-- Who writes the pid and the exit status of the slot. -/
inductive IdWrite (x : Ctx n) (sh : Shared n) (f g : Frame n) (j : Fin n) : Prop
  | same (hpid : (sh.proc j).pid = (x.proc j).pid) (hxstate : (sh.proc j).xstate = (x.proc j).xstate)
  | setPid {pid : Int} (hf : f = .allocproc (.setPid j pid))
  | setXstate {status : Int} (hf : f = .kexit j status .setXstate)
      (hpid : (sh.proc j).pid = (x.proc j).pid) (hxstate : (sh.proc j).xstate = status)
  | free {e : Event n} (hf : f.Frees x.shared j g e)

theorem Frame.Frees.exec {g' : Frame n} {e : Event n} (hf : f.Frees x.shared j g e)
    (ha : code x f = .exec sh g') : sh = x.shared.freeproc j := by
  cases hf <;> cases ha <;> rfl

theorem Change.publishes {st st' : Fin n → Procstate} (h : Change t f g st st') (hold : st j = .used)
    (hnew : st' j ≠ .used) (hunused : st' j ≠ .unused) : f.ready = {j} ∧ g.builds = 0 := by
  have only {k : Fin n} {st₁ : Procstate} (hst : st' = Function.update st k st₁) : j = k := by
    by_contra hne
    rw [hst, Function.update_of_ne hne] at hnew
    exact hnew hold
  cases h with
  | same hst =>
    rw [hst] at hnew
    exact absurd hold hnew
  | wake k hk hst | dispatch k hk hst | alloc k hk hst | reap k hk hst | leave k st₁ hk hst =>
    obtain rfl := only hst
    cases hold.symm.trans hk
  | abandon k hk hst =>
    obtain rfl := only hst
    rw [hst, Function.update_self] at hunused
    exact absurd rfl hunused
  | publish k hk hst hfn hl hb hr =>
    obtain rfl := only hst
    exact ⟨hr, hb.2⟩

theorem code_publishes (ha : code x f = .exec sh g) (hf : f.special = false) (hready : f.ready = {j})
    (hg : g.builds = 0) : f = .userinit (.setState j) ∨ ∃ p pid, f = .kfork p (.setState j pid) := by
  have none {P : Prop} (h : (0 : Multiset (Fin n)) = {j}) : P :=
    absurd h.symm (Multiset.singleton_ne_zero j)
  cases f with
  | userinit pc =>
    cases pc with
    | setState p =>
      obtain rfl := Multiset.singleton_inj.mp hready
      exact .inl rfl
    | setInitproc p | setCwd p =>
      cases p with
      | none => exact none hready
      | some p =>
        cases ha
        exact absurd hg (Multiset.singleton_ne_zero p)
    | _ => exact none hready
  | kfork p pc =>
    cases pc with
    | setState np pid =>
      obtain rfl := Multiset.singleton_inj.mp hready
      exact .inr ⟨p, pid, rfl⟩
    | uvmcopy np | filedup np i =>
      simp only [code, kfork] at ha
      repeat' split at ha
      all_goals
        cases ha
        exact absurd hg (Multiset.singleton_ne_zero np)
    | freeproc np => cases hf
    | setSz np | copyTrapframe np | setA0 np | idup np | copyName np | readPid np | setParent np pid =>
      cases ha
      exact absurd hg (Multiset.singleton_ne_zero np)
    | release | acquireWait | releaseWait | reacquire => cases ha
    | _ => exact none hready
  | allocproc pc =>
    cases pc with
    | done p => cases ha
    | _ => exact none hready
  | _ => exact none hready

theorem Write.state_write (hw : Write x t sh f g e) (hrel : f.Relies x t)
    (ha : code x f = .exec sh g) (j : Fin n) : StateWrite x sh f g j := by
  have hplays := code_plays hrel
  rw [ha] at hplays
  have hchange : Change t f g x.shared.states sh.states := hplays.1
  have same (hproc : sh.proc = x.shared.proc) : StateWrite x sh f g j := by
    refine .same ?_
    rw [Shared.states, Shared.states, hproc]
  have slot {i : Fin n} {q : Proc n} (hproc : sh.proc = Function.update x.shared.proc i q)
      (hi : i = j → sh.states i = q.state → StateWrite x sh f g j) : StateWrite x sh f g j := by
    obtain rfl | hij := eq_or_ne i j
    · refine hi rfl ?_
      rw [Shared.states, hproc, Function.update_self]
    · refine .same ?_
      rw [Shared.states, Shared.states, hproc, Function.update_of_ne hij.symm]
  cases hw with
  | globals hf hproc => exact same hproc
  | copyout | info | advance | fork | reparent | make | own | count | clearFile | clearCwd =>
    exact same rfl
  | setPid | chan | setXstate | setkilled =>
    refine slot rfl ?_
    rintro rfl hst
    exact .same hst
  | init =>
    refine slot rfl ?_
    rintro rfl hst
    exact .init rfl hst
  | free hf =>
    refine slot rfl ?_
    rintro rfl hst
    exact .free hf hst
  | exit hrun =>
    refine slot rfl ?_
    rintro rfl hst
    exact .exit rfl hrun hst
  | @state i st f g hf hi hold hnew =>
    refine slot rfl ?_
    rintro rfl hst
    have halive : (x.shared.setState i st).Alive i := by
      rw [Shared.Alive, hst]
      obtain rfl | rfl | rfl := hnew <;> rfl
    cases hi' : x.shared.states i with
    | unused => exact absurd hi' hold.1
    | zombie => exact absurd hi' hold.2
    | used =>
      obtain ⟨hready, hbuilds⟩ : f.ready = {i} ∧ g.builds = 0 := by
        refine hchange.publishes hi' ?_ ?_
        · rw [hst]
          obtain rfl | rfl | rfl := hnew <;> rintro ⟨⟩
        · rw [hst]
          obtain rfl | rfl | rfl := hnew <;> rintro ⟨⟩
      exact .publish (code_publishes ha hf hready hbuilds) halive
    | sleeping | runnable | running =>
      refine .move ?_ halive
      rw [Shared.Alive, hi']
      rfl
  | @hit op p q v hq =>
    refine slot rfl ?_
    rintro rfl hst
    cases op with
    | kkill pid =>
      simp only [PidOp.hit, Kernel.kkill] at hq
      split at hq
      · obtain ⟨rfl, -⟩ := Prod.mk.inj (Option.some.inj hq)
        obtain hsleeping | hsleeping := eq_or_ne (x.proc p).state .sleeping
        · refine .move ?_ ?_
          · rw [Shared.Alive, show x.shared.states p = .sleeping from hsleeping]
            rfl
          · rw [Shared.Alive, hst]
            change (if (x.proc p).state = .sleeping then Procstate.runnable else _).alive = true
            rw [if_pos hsleeping]
            rfl
        · exact .same (hst.trans (if_neg hsleeping))
      · cases hq
    | setPriority pid prio =>
      simp only [PidOp.hit, Kernel.setPriority] at hq
      split at hq <;> cases hq
      exact .same hst
    | getPriority pid =>
      simp only [PidOp.hit, Kernel.getPriority] at hq
      split at hq <;> cases hq
      exact .same hst

theorem Write.ids (hw : Write x t sh f g e) (j : Fin n) : IdWrite x sh f g j := by
  have same (hproc : sh.proc = x.shared.proc) : IdWrite x sh f g j :=
    .same (by rw [hproc]; rfl) (by rw [hproc]; rfl)
  have slot {i : Fin n} {q : Proc n} (hproc : sh.proc = Function.update x.shared.proc i q)
      (hi : i = j → sh.proc i = q → IdWrite x sh f g j) : IdWrite x sh f g j := by
    obtain rfl | hij := eq_or_ne i j
    · refine hi rfl ?_
      rw [hproc, Function.update_self]
    · refine .same ?_ ?_
      · rw [hproc, Function.update_of_ne hij.symm]
        rfl
      · rw [hproc, Function.update_of_ne hij.symm]
        rfl
  cases hw with
  | globals hf hproc => exact same hproc
  | copyout | info | advance | fork | reparent | make | own | count | clearFile | clearCwd =>
    exact same rfl
  | init | state | chan | exit | setkilled =>
    refine slot rfl ?_
    rintro rfl hp
    exact .same ((congrArg Proc.pid hp).trans rfl) ((congrArg Proc.xstate hp).trans rfl)
  | setPid =>
    refine slot rfl ?_
    rintro rfl -
    exact .setPid rfl
  | setXstate =>
    refine slot rfl ?_
    rintro rfl hp
    exact .setXstate rfl ((congrArg Proc.pid hp).trans rfl) ((congrArg Proc.xstate hp).trans rfl)
  | free hf =>
    refine slot rfl ?_
    rintro rfl -
    exact .free hf
  | @hit op p q v hq =>
    refine slot rfl ?_
    rintro rfl hp
    have hxstate : q.xstate = (x.proc p).xstate := by
      cases op <;> simp only [PidOp.hit, Kernel.kkill, Kernel.setPriority, Kernel.getPriority] at hq <;>
        split at hq <;> cases hq <;> rfl
    exact .same (by rw [hp, (PidOp.hit_ids hq).1]) (by rw [hp, hxstate])

end MultithreadMayhem.Kernel
