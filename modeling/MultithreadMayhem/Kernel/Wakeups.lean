import MultithreadMayhem.Kernel.ExitNotice
import MultithreadMayhem.Kernel.Turn

/-!
# No wakeup is missed

A process that calls `sleep(chan, lk)` is dormant from the moment it gives up `lk` until it is
made `RUNNABLE`. A call of `wakeup(chan)` that begins while the process is dormant cannot
end before the process has been made `RUNNABLE`: the scan does not pass its slot.
-/

namespace MultithreadMayhem.Kernel

open Foundation

variable {n nofile : ℕ} {C : Type} {s s' : State n C} {c : C} {P : Fin n} {ch : Chan n}
  {lk : Lock n} {f g : Frame n} {t : Thread n C} {pre rest rest' : List (Frame n)}

/-- The process executes a call of `sleep` and is at `pc`. -/
def State.Falls (s : State n C) (P : Fin n) (ch : Chan n) (lk : Lock n) (pc : SleepPc) : Prop :=
  ∃ c below, s.running c = .proc P ∧ s.stack (.proc P) = .sleep P ch lk pc :: below

/-- The process waits in `sleep(ch, lk)`: it has called `sleep`, or it sleeps. -/
def State.Waits (s : State n C) (P : Fin n) (ch : Chan n) (lk : Lock n) : Prop :=
  (s.shared.states P = .sleeping ∧ (s.shared.proc P).chan = some ch) ∨
    ∃ pc, pc.falling = true ∧ s.Falls P ch lk pc

/-- The process has given up its condition lock and has not been made `RUNNABLE` since. -/
inductive State.Dormant (s : State n C) (P : Fin n) (ch : Chan n) (lk : Lock n) : Prop
  | asleep (hst : s.shared.states P = .sleeping) (hch : (s.shared.proc P).chan = some ch)
  | setChan (hfalls : s.Falls P ch lk .setChan)
  | setState (hfalls : s.Falls P ch lk .setState) (hch : (s.shared.proc P).chan = some ch)

def WakeupPc.Before (P : Fin n) : WakeupPc n → Prop
  | .loop i => i ≤ P
  | .acquire j | .test j => j ≤ P
  | .release j => j < P
  | .done => False

def State.Wakes (s : State n C) (t : Thread n C) (ch : Chan n) (rest : List (Frame n))
    (pc : WakeupPc n) : Prop :=
  ∃ pre, s.stack t = pre ++ .wakeup (some ch) pc :: rest

section Writes

variable {x : Ctx n} {sh : Shared n} {e : Option (Event n)}

theorem Change.of_sleeping {st st' : Fin n → Procstate} (h : Change t f g st st')
    (hP : st P = .sleeping) : st' P = .sleeping ∨ st' P = .runnable := by
  have slot {j : Fin n} {v w : Procstate} (hj : st j = v) (hv : v ≠ .sleeping)
      (hst : st' = Function.update st j w) : st' P = .sleeping := by
    rw [hst, Function.update_of_ne, hP]
    rintro rfl
    exact hv (hj.symm.trans hP)
  cases h with
  | same hst =>
    rw [hst]
    exact .inl hP
  | wake j hj hst =>
    obtain rfl | hne := eq_or_ne P j
    · right
      rw [hst, Function.update_self]
    · left
      rw [hst, Function.update_of_ne hne, hP]
  | dispatch j hj hst | alloc j hj hst | reap j hj hst | abandon j hj hst | publish j hj hst
  | leave j st₁ hj hst => exact .inl (slot hj (by rintro ⟨⟩) hst)

theorem Write.chan_of_sleeping (hw : Write x t sh f g e) (hrel : f.Relies x t)
    (hP : x.shared.states P = .sleeping) : (sh.proc P).chan = (x.shared.proc P).chan := by
  have slot {j : Fin n} {q : Proc n} (hq : j = P → q.chan = (x.shared.proc j).chan) :
      (Function.update x.shared.proc j q P).chan = (x.shared.proc P).chan := by
    obtain rfl | hne := eq_or_ne P j
    · rw [Function.update_self]
      exact hq rfl
    · rw [Function.update_of_ne hne]
  cases hw with
  | globals hf hproc => rw [hproc]
  | copyout | info | advance | fork | reparent | make | own | count | clearFile | clearCwd => rfl
  | setPid | setXstate | setkilled | exit | state => exact slot fun _ => rfl
  | chan hrun =>
    refine slot ?_
    rintro rfl
    cases hrun.symm.trans hP
  | @init p =>
    refine slot ?_
    rintro rfl
    have hused := hrel.knows (p, .unused) (List.mem_singleton_self _)
    cases hused.symm.trans hP
  | free hfrees =>
    refine slot ?_
    rintro rfl
    obtain hst | hst := hfrees.ends hrel
    · cases hst.symm.trans hP
    · cases hst.symm.trans hP
  | @hit op p q v hq =>
    refine slot ?_
    rintro rfl
    exact op.hit_chan hq

end Writes

variable [DecidableEq C] {e : Option (Event n)}

theorem Turn.of_between {pc : SleepPc} (h : Sound s)
    (hs : s.stack (s.running c) = .sleep P ch lk pc :: rest) (hpc : pc.between = true)
    (hturn : Turn nofile s c (.sleep P ch lk pc) rest s' e) :
    (pc = .setChan ∧ s'.shared = s.shared.setProc P { s.shared.proc P with chan := some ch } ∧
        s'.running = s.running ∧
        s'.stack = Function.update s.stack (s.running c) (.sleep P ch lk .setState :: rest)) ∨
      pc = .setState ∧ s'.shared = s.shared.setState P .sleeping := by
  have hlocks : s.noff c ≠ 0 := by
    rw [h.noff c, hs]
    intro hn
    have hzero : (Frame.sleep P ch lk pc).locks = 0 := locks_eq_zero (Multiset.card_eq_zero.mp hn)
    cases pc with
    | setChan | setState => exact Multiset.singleton_ne_zero _ hzero
    | _ => cases hpc
  cases hturn with
  | exec ha he hw hstack hrun =>
    cases pc with
    | setChan =>
      injection ha with hsh hg
      subst hg
      exact .inl ⟨rfl, hsh.symm, hrun, hstack⟩
    | setState =>
      injection ha with hsh hg
      exact .inr ⟨rfl, hsh.symm⟩
    | _ => cases hpc
  | interrupt hn => exact absurd hn hlocks
  | lock ha =>
    cases pc with
    | setChan | setState => obtain ha | ha := ha <;> cases ha
    | _ => cases hpc
  | call ha | ret ha =>
    cases pc with
    | setChan | setState => cases ha
    | _ => cases hpc
  | panic ha =>
    cases pc with
    | setChan | setState => obtain ⟨m, ha⟩ | ⟨l, g, ha | ha⟩ := ha <;> cases ha
    | _ => cases hpc
  | iret hrest hf => cases hf
  | context hf => cases hf
  | switch hf => obtain ⟨pc, pc', hf, -⟩ | ⟨q, hf, -⟩ := hf <;> cases hf

namespace State.Dormant

omit [DecidableEq C] in
theorem cases_falls (hd : s.Dormant P ch lk) :
    (s.shared.states P = .sleeping ∧ (s.shared.proc P).chan = some ch) ∨
      ∃ pc, pc.between = true ∧ s.Falls P ch lk pc ∧
        (pc = .setState → (s.shared.proc P).chan = some ch) := by
  cases hd with
  | asleep hst hch => exact .inl ⟨hst, hch⟩
  | setChan hfalls => exact .inr ⟨_, rfl, hfalls, by rintro ⟨⟩⟩
  | setState hfalls hch => exact .inr ⟨_, rfl, hfalls, fun _ => hch⟩

/-- A dormant process stays dormant until it is made `RUNNABLE`. -/
theorem step (hd : s.Dormant P ch lk) (h : Sound s) (ht : Transition nofile s c s')
    (hs : s.stack (s.running c) = f :: rest) (hturn : Turn nofile s c f rest s' e)
    (hne : s'.shared.states P ≠ .runnable) : s'.Dormant P ch lk := by
  obtain ⟨hst, hch⟩ | ⟨pc, hpc, ⟨c', below, hr, hP⟩, hch⟩ := hd.cases_falls
  · obtain ⟨hsh, -⟩ | ⟨x, g, ha, -, -, hw⟩ := hturn.written
    · exact .asleep (by rw [hsh, hst]) (by rw [hsh, hch])
    · obtain hst' | hst' := (h.plays hs ha).1.of_sleeping hst
      · exact .asleep hst' ((hw.chan_of_sleeping (h.relies hs x) hst).trans hch)
      · exact absurd hst' hne
  rw [← hr] at hP
  obtain rfl | hc := eq_or_ne c' c
  · obtain ⟨rfl, rfl⟩ := List.cons.inj (hs.symm.trans hP)
    obtain ⟨rfl, hsh, hrun, hstack⟩ | ⟨rfl, hsh⟩ := hturn.of_between h hs hpc
    · refine .setState ⟨c', rest, by rw [hrun, hr], ?_⟩ ?_
      · rw [hstack, ← hr, Function.update_self]
      · rw [hsh, Shared.setProc_proc, Function.update_self]
    · refine .asleep ?_ ?_
      · rw [hsh, Shared.states_setState, Function.update_self]
      · rw [hsh, Shared.setState_proc, Function.update_self]
        exact hch rfl
  · obtain ⟨hrun, hstack, -, hproc⟩ := h.others ht hc
    have hheld : s.holder (.proc P) = some c' := by
      refine h.holder_of_mem ?_
      rw [hP]
      cases pc with
      | setChan | setState => exact Multiset.mem_add.mpr (.inl (Multiset.mem_singleton_self _))
      | _ => cases hpc
    have hfalls : s'.Falls P ch lk pc :=
      ⟨c', below, by rw [hrun, hr], by rw [← hr, hstack, hP]⟩
    cases pc with
    | setChan => exact .setChan hfalls
    | setState => exact .setState hfalls (by rw [hproc P hheld, hch rfl])
    | _ => cases hpc

omit [DecidableEq C] in
/-- A process whose condition lock another CPU has is dormant, if it waits. -/
theorem of_waits (hw : s.Waits P ch lk) (h : Sound s) (hok : s.SleepOk)
    (hheld : s.holder lk = some c)
    (hc : ∀ pc below, s.stack (s.running c) ≠ .sleep P ch lk pc :: below) : s.Dormant P ch lk := by
  obtain ⟨hst, hch⟩ | ⟨pc, hpc, hfalls⟩ := hw
  · exact .asleep hst hch
  obtain ⟨c', below, hr, hP⟩ := id hfalls
  rw [← hr] at hP
  have mine (hl : lk ∈ (Frame.sleep P ch lk pc).locks) : False := by
    have hmem : lk ∈ held (s.stack (s.running c')) := by
      rw [hP]
      exact Multiset.mem_add.mpr (.inl hl)
    obtain rfl := Option.some.inj (hheld.symm.trans (h.holder_of_mem hmem))
    exact hc pc below hP
  cases pc with
  | acquire => exact (mine (Multiset.mem_singleton_self _)).elim
  | releaseLk =>
    have hl : lk ∈ lk ::ₘ {Lock.proc P} := Multiset.mem_cons_self lk _
    exact (mine hl).elim
  | setChan => exact .setChan hfalls
  | setState => exact .setState hfalls ((hok c' _ below hP rfl).2 rfl)
  | _ => cases hpc

omit [DecidableEq C] in
theorem me_ne (hd : s.Dormant P ch lk) (h : Sound s) {ch' : Option (Chan n)} {pc : WakeupPc n}
    (hs : s.stack (s.running c) = .wakeup ch' pc :: rest) : s.me c ≠ some P := by
  intro hme
  have hr := h.me_eq hs (by rintro ⟨⟩) (by rintro ⟨⟩) P hme
  have htop : leavingTop (s.stack (.proc P)) = false := by rw [← hr, hs]; rfl
  obtain ⟨hst, -⟩ | ⟨pc', -, ⟨c', below, -, hP⟩, -⟩ := hd.cases_falls
  · cases (h.not_leaving hr htop).symm.trans hst
  · rw [← hr, hs] at hP
    cases hP

omit [DecidableEq C] in
theorem asleep_of_locked (hd : s.Dormant P ch lk) (h : Sound s) {ch' : Option (Chan n)}
    (hs : s.stack (s.running c) = .wakeup ch' (.test P) :: rest) :
    s.shared.states P = .sleeping ∧ (s.shared.proc P).chan = some ch := by
  obtain hasleep | ⟨pc, hpc, ⟨c', below, hr, hP⟩, -⟩ := hd.cases_falls
  · exact hasleep
  rw [← hr] at hP
  have hlock : Lock.proc P ∈ held (s.stack (s.running c)) := by
    rw [hs]
    exact Multiset.mem_add.mpr (.inl (Multiset.mem_singleton_self _))
  have hlock' : Lock.proc P ∈ held (s.stack (s.running c')) := by
    rw [hP]
    cases pc with
    | setChan | setState => exact Multiset.mem_add.mpr (.inl (Multiset.mem_singleton_self _))
    | _ => cases hpc
  obtain rfl := h.cpu_eq hlock hlock'
  cases hs.symm.trans hP

end State.Dormant

section Scan

omit [DecidableEq C] in
theorem State.Wakes.eq_frame {pc : WakeupPc n} (pre : List (Frame n)) (h : s.Wakes t ch rest pc)
    (hg : s.stack t = pre ++ g :: rest) : g = .wakeup (some ch) pc := by
  obtain ⟨pre', hpre'⟩ := h
  exact (List.cons.inj (List.append_inj_right' (hg.symm.trans hpre') rfl)).1

theorem wakeup_before {x : Ctx n} {a : Act n} {pc pc' : WakeupPc n}
    (ha : code x (.wakeup (some ch) pc) = a) (hnext : a.next = some (.wakeup (some ch) pc'))
    (hpc : pc.Before P) (hme : x.me ≠ some P)
    (htest : pc = .test P → x.shared.states P = .sleeping ∧ (x.shared.proc P).chan = some ch)
    (hne : (a.shared x.shared).states P ≠ .runnable) : pc'.Before P := by
  cases pc with
  | loop i =>
    have hi : i < n := Nat.lt_of_le_of_lt hpc P.isLt
    simp only [code, wakeup, dif_pos hi] at ha
    split at ha
    · subst ha
      cases hnext
      refine Nat.lt_of_le_of_ne hpc ?_
      rintro rfl
      exact hme ‹_›
    · subst ha
      cases hnext
      exact hpc
  | acquire j =>
    subst ha
    cases hnext
    exact hpc
  | test j =>
    have hlt (hj : j ≠ P) : j < P := lt_of_le_of_ne hpc hj
    simp only [code, wakeup] at ha
    split at ha
    · subst ha
      cases hnext
      apply hlt
      rintro rfl
      apply hne
      change (x.shared.setState j .runnable).states j = .runnable
      rw [Shared.states_setState, Function.update_self]
    · subst ha
      cases hnext
      apply hlt
      rintro rfl
      exact absurd (htest rfl) ‹_›
  | release j =>
    subst ha
    cases hnext
    exact Nat.succ_le_of_lt hpc
  | done => exact hpc.elim

theorem Turn.before {pc pc' : WakeupPc n} (h : Sound s) (hd : s.Dormant P ch lk)
    (hs : s.stack (s.running c) = f :: rest') (hturn : Turn nofile s c f rest' s' e)
    (hw : s.Wakes t ch rest pc) (hpc : pc.Before P) (hw' : s'.Wakes t ch rest pc')
    (hne : s'.shared.states P ≠ .runnable) : pc'.Before P := by
  obtain ⟨pre, hpre⟩ := id hw
  obtain ⟨pre', hpre'⟩ := hw'
  cases hturn.comes hs hpre' with
  | old hold =>
    cases hw.eq_frame _ hold
    exact hpc
  | @next x a ht ha hnext hsh hbelow =>
    subst ht hbelow
    obtain rfl := hw.eq_frame [] hs
    rw [hsh] at hne
    refine wakeup_before (x := s.ctx nofile c x) ha hnext hpc (hd.me_ne h hs) ?_ hne
    rintro rfl
    exact hd.asleep_of_locked h hs
  | call ht ha hbelow =>
    subst ht
    have hlen := congrArg List.length (hs.symm.trans hpre)
    rw [hbelow] at hlen
    simp only [List.length_cons, List.length_append] at hlen
    omega
  | @resume x v r ht ha hrest hawaits hsh hh =>
    subst ht
    rw [hrest] at hs
    obtain rfl := hw.eq_frame [f] hs
    cases hawaits.calls
  | other hh => obtain hh | ⟨_, hh⟩ | ⟨_, hh⟩ | ⟨_, hh⟩ | ⟨_, hh⟩ := hh <;> cases hh

end Scan

/-- No wakeup is missed: a call of `wakeup(chan)` by a CPU that has the condition lock `lk`, while a
process waits in `sleep(chan, lk)`, does not get to its return unless the process has been made
`RUNNABLE` since the call began. -/
theorem wakeup_not_missed {b : C} (hr : (kernel n nofile b).Reachable s) (hw : s.Waits P ch lk)
    (hheld : s.holder lk = some c)
    (hs : s.stack (s.running c) = .wakeup (some ch) (.loop 0) :: rest)
    (hpath : (kernel n nofile b).Path (fun u => u.shared.states P ≠ .runnable ∧
      ∃ pc, u.Wakes (s.running c) ch rest pc) s s') : ¬s'.Wakes (s.running c) ch rest .done := by
  have hd : s.Dormant P ch lk := by
    refine .of_waits hw (.of_reachable hr) (Sound.sleepOk_of_reachable hr) hheld fun pc below htop => ?_
    cases hs.symm.trans htop
  generalize ht : s.running c = t at *
  have hinv : (kernel n nofile b).Reachable s' ∧ s'.Dormant P ch lk ∧
      ∀ pc, s'.Wakes t ch rest pc → pc.Before P := by
    refine hpath.invariant (fun u => (kernel n nofile b).Reachable u ∧ u.Dormant P ch lk ∧
      ∀ pc, u.Wakes t ch rest pc → pc.Before P) ⟨hr, hd, fun pc hpc => ?_⟩ ?_
    · cases hpc.eq_frame [] hs
      exact Nat.zero_le _
    · rintro u l u' ⟨-, pc, hpc⟩ ⟨hr, hd, hbefore⟩ hstep ⟨hne, -⟩
      have h := Sound.of_reachable hr
      have htr : Transition nofile u l.1 u' := State.step_transition hstep
      obtain ⟨f, rest', e, hs, hturn⟩ := h.turn_transition htr
      exact ⟨hr.step hstep, hd.step h htr hs hturn hne, fun pc' hpc' =>
        hturn.before h hd hs hpc (hbefore pc hpc) hpc' hne⟩
  exact hinv.2.2 .done

def forkThenWakeup : List (Unit × Choice) :=
  forkThenWait ++ trapWith 2 7 0 :: steps 6 ++ ((), .ret 0) :: ((), .ret 0) :: steps 1 ++
    ((), .ret 0) :: ((), .ret 0) :: steps 1 ++ ((), .ret 0) :: ((), .ret 0) :: steps 8

set_option maxRecDepth 10000 in
theorem wakeup_not_missed_exit : ∃ s : State 2 Unit, (kernel 2 0 ()).Reachable s ∧
    s.Waits 0 (.proc 0) .waitLock ∧ ∃ t rest, s.Wakes t (.proc 0) rest (.test 0) ∧
      ¬s.Wakes t (.proc 0) rest .done := by
  have hrun : ∃ (s s₁ s₂ : State 2 Unit) (rest : List (Frame 2)),
      (kernel 2 0 ()).run (kernel 2 0 ()).init forkThenWakeup = some s ∧
      s.step 0 ((), .run) = some s₁ ∧ s₁.step 0 ((), .run) = some s₂ ∧
      (s.holder .waitLock = some () ∧
        s.stack (s.running ()) = .wakeup (some (.proc 0)) (.loop 0) :: rest ∧
        s₁.stack (s.running ()) = .wakeup (some (.proc 0)) (.acquire 0) :: rest ∧
        s₂.stack (s.running ()) = .wakeup (some (.proc 0)) (.test 0) :: rest) ∧
      (s.shared.proc 0).chan = some (.proc 0) ∧ (s₂.shared.proc 0).chan = some (.proc 0) ∧
      s.shared.states 0 = .sleeping ∧ s₁.shared.states 0 = .sleeping ∧
      s₂.shared.states 0 = .sleeping :=
    ⟨_, _, _, _, rfl, rfl, rfl, ⟨rfl, rfl, rfl, rfl⟩, rfl, rfl, rfl, rfl, rfl⟩
  obtain ⟨s, s₁, s₂, rest, hs, hstep, hstep', ⟨hheld, hstack, hstack₁, hstack₂⟩, hch, hch₂, hst, hst₁,
    hst₂⟩ := hrun
  have hr := System.reachable_of_run _ hs
  have awake {u : State 2 Unit} (hu : u.shared.states 0 = .sleeping) :
      u.shared.states 0 ≠ .runnable := by
    rw [hu]
    rintro ⟨⟩
  have hpath : (kernel 2 0 ()).Path (fun u => u.shared.states 0 ≠ .runnable ∧
      ∃ pc, u.Wakes (s.running ()) (.proc 0) rest pc) s s₂ :=
    .step (.step (.refl ⟨awake hst, _, [], hstack⟩) hstep ⟨awake hst₁, _, [], hstack₁⟩) hstep'
      ⟨awake hst₂, _, [], hstack₂⟩
  exact ⟨s₂, hpath.reachable hr, .inl ⟨hst₂, hch₂⟩, s.running (), rest, ⟨[], hstack₂⟩,
    wakeup_not_missed hr (.inl ⟨hst, hch⟩) hheld hstack hpath⟩

end MultithreadMayhem.Kernel
