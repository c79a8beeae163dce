import MultithreadMayhem.Kernel.Parents

/-!
# No exit notification is lost

While `wait_lock` is free, no parent sleeps in `kwait` beside a zombie child. A CPU
that has the lock may be on its way to wake such a parent; `Notified` says that it
then owes the wakeup, and that it has established what its frame claims.
-/

namespace MultithreadMayhem.Kernel

open Foundation

variable {n nofile : ℕ} {C : Type} [DecidableEq C] {s s' : State n C} {c c' : C}
  {f g : Frame n} {rest : List (Frame n)} {p P Z : Fin n}

structure Notified (s : State n C) : Prop where
  role : ∀ c f rest, s.holder .waitLock = some c → s.stack (s.running c) = f :: rest →
    f.Role s.shared s.Parking rest
  owed : ∀ P Z, s.Parking P → s.shared.parent Z = some P → (s.shared.proc Z).state = .zombie →
    ∃ c f rest, s.holder .waitLock = some c ∧ s.stack (s.running c) = f :: rest ∧
      f.Owes s.shared P

namespace Sound

theorem passes (h : Sound s) (h' : Sound s') (hok : s.SleepOk) (ht : Transition nofile s c s')
    (hs : s.stack (s.running c) = f :: rest) (hadv : Advance nofile s c f rest s')
    {x : Choice} {a : Act n} (ha : code (s.ctx nofile c x) f = a)
    (hsh : s'.shared = a.shared s.shared) : f.Passes s'.Parking a := by
  cases f with
  | wakeup ch pc =>
    intro ch' pc' P hnext hch hpc
    -- No process parks while this CPU executes `wakeup`.
    have old (hP : s'.Parking P) : s.Parking P := by
      obtain hP | ⟨⟨ch, hf⟩, -⟩ := h.parking_of h' hok ht hs hadv hP
      · exact hP
      · cases hf
    have hch' : ch' = ch := by
      obtain rfl | ⟨pc'', ⟨q, ha'⟩ | ⟨q, ha'⟩ | ⟨sh, -, ha'⟩⟩ :=
        wakeup_next (s.ctx nofile c x) ch pc
      · subst ha
        cases hnext
      · cases ha'.symm.trans ha
        cases hnext
        rfl
      · cases ha'.symm.trans ha
        cases hnext
        rfl
      · cases ha'.symm.trans ha
        cases hnext
        rfl
    subst ch'
    obtain hpc | hme | ⟨rfl, hawake⟩ := wakeup_passed ha hnext hch hpc
    · exact .inl hpc
    · have hr : s.running c = .proc P := h.me_eq hs nofun nofun P hme
      exact .inr fun hP => h.not_parking hr hs rfl rfl (old hP)
    · refine .inr fun hP => ?_
      obtain hP | hw := hP
      · rw [hsh] at hP
        exact hawake hP
      · -- The process would hold its own lock, which this CPU holds.
        have hlocked : Lock.proc P ∈ held (s.stack (s.running c)) := by
          rw [hs]
          exact Multiset.mem_add.mpr (.inl (Multiset.mem_singleton_self _))
        obtain hw | ⟨⟨ch, hf⟩, -⟩ := h.window_of h' hok ht hs hadv hw
        · obtain ⟨c', g, rest', -, hg, hparks, hlocked'⟩ := h.locked_of_window hw
          obtain rfl := h.cpu_eq hlocked hlocked'
          cases hs.symm.trans hg
          cases hparks
        · cases hf
  | _ => trivial

end Sound

namespace Notified

theorem role_self (hn : Notified s) (h : Sound s) (h' : Sound s') (hok : s.SleepOk)
    (ht : Transition nofile s c s') (hs : s.stack (s.running c) = f :: rest)
    (hadv : Advance nofile s c f rest s') (hc : s'.holder .waitLock = some c)
    {rest' : List (Frame n)} (hg : s'.stack (s'.running c) = g :: rest') :
    g.Role s'.shared s'.Parking rest' := by
  have old (P : Fin n) (hP : s'.Parking P) : s.Parking P := by
    obtain hP | ⟨-, -, hfree, -⟩ := h.parking_of h' hok ht hs hadv hP
    · exact hP
    · cases hc.symm.trans hfree
  have role (hw : s.holder .waitLock = some c) : f.Role s.shared s'.Parking rest :=
    (hn.role c f rest hw hs).mono (fun _ _ hz => hz) (fun _ _ hp => hp) old
  have keeps {x : Choice} {a : Act n} (hw : s.holder .waitLock = some c)
      (ha : code (s.ctx nofile c x) f = a) (hsh : s'.shared = a.shared s.shared) :
      a.Keeps s.shared s'.Parking rest := by
    subst ha
    exact code_keeps (role hw) (h.passes h' hok ht hs hadv rfl hsh)
  cases hadv with
  | @acquire x l g ha hstack hholder hsh =>
    cases hg.symm.trans hstack
    by_cases hl : Lock.waitLock = l
    · subst hl
      exact acquire_role ha
    · rw [hholder, Function.update_of_ne hl] at hc
      rw [hsh]
      exact keeps hc ha hsh
  | @release x l g ha hstack hholder hsh =>
    cases hg.symm.trans hstack
    by_cases hl : Lock.waitLock = l
    · rw [hholder, hl, Function.update_self] at hc
      cases hc
    · rw [hholder, Function.update_of_ne hl] at hc
      rw [hsh]
      exact keeps hc ha hsh
  | @exec x g ha hstack hholder =>
    cases hg.symm.trans hstack
    exact keeps (hholder ▸ hc) ha rfl
  | @call x g callee ha hstack hholder hsh =>
    cases hg.symm.trans hstack
    rw [hsh]
    exact keeps (hholder ▸ hc) ha hsh
  | @ret x v g rest ha hrest hawaits hstack hholder hsh =>
    subst hrest
    cases hg.symm.trans hstack
    rw [hsh]
    exact ret_role (role (hholder ▸ hc)) hawaits ha
  | iret hheld hstack hholder hsh =>
    have hmem := (h'.holder _ c).mp hc
    rw [hstack, hheld] at hmem
    cases hmem
  | switch hf hgi hstack hholder hsh =>
    cases hg.symm.trans hstack
    exact Frame.role_of_inert hgi
  | panic ha hstack hholder hsh =>
    cases hg.symm.trans hstack
    trivial
  | interrupt hi hstack hholder hsh =>
    cases hg.symm.trans hstack
    trivial

theorem role_transition (hn : Notified s) (h : Sound s) (h' : Sound s') (hok : s.SleepOk)
    (ht : Transition nofile s c s') (hc' : s'.holder .waitLock = some c')
    (hg : s'.stack (s'.running c') = g :: rest) : g.Role s'.shared s'.Parking rest := by
  obtain ⟨f, rest₀, hs, hadv⟩ := h.advance ht
  by_cases hc : c' = c
  · subst c'
    exact hn.role_self h h' hok ht hs hadv hc' hg
  · obtain ⟨hrunning, hstack, hholder, -⟩ := h.others ht hc
    rw [hrunning, hstack] at hg
    have hw := (hholder _).mp hc'
    -- Another CPU has `wait_lock`, so this one changes nothing in a family and parks nobody.
    have hother : s.holder .waitLock ≠ some c := fun heq => hc (Option.some.inj (hw.symm.trans heq))
    have hcalm : Calm s.shared s'.shared := by
      obtain hquiet | ⟨x, g₀, ha, -⟩ := hadv.quiet_or_exec
      · exact ⟨hquiet.zombie, hquiet.parent⟩
      · obtain hcalm | hfamily := (code_deed ha).family
        · exact hcalm
        · have hstk := h.stack (s.running c)
          rw [hs] at hstk
          refine absurd (h.holder_of_mem ?_) hother
          rw [hs]
          exact hfamily.locked hstk
    refine (hn.role c' g rest hw hg).mono hcalm.noZombie hcalm.parent fun P hP => ?_
    obtain hP | ⟨-, hmine, -⟩ := h.parking_of h' hok ht hs hadv hP
    · exact hP
    · exact absurd hmine hother

theorem owes_self (h : Sound s) (h' : Sound s') (hok : s.SleepOk) (ht : Transition nofile s c s')
    (hs : s.stack (s.running c) = f :: rest) (hadv : Advance nofile s c f rest s')
    (hw : s.holder .waitLock = some c) (hf : f.Owes s.shared P) (hP : s'.Parking P) :
    ∃ g rest', s'.holder .waitLock = some c ∧ s'.stack (s'.running c) = g :: rest' ∧
      g.Owes s'.shared P := by
  have owes {x : Choice} {a : Act n} (ha : code (s.ctx nofile c x) f = a)
      (hsh : s'.shared = a.shared s.shared) : a.Owes s.shared P := by
    subst ha
    exact code_owes hf (h.passes h' hok ht hs hadv rfl hsh) hP
  have hrest : Lock.waitLock ∈ held rest := by
    have hmem := (h.holder _ c).mp hw
    rw [hs] at hmem
    exact (Multiset.mem_add.mp hmem).resolve_left hf.not_locked
  have holds {g : Frame n} (hstack : s'.stack (s'.running c) = g :: rest) :
      s'.holder .waitLock = some c := by
    refine h'.holder_of_mem ?_
    rw [hstack]
    exact Multiset.mem_add.mpr (.inr hrest)
  cases hadv with
  | @acquire x l g ha hstack hholder hsh =>
    refine ⟨g, rest, holds hstack, hstack, ?_⟩
    rw [hsh]
    exact owes ha hsh
  | @release x l g ha hstack hholder hsh =>
    refine ⟨g, rest, holds hstack, hstack, ?_⟩
    rw [hsh]
    exact owes ha hsh
  | @exec x g ha hstack hholder => exact ⟨g, rest, holds hstack, hstack, owes ha rfl⟩
  | @call x g callee ha hstack hholder hsh =>
    refine ⟨callee, g :: rest, hholder ▸ hw, hstack, ?_⟩
    rw [hsh]
    exact owes ha hsh
  | ret ha hrest hawaits hstack hholder hsh => exact (owes ha hsh).elim
  | iret hheld hstack hholder hsh =>
    have hmem := (h'.holder _ c).mp (hholder ▸ hw)
    rw [hstack, hheld] at hmem
    cases hmem
  | switch hfi => cases hf.not_inert.symm.trans hfi
  | panic ha =>
    obtain ⟨m, ha⟩ | ⟨k, g, ha⟩ := ha
    · exact absurd ha ((not_panic_of_owes hf).1 m)
    · exact absurd ha ((not_panic_of_owes hf).2 k g)
  | interrupt hi hstack hholder hsh =>
    have hcard := h.noff c
    rw [hi] at hcard
    have hmem := (h.holder _ c).mp hw
    rw [Multiset.card_eq_zero.mp hcard.symm] at hmem
    cases hmem

omit [DecidableEq C] in
theorem not_parking_self (h : Sound s) {pc : KforkPc n}
    (hs : s.stack (s.running c) = .kfork p pc :: rest) : ¬s.Parking p := by
  have hok := h.stack (s.running c)
  rw [hs] at hok
  exact h.not_parking hok.on hs rfl rfl

theorem owed_calm (hn : Notified s) (h : Sound s) (h' : Sound s') (hb : Booted s)
    (hok : s.SleepOk) (ht : Transition nofile s c s') (hs : s.stack (s.running c) = f :: rest)
    (hadv : Advance nofile s c f rest s') (hcalm : Calm s.shared s'.shared) (hP : s'.Parking P)
    (hold : s.Parking P) (hZ : s'.shared.parent Z = some P)
    (hst : (s'.shared.proc Z).state = .zombie) :
    ∃ c f rest, s'.holder .waitLock = some c ∧ s'.stack (s'.running c) = f :: rest ∧
      f.Owes s'.shared P := by
  obtain ⟨c', f', rest', hw, hs', howes⟩ :=
    hn.owed P Z hold (hcalm.parent Z P hZ) (hcalm.zombie Z hst)
  by_cases hc : c' = c
  · subst c'
    cases hs.symm.trans hs'
    obtain ⟨g, rest', hg⟩ := owes_self h h' hok ht hs hadv hw howes hP
    exact ⟨c, g, rest', hg⟩
  · obtain ⟨hrunning, hstack, hholder, -⟩ := h.others ht hc
    refine ⟨c', f', rest', (hholder _).mpr hw, ?_, howes.mono fun hfn => ?_⟩
    · rw [hrunning, hstack, hs']
    · obtain hquiet | ⟨x, g, ha, -⟩ := hadv.quiet_or_exec
      · exact hquiet.initproc
      · obtain hsame | ⟨p, rfl⟩ := (code_deed ha).initproc_eq
        · exact hsame
        · -- `initproc` is set while no process runs, so none executes `reparent`.
          exfalso
          have hok' := h.stack (s.running c')
          rw [hs'] at hok'
          cases f' with
          | reparent q pc => exact hb.not_userinit h hs c' q hok'.on
          | wakeup ch pc => exact hfn rfl
          | _ => exact howes.elim

theorem owed_transition (hn : Notified s) (h : Sound s) (h' : Sound s') (hb : Booted s)
    (hok : s.SleepOk) (ht : Transition nofile s c s') (hP : s'.Parking P)
    (hZ : s'.shared.parent Z = some P) (hst : (s'.shared.proc Z).state = .zombie) :
    ∃ c f rest, s'.holder .waitLock = some c ∧ s'.stack (s'.running c) = f :: rest ∧
      f.Owes s'.shared P := by
  obtain ⟨f, rest, hs, hadv⟩ := h.advance ht
  have hstk := h.stack (s.running c)
  rw [hs] at hstk
  obtain hold | ⟨⟨ch, rfl⟩, hw, -, hsh⟩ := h.parking_of h' hok ht hs hadv hP
  · obtain hquiet | ⟨x, g, ha, hstack, hholder⟩ := hadv.quiet_or_exec
    · exact hn.owed_calm h h' hb hok ht hs hadv ⟨hquiet.zombie, hquiet.parent⟩ hP hold hZ hst
    obtain hcalm | hfamily := (code_deed ha).family
    · exact hn.owed_calm h h' hb hok ht hs hadv hcalm hP hold hZ hst
    have hw : s.holder .waitLock = some c := by
      refine h.holder_of_mem ?_
      rw [hs]
      exact hfamily.locked hstk
    -- This CPU has `wait_lock`, and its frame owed no wakeup so far.
    have none_owed (hZ : s.shared.parent Z = some P) (hst : (s.shared.proc Z).state = .zombie)
        (hf : ¬f.Owes s.shared P) : False := by
      obtain ⟨c', f', rest', hw', hs', howes⟩ := hn.owed P Z hold hZ hst
      obtain rfl := Option.some.inj (hw'.symm.trans hw)
      cases hs.symm.trans hs'
      exact hf howes
    have hnew : s'.holder .waitLock = some c := hholder ▸ hw
    have hrole := hn.role c f rest hw hs
    generalize s'.shared = sh' at *
    cases hfamily with
    | @exit p status hsh =>
      subst hsh
      exfalso
      by_cases hp : Z = p
      · subst p
        exact hrole rfl P hZ hold
      · rw [Shared.setState_proc, Function.update_of_ne hp] at hst
        exact none_owed hZ hst id
    | @fork p np pid hsh =>
      subst hsh
      exfalso
      rw [Shared.setParent_parent] at hZ
      by_cases hp : Z = np
      · subst np
        rw [Function.update_self] at hZ
        cases hZ
        exact not_parking_self h hs hold
      · rw [Function.update_of_ne hp] at hZ
        exact none_owed hZ hst id
    | @reparent p pp hsh =>
      subst hsh
      rw [Shared.setParent_parent] at hZ
      by_cases hp : Z = pp
      · subst pp
        rw [Function.update_self] at hZ
        exact ⟨c, _, rest, hnew, hstack, hZ⟩
      · rw [Function.update_of_ne hp] at hZ
        exact (none_owed hZ hst id).elim
  · -- The parent falls asleep, and its scan has found no zombie.
    exfalso
    rw [hsh] at hZ hst
    cases rest with
    | nil => obtain hf | ⟨q, hf⟩ := hstk.1 <;> cases hf
    | cons r rest =>
      obtain hi | hp | hawaits := hstk.1
      · cases hi
      · cases hp
      · obtain ⟨addr, rfl⟩ := hawaits.of_sleep
        exact hn.role c _ _ hw hs rfl P addr _ rest rfl Z Z.isLt hZ hst

theorem boot (b : C) : Notified (State.boot b : State n C) where
  role := by
    intro c f rest hc
    cases hc
  owed := by
    intro P Z _ hZ
    cases hZ

theorem of_reachable {b : C} (hs : (kernel n nofile b).Reachable s) : Notified s := by
  refine hs.invariant Notified (boot b) fun s l s' hr hn ht => ?_
  have h := Sound.of_reachable hr
  have hok := Sound.sleepOk_of_reachable hr
  have htr := State.step_transition ht
  exact ⟨fun c f rest => hn.role_transition h (h.step ht) hok htr,
    fun P Z => hn.owed_transition h (h.step ht) (Booted.of_reachable hr) hok htr⟩

end Notified

/-- While `wait_lock` is free, no process that sleeps on its own address has a zombie child. -/
theorem exit_noticed_of_reachable {b : C} (hs : (kernel n nofile b).Reachable s)
    (hw : s.holder .waitLock = none) (hst : (s.shared.proc P).state = .sleeping)
    (hch : (s.shared.proc P).chan = some (.proc P)) (hZ : s.shared.parent Z = some P) :
    (s.shared.proc Z).state ≠ .zombie := by
  intro hzombie
  obtain ⟨c, f, rest, hc, -⟩ := (Notified.of_reachable hs).owed P Z (.inl ⟨hst, hch⟩) hZ hzombie
  cases hw.symm.trans hc

def forkThenWait : List (Unit × Choice) :=
  steps 14 ++ ((), .alloc 0) :: steps 23 ++ ((), .ret 0) :: steps 3 ++ ((), .ret 0) :: steps 4 ++
    trapWith 1 0 0 :: steps 20 ++ ((), .alloc 0) :: steps 20 ++ trapWith 3 0 0 :: steps 44

theorem exit_noticed_of_reachable_waiting : ∃ s : State 2 Unit, (kernel 2 0 ()).Reachable s ∧
    (s.shared.proc 0).state = .sleeping ∧ s.shared.parent 1 = some 0 ∧
    (s.shared.proc 1).state ≠ .zombie := by
  have hrun : ((kernel 2 0 ()).run (kernel 2 0 ()).init forkThenWait).any fun s =>
      decide (s.holder .waitLock = none) && (decide ((s.shared.proc 0).state = .sleeping) &&
        (decide ((s.shared.proc 0).chan = some (.proc 0)) &&
          decide (s.shared.parent 1 = some 0))) := by
    decide +kernel
  obtain ⟨s, hs, hrun⟩ := (Option.any_eq_true _ _).mp hrun
  obtain ⟨hw, hrun⟩ := Bool.and_eq_true_iff.mp hrun
  obtain ⟨hst, hrun⟩ := Bool.and_eq_true_iff.mp hrun
  obtain ⟨hch, hZ⟩ := Bool.and_eq_true_iff.mp hrun
  have hr := System.reachable_of_run _ hs
  exact ⟨s, hr, of_decide_eq_true hst, of_decide_eq_true hZ,
    exit_noticed_of_reachable hr (of_decide_eq_true hw) (of_decide_eq_true hst)
      (of_decide_eq_true hch) (of_decide_eq_true hZ)⟩

end MultithreadMayhem.Kernel
