import MultithreadMayhem.RwLock.Exclusion

/-!
# No wakeup is lost in the readers-writers lock

When nobody is active but a writer is registered, some thread attends to the
writers: a registered writer that is not parked, or a thread that is about to
decide whether to signal. A parked reader is attended to by an active or a
registered writer, or by a thread that is about to broadcast.
-/

namespace MultithreadMayhem.RwLock

open Foundation Pthread

variable {T D K : Type}

/-- The thread will enter as a writer, park as one because somebody is active, or signal a writer. -/
def attendsWriters : Status Cv (Pc K) → Bool
  | .woken (.writerLockTest _) => true
  | .running (.writerLockTest _) | .running (.writerLockDeregister _)
  | .running (.writerLockCount _) | .running (.readerUnlockTest _)
  | .running (.readerUnlockSignal _) | .running (.writerUnlockTest _)
  | .running (.writerUnlockSignal _) => true
  | _ => false

/-- The thread becomes an active writer, or it will wake the readers if no writer is registered. -/
def attendsReaders : Status Cv (Pc K) → Bool
  | .running (.writerLockCount _) | .running (.writerUnlockTest _)
  | .running (.writerUnlockBroadcast _) => true
  | _ => false

structure Attended (s : State T (Shared D) Cv (Pc K)) : Prop where
  writers : s.shared.activeReaders = 0 → s.shared.activeWriters = 0 → 0 < s.shared.waitingWriters →
    ∃ t, attendsWriters (s.status t) = true
  readers : ∀ r, (s.status r).waitsOn .readCv = true → 0 < s.shared.activeWriters ∨
    0 < s.shared.waitingWriters ∨ ∃ t, attendsReaders (s.status t) = true

/-- A step of one thread from `st` to `st'` that neglects nobody. -/
structure Attends (x y : Shared D) (st st' : Status Cv (Pc K)) : Prop where
  writers : attendsWriters st' = true ∨ (0 < y.activeReaders ∨ 0 < y.activeWriters ∨
    y.waitingWriters ≤ 0) ∨ (attendsWriters st = false ∧ y.activeReaders = x.activeReaders ∧
      y.activeWriters = x.activeWriters ∧ y.waitingWriters = x.waitingWriters)
  readers : attendsReaders st' = true ∨ (0 < y.activeWriters ∨ 0 < y.waitingWriters) ∨
    (attendsReaders st = false ∧ st'.waitsOn .readCv = false ∧
      y.activeWriters = x.activeWriters ∧ y.waitingWriters = x.waitingWriters)

def Pc.signals : Pc K → Bool
  | .readerUnlockSignal _ | .writerUnlockSignal _ | .writerUnlockBroadcast _ => true
  | _ => false

theorem code_attends (client : Client T D K) (t : T) (pc : Pc K) (x : Shared D)
    (hr : 0 ≤ x.activeReaders) (hw : 0 ≤ x.activeWriters) (hww : 0 ≤ x.waitingWriters)
    (hsig : pc.signals = false) :
    (code client t pc x).Leads (Attends x · (.running pc) ·) x := by
  have quiet {next : Pc K} (ha : attendsWriters (.running pc) = false)
      (hb : attendsReaders (.running pc) = false) (y : Shared D)
      (hy : y.activeReaders = x.activeReaders ∧ y.activeWriters = x.activeWriters ∧
        y.waitingWriters = x.waitingWriters) : Attends x y (.running pc) (.running next) :=
    ⟨.inr (.inr ⟨ha, hy⟩), .inr (.inr ⟨hb, rfl, hy.2⟩)⟩
  cases pc with
  | client h k =>
    simp only [code]
    cases client t h k x.data with
    | finish => trivial
    | _ => exact quiet rfl rfl _ ⟨rfl, rfl, rfl⟩
  | readerLockTest k =>
    by_cases hwait : x.activeWriters > 0 ∨ x.waitingWriters > 0
    · simp only [code, readerLock, if_pos hwait]
      exact ⟨.inr (.inr ⟨rfl, rfl, rfl, rfl⟩), .inr (.inl hwait)⟩
    · simp only [code, readerLock, if_neg hwait]
      exact quiet rfl rfl _ ⟨rfl, rfl, rfl⟩
  | readerLockCount k =>
    exact ⟨.inr (.inl (.inl (show 0 < x.activeReaders + 1 by omega))),
      .inr (.inr ⟨rfl, rfl, rfl, rfl⟩)⟩
  | readerUnlockCount k => exact ⟨.inl rfl, .inr (.inr ⟨rfl, rfl, rfl, rfl⟩)⟩
  | readerUnlockTest k =>
    by_cases hlast : x.activeReaders = 0
    · simp only [code, readerUnlock, if_pos hlast]
      exact ⟨.inl rfl, .inr (.inr ⟨rfl, rfl, rfl, rfl⟩)⟩
    · simp only [code, readerUnlock, if_neg hlast]
      exact ⟨.inr (.inl (.inl (show 0 < x.activeReaders by omega))),
        .inr (.inr ⟨rfl, rfl, rfl, rfl⟩)⟩
  | writerLockRegister k =>
    exact ⟨.inl rfl, .inr (.inl (.inr (show 0 < x.waitingWriters + 1 by omega)))⟩
  | writerLockTest k =>
    by_cases hwait : x.activeReaders > 0 ∨ x.activeWriters > 0
    · simp only [code, writerLock, if_pos hwait]
      exact ⟨.inr (.inl (by omega)), .inr (.inr ⟨rfl, rfl, rfl, rfl⟩)⟩
    · simp only [code, writerLock, if_neg hwait]
      exact ⟨.inl rfl, .inr (.inr ⟨rfl, rfl, rfl, rfl⟩)⟩
  | writerLockDeregister k => exact ⟨.inl rfl, .inl rfl⟩
  | writerLockCount k =>
    have hpos : 0 < x.activeWriters + 1 := by omega
    exact ⟨.inr (.inl (.inr (.inl hpos))), .inr (.inl (.inl hpos))⟩
  | writerUnlockCount k => exact ⟨.inl rfl, .inl rfl⟩
  | writerUnlockTest k =>
    by_cases hnext : x.waitingWriters > 0
    · simp only [code, writerUnlock, if_pos hnext]
      exact ⟨.inl rfl, .inr (.inl (.inr hnext))⟩
    · simp only [code, writerUnlock, if_neg hnext]
      exact ⟨.inr (.inl (.inr (.inr (show x.waitingWriters ≤ 0 by omega)))), .inl rfl⟩
  | readerUnlockSignal | writerUnlockSignal | writerUnlockBroadcast => cases hsig
  | _ => exact quiet rfl rfl _ ⟨rfl, rfl, rfl⟩

/-- A writer broadcasts only when no writer is registered. -/
def BroadcastsAlone (x : Shared D) : Option (Pc K) → Prop
  | some (.writerUnlockBroadcast _) => x.waitingWriters ≤ 0
  | _ => True

theorem broadcastsAlone_rule (client : Client T D K) :
    MonitorRule (code client) Pc.inside BroadcastsAlone := by
  intro t pc x
  cases pc with
  | client h k =>
    simp only [code]
    cases client t h k x.data with
    | step d k =>
      refine fun h hx => ?_
      cases h with
      | none => trivial
      | some pc => cases pc <;> exact hx
    | finish => trivial
    | _ => exact fun _ hx => hx
  | readerLockTest k =>
    simp only [code, readerLock]
    split
    · exact ⟨id, fun _ => id⟩
    · exact id
  | readerUnlockTest k =>
    simp only [code, readerUnlock]
    split <;> exact id
  | writerLockTest k =>
    simp only [code, writerLock]
    split
    · exact ⟨id, fun _ => id⟩
    · exact id
  | writerUnlockTest k =>
    simp only [code, writerUnlock]
    split
    · exact id
    · exact fun _ => show x.waitingWriters ≤ 0 by omega
  | readerUnlockSignal | writerUnlockSignal | writerUnlockBroadcast => exact fun _ _ => trivial
  | _ => exact fun _ => trivial

section Inversion

variable {client : Client T D K} {t : T} {pc next : Pc K} {x : Shared D} {cv : Cv}

theorem signal_eq (hc : code client t pc x = .signal cv next) :
    cv = .writeCv ∧ ∃ k, (pc = .readerUnlockSignal k ∧ next = .readerUnlockUnlock k) ∨
      (pc = .writerUnlockSignal k ∧ next = .writerUnlockUnlock k) := by
  cases pc <;> simp only [code, readerLock, readerUnlock, writerLock, writerUnlock] at hc
  case client h k => cases hk : client t h k x.data <;> rw [hk] at hc <;> cases hc
  case readerUnlockSignal k =>
    cases hc
    exact ⟨rfl, k, .inl ⟨rfl, rfl⟩⟩
  case writerUnlockSignal k =>
    cases hc
    exact ⟨rfl, k, .inr ⟨rfl, rfl⟩⟩
  all_goals first | cases hc | (split at hc <;> cases hc)

theorem broadcast_eq (hc : code client t pc x = .broadcast cv next) :
    cv = .readCv ∧ ∃ k, pc = .writerUnlockBroadcast k ∧ next = .writerUnlockUnlock k := by
  cases pc <;> simp only [code, readerLock, readerUnlock, writerLock, writerUnlock] at hc
  case client h k => cases hk : client t h k x.data <;> rw [hk] at hc <;> cases hc
  case writerUnlockBroadcast k =>
    cases hc
    exact ⟨rfl, k, rfl, rfl⟩
  all_goals first | cases hc | (split at hc <;> cases hc)

theorem signals_false {a : Act (Shared D) Cv (Pc K)} (hc : code client t pc x = a)
    (hs : ∀ cv next, a ≠ .signal cv next) (hb : ∀ cv next, a ≠ .broadcast cv next) :
    pc.signals = false := by
  cases pc with
  | readerUnlockSignal k => exact absurd hc.symm (hs _ _)
  | writerUnlockSignal k => exact absurd hc.symm (hs _ _)
  | writerUnlockBroadcast k => exact absurd hc.symm (hb _ _)
  | _ => rfl

end Inversion

namespace Attended

variable [DecidableEq T] {s s' : State T (Shared D) Cv (Pc K)}

theorem move (h : Attended s) (t : T) {st : Status Cv (Pc K)} {y : Shared D} {m : Option T}
    (ha : Attends s.shared y (s.status t) st) :
    Attended { shared := y, mutex := m, status := Function.update s.status t st } := by
  -- A thread other than `t`, or one that attends to nothing before the step, attends as before.
  have keep {P : Status Cv (Pc K) → Bool} (ht : P (s.status t) = false)
      (hex : ∃ u, P (s.status u) = true) : ∃ u, P (Function.update s.status t st u) = true := by
    obtain ⟨u, hu⟩ := hex
    have hne : u ≠ t := by
      rintro rfl
      rw [ht] at hu
      cases hu
    exact ⟨u, by rwa [Function.update_of_ne hne]⟩
  constructor
  · intro hr hw hww
    obtain hnew | hbusy | ⟨hold, er, ew, eww⟩ := ha.writers
    · exact ⟨t, by simpa using hnew⟩
    · change y.activeReaders = 0 at hr
      change y.activeWriters = 0 at hw
      change 0 < y.waitingWriters at hww
      omega
    · exact keep hold (h.writers (er ▸ hr) (ew ▸ hw) (eww ▸ hww))
  · intro r hpark
    obtain hnew | hbusy | ⟨hold, hst, ew, eww⟩ := ha.readers
    · exact .inr (.inr ⟨t, by simpa using hnew⟩)
    · exact hbusy.imp_right .inl
    · have hne : r ≠ t := by
        rintro rfl
        simp only [Function.update_self, hst] at hpark
        cases hpark
      simp only [Function.update_of_ne hne] at hpark
      obtain hw | hww | hex := h.readers r hpark
      · exact .inl (ew ▸ hw)
      · exact .inr (.inl (eww ▸ hww))
      · exact .inr (.inr (keep hold hex))

theorem signalled (h : Attended s) {t : T} {pc next : Pc K} (hs : s.status t = .running pc)
    (hread : attendsReaders (.running pc) = false)
    (hawake : 0 < s.shared.waitingWriters → ∃ u, u ≠ t ∧ attendsWriters (s.status u) = true) :
    Attended (s.goto t next) := by
  constructor
  · intro _ _ hww
    obtain ⟨u, hne, hu⟩ := hawake hww
    exact ⟨u, by rwa [State.goto_status, Function.update_of_ne hne]⟩
  · intro r hpark
    have hne : r ≠ t := by
      rintro rfl
      rw [State.goto_status, Function.update_self] at hpark
      cases hpark
    rw [State.goto_status, Function.update_of_ne hne] at hpark
    obtain hw | hww | ⟨u, hu⟩ := h.readers r hpark
    · exact .inl hw
    · exact .inr (.inl hww)
    · have hut : u ≠ t := by
        rintro rfl
        rw [hs, hread] at hu
        cases hu
      exact .inr (.inr ⟨u, by rwa [State.goto_status, Function.update_of_ne hut]⟩)

theorem woken {x : Shared D} {cv : Cv} {pc : Pc K} : Attends x x (.parked cv pc) (.woken pc) :=
  ⟨.inr (.inr ⟨rfl, rfl, rfl, rfl⟩), .inr (.inr ⟨rfl, rfl, rfl, rfl⟩)⟩

variable [Fintype T]

theorem transition {client : Client T D K} {d : D} {start : T → K} {l : Label T}
    (hreach : (rwSystem client d start).Reachable s) (h : Attended s)
    (ht : Transition (code client) s l s') : Attended s' := by
  have hg := reachable_rwGuarded hreach
  have hr : 0 ≤ s.shared.activeReaders := by
    rw [reachable_activeReaders hreach]
    exact Int.natCast_nonneg _
  have hw : 0 ≤ s.shared.activeWriters := by
    rw [reachable_activeWriters hreach]
    exact Int.natCast_nonneg _
  have hwaiting := reachable_waitingWriters hreach
  have hww : 0 ≤ s.shared.waitingWriters := by
    rw [hwaiting]
    exact Int.natCast_nonneg _
  have attends {t : T} {pc : Pc K} {a : Act (Shared D) Cv (Pc K)} (hs : s.status t = .running pc)
      (hc : code client t pc s.shared = a) (hsig : pc.signals = false) :
      a.Leads (Attends s.shared · (s.status t) ·) s.shared := by
    rw [hs, ← hc]
    exact code_attends client t pc s.shared hr hw hww hsig
  cases ht with
  | @lock t pc next hs hc hm =>
    exact h.move t (attends hs hc (signals_false hc nofun nofun))
  | @unlock t pc next hs hc hm =>
    exact h.move t (attends hs hc (signals_false hc nofun nofun))
  | @wait t pc next cv hs hc hm =>
    exact h.move t (attends hs hc (signals_false hc nofun nofun))
  | @exec t pc next y hs hc =>
    exact h.move t (attends hs hc (signals_false hc nofun nofun))
  | @signalNone t pc next cv hs hc hn =>
    obtain ⟨rfl, k, hpc⟩ := signal_eq hc
    refine h.signalled hs (by obtain ⟨rfl, _⟩ | ⟨rfl, _⟩ := hpc <;> rfl) fun hpos => ?_
    rw [hwaiting] at hpos
    obtain ⟨u, hu⟩ := countThreads_pos_iff.mp (Int.natCast_pos.mp hpos)
    refine ⟨u, ?_, ?_⟩
    · rintro rfl
      rw [hs] at hu
      obtain ⟨rfl, _⟩ | ⟨rfl, _⟩ := hpc <;> cases hu
    · -- Nobody is parked on `write_cv`, so the registered writer `u` is awake.
      cases hst : s.status u with
      | running q =>
        rw [hst] at hu
        cases q <;> first | rfl | cases hu
      | woken q =>
        rw [hst] at hu
        cases q <;> first | rfl | cases hu
      | parked cv q =>
        obtain ⟨_, _, _, hwait⟩ := hg.parked_resumes hst
        obtain ⟨_, ⟨k', rfl, rfl⟩, _⟩ | ⟨rfl, _⟩ := wait_eq hwait
        · rw [hst] at hu
          cases hu
        · have := hn u
          rw [hst] at this
          cases this
  | @signalWake t w pc next pc' cv hs hc hw =>
    obtain ⟨rfl, k, hpc⟩ := signal_eq hc
    have hne : w ≠ t := by
      rintro rfl
      rw [hs] at hw
      cases hw
    have hawake : Attended { s with status := Function.update s.status w (.woken pc') } :=
      h.move w (hw ▸ woken)
    have hst : Function.update s.status w (.woken pc') t = .running pc := by
      rw [Function.update_of_ne hne.symm, hs]
    refine hawake.signalled hst (by obtain ⟨rfl, _⟩ | ⟨rfl, _⟩ := hpc <;> rfl)
      fun _ => ⟨w, hne, ?_⟩
    obtain ⟨_, _, _, hwait⟩ := hg.parked_resumes hw
    obtain ⟨hcv, _⟩ | ⟨_, ⟨k', rfl, rfl⟩, _⟩ := wait_eq hwait
    · cases hcv
    · change attendsWriters (Function.update s.status w (.woken (.writerLockTest k')) w) = true
      rw [Function.update_self]
      rfl
  | @broadcast t pc next cv hs hc =>
    obtain ⟨rfl, k, rfl, rfl⟩ := broadcast_eq hc
    have hm := (hg.holder t).mpr ⟨_, hs, rfl⟩
    have halone : s.shared.waitingWriters ≤ 0 :=
      (MonitorRule.reachable (code_disciplined client) (broadcastsAlone_rule client)
        (fun _ => rfl) trivial hreach).held t _ hm hs
    constructor
    · intro _ _ hpos
      exact absurd hpos (not_lt.mpr halone)
    · intro r hpark
      obtain ⟨pc', hst⟩ := Status.waitsOn_iff.mp hpark
      by_cases hrt : r = t
      · subst r
        rw [State.goto_status, Function.update_self] at hst
        cases hst
      · rw [State.goto_status, Function.update_of_ne hrt] at hst
        exact absurd hst Status.notify_ne_parked
  | @relock t pc hs hm =>
    refine h.move t ?_
    rw [hs]
    obtain ⟨_, _, _, _, hwait⟩ := hg.woken_resumes hs
    obtain ⟨_, ⟨k, rfl, rfl⟩, _⟩ | ⟨_, ⟨k, rfl, rfl⟩, _⟩ := wait_eq hwait
    · exact ⟨.inr (.inr ⟨rfl, rfl, rfl, rfl⟩), .inr (.inr ⟨rfl, rfl, rfl, rfl⟩)⟩
    · exact ⟨.inl rfl, .inr (.inr ⟨rfl, rfl, rfl, rfl⟩)⟩
  | @spurious t cv pc hs => exact h.move t (hs ▸ woken)

theorem reachable {client : Client T D K} {d : D} {start : T → K}
    (h : (rwSystem client d start).Reachable s) : Attended s := by
  refine h.invariant Attended ⟨fun _ _ hpos => ?_, fun r hr => ?_⟩ ?_
  · exact absurd hpos (lt_irrefl (0 : Int))
  · cases hr
  · intro s l s' hreach ha hs
    exact ha.transition hreach (step_iff.mp hs)

end Attended

variable [Fintype T] [DecidableEq T]

def Finished (st : Status Cv (Pc (List Section))) : Prop := st = .running (.client none [])

omit [Fintype T] [DecidableEq T] in
theorem stopped_finished {t : T} {pc : Pc (List Section)} {x : Shared Unit}
    (hc : code (sections T) t pc x = .block ∨ code (sections T) t pc x = .exit) :
    pc = .client none [] := by
  cases pc <;> simp only [code, readerLock, readerUnlock, writerLock, writerUnlock] at hc
  case client h k =>
    obtain _ | _ | _ := h <;> obtain _ | ⟨_ | _, k⟩ := k <;> obtain hc | hc := hc <;>
      first | rfl | cases hc
  all_goals first | (obtain hc | hc := hc <;> cases hc) | (split at hc <;> obtain hc | hc := hc <;> cases hc)

/-- Some thread can go on, other than by a spurious wakeup, until all threads have finished. -/
theorem rw_canStep_of_unfinished {start : T → List Section}
    {s : State T (Shared Unit) Cv (Pc (List Section))}
    (h : (rwSystem (sections T) () start).Reachable s) (hun : ∃ t, ¬ Finished (s.status t)) :
    CanStep (code (sections T)) s := by
  by_contra hstuck
  obtain ⟨t, ht⟩ := hun
  have hg := reachable_rwGuarded h
  obtain ⟨hfree, hall⟩ := hg.stuck (code_disciplined _) hstuck
  have hatt := Attended.reachable h
  -- A stopped or parked thread is in no section and attends to nobody.
  have idle (P : Status Cv (Pc (List Section)) → Bool)
      (hrun : P (.running (.client none [])) = false)
      (hpark : ∀ cv pc, P (.parked cv pc) = false) (u : T) : P (s.status u) = false := by
    obtain ⟨pc, hs, hstop⟩ | hp := hall u
    · rw [hs, stopped_finished hstop, hrun]
    · obtain ⟨cv, pc, hs⟩ := Status.isParked_iff.mp hp
      rw [hs, hpark]
  have hr : s.shared.activeReaders = 0 := by
    rw [reachable_activeReaders h, countThreads_eq_zero_iff.mpr (idle _ rfl fun _ _ => rfl)]
    rfl
  have hw : s.shared.activeWriters = 0 := by
    rw [reachable_activeWriters h, countThreads_eq_zero_iff.mpr (idle _ rfl fun _ _ => rfl)]
    rfl
  have noWriter : ¬ 0 < s.shared.waitingWriters := by
    intro hpos
    obtain ⟨u, hu⟩ := hatt.writers hr hw hpos
    rw [idle attendsWriters rfl (fun _ _ => rfl) u] at hu
    cases hu
  obtain ⟨pc, hs, hstop⟩ | hp := hall t
  · rw [stopped_finished hstop] at hs
    exact ht hs
  · obtain ⟨cv, pc, hs⟩ := Status.isParked_iff.mp hp
    obtain ⟨_, _, _, hwait⟩ := hg.parked_resumes hs
    obtain ⟨rfl, _⟩ | ⟨_, ⟨k, rfl, rfl⟩, _⟩ := wait_eq hwait
    · obtain hpos | hpos | ⟨u, hu⟩ := hatt.readers t (Status.waitsOn_iff.mpr ⟨_, hs⟩)
      · omega
      · exact noWriter hpos
      · rw [idle attendsReaders rfl (fun _ _ => rfl) u] at hu
        cases hu
    · apply noWriter
      rw [reachable_waitingWriters h]
      exact Int.natCast_pos.mpr (countThreads_pos_iff.mpr ⟨t, by rw [hs]; rfl⟩)

theorem rw_canStep_of_unfinished_parked :
    let start : Fin 3 → List Section := fun t => if t = 1 then [.reader] else [.writer]
    ∃ s, (rwSystem (sections (Fin 3)) () start).Reachable s ∧
      (s.status 1).isParked = true ∧ (s.status 2).isParked = true ∧
      CanStep (code (sections (Fin 3))) s := by
  intro start
  have hreach := System.reachable_of_run (M := rwSystem (sections (Fin 3)) () start)
    (List.replicate 7 (Label.run 0) ++ List.replicate 3 (Label.run 1) ++
      List.replicate 4 (Label.run 2)) rfl
  refine ⟨_, hreach, rfl, rfl, rw_canStep_of_unfinished hreach ⟨1, ?_⟩⟩
  intro hfin
  cases hfin

end MultithreadMayhem.RwLock
