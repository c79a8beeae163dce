import MultithreadMayhem.RwLock.Code
import MultithreadMayhem.Pthread.Local

/-!
# Exclusion of readers and writers

The three counters count threads, statement by statement: `active_readers` those
between its increment and its decrement, likewise `active_writers`, and
`waiting_writers` those that have registered and are not admitted. The guards of
the wait loops keep a writer alone.
-/

namespace MultithreadMayhem.RwLock

open Foundation Pthread

variable {T D K : Type}

def readerIn : Status Cv (Pc K) → Bool
  | .running (.client (some .reader) _) | .running (.readerLockUnlock _)
  | .running (.readerUnlockLock _) | .running (.readerUnlockCount _) => true
  | _ => false

def writerIn : Status Cv (Pc K) → Bool
  | .running (.client (some .writer) _) | .running (.writerLockUnlock _)
  | .running (.writerUnlockLock _) | .running (.writerUnlockCount _) => true
  | _ => false

def writerWaits : Status Cv (Pc K) → Bool
  | .running (.writerLockTest _) | .running (.writerLockDeregister _)
  | .parked _ (.writerLockTest _) | .woken (.writerLockTest _) => true
  | _ => false

section Inversion

variable {client : Client T D K} {t : T} {pc next : Pc K} {x y : Shared D} {cv : Cv}

theorem wait_eq (hc : code client t pc x = .wait cv next) :
    (cv = .readCv ∧ (∃ k, pc = .readerLockTest k ∧ next = pc) ∧
      (0 < x.activeWriters ∨ 0 < x.waitingWriters)) ∨
    (cv = .writeCv ∧ (∃ k, pc = .writerLockTest k ∧ next = pc) ∧
      (0 < x.activeReaders ∨ 0 < x.activeWriters)) := by
  cases pc <;> simp only [code, readerLock, readerUnlock, writerLock, writerUnlock] at hc
  case client h k => cases hk : client t h k x.data <;> rw [hk] at hc <;> cases hc
  case readerLockTest k =>
    split at hc <;> cases hc
    exact .inl ⟨rfl, ⟨k, rfl, rfl⟩, ‹_›⟩
  case writerLockTest k =>
    split at hc <;> cases hc
    exact .inr ⟨rfl, ⟨k, rfl, rfl⟩, ‹_›⟩
  all_goals cases hc

end Inversion

/-- One proof for the three counters: every statement moves `v` by what it changes for its thread. -/
theorem counts (client : Client T D K) {v : Shared D → Int} {P : Status Cv (Pc K) → Bool}
    (hact : ∀ t pc x, (code client t pc x).Leads
      (fun y st => v y + (P (.running pc)).toNat = v x + (P st).toNat) x)
    (hwake : ∀ cv pc, P (.woken pc) = P (.parked cv pc))
    (hreader : ∀ k, P (.running (.readerLockTest k)) = P (.woken (.readerLockTest k)))
    (hwriter : ∀ k, P (.running (.writerLockTest k)) = P (.woken (.writerLockTest k))) :
    CountRule (code client) v P where
  act := hact
  wake := hwake
  resume {t pc x cv next} hc := by
    obtain ⟨_, ⟨k, rfl, rfl⟩, _⟩ | ⟨_, ⟨k, rfl, rfl⟩, _⟩ := wait_eq hc
    · exact hreader k
    · exact hwriter k

theorem activeReaders_counts (client : Client T D K) :
    CountRule (code client) Shared.activeReaders readerIn := by
  refine counts client (fun t pc x => ?_) (fun _ _ => rfl) (fun _ => rfl) (fun _ => rfl)
  cases pc <;> simp only [code, readerLock, readerUnlock, writerLock, writerUnlock]
  case client h k =>
    cases client t h k x.data
    case step => obtain _ | _ | _ := h <;> rfl
    all_goals simp [Call.act, Act.Leads, readerIn]
  all_goals (try split) <;> simp [Act.Leads, readerIn]

theorem activeWriters_counts (client : Client T D K) :
    CountRule (code client) Shared.activeWriters writerIn := by
  refine counts client (fun t pc x => ?_) (fun _ _ => rfl) (fun _ => rfl) (fun _ => rfl)
  cases pc <;> simp only [code, readerLock, readerUnlock, writerLock, writerUnlock]
  case client h k =>
    cases client t h k x.data
    case step => obtain _ | _ | _ := h <;> rfl
    all_goals simp [Call.act, Act.Leads, writerIn]
  all_goals (try split) <;> simp [Act.Leads, writerIn]

theorem waitingWriters_counts (client : Client T D K) :
    CountRule (code client) Shared.waitingWriters writerWaits := by
  refine counts client (fun t pc x => ?_) (fun _ pc => by cases pc <;> rfl) (fun _ => rfl)
    (fun _ => rfl)
  cases pc <;> simp only [code, readerLock, readerUnlock, writerLock, writerUnlock]
  case client h k =>
    cases client t h k x.data
    all_goals simp [Call.act, Act.Leads, writerWaits]
  all_goals (try split) <;> simp [Act.Leads, writerWaits]

/-- What the guards establish, as seen from the control point of the holder of the mutex. -/
def Excludes (x : Shared D) : Option (Pc K) → Prop
  | some (.readerLockCount _) => x.activeWriters ≤ 0
  | some (.writerLockDeregister _) | some (.writerLockCount _) =>
    x.activeReaders ≤ 0 ∧ x.activeWriters ≤ 0
  | _ => x.activeWriters ≤ 1 ∧ (0 < x.activeWriters → x.activeReaders ≤ 0)

theorem excludes_rule (client : Client T D K) :
    MonitorRule (code client) Pc.inside Excludes := by
  intro t pc x
  cases pc with
  | client h k =>
    simp only [code]
    cases client t h k x.data with
    | step d k =>
      refine fun h hx => ?_
      cases h with
      | none => exact hx
      | some pc => cases pc <;> exact hx
    | finish => trivial
    | _ => exact fun _ hx => hx
  | readerLockTest k =>
    by_cases hwait : x.activeWriters > 0 ∨ x.waitingWriters > 0
    · simp only [code, readerLock, if_pos hwait]
      exact ⟨id, fun _ => id⟩
    · simp only [code, readerLock, if_neg hwait]
      exact fun _ => show x.activeWriters ≤ 0 by omega
  | readerLockCount k =>
    refine fun (hx : x.activeWriters ≤ 0) => ?_
    exact ⟨show x.activeWriters ≤ 1 by omega, fun hpos => absurd hpos (not_lt.mpr hx)⟩
  | readerUnlockCount k =>
    refine fun hx => ⟨hx.1, fun hpos => ?_⟩
    have := hx.2 hpos
    change x.activeReaders - 1 ≤ 0
    omega
  | readerUnlockTest k =>
    simp only [code, readerUnlock]
    split <;> exact id
  | writerLockTest k =>
    by_cases hwait : x.activeReaders > 0 ∨ x.activeWriters > 0
    · simp only [code, writerLock, if_pos hwait]
      exact ⟨id, fun _ => id⟩
    · simp only [code, writerLock, if_neg hwait]
      exact fun _ => show x.activeReaders ≤ 0 ∧ x.activeWriters ≤ 0 by omega
  | writerLockCount k =>
    refine fun (hx : x.activeReaders ≤ 0 ∧ x.activeWriters ≤ 0) => ?_
    exact ⟨show x.activeWriters + 1 ≤ 1 by omega, fun _ => hx.1⟩
  | writerUnlockCount k =>
    refine fun (hx : x.activeWriters ≤ 1 ∧ (0 < x.activeWriters → x.activeReaders ≤ 0)) => ?_
    exact ⟨show x.activeWriters - 1 ≤ 1 by omega,
      fun (hpos : 0 < x.activeWriters - 1) => hx.2 (by omega)⟩
  | writerUnlockTest k =>
    simp only [code, writerUnlock]
    split <;> exact id
  | readerUnlockSignal | writerUnlockSignal | writerUnlockBroadcast => exact fun _ hx => hx
  | _ => exact fun hx => hx

variable [Fintype T] [DecidableEq T]

section Reachable

variable {client : Client T D K} {d : D} {start : T → K} {s : State T (Shared D) Cv (Pc K)}

theorem reachable_activeReaders (h : (rwSystem client d start).Reachable s) :
    s.shared.activeReaders = countThreads readerIn s.status :=
  (activeReaders_counts client).reachable (code_disciplined client) (fun _ => rfl) rfl
    (fun _ => rfl) h

theorem reachable_activeWriters (h : (rwSystem client d start).Reachable s) :
    s.shared.activeWriters = countThreads writerIn s.status :=
  (activeWriters_counts client).reachable (code_disciplined client) (fun _ => rfl) rfl
    (fun _ => rfl) h

theorem reachable_waitingWriters (h : (rwSystem client d start).Reachable s) :
    s.shared.waitingWriters = countThreads writerWaits s.status :=
  (waitingWriters_counts client).reachable (code_disciplined client) (fun _ => rfl) rfl
    (fun _ => rfl) h

theorem reachable_excludes (h : (rwSystem client d start).Reachable s) : Holds Excludes s :=
  MonitorRule.reachable (code_disciplined client) (excludes_rule client) (fun _ => rfl)
    ⟨Int.zero_lt_one.le, fun hpos => absurd hpos (lt_irrefl (0 : Int))⟩ h

theorem reachable_rwGuarded (h : (rwSystem client d start).Reachable s) :
    Guarded (code client) Pc.inside s :=
  reachable_guarded (code_disciplined client) (fun _ => rfl) h

theorem reachable_alone (h : (rwSystem client d start).Reachable s) :
    s.shared.activeWriters ≤ 1 ∧ (0 < s.shared.activeWriters → s.shared.activeReaders ≤ 0) := by
  have hex := reachable_excludes h
  cases hm : s.mutex with
  | none => exact hex.free hm
  | some u =>
    obtain ⟨pc, hs, _⟩ := ((reachable_rwGuarded h).holder u).mp hm
    have hheld := hex.held u pc hm hs
    cases pc
    case readerLockCount k =>
      change s.shared.activeWriters ≤ 0 at hheld
      omega
    case writerLockDeregister k =>
      change s.shared.activeReaders ≤ 0 ∧ s.shared.activeWriters ≤ 0 at hheld
      omega
    case writerLockCount k =>
      change s.shared.activeReaders ≤ 0 ∧ s.shared.activeWriters ≤ 0 at hheld
      omega
    all_goals exact hheld

/-- While a writer is active no other thread is. -/
theorem writer_alone (h : (rwSystem client d start).Reachable s) {u t : T} (hne : u ≠ t)
    (hu : writerIn (s.status u) = true) :
    writerIn (s.status t) = false ∧ readerIn (s.status t) = false := by
  have halone := reachable_alone h
  have hwriters := reachable_activeWriters h
  have hreaders := reachable_activeReaders h
  have hpos := countThreads_pos_iff.mpr ⟨u, hu⟩
  constructor
  · by_contra ht
    have := two_le_countThreads hne hu (by simpa using ht)
    omega
  · by_contra ht
    have := countThreads_pos_iff.mpr ⟨t, (by simpa using ht : readerIn (s.status t) = true)⟩
    have := halone.2 (by omega)
    omega

theorem running_of_client (h : (rwSystem client d start).Reachable s) {t : T} {r : Option Section}
    {k : K} (ht : (s.status t).pc = .client r k) : s.status t = .running (.client r k) := by
  cases hs : s.status t with
  | running pc =>
    rw [hs] at ht
    exact congrArg _ ht
  | parked cv pc =>
    rw [hs] at ht
    obtain ⟨_, _, _, hc⟩ := (reachable_rwGuarded h).parked_resumes hs
    obtain ⟨_, ⟨_, rfl, rfl⟩, _⟩ | ⟨_, ⟨_, rfl, rfl⟩, _⟩ := wait_eq hc <;> cases ht
  | woken pc =>
    rw [hs] at ht
    obtain ⟨_, _, _, _, hc⟩ := (reachable_rwGuarded h).woken_resumes hs
    obtain ⟨_, ⟨_, rfl, rfl⟩, _⟩ | ⟨_, ⟨_, rfl, rfl⟩, _⟩ := wait_eq hc <;> cases ht

end Reachable

/-- Between a returned `reader_lock` and its `reader_unlock`; a thread that waits for the mutex in
`reader_unlock` has not left yet. -/
def inReaderSection : Status Cv (Pc K) → Bool
  | .running (.client (some .reader) _) | .running (.readerUnlockLock _) => true
  | _ => false

/-- Between a returned `writer_lock` and its `writer_unlock`. -/
def inWriterSection : Status Cv (Pc K) → Bool
  | .running (.client (some .writer) _) | .running (.writerUnlockLock _) => true
  | _ => false

/-- In the wait loop of `writer_lock`, after `waiting_writers++`. -/
def registered : Status Cv (Pc K) → Bool
  | .parked _ (.writerLockTest _) | .woken (.writerLockTest _) => true
  | _ => false

/-- With the mutex free the counters are exact, there is at most one active writer, and an active
writer is alone. -/
theorem rw_exclusion_of_free {start : T → List Section}
    {s : State T (Shared Unit) Cv (Pc (List Section))}
    (h : (rwSystem (sections T) () start).Reachable s) (hfree : s.mutex = none) :
    s.shared.activeReaders = countThreads inReaderSection s.status ∧
      s.shared.activeWriters = countThreads inWriterSection s.status ∧
      s.shared.waitingWriters = countThreads registered s.status ∧
      s.shared.activeWriters ≤ 1 ∧
      (s.shared.activeWriters = 1 → s.shared.activeReaders = 0) := by
  have hg := reachable_rwGuarded h
  have outside (t : T) : (∃ pc, s.status t = .running pc ∧ pc.inside = false) ∨
      ∃ pc, s.status t = .woken pc ∨ ∃ cv, s.status t = .parked cv pc := by
    cases hs : s.status t with
    | running pc => exact .inl ⟨pc, rfl, hg.not_inside hfree hs⟩
    | parked cv pc => exact .inr ⟨pc, .inr ⟨cv, rfl⟩⟩
    | woken pc => exact .inr ⟨pc, .inl rfl⟩
  -- No thread is at a control point inside, where the two ways of counting differ.
  have same (P Q : Status Cv (Pc (List Section)) → Bool)
      (hrun : ∀ pc, pc.inside = false → P (.running pc) = Q (.running pc))
      (hwait : ∀ cv pc, P (.woken pc) = Q (.woken pc) ∧ P (.parked cv pc) = Q (.parked cv pc)) :
      countThreads P s.status = countThreads Q s.status := by
    refine countThreads_congr fun t => ?_
    obtain ⟨pc, hs, hi⟩ | ⟨pc, hs | ⟨cv, hs⟩⟩ := outside t
    · rw [hs, hrun pc hi]
    · rw [hs, (hwait .readCv pc).1]
    · rw [hs, (hwait cv pc).2]
  have hreaders := reachable_activeReaders h
  have hwriters := reachable_activeWriters h
  have hwaiting := reachable_waitingWriters h
  have hex : s.shared.activeWriters ≤ 1 ∧
      (0 < s.shared.activeWriters → s.shared.activeReaders ≤ 0) := (reachable_excludes h).free hfree
  refine ⟨?_, ?_, ?_, hex.1, fun hone => ?_⟩
  · rw [hreaders, same readerIn inReaderSection (fun pc hi => ?_) fun _ _ => ⟨rfl, rfl⟩]
    cases pc
    case client h k => obtain _ | _ | _ := h <;> rfl
    all_goals first | rfl | cases hi
  · rw [hwriters, same writerIn inWriterSection (fun pc hi => ?_) fun _ _ => ⟨rfl, rfl⟩]
    cases pc
    case client h k => obtain _ | _ | _ := h <;> rfl
    all_goals first | rfl | cases hi
  · rw [hwaiting, same writerWaits registered (fun pc hi => ?_)
      fun _ pc => ⟨by cases pc <;> rfl, by cases pc <;> rfl⟩]
    cases pc <;> first | rfl | cases hi
  · have := hex.2 (by omega)
    omega

theorem rw_exclusion_of_free_contended :
    let start : Fin 3 → List Section := fun t => if t = 1 then [.reader] else [.writer]
    ∃ s, (rwSystem (sections (Fin 3)) () start).Reachable s ∧ s.mutex = none ∧
      s.shared.activeWriters = 1 ∧ s.shared.waitingWriters = 1 ∧ s.shared.activeReaders = 0 := by
  intro start
  have hreach := System.reachable_of_run (M := rwSystem (sections (Fin 3)) () start)
    (List.replicate 7 (Label.run 0) ++ List.replicate 3 (Label.run 1) ++
      List.replicate 4 (Label.run 2)) rfl
  exact ⟨_, hreach, rfl, rfl, rfl, (rw_exclusion_of_free hreach rfl).2.2.2.2 rfl⟩

end MultithreadMayhem.RwLock
