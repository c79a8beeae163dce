import MultithreadMayhem.RwLock.Exclusion

/-!
# Writer preference

From `waiting_writers++` of a `writer_lock` call to its own `active_writers++` the
call keeps every reader out. `waiting_writers` counts the call during the whole
interval but for its last step, and there the call holds the mutex itself.
-/

namespace MultithreadMayhem.RwLock

open Foundation Pthread

variable {T D K : Type}

/-- The section to which the next step of a thread admits it. -/
def admission : Status Cv (Pc K) → Option Section
  | .running (.readerLockCount _) => some .reader
  | .running (.writerLockCount _) => some .writer
  | _ => none

/-- After `waiting_writers++` of a `writer_lock` call and before its `active_writers++`. -/
def pending : Status Cv (Pc K) → Bool
  | .running (.writerLockCount _) => true
  | st => writerWaits st

/-- A reader leaves its wait loop only when no writer is waiting. -/
def Yields (x : Shared D) : Option (Pc K) → Prop
  | some (.readerLockCount _) => x.waitingWriters ≤ 0
  | _ => True

theorem yields_rule (client : Client T D K) : MonitorRule (code client) Pc.inside Yields := by
  intro t pc x
  cases pc with
  | client h k =>
    simp only [code]
    cases client t h k x.data with
    | step d k =>
      intro h hx
      cases h with
      | none => trivial
      | some pc => cases pc <;> exact hx
    | finish => trivial
    | _ => exact fun _ hx => hx
  | readerLockTest k =>
    by_cases hwait : x.activeWriters > 0 ∨ x.waitingWriters > 0
    · simp only [code, readerLock, if_pos hwait]
      exact ⟨fun _ => trivial, fun _ _ => trivial⟩
    · simp only [code, readerLock, if_neg hwait]
      intro _
      change x.waitingWriters ≤ 0
      omega
  | readerUnlockTest k =>
    simp only [code, readerUnlock]
    split <;> exact fun _ => trivial
  | writerLockTest k =>
    simp only [code, writerLock]
    split
    · exact ⟨fun _ => trivial, fun _ _ => trivial⟩
    · exact fun _ => trivial
  | writerUnlockTest k =>
    simp only [code, writerUnlock]
    split <;> exact fun _ => trivial
  | readerUnlockSignal | writerUnlockSignal | writerUnlockBroadcast => exact fun _ _ => trivial
  | _ => exact fun _ => trivial

theorem exec_activeReaders {client : Client T D K} {t : T} {pc next : Pc K} {x y : Shared D}
    (hc : code client t pc x = .exec y next) :
    y.activeReaders ≤ x.activeReaders ∨ ∃ k, pc = .readerLockCount k := by
  cases pc <;> simp only [code, readerLock, readerUnlock, writerLock, writerUnlock] at hc
  case readerLockCount k => exact .inr ⟨k, rfl⟩
  case client h k => cases hk : client t h k x.data <;> rw [hk] at hc <;> cases hc <;> simp
  case readerUnlockCount k =>
    cases hc
    left
    change x.activeReaders - 1 ≤ x.activeReaders
    omega
  case readerLockTest k => split at hc <;> cases hc; simp
  case writerLockTest k => split at hc <;> cases hc; simp
  all_goals cases hc
  all_goals simp

variable [Fintype T] [DecidableEq T]
variable {client : Client T D K} {d : D} {start : T → K} {s s' : State T (Shared D) Cv (Pc K)}

theorem reachable_yields (h : (rwSystem client d start).Reachable s) : Holds Yields s :=
  MonitorRule.reachable (code_disciplined client) (yields_rule client) (fun _ => rfl) trivial h

/-- While a `writer_lock` call is pending no reader is about to be admitted. -/
theorem no_reader_admission (h : (rwSystem client d start).Reachable s) {w : T}
    (hw : pending (s.status w) = true) (u : T) : admission (s.status u) ≠ some .reader := by
  intro hu
  have hg := reachable_rwGuarded h
  obtain ⟨k, hk⟩ : ∃ k, s.status u = .running (.readerLockCount k) := by
    generalize s.status u = st at hu
    cases st with
    | running pc =>
      cases pc
      case readerLockCount k => exact ⟨k, rfl⟩
      all_goals cases hu
    | parked => cases hu
    | woken => cases hu
  have hm : s.mutex = some u := (hg.holder u).mpr ⟨_, hk, rfl⟩
  have hnone : s.shared.waitingWriters ≤ 0 := (reachable_yields h).held u _ hm hk
  -- The call is either counted or at its last step, where it holds the mutex.
  obtain hwaits | ⟨k', hk'⟩ : writerWaits (s.status w) = true ∨
      ∃ k, s.status w = .running (.writerLockCount k) := by
    generalize s.status w = st at hw
    cases st with
    | running pc =>
      cases pc
      case writerLockCount k => exact .inr ⟨k, rfl⟩
      all_goals exact .inl hw
    | parked => exact .inl hw
    | woken => exact .inl hw
  · have hcount := countThreads_pos_iff.mpr ⟨w, hwaits⟩
    have hexact := reachable_waitingWriters h
    omega
  · have hm' : s.mutex = some w := (hg.holder w).mpr ⟨_, hk', rfl⟩
    rw [hm] at hm'
    cases hm'
    rw [hk] at hk'
    cases hk'

theorem activeReaders_le_of_step (hno : ∀ u, admission (s.status u) ≠ some .reader)
    {l : Label T} (hs : (rwSystem client d start).step s l = some s') :
    s'.shared.activeReaders ≤ s.shared.activeReaders := by
  cases step_iff.mp hs with
  | @exec t pc next y hst hc =>
    obtain hle | ⟨k, rfl⟩ := exec_activeReaders hc
    · exact hle
    · exact absurd (congrArg admission hst) (hno t)
  | _ => exact le_rfl

theorem activeReaders_le_of_path {w : T} (h : (rwSystem client d start).Reachable s)
    (hp : (rwSystem client d start).Path (fun s => pending (s.status w) = true) s s') :
    s'.shared.activeReaders ≤ s.shared.activeReaders := by
  have hinv := hp.invariant
    (fun u => (rwSystem client d start).Reachable u ∧
      u.shared.activeReaders ≤ s.shared.activeReaders) ⟨h, le_rfl⟩ ?_
  · exact hinv.2
  · intro t l u hq hi ht _
    have hstep := activeReaders_le_of_step (no_reader_admission hi.1 hq) ht
    exact ⟨hi.1.step ht, hstep.trans hi.2⟩

/-- In the interval from `waiting_writers++` of a `writer_lock` call of `w`, its first step included,
up to the `active_writers++` of that call, `active_readers` never increases and every admission is
that of a writer. -/
theorem writer_preference {w : T} {k : K} {s₀ s₁ s₂ s₃ : State T (Shared D) Cv (Pc K)} {l : Label T}
    (h : (rwSystem client d start).Reachable s₀)
    (hregister : s₀.status w = .running (.writerLockRegister k))
    (hfirst : (rwSystem client d start).step s₀ (.run w) = some s₁)
    (hpath : (rwSystem client d start).Path (fun s => pending (s.status w) = true) s₁ s₂)
    (hnext : (rwSystem client d start).step s₂ l = some s₃) :
    s₁.shared.waitingWriters = s₀.shared.waitingWriters + 1 ∧
      s₁.shared.activeReaders = s₀.shared.activeReaders ∧
      s₂.shared.activeReaders ≤ s₁.shared.activeReaders ∧
      s₃.shared.activeReaders ≤ s₂.shared.activeReaders ∧
      ∀ u r, l = .run u → admission (s₂.status u) = some r → r = .writer := by
  have hreach := h.step hfirst
  have hno := no_reader_admission (hpath.reachable hreach) hpath.right
  have hregistered : s₁.shared = { s₀.shared with
      waitingWriters := s₀.shared.waitingWriters + 1 } := by
    change step (code client) s₀ (.run w) = some s₁ at hfirst
    simp only [step, hregister, code, writerLock, Option.some.injEq] at hfirst
    rw [← hfirst]
  refine ⟨by rw [hregistered], by rw [hregistered], ?_, ?_, ?_⟩
  · exact activeReaders_le_of_path hreach hpath
  · exact activeReaders_le_of_step hno hnext
  · rintro u r rfl hu
    cases r with
    | reader => exact absurd hu (hno u)
    | writer => rfl

theorem writer_preference_reader_parked :
    let start : Fin 3 → List Section := fun t => if t = 2 then [.reader] else [.writer]
    let M := rwSystem (sections (Fin 3)) () start
    ∃ s₁ s₂ s₃, M.Reachable s₁ ∧ M.Path (fun s => pending (s.status 1) = true) s₁ s₂ ∧
      M.step s₂ (.run 1) = some s₃ ∧ (s₂.status 2).isParked = true ∧
      admission (s₂.status 1) = some .writer ∧
      s₃.shared.activeReaders ≤ s₂.shared.activeReaders ∧ s₃.shared.activeWriters = 1 := by
  intro start M
  let before : List (Label (Fin 3)) := List.replicate 7 (.run 0) ++ List.replicate 2 (.run 1)
  let inside : List (Label (Fin 3)) := .run 1 :: List.replicate 3 (.run 2) ++
    List.replicate 4 (.run 0) ++ [.wake 0 1, .run 0] ++ List.replicate 3 (.run 1)
  let s₀ := (M.run M.init before).get rfl
  let s₁ := (M.step s₀ (.run 1)).get rfl
  let s₂ := (M.run s₁ inside).get rfl
  have hreach : M.Reachable s₀ := System.reachable_of_run before rfl
  have hpath : M.Path (fun s => pending (s.status 1) = true) s₁ s₂ :=
    System.path_of_runInside inside rfl
  have hall := writer_preference (l := .run 1) hreach rfl rfl hpath rfl
  exact ⟨s₁, s₂, _, hreach.step (l := .run 1) rfl, hpath, rfl, rfl, rfl, hall.2.2.2.1, rfl⟩

end MultithreadMayhem.RwLock
