import MultithreadMayhem.RwLock.Exclusion
import MultithreadMayhem.Pthread.Tally

/-!
# The reader and writer threads

`reader_thread` and `writer_thread` with any number of rounds. `shared_data += 10`
is a load and a store, so that the sections, and not the statements, have to keep
the threads apart: the lock's exclusion is lifted to the control points of these
programs, and what a thread has read stays true until it leaves its section.
`shared_data` is an exact integer: totals beyond the range of `int` are out of scope.
-/

namespace MultithreadMayhem.RwLock

open Foundation Pthread

/-- Where a thread is in its loop, with the values it holds. -/
inductive Place
  | loop (i : ℕ)
  | printed (i : ℕ) (data : Int)
  | loaded (i : ℕ) (tmp : Int)
  | stored (i : ℕ) (data : Int)
  | reread (i : ℕ) (data last : Int)
  deriving DecidableEq, Repr

def Place.updates : Place → ℕ
  | .loop i | .printed i _ | .loaded i _ => i
  | .stored i _ | .reread i _ _ => i + 1

/-- The place of a thread at `pc`, or the one to which its call returns. -/
def Pc.place : Pc Place → Place
  | .client _ k | .readerLockLock k | .readerLockTest k | .readerLockCount k
  | .readerLockUnlock k | .readerUnlockLock k | .readerUnlockCount k | .readerUnlockTest k
  | .readerUnlockSignal k | .readerUnlockUnlock k | .writerLockLock k | .writerLockRegister k
  | .writerLockTest k | .writerLockDeregister k | .writerLockCount k | .writerLockUnlock k
  | .writerUnlockLock k | .writerUnlockCount k | .writerUnlockTest k | .writerUnlockSignal k
  | .writerUnlockBroadcast k | .writerUnlockUnlock k => k

/-- `reader_thread()`; no other combination of section and place is reached. -/
def readerThread (rounds : ℕ) : (h : Option Section) → Place → Int → Call Int Place h
  | none, .loop i, _ => if i < rounds then .readerLock (.loop i) else .finish
  | some .reader, .loop i, data => .step data (.printed i data)
  | some .reader, .printed i _, _ => .readerUnlock (.loop (i + 1))
  | none, _, _ => .finish
  | some .reader, k, _ => .readerUnlock k
  | some .writer, k, _ => .writerUnlock k

/-- `writer_thread()`; no other combination of section and place is reached. -/
def writerThread (rounds : ℕ) : (h : Option Section) → Place → Int → Call Int Place h
  | none, .loop i, _ => if i < rounds then .writerLock (.loop i) else .finish
  | some .writer, .loop i, data => .step data (.loaded i data)
  | some .writer, .loaded i tmp, _ => .step (tmp + 10) (.stored i (tmp + 10))
  | some .writer, .stored i v, data => .step data (.reread i v data)
  | some .writer, .reread i _ _, _ => .writerUnlock (.loop (i + 1))
  | none, _, _ => .finish
  | some .reader, k, _ => .readerUnlock k
  | some .writer, k, _ => .writerUnlock k

variable {T : Type}

def threads (role : T → Section) (rounds : T → ℕ) : Client T Int Place := fun t h k data =>
  match role t with
  | .reader => readerThread (rounds t) h k data
  | .writer => writerThread (rounds t) h k data

/-- What a thread knows of `shared_data`: in a section it is what the thread last read or stored. -/
def Sees (role : Section) (rounds : ℕ) (data : Int) : Pc Place → Prop
  | .client none k => ∃ i ≤ rounds, k = .loop i
  | .client (some .reader) k => role = .reader ∧ ∃ i < rounds, k = .loop i ∨ k = .printed i data
  | .client (some .writer) k => role = .writer ∧ ∃ i < rounds, k = .loop i ∨ k = .loaded i data ∨
    k = .stored i data ∨ k = .reread i data data
  | .readerLockLock k | .readerLockTest k | .readerLockCount k | .readerLockUnlock k =>
    role = .reader ∧ ∃ i < rounds, k = .loop i
  | .readerUnlockLock k | .readerUnlockCount k | .readerUnlockTest k | .readerUnlockSignal k
  | .readerUnlockUnlock k => role = .reader ∧ ∃ i ≤ rounds, k = .loop i
  | .writerLockLock k | .writerLockRegister k | .writerLockTest k | .writerLockDeregister k
  | .writerLockCount k | .writerLockUnlock k => role = .writer ∧ ∃ i < rounds, k = .loop i
  | .writerUnlockLock k | .writerUnlockCount k | .writerUnlockTest k | .writerUnlockSignal k
  | .writerUnlockBroadcast k | .writerUnlockUnlock k =>
    role = .writer ∧ ∃ i ≤ rounds, k = .loop i

def Apart (q pc : Pc Place) : Prop :=
  ∀ k, q = .client (some .writer) k → ∀ r k', pc ≠ .client (some r) k'

section Rules

variable (role : T → Section) (rounds : T → ℕ)

theorem threads_data (t : T) (pc : Pc Place) (x : Shared Int)
    (hsees : Sees (role t) (rounds t) x.data pc) :
    (code (threads role rounds) t pc x).Leads
      (fun y _ => y.data = x.data ∨ ∃ k, pc = .client (some .writer) k) x := by
  cases pc with
  | client h k =>
    obtain _ | r := h
    · obtain ⟨i, hi, rfl⟩ := hsees
      simp only [code, threads]
      cases role t with
      | reader =>
        simp only [readerThread]
        split
        · exact .inl rfl
        · trivial
      | writer =>
        simp only [writerThread]
        split
        · exact .inl rfl
        · trivial
    · cases r with
      | reader =>
        obtain ⟨hrole, i, hi, rfl | rfl⟩ := hsees
        · simp only [code, threads, hrole]
          exact .inl rfl
        · simp only [code, threads, hrole]
          exact .inl rfl
      | writer =>
        cases hc : code (threads role rounds) t (.client (some .writer) k) x
        case block => trivial
        case exit => trivial
        all_goals exact .inr ⟨k, rfl⟩
  | readerLockTest k =>
    simp only [code, readerLock]
    split <;> exact .inl rfl
  | writerLockTest k =>
    simp only [code, writerLock]
    split <;> exact .inl rfl
  | _ => exact .inl rfl

theorem sees_rule : RelyRule (code (threads role rounds)) Apart
    (fun t x pc => Sees (role t) (rounds t) x.data pc) where
  own t pc x hsees := by
    cases pc with
    | client h k =>
      obtain _ | r := h
      · obtain ⟨i, hi, rfl⟩ := hsees
        simp only [code, threads]
        cases role t with
        | reader =>
          simp only [readerThread]
          split
          · exact ⟨rfl, i, ‹_›, rfl⟩
          · trivial
        | writer =>
          simp only [writerThread]
          split
          · exact ⟨rfl, i, ‹_›, rfl⟩
          · trivial
      · cases r with
        | reader =>
          obtain ⟨hrole, i, hi, rfl | rfl⟩ := hsees
          · simp only [code, threads, hrole]
            exact ⟨rfl, i, hi, .inr rfl⟩
          · simp only [code, threads, hrole]
            exact ⟨rfl, i + 1, hi, rfl⟩
        | writer =>
          obtain ⟨hrole, i, hi, rfl | rfl | rfl | rfl⟩ := hsees
          · simp only [code, threads, hrole]
            exact ⟨rfl, i, hi, .inr (.inl rfl)⟩
          · simp only [code, threads, hrole]
            exact ⟨rfl, i, hi, .inr (.inr (.inl rfl))⟩
          · simp only [code, threads, hrole]
            exact ⟨rfl, i, hi, .inr (.inr (.inr rfl))⟩
          · simp only [code, threads, hrole]
            exact ⟨rfl, i + 1, hi, rfl⟩
    | readerLockTest k =>
      simp only [code, readerLock]
      split <;> exact hsees
    | writerLockTest k =>
      simp only [code, writerLock]
      split <;> exact hsees
    | readerUnlockTest k =>
      simp only [code, readerUnlock]
      change Sees _ _ _ (ite _ _ _)
      split <;> exact hsees
    | writerUnlockTest k =>
      simp only [code, writerUnlock]
      change Sees _ _ _ (ite _ _ _)
      split <;> exact hsees
    | readerUnlockUnlock k => exact hsees.2
    | writerUnlockUnlock k => exact hsees.2
    | readerLockUnlock k =>
      obtain ⟨hrole, i, hi, hk⟩ := hsees
      exact ⟨hrole, i, hi, .inl hk⟩
    | writerLockUnlock k =>
      obtain ⟨hrole, i, hi, hk⟩ := hsees
      exact ⟨hrole, i, hi, .inl hk⟩
    | _ => exact hsees
  others t u pc q x _ hapart hsees hsees' := by
    apply (threads_data role rounds u q x hsees').imp
    rintro y _ (hy | ⟨k, rfl⟩)
    · rwa [hy]
    · have hout := hapart k rfl
      cases pc
      case client h k' =>
        cases h with
        | none => exact hsees
        | some r => exact absurd rfl (hout r k')
      all_goals exact hsees

def added (role : Section) (pc : Pc Place) : Int :=
  match role with
  | .reader => 0
  | .writer => 10 * pc.place.updates

theorem added_rule : TallyRule (code (threads role rounds))
    (fun t x pc => Sees (role t) (rounds t) x.data pc) Shared.data
    (fun t pc => added (role t) pc) := by
  intro t pc x hsees
  cases pc with
  | client h k =>
    obtain _ | r := h
    · obtain ⟨i, hi, rfl⟩ := hsees
      simp only [code, threads]
      cases role t with
      | reader =>
        simp only [readerThread]
        split
        · rfl
        · trivial
      | writer =>
        simp only [writerThread]
        split
        · rfl
        · trivial
    · cases r with
      | reader =>
        obtain ⟨hrole, i, hi, rfl | rfl⟩ := hsees
        · simp only [code, threads, hrole]
          rfl
        · simp only [code, threads, hrole]
          rfl
      | writer =>
        obtain ⟨hrole, i, hi, rfl | rfl | rfl | rfl⟩ := hsees
        · simp only [code, threads, hrole]
          rfl
        · simp only [code, threads, hrole]
          change x.data + 10 + 10 * (i : Int) = x.data + 10 * ((i + 1 : ℕ) : Int)
          omega
        · simp only [code, threads, hrole]
          rfl
        · simp only [code, threads, hrole]
          rfl
  | readerLockTest k =>
    simp only [code, readerLock]
    split <;> rfl
  | writerLockTest k =>
    simp only [code, writerLock]
    split <;> rfl
  | readerUnlockTest k =>
    simp only [code, readerUnlock]
    split <;> rfl
  | writerUnlockTest k =>
    simp only [code, writerUnlock]
    split <;> rfl
  | _ => rfl

end Rules

theorem eq_loop_of_exit {role : T → Section} {rounds : T → ℕ} {t : T} {pc : Pc Place}
    {x : Shared Int} (hsees : Sees (role t) (rounds t) x.data pc)
    (hexit : code (threads role rounds) t pc x = .exit) :
    pc = .client none (.loop (rounds t)) := by
  cases pc with
  | client h k =>
    obtain _ | r := h
    · obtain ⟨i, hi, rfl⟩ := hsees
      simp only [code, threads] at hexit
      obtain hlt | rfl := Nat.lt_or_eq_of_le hi
      · cases hrole : role t <;>
          simp [hrole, readerThread, writerThread, hlt, Call.act] at hexit
      · rfl
    · cases r with
      | reader =>
        obtain ⟨hrole, i, hi, rfl | rfl⟩ := hsees <;> simp only [code, threads, hrole] at hexit <;>
          cases hexit
      | writer =>
        obtain ⟨hrole, i, hi, rfl | rfl | rfl | rfl⟩ := hsees <;>
          simp only [code, threads, hrole] at hexit <;> cases hexit
  | readerLockTest k =>
    simp only [code, readerLock] at hexit
    split at hexit <;> cases hexit
  | writerLockTest k =>
    simp only [code, writerLock] at hexit
    split at hexit <;> cases hexit
  | _ => cases hexit

section Reachable

variable [Fintype T] [DecidableEq T] {role : T → Section} {rounds : T → ℕ} {d : Int}
variable {s s' : State T (Shared Int) Cv (Pc Place)}

def threadSystem (role : T → Section) (rounds : T → ℕ) (d : Int) :
    System (State T (Shared Int) Cv (Pc Place)) (Label T) :=
  rwSystem (threads role rounds) d fun _ => .loop 0

theorem reachable_apart (h : (threadSystem role rounds d).Reachable s) {u t : T} {q : Pc Place}
    (hne : u ≠ t) (hu : s.status u = .running q) : Apart q (s.status t).pc := by
  rintro k rfl r k' ht
  have halone := writer_alone h hne (by rw [hu]; rfl)
  rw [running_of_client h ht] at halone
  cases r with
  | reader => cases halone.2
  | writer => cases halone.1

theorem reachable_sees (h : (threadSystem role rounds d).Reachable s) (t : T) :
    Sees (role t) (rounds t) s.shared.data (s.status t).pc :=
  (sees_rule role rounds).reachable (fun _ hs _ _ _ => reachable_apart hs)
    (fun _ => ⟨0, Nat.zero_le _, rfl⟩) h t

theorem reachable_added (h : (threadSystem role rounds d).Reachable s) :
    s.shared.data = d + ∑ t, added (role t) (s.status t).pc :=
  (added_rule role rounds).reachable (fun _ hs => reachable_sees hs)
    (fun t => by cases hr : role t <;> rfl) h

theorem readerIn_of_inReaderSection {st : Status Cv (Pc Place)}
    (h : inReaderSection st = true) : readerIn st = true := by
  unfold inReaderSection at h
  split at h
  · rfl
  · rfl
  · cases h

/-- A reader section sees no update. -/
theorem data_stable {t : T} (h : (threadSystem role rounds d).Reachable s)
    (hin : inReaderSection (s.status t) = true) {l : Label T}
    (hs : (threadSystem role rounds d).step s l = some s') : s'.shared.data = s.shared.data := by
  cases step_iff.mp hs with
  | @exec u pc next y hst hc =>
    have hsees := reachable_sees h u
    rw [hst] at hsees
    have hlead := threads_data role rounds u pc s.shared hsees
    rw [hc] at hlead
    obtain hsame | ⟨k, rfl⟩ := hlead
    · exact hsame
    · have hne : u ≠ t := by
        rintro rfl
        rw [hst] at hin
        cases hin
      have halone := writer_alone h hne (by rw [hst]; rfl)
      rw [readerIn_of_inReaderSection hin] at halone
      cases halone.2
  | _ => rfl

/-- `shared_data` is stable from the return of a `reader_lock` to the `reader_unlock`, the last read of
a writer gives the value it stored, and no update is lost. -/
theorem clients_lose_no_update (h : (threadSystem role rounds d).Reachable s) :
    (∀ t s', (threadSystem role rounds d).Path (fun s => inReaderSection (s.status t) = true) s s' →
      s'.shared.data = s.shared.data) ∧
    (∀ t i v, s.status t = .running (.client (some .writer) (.stored i v)) → s.shared.data = v) ∧
    (∀ t i v last, s.status t = .running (.client (some .writer) (.reread i v last)) →
      last = v) ∧
    ((∀ t, ∃ pc, s.status t = .running pc ∧
        code (threads role rounds) t pc s.shared = .exit) →
      s.shared.data = d + 10 * ∑ t, if role t = .writer then (rounds t : Int) else 0) := by
  refine ⟨?_, ?_, ?_, ?_⟩
  · intro t s' hpath
    have hinv := hpath.invariant (fun u => (threadSystem role rounds d).Reachable u ∧
      u.shared.data = s.shared.data) ⟨h, rfl⟩ ?_
    · exact hinv.2
    · intro u l u' hin hu hstep _
      exact ⟨hu.1.step hstep, (data_stable hu.1 hin hstep).trans hu.2⟩
  · intro t i v hs
    have hsees := reachable_sees h t
    rw [hs] at hsees
    obtain ⟨_, _, _, hk | hk | hk | hk⟩ := hsees <;> cases hk
    rfl
  · intro t i v last hs
    have hsees := reachable_sees h t
    rw [hs] at hsees
    obtain ⟨_, _, _, hk | hk | hk | hk⟩ := hsees <;> cases hk
    rfl
  · intro hfinished
    rw [reachable_added h, Finset.mul_sum]
    congr 1
    apply Finset.sum_congr rfl
    intro t _
    obtain ⟨pc, hs, hexit⟩ := hfinished t
    have hsees := reachable_sees h t
    rw [hs] at hsees ⊢
    obtain rfl := eq_loop_of_exit hsees hexit
    cases role t with
    | reader => rfl
    | writer => rfl

end Reachable

theorem clients_lose_no_update_two_writers :
    ∃ s, (threadSystem (T := Fin 2) (fun _ => .writer) (fun _ => 1) 5).Reachable s ∧
      s.shared.data = 25 := by
  let M := threadSystem (T := Fin 2) (fun _ => .writer) (fun _ => 1) 5
  let labels : List (Label (Fin 2)) := List.replicate 8 (.run 0) ++ List.replicate 4 (.run 1) ++
    List.replicate 6 (.run 0) ++ [.wake 0 1, .run 0] ++ List.replicate 14 (.run 1)
  let s := (M.run M.init labels).get rfl
  have hreach : M.Reachable s := System.reachable_of_run labels rfl
  have hfinal := (clients_lose_no_update hreach).2.2.2 fun
    | 0 => ⟨_, rfl, rfl⟩
    | 1 => ⟨_, rfl, rfl⟩
  refine ⟨s, hreach, hfinal.trans ?_⟩
  decide

end MultithreadMayhem.RwLock
