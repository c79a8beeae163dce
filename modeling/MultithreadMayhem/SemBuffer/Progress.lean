import MultithreadMayhem.SemBuffer.Fifo

/-!
# Where the semaphore buffer stops

When no thread can go on, no call is in flight past its `sem_wait`. All tokens are
then back in the semaphores, and `full_slots` is the number of items in the ring.
-/

namespace MultithreadMayhem.SemBuffer

open Foundation Pthread Buffer

variable {T D K : Type} [Fintype T] [DecidableEq T] {client : Client T D K} {cap : ℕ}
variable {x : Shared T D} {start : T → K} {s : State T (Shared T D) Empty (Pc K)}

/-- When no thread can go on, each one waits in its own program or in a `sem_wait`. -/
theorem stuck_place (h : (systemFrom client x start).Reachable s)
    (hstuck : ¬ CanStep (code client) s) (t : T) :
    (∃ k, s.status t = .running (.client k) ∧
      (client t k s.shared.data = .block ∨ client t k s.shared.data = .finish)) ∨
      (∃ item k, s.status t = .running (.putWait item k) ∧ s.shared.emptySlots = 0) ∨
      ∃ k, s.status t = .running (.getWait k) ∧ s.shared.fullSlots = 0 := by
  have hg : Guarded (code client) Pc.inside s :=
    reachable_guarded (code_disciplined client) (fun _ => rfl) h
  obtain ⟨pc, hs, hstop⟩ | hpark := (hg.stuck (code_disciplined client) hstuck).2 t
  · obtain ⟨k, rfl, hcall⟩ | ⟨item, k, rfl, hempty⟩ | ⟨k, rfl, hfull⟩ := code_stopped hstop
    · exact .inl ⟨k, hs, hcall⟩
    · exact .inr (.inl ⟨item, k, hs, hempty⟩)
    · exact .inr (.inr ⟨k, hs, hfull⟩)
  · obtain ⟨cv, _, _⟩ := Status.isParked_iff.mp hpark
    exact cv.elim

/-- When no call is past its `sem_wait`, the semaphores count the free and the occupied slots. -/
theorem idle_slots (hx : Fresh cap x) (h : (systemFrom client x start).Reachable s)
    (hfree : s.mutex = none) (hidle : ∀ t, inFlight (s.status t) = false) :
    s.shared.emptySlots + s.shared.fullSlots = cap ∧
      ∃ q, BoundedQueue.run cap [] s.shared.history = some q ∧ q.length = s.shared.fullSlots ∧
        Ring s.shared.buffer cap s.shared.inIdx s.shared.outIdx q 0 0 := by
  have htokens := reachable_tokensOut hx h
  have hitems := reachable_itemsOut hx h
  rw [countThreads_eq_zero_iff.mpr hidle] at htokens
  have hnone : countThreads holdsItem s.status = 0 := by
    refine countThreads_eq_zero_iff.mpr fun t => ?_
    cases ht : holdsItem (s.status t) with
    | false => rfl
    | true =>
      have hflight := inFlight_of_holdsItem ht
      rw [hidle t] at hflight
      cases hflight
  rw [hnone] at hitems
  have hr := (reachable_refines hx h).free hfree
  obtain ⟨q, hrun, hq⟩ := hr.follows (reachable_bounded hx h)
  have hlength := BoundedQueue.run_length hrun
  have hcapacity := hr.capacity
  simp only [tokensOut, itemsOut] at htokens hitems
  refine ⟨by omega, q, hrun, by omega, ?_⟩
  rw [← hcapacity]
  exact hq

theorem stuck_slots (hx : Fresh cap x) (h : (systemFrom client x start).Reachable s)
    (hstuck : ¬ CanStep (code client) s) :
    s.shared.emptySlots + s.shared.fullSlots = cap ∧
      ∃ q, BoundedQueue.run cap [] s.shared.history = some q ∧ q.length = s.shared.fullSlots ∧
        Ring s.shared.buffer cap s.shared.inIdx s.shared.outIdx q 0 0 := by
  have hfree : s.mutex = none :=
    ((reachable_guarded (code_disciplined client) (fun _ => rfl) h).stuck
      (code_disciplined client) hstuck).1
  refine idle_slots hx h hfree fun t => ?_
  obtain ⟨k, hs, _⟩ | ⟨item, k, hs, _⟩ | ⟨k, hs, _⟩ := stuck_place h hstuck t
  · rw [hs]
    rfl
  · rw [hs]
    rfl
  · rw [hs]
    rfl

end MultithreadMayhem.SemBuffer
