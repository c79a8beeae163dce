import MultithreadMayhem.BoundedBuffer.Callers

/-!
# The bounded buffer refines a bounded FIFO queue

The history of the accesses is a run of the abstract queue, and the ring holds
the contents of that queue. Between two statements of a critical section the
indices and `count` lag behind the ring; the control point of the holder says by
how much.
-/

namespace MultithreadMayhem.BoundedBuffer

open Foundation Pthread Buffer

variable {T D K : Type}

/-- The ring holds `q`, and `count` is off by `lag`. -/
def Settled (s : Shared T D) (q : List Int) (read written : ℕ) (lag : Int) : Prop :=
  Ring s.buffer s.capacity s.inIdx s.outIdx q read written ∧ s.count = q.length + lag

/-- The ring holds `q`, as seen from the control point of the holder of the mutex. -/
def RingAt (s : Shared T D) (q : List Int) : Option (Pc K) → Prop
  | some (.putStore ..) => Settled s q 0 0 0 ∧ q.length < s.capacity
  | some (.putAdvance ..) => Settled s q 0 1 (-1)
  | some (.putCount ..) => Settled s q 0 0 (-1)
  | some (.getRead ..) => Settled s q 0 0 0 ∧ q ≠ []
  | some (.getAdvance ..) => Settled s q 1 0 1
  | some (.getCount ..) => Settled s q 0 0 1
  | _ => Settled s q 0 0 0

/-- The accesses so far are a run of the abstract queue, whose contents are in the ring. -/
def Refines (cap : ℕ) (s : Shared T D) (h : Option (Pc K)) : Prop :=
  s.capacity = cap ∧ ∃ q, BoundedQueue.run cap [] s.history = some q ∧ RingAt s q h

theorem RingAt.data {s : Shared T D} {q : List Int} {h : Option (Pc K)} (hr : RingAt s q h)
    (d : D) : RingAt { s with data := d } q h := by
  cases h with
  | none => exact hr
  | some pc => cases pc <;> exact hr

theorem refines_init {cap : ℕ} (hcap : 0 < cap) (mem : ℕ → Int) (d : D) :
    Refines cap (bufferInit (T := T) cap mem d) (none : Option (Pc K)) :=
  ⟨rfl, [], rfl, Ring.empty hcap, rfl⟩

/-- Every statement of the buffer keeps the refinement. -/
theorem refines_rule (client : Client T D K) (cap : ℕ) :
    MonitorRule (code client) Pc.inside (Refines cap) := by
  intro t pc s
  cases pc with
  | client k =>
    simp only [code]
    cases client t k s.data with
    | step d k =>
      refine fun h hr => ?_
      obtain ⟨hcap, q, hrun, hq⟩ := hr
      exact ⟨hcap, q, hrun, hq.data d⟩
    | put item k => exact fun h hr => hr
    | get k => exact fun h hr => hr
    | block => trivial
    | finish => trivial
  | putLock item k => exact id
  | putTest item k =>
    by_cases hfull : s.count = s.capacity
    · simp only [code, bufferPut, if_pos hfull]
      exact ⟨id, fun _ => id⟩
    · simp only [code, bufferPut, if_neg hfull]
      refine fun hr => ?_
      obtain ⟨hcap, q, hrun, hq⟩ := hr
      have hle := BoundedQueue.run_length_le hrun (Nat.zero_le _)
      have hcount := hq.2
      exact ⟨hcap, q, hrun, hq, by omega⟩
  | putStore item k =>
    refine fun hr => ?_
    obtain ⟨hcap, q, hrun, ⟨hq, hcount⟩, hlen⟩ := hr
    refine ⟨hcap, q ++ [item], BoundedQueue.run_put hrun (hcap ▸ hlen) t item,
      hq.store hlen item, ?_⟩
    rw [List.length_append, List.length_singleton]
    change s.count = _
    omega
  | putAdvance k =>
    refine fun hr => ?_
    obtain ⟨hcap, q, hrun, hq, hcount⟩ := hr
    exact ⟨hcap, q, hrun, hq.advanceIn, hcount⟩
  | putCount k =>
    refine fun hr => ?_
    obtain ⟨hcap, q, hrun, hq, hcount⟩ := hr
    exact ⟨hcap, q, hrun, hq, show s.count + 1 = q.length + 0 by omega⟩
  | putSignal k => exact fun _ => id
  | putUnlock k => exact id
  | getLock k => exact id
  | getTest k =>
    by_cases hempty : s.count = 0
    · simp only [code, bufferGet, if_pos hempty]
      exact ⟨id, fun _ => id⟩
    · simp only [code, bufferGet, if_neg hempty]
      refine fun hr => ?_
      obtain ⟨hcap, q, hrun, hq⟩ := hr
      refine ⟨hcap, q, hrun, hq, ?_⟩
      rintro rfl
      exact hempty hq.2
  | getRead k =>
    refine fun hr => ?_
    obtain ⟨hcap, q, hrun, ⟨hq, hcount⟩, hne⟩ := hr
    cases q with
    | nil => exact absurd rfl hne
    | cons x q =>
      obtain ⟨hx, hq⟩ := hq.take
      rw [List.length_cons] at hcount
      exact ⟨hcap, q, hx ▸ BoundedQueue.run_get hrun t, hq, show s.count = q.length + 1 by omega⟩
  | getAdvance item k =>
    refine fun hr => ?_
    obtain ⟨hcap, q, hrun, hq, hcount⟩ := hr
    exact ⟨hcap, q, hrun, hq.advanceOut, hcount⟩
  | getCount item k =>
    refine fun hr => ?_
    obtain ⟨hcap, q, hrun, hq, hcount⟩ := hr
    exact ⟨hcap, q, hrun, hq, show s.count - 1 = q.length + 0 by omega⟩
  | getSignal item k => exact fun _ => id
  | getUnlock item k => exact id

variable [Fintype T] [DecidableEq T]

theorem reachable_refines {client : Client T D K} {cap : ℕ} (hcap : 0 < cap) {mem : ℕ → Int}
    {d : D} {start : T → K} {s : State T (Shared T D) Cv (Pc K)}
    (h : (bufferSystem client cap mem d start).Reachable s) : Holds (Refines cap) s :=
  MonitorRule.reachable (code_disciplined client) (refines_rule client cap) (fun _ => rfl)
    (refines_init hcap mem d) h

theorem reachable_queue {client : Client T D K} {cap : ℕ} (hcap : 0 < cap) {mem : ℕ → Int}
    {d : D} {start : T → K} {s : State T (Shared T D) Cv (Pc K)}
    (h : (bufferSystem client cap mem d start).Reachable s) :
    ∃ q, BoundedQueue.run cap [] s.shared.history = some q := by
  have hholds := reachable_refines hcap h
  cases hm : s.mutex with
  | none =>
    obtain ⟨_, q, hrun, _⟩ := hholds.free hm
    exact ⟨q, hrun⟩
  | some t =>
    obtain ⟨pc, hs, _⟩ :=
      ((reachable_guarded (code_disciplined client) (fun _ => rfl) h).holder t).mp hm
    obtain ⟨_, q, hrun, _⟩ := hholds.held t pc hm hs
    exact ⟨q, hrun⟩

theorem count_bounds_of_free {client : Client T D K} {cap : ℕ} (hcap : 0 < cap) {mem : ℕ → Int}
    {d : D} {start : T → K} {s : State T (Shared T D) Cv (Pc K)}
    (h : (bufferSystem client cap mem d start).Reachable s) (hfree : s.mutex = none) :
    0 ≤ s.shared.count ∧ s.shared.count ≤ cap := by
  obtain ⟨rfl, q, hrun, _, hcount⟩ := (reachable_refines hcap h).free hfree
  have hle := BoundedQueue.run_length_le hrun (Nat.zero_le _)
  omega

end MultithreadMayhem.BoundedBuffer
