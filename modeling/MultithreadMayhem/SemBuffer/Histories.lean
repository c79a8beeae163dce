import MultithreadMayhem.SemBuffer.Calls
import MultithreadMayhem.SemBuffer.Progress

/-!
# The semaphore buffer implements the atomic buffer

As for the buffer with condition variables. Between two calls `full_slots` is the
number of items in the ring, so that a call blocks only where the atomic buffer
cannot perform it; a call that cannot be performed stops in its `sem_wait`.
-/

namespace MultithreadMayhem.SemBuffer

open Foundation Pthread Buffer BoundedQueue

variable {T : Type}

theorem fresh_start {cap : ℕ} (hcap : 0 < cap) (mem : ℕ → Int) :
    Fresh cap (bufferInit (T := T) cap mem (globals ())) :=
  fresh_bufferInit rfl hcap

variable [DecidableEq T] [Fintype T] {cap : ℕ} {mem : ℕ → Int} {ops : T → List Op}
variable {s : State T (Shared T Unit) Empty (Pc Caller)} {left : T → List Op}

theorem reachable_legal (hcap : 0 < cap)
    (h : (bufferSystem (programs T) cap mem () (callers ops)).Reachable s) :
    ∃ (q : List Int) (p : T → Caller), Legal cap ops s.shared.history q (fun t => (p t).ops) ∧
      ∀ t, PlaceOf (s.status t).pc (p t) := by
  obtain ⟨_, hr⟩ := reachable_refines_some (fresh_start hcap mem) h
  obtain ⟨q, hq, _⟩ := hr.follows (reachable_bounded (fresh_start hcap mem) h)
  choose p hplace hafter using reachable_performed rfl h
  exact ⟨q, p, ⟨hq, fun t => (hafter t).left⟩, hplace⟩

theorem stuck_blocked (hcap : 0 < cap)
    (h : (bufferSystem (programs T) cap mem () (callers ops)).Reachable s)
    (hstuck : ¬ CanStep (code (programs T)) s) :
    ∃ q left, Legal cap ops s.shared.history q left ∧ ∀ t, Blocked cap q (left t) := by
  obtain ⟨q, p, hl, hplace⟩ := reachable_legal hcap h
  refine ⟨q, _, hl, fun t => ?_⟩
  obtain ⟨hslots, q', hrun, hfull, _⟩ := stuck_slots (fresh_start hcap mem) h hstuck
  obtain rfl : q = q' := Option.some.inj (hl.queue.symm.trans hrun)
  have hpc := hplace t
  generalize p t = left at hpc
  obtain ⟨k, hs, hstop⟩ | ⟨item, k, hs, hzero⟩ | ⟨k, hs, hzero⟩ := stuck_place h hstuck t
  · rw [hs] at hpc
    cases hpc with
    | client left =>
      match left with
      | ⟨[], items⟩ => trivial
      | ⟨.put item :: ops, items⟩ => obtain hstop | hstop := hstop <;> cases hstop
      | ⟨.get :: ops, items⟩ => obtain hstop | hstop := hstop <;> cases hstop
  · rw [hs] at hpc
    cases hpc with
    | putWait item ops items =>
      change q.length = cap
      omega
  · rw [hs] at hpc
    cases hpc with
    | getWait ops items => exact List.length_eq_zero_iff.mp (by omega)

theorem quiet_slots (hcap : 0 < cap) {items : T → List Int}
    (hreach : (bufferSystem (programs T) cap mem () (callers ops)).Reachable s)
    (hquiet : Quiet s fun t => .client ⟨left t, items t⟩)
    {q : List Int} (hrun : BoundedQueue.run cap [] s.shared.history = some q) :
    s.shared.emptySlots + q.length = cap ∧ q.length = s.shared.fullSlots ∧
      Ring s.shared.buffer cap s.shared.inIdx s.shared.outIdx q 0 0 := by
  obtain ⟨hslots, q', hrun', hfull, hring⟩ :=
    idle_slots (fresh_start hcap mem) hreach hquiet.free fun t => by rw [hquiet.status t]; rfl
  obtain rfl : q = q' := Option.some.inj (hrun.symm.trans hrun')
  exact ⟨by omega, hfull, hring⟩

/-- The threads perform a legal history one call at a time. -/
theorem legal_performed (mem : ℕ → Int) (hcap : 0 < cap) {h : List (Access T Int)} {q : List Int}
    (hl : Legal cap ops h q left) :
    ∃ s, (bufferSystem (programs T) cap mem () (callers ops)).Reachable s ∧
      (Quiet s fun t => .client ⟨left t, takenBy t h⟩) ∧ s.shared.history = h := by
  induction h using List.reverseRecOn generalizing q left with
  | nil =>
    refine ⟨_, .init, ⟨rfl, fun t => ?_⟩, rfl⟩
    have hleft := hl.calls t
    rw [accessesOf_nil, rest_nil] at hleft
    rw [← Option.some.inj hleft]
    rfl
  | append_singleton h e ih =>
    obtain ⟨q', op, hl', hcall⟩ := hl.concat
    obtain ⟨s, hreach, hquiet, hhist⟩ := ih hl'
    obtain ⟨hempty, hfull, hring⟩ := quiet_slots hcap hreach hquiet (hhist ▸ hl'.queue)
    have hstart := hquiet.place e.thread ▸ hreach
    rw [Function.update_self] at hstart
    have hothers (u : T) (hne : u ≠ e.thread) : Pc.client (⟨left u, takenBy u (h ++ [e])⟩ : Caller) =
        .client ⟨Function.update left e.thread (op :: left e.thread) u, takenBy u h⟩ := by
      rw [Function.update_of_ne hne, takenBy_of_ne hne.symm]
    obtain ⟨item, he, rfl, hlt, rfl⟩ | ⟨x, he, rfl, rfl⟩ := hcall
    · have htaken : takenBy e.thread (h ++ [e]) = takenBy e.thread h := by
        rw [he]
        exact takenBy_put _ h item
      refine ⟨_, reachable_put rfl hstart rfl (by omega),
        hquiet.advance (by rw [htaken]) hothers _, ?_⟩
      rw [he, ← hhist]
      rfl
    · rw [List.length_cons] at hfull
      have hx := (Ring.take hring).1
      have htaken : takenBy e.thread (h ++ [e]) = takenBy e.thread h ++ [x] := by
        rw [he]
        exact takenBy_get _ h x
      refine ⟨_, reachable_get rfl hstart rfl (by omega),
        hquiet.advance (by rw [htaken, hx]) hothers _, ?_⟩
      rw [he, ← hhist, ← hx]
      rfl

/-- The thread has finished its program or stands before the `sem_wait` of the next call. -/
inductive Stopped : Status Empty (Pc Caller) → List Op → Prop
  | finished (items : List Int) : Stopped (.running (.client ⟨[], items⟩)) []
  | put (item : Int) (l : List Op) (items : List Int) :
    Stopped (.running (.putWait item ⟨l, items⟩)) (.put item :: l)
  | get (l : List Op) (items : List Int) :
    Stopped (.running (.getWait fun item => ⟨l, items ++ [item]⟩)) (.get :: l)

theorem quiet_stops {items : T → List Int}
    (hreach : (bufferSystem (programs T) cap mem () (callers ops)).Reachable s)
    (hquiet : Quiet s fun t => .client ⟨left t, items t⟩) :
    ∃ s', (bufferSystem (programs T) cap mem () (callers ops)).Reachable s' ∧
      s'.shared = s.shared ∧ ∀ t, Stopped (s'.status t) (left t) := by
  refine hquiet.reachable_all hreach (P := fun t st => Stopped st (left t))
    fun t s' hreach' hfree hshared hst => ?_
  have hstart := State.eq_place hst ▸ hreach'
  rw [hfree] at hstart
  generalize left t = l at hst hstart
  match l with
  | [] =>
    refine ⟨_, .finished (items t), ?_⟩
    rwa [← hst, Function.update_eq_self]
  | .put item :: l =>
    have hwait := reachable_putWait rfl hstart rfl
    rw [← hfree] at hwait
    exact ⟨_, .put item l (items t), hwait⟩
  | .get :: l =>
    have hwait := reachable_getWait rfl hstart rfl
    rw [← hfree] at hwait
    exact ⟨_, .get l (items t), hwait⟩

theorem implements_atomic (hcap : 0 < cap) (mem : ℕ → Int) (ops : T → List Op) :
    Implements (bufferSystem (programs T) cap mem () (callers ops)) (fun s => s.shared.history)
      (fun s => ¬ CanStep (code (programs T)) s) cap ops where
  legal s h := by
    obtain ⟨q, p, hl, _⟩ := reachable_legal hcap h
    exact ⟨q, _, hl⟩
  performs h q left hl := by
    obtain ⟨s, hreach, _, hhist⟩ := legal_performed mem hcap hl
    exact ⟨s, hreach, hhist⟩
  blocked s h hstuck := stuck_blocked hcap h hstuck
  stops h q left hl hblocked := by
    obtain ⟨s, hreach, hquiet, rfl⟩ := legal_performed mem hcap hl
    obtain ⟨hempty, hfull, _⟩ := quiet_slots hcap hreach hquiet hl.queue
    obtain ⟨s', hreach', hshared, hstopped⟩ := quiet_stops hreach hquiet
    refine ⟨s', hreach', by rw [hshared], not_canStep_of_stopped fun t => .inl ?_⟩
    have ht := hstopped t
    have hb := hblocked t
    revert ht hb
    generalize s'.status t = st
    generalize left t = l
    intro ht hb
    cases ht with
    | finished items => exact ⟨_, rfl, .inr rfl⟩
    | put item l items =>
      have hzero : ¬ 0 < s'.shared.emptySlots := by
        change q.length = cap at hb
        rw [hshared]
        omega
      exact ⟨_, rfl, .inl (if_neg hzero)⟩
    | get l items =>
      have hzero : ¬ 0 < s'.shared.fullSlots := by
        rw [hshared, ← hfull, show q = [] from hb]
        exact Nat.lt_irrefl 0
      exact ⟨_, rfl, .inl (if_neg hzero)⟩
  begins := rfl
  grows s l s' h := step_extends h

end MultithreadMayhem.SemBuffer
