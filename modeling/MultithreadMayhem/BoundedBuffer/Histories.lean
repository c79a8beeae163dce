import MultithreadMayhem.BoundedBuffer.Calls
import MultithreadMayhem.BoundedBuffer.Progress

/-!
# The bounded buffer implements the atomic buffer

One direction is the refinement of the queue together with what each thread has
performed of its program. For the other direction the threads perform the calls of
a legal history one at a time; when no further call is possible they park.
-/

namespace MultithreadMayhem.BoundedBuffer

open Foundation Pthread Buffer BoundedQueue

variable {T : Type} [DecidableEq T]
variable [Fintype T] {cap : ℕ} {mem : ℕ → Int} {ops : T → List Op}
variable {s : State T (Shared T Unit) Cv (Pc Caller)} {left : T → List Op}

theorem reachable_legal (hcap : 0 < cap)
    (h : (bufferSystem (programs T) cap mem () (callers ops)).Reachable s) :
    ∃ (q : List Int) (p : T → Caller), Legal cap ops s.shared.history q (fun t => (p t).ops) ∧
      ∀ t, PlaceOf (s.status t).pc (p t) := by
  obtain ⟨q, hq⟩ := reachable_queue hcap h
  choose p hplace hafter using reachable_performed h
  exact ⟨q, p, ⟨hq, fun t => (hafter t).left⟩, hplace⟩

theorem stuck_blocked (hcap : 0 < cap)
    (h : (bufferSystem (programs T) cap mem () (callers ops)).Reachable s)
    (hstuck : ¬ CanStep (code (programs T)) s) :
    ∃ q left, Legal cap ops s.shared.history q left ∧ ∀ t, Blocked cap q (left t) := by
  obtain ⟨q, p, hl, hplace⟩ := reachable_legal hcap h
  refine ⟨q, _, hl, fun t => ?_⟩
  have hfree : s.mutex = none :=
    ((reachable_guarded (code_disciplined _) (fun _ => rfl) h).stuck (code_disciplined _) hstuck).1
  obtain ⟨rfl, q', hrun, _, hcount⟩ := (reachable_refines hcap h).free hfree
  obtain rfl : q = q' := Option.some.inj (hl.queue.symm.trans hrun)
  have hlength := run_length_le hrun (Nat.zero_le _)
  have hpc := hplace t
  generalize p t = left at hpc
  obtain ⟨k, hs, hstop⟩ | ⟨item, k, hs, hfull⟩ | ⟨k, hs, hempty⟩ := stuck_place h hstuck t
  · rw [hs] at hpc
    cases hpc with
    | client left =>
      match left with
      | ⟨[], items⟩ => trivial
      | ⟨.put item :: ops, items⟩ => obtain hstop | hstop := hstop <;> cases hstop
      | ⟨.get :: ops, items⟩ => obtain hstop | hstop := hstop <;> cases hstop
  · rw [hs] at hpc
    cases hpc with
    | putTest item ops items =>
      change q.length = s.shared.capacity
      omega
  · rw [hs] at hpc
    cases hpc with
    | getTest ops items => exact List.length_eq_zero_iff.mp (by omega)

/-- The threads perform a legal history one call at a time. -/
theorem legal_performed (mem : ℕ → Int) (hcap : 0 < cap) {h : List (Access T Int)} {q : List Int}
    (hl : Legal cap ops h q left) :
    ∃ s, (bufferSystem (programs T) cap mem () (callers ops)).Reachable s ∧
      (Quiet s fun t => .client ⟨left t, takenBy t h⟩) ∧ s.shared.history = h := by
  induction h using List.reverseRecOn generalizing q left with
  | nil =>
    refine ⟨_, .init, ⟨rfl, fun t => ?_⟩, rfl⟩
    have hleft := hl.calls t
    rw [accessesOf_nil, rest_nil] at hleft
    rw [← Option.some.inj hleft]
    rfl
  | append_singleton h e ih =>
    obtain ⟨q', op, hl', hcall⟩ := hl.concat
    obtain ⟨s, hreach, hquiet, hhist⟩ := ih hl'
    obtain ⟨hcapacity, q₀, hrun, hring, hcount⟩ := (reachable_refines hcap hreach).free hquiet.free
    rw [hhist] at hrun
    obtain rfl : q' = q₀ := Option.some.inj (hl'.queue.symm.trans hrun)
    have hstart := hquiet.place e.thread ▸ hreach
    rw [Function.update_self] at hstart
    have hothers (u : T) (hne : u ≠ e.thread) : Pc.client (⟨left u, takenBy u (h ++ [e])⟩ : Caller) =
        .client ⟨Function.update left e.thread (op :: left e.thread) u, takenBy u h⟩ := by
      rw [Function.update_of_ne hne, takenBy_of_ne hne.symm]
    have idle (cv : Cv) (u : T) (_ : u ≠ e.thread) : (s.status u).waitsOn cv = false := by
      rw [hquiet.status u]
      rfl
    obtain ⟨item, he, rfl, hlt, rfl⟩ | ⟨x, he, rfl, rfl⟩ := hcall
    · have htaken : takenBy e.thread (h ++ [e]) = takenBy e.thread h := by
        rw [he]
        exact takenBy_put _ h item
      refine ⟨_, reachable_put rfl hstart rfl (by omega) (idle .canGet),
        hquiet.advance (by rw [htaken]) hothers _, ?_⟩
      rw [he, ← hhist]
      rfl
    · rw [List.length_cons] at hcount
      have hx := (Ring.take hring).1
      have htaken : takenBy e.thread (h ++ [e]) = takenBy e.thread h ++ [x] := by
        rw [he]
        exact takenBy_get _ h x
      refine ⟨_, reachable_get rfl hstart rfl (by omega) (idle .canPut),
        hquiet.advance (by rw [htaken, hx]) hothers _, ?_⟩
      rw [he, ← hhist, ← hx]
      rfl

/-- The threads whose next calls are not possible park one after the other. -/
theorem quiet_stops (hcap : 0 < cap) {q : List Int} {items : T → List Int}
    (hreach : (bufferSystem (programs T) cap mem () (callers ops)).Reachable s)
    (hquiet : Quiet s fun t => .client ⟨left t, items t⟩)
    (hrun : BoundedQueue.run cap [] s.shared.history = some q)
    (hblocked : ∀ t, Blocked cap q (left t)) :
    ∃ s', (bufferSystem (programs T) cap mem () (callers ops)).Reachable s' ∧
      s'.shared = s.shared ∧ ∀ t, Finished (s'.status t) ∨ (s'.status t).isParked = true := by
  obtain ⟨hcapacity, q₀, hrun₀, _, hcount⟩ := (reachable_refines hcap hreach).free hquiet.free
  obtain rfl : q = q₀ := Option.some.inj (hrun.symm.trans hrun₀)
  refine hquiet.reachable_all hreach (P := fun _ st => Finished st ∨ st.isParked = true)
    fun t s' hreach' hfree hshared hst => ?_
  have hstart := State.eq_place hst ▸ hreach'
  rw [hfree] at hstart
  have hb := hblocked t
  generalize left t = l at hb hst hstart
  match l with
  | [] =>
    refine ⟨_, .inl ⟨items t, rfl⟩, ?_⟩
    rwa [← hst, Function.update_eq_self]
  | .put item :: l =>
    have hfull : s'.shared.count = s'.shared.capacity := by
      change q.length = cap at hb
      rw [hshared]
      omega
    have hpark := reachable_putPark rfl hstart rfl hfull
    rw [← hfree] at hpark
    exact ⟨_, .inr rfl, hpark⟩
  | .get :: l =>
    have hempty : s'.shared.count = 0 := by
      rw [hshared, hcount, show q = [] from hb]
      rfl
    have hpark := reachable_getPark rfl hstart rfl hempty
    rw [← hfree] at hpark
    exact ⟨_, .inr rfl, hpark⟩

theorem implements_atomic (hcap : 0 < cap) (mem : ℕ → Int) (ops : T → List Op) :
    Implements (bufferSystem (programs T) cap mem () (callers ops)) (fun s => s.shared.history)
      (fun s => ¬ CanStep (code (programs T)) s) cap ops where
  legal s h := by
    obtain ⟨q, p, hl, _⟩ := reachable_legal hcap h
    exact ⟨q, _, hl⟩
  performs h q left hl := by
    obtain ⟨s, hreach, _, hhist⟩ := legal_performed mem hcap hl
    exact ⟨s, hreach, hhist⟩
  blocked s h hstuck := stuck_blocked hcap h hstuck
  stops h q left hl hblocked := by
    obtain ⟨s, hreach, hquiet, rfl⟩ := legal_performed mem hcap hl
    obtain ⟨s', hreach', hshared, hstopped⟩ := quiet_stops hcap hreach hquiet hl.queue hblocked
    refine ⟨s', hreach', by rw [hshared], not_canStep_of_stopped fun t => ?_⟩
    obtain ⟨_, hs⟩ | hpark := hstopped t
    · exact .inl ⟨_, hs, .inr rfl⟩
    · exact .inr hpark
  begins := rfl
  grows s l s' h := (step_iff.mp h).shared (fun _ => .rfl) fun t pc => code_extendsBy _ t pc s.shared

end MultithreadMayhem.BoundedBuffer
