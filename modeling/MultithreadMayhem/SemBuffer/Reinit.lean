import MultithreadMayhem.SemBuffer.Calls

/-!
# A second `buffer_init`

`buffer_init` resets the semaphores and the array, but neither `in` nor `out`. The
indices that the first life of the buffer leaves behind are the numbers of its puts
and gets modulo the first capacity. The second life is that of a fresh buffer
exactly when the two indices have met below the second capacity.
-/

namespace MultithreadMayhem.SemBuffer

open Foundation Pthread Buffer BoundedQueue

variable {T D K : Type}

structure Offsets (cap : ℕ) (s : Shared T D) (written read : ℕ) : Prop where
  capacity : s.capacity = cap
  in_mod : (s.inIdx + written) % cap = (stored s.history).length % cap
  out_mod : (s.outIdx + read) % cap = (taken s.history).length % cap

def Indexed (cap : ℕ) (s : Shared T D) : Option (Pc K) → Prop
  | some (.putAdvance ..) => Offsets cap s 1 0
  | some (.getAdvance ..) => Offsets cap s 0 1
  | _ => Offsets cap s 0 0

theorem Offsets.frame {cap : ℕ} {s s' : Shared T D} {written read : ℕ}
    (h : Offsets cap s written read) (hcapacity : s'.capacity = s.capacity)
    (hin : s'.inIdx = s.inIdx) (hout : s'.outIdx = s.outIdx) (hhist : s'.history = s.history) :
    Offsets cap s' written read := by
  obtain ⟨hc, hi, ho⟩ := h
  exact ⟨hcapacity.trans hc, by rwa [hin, hhist], by rwa [hout, hhist]⟩

theorem Indexed.frame {cap : ℕ} {s s' : Shared T D} {h : Option (Pc K)} (hi : Indexed cap s h)
    (hcapacity : s'.capacity = s.capacity) (hin : s'.inIdx = s.inIdx)
    (hout : s'.outIdx = s.outIdx) (hhist : s'.history = s.history) : Indexed cap s' h := by
  cases h with
  | none => exact Offsets.frame hi hcapacity hin hout hhist
  | some pc => cases pc <;> exact Offsets.frame hi hcapacity hin hout hhist

theorem indexed_rule (client : Client T D K) (cap : ℕ) :
    MonitorRule (code client) Pc.inside (Indexed cap) := by
  intro t pc s
  cases pc with
  | client k =>
    simp only [code]
    cases client t k s.data with
    | step d k => exact fun h hi => hi.frame rfl rfl rfl rfl
    | put item k => exact fun h hi => hi
    | get k => exact fun h hi => hi
    | block => trivial
    | finish => trivial
  | putWait item k =>
    by_cases hpos : 0 < s.emptySlots
    · simp only [code, bufferPut, if_pos hpos]
      exact fun h hi => hi.frame rfl rfl rfl rfl
    · simp only [code, bufferPut, if_neg hpos]
      trivial
  | getWait k =>
    by_cases hpos : 0 < s.fullSlots
    · simp only [code, bufferGet, if_pos hpos]
      exact fun h hi => hi.frame rfl rfl rfl rfl
    · simp only [code, bufferGet, if_neg hpos]
      trivial
  | putPost k => exact fun h hi => hi.frame rfl rfl rfl rfl
  | getPost item k => exact fun h hi => hi.frame rfl rfl rfl rfl
  | putLock item k => exact id
  | getLock k => exact id
  | putUnlock k => exact id
  | getUnlock item k => exact id
  | putStore item k =>
    refine fun hi => ?_
    obtain ⟨hc, hin, hout⟩ : Offsets cap s 0 0 := hi
    refine ⟨hc, ?_, ?_⟩
    · simp only [stored_append, stored_put, List.length_append, List.length_singleton]
      exact Nat.ModEq.add_right 1 hin
    · simpa using hout
  | getRead k =>
    refine fun hi => ?_
    obtain ⟨hc, hin, hout⟩ : Offsets cap s 0 0 := hi
    refine ⟨hc, ?_, ?_⟩
    · simpa using hin
    · simp only [taken_append, taken_get, List.length_append, List.length_singleton]
      exact Nat.ModEq.add_right 1 hout
  | putAdvance k =>
    refine fun hi => ?_
    obtain ⟨hc, hin, hout⟩ : Offsets cap s 1 0 := hi
    refine ⟨hc, ?_, hout⟩
    rw [Nat.add_zero, hc, Nat.mod_mod]
    exact hin
  | getAdvance item k =>
    refine fun hi => ?_
    obtain ⟨hc, hin, hout⟩ : Offsets cap s 0 1 := hi
    refine ⟨hc, hin, ?_⟩
    rw [Nat.add_zero, hc, Nat.mod_mod]
    exact hout

variable [Fintype T] [DecidableEq T]

def Returned (s : State T (Shared T D) Empty (Pc K)) : Prop :=
  ∀ t, ∃ k, s.status t = .running (.client k)

/-- The indices that completed calls leave behind. -/
theorem indices_of_returned {client : Client T D K} {cap : ℕ} (hcap : 0 < cap) {mem : ℕ → Int}
    {d : D} {start : T → K} {s : State T (Shared T D) Empty (Pc K)}
    (h : (bufferSystem client cap mem d start).Reachable s) (hreturned : Returned s) :
    s.shared.inIdx = (stored s.shared.history).length % cap ∧
      s.shared.outIdx = (taken s.shared.history).length % cap := by
  have hguarded : Guarded (code client) Pc.inside s :=
    reachable_guarded (code_disciplined client) (fun _ => rfl) h
  have hfree : s.mutex = none := by
    cases hm : s.mutex with
    | none => rfl
    | some t =>
      obtain ⟨pc, hs, hi⟩ := (hguarded.holder t).mp hm
      obtain ⟨k, hk⟩ := hreturned t
      rw [hk] at hs
      cases hs
      cases hi
  have hindexed : Holds (Indexed cap) s :=
    MonitorRule.reachable (code_disciplined client) (indexed_rule client cap) (fun _ => rfl)
      (⟨rfl, rfl, rfl⟩ : Offsets cap (bufferInit cap mem (globals d)) 0 0) h
  obtain ⟨_, hin, hout⟩ : Offsets cap s.shared 0 0 := hindexed.free hfree
  have hr := (reachable_refines (fresh_bufferInit rfl hcap) h).free hfree
  rw [Nat.add_zero, Nat.mod_eq_of_lt hr.in_lt] at hin
  rw [Nat.add_zero, Nat.mod_eq_of_lt hr.out_lt] at hout
  exact ⟨hin, hout⟩

/-- Every run from the globals `x` accesses slots below `cap` only and is a FIFO queue, and each
thread is returned the values that it takes out of this queue. -/
def Behaves (cap : ℕ) (x : Shared T Unit) : Prop :=
  ∀ (ops : T → List Op) (s : State T (Shared T Unit) Empty (Pc Caller)),
    (systemFrom (programs T) x (callers ops)).Reachable s →
      (∀ t item k, s.status t = .running (.putStore item k) → s.shared.inIdx < cap) ∧
      (∀ t k, s.status t = .running (.getRead k) → s.shared.outIdx < cap) ∧
      taken s.shared.history <+: stored s.shared.history ∧
      ∀ t p, s.status t = .running (.client p) → p.returned = takenBy t s.shared.history

theorem Fresh.behaves {cap : ℕ} {x : Shared T Unit} (hx : Fresh cap x) : Behaves cap x := by
  intro ops s h
  obtain ⟨_, hr⟩ := reachable_refines_some hx h
  obtain ⟨q, hrun, _⟩ := hr.follows (reachable_bounded hx h)
  have hconserves := run_conserves hrun
  rw [List.nil_append] at hconserves
  exact ⟨fun _ _ _ _ => hr.in_lt, fun _ _ _ => hr.out_lt, ⟨q, hconserves.symm⟩,
    fun _ _ => returned_eq hx.history h⟩

theorem reachable_putGet (t : T) (item : Int) (x : Shared T Unit) (hempty : 0 < x.emptySlots) :
    let M := systemFrom (programs T) x (callers fun _ => [.put item, .get])
    M.Reachable (M.init.place t (.putStore item ⟨[.get], []⟩)
        { x with emptySlots := x.emptySlots - 1 } (some t)) ∧
      M.Reachable (M.init.place t (.getRead fun y => ⟨[], [y]⟩)
        { x.put t item with fullSlots := x.fullSlots } (some t)) ∧
      M.Reachable (M.init.place t (.client ⟨[], [(x.put t item).buffer x.outIdx]⟩)
        ((x.put t item).get t) none) := by
  intro M
  have hM : M.step = Pthread.step (code (programs T)) := rfl
  have hstart : M.Reachable (M.init.place t (.client ⟨[.put item, .get], []⟩) x none) :=
    (State.eq_place (s := M.init) (t := t) rfl) ▸ .init
  have hput := reachable_put hM hstart rfl hempty
  exact ⟨reachable_putStore hM hstart rfl hempty,
    reachable_getRead hM hput rfl (Nat.succ_pos _), reachable_get hM hput rfl (Nat.succ_pos _)⟩

/-- A put and a get show where the indices are. -/
theorem Behaves.indices [Nonempty T] {cap : ℕ} (hcap : 0 < cap) {mem : ℕ → Int} {x : Shared T Unit}
    (h : Behaves cap (bufferInit cap mem x)) : x.inIdx = x.outIdx ∧ x.outIdx < cap := by
  obtain ⟨t⟩ := ‹Nonempty T›
  obtain ⟨hstore, hread, hget⟩ :=
    reachable_putGet t (mem x.outIdx + 1) (bufferInit cap mem x) hcap
  have hout : x.outIdx < cap := (h _ _ hread).2.1 t _ State.place_status_self
  refine ⟨?_, hout⟩
  have hfirst : [Function.update mem x.inIdx (mem x.outIdx + 1) x.outIdx] <+:
      [mem x.outIdx + 1] := (h _ _ hget).2.2.1
  have hvalue := List.head_eq_of_cons_eq (hfirst.eq_of_length rfl)
  by_contra hne
  rw [Function.update_of_ne (Ne.symm hne)] at hvalue
  omega

omit [Fintype T] [DecidableEq T] in
theorem history_eq_nil [IsEmpty T] (h : List (Access T Int)) : h = [] := by
  cases h with
  | nil => rfl
  | cons e h => exact isEmptyElim e.thread

/-- After a first life of completed calls, a second `buffer_init` gives a fresh buffer exactly when
the numbers of puts and gets agree modulo the first capacity, at an index of the second array. -/
theorem reinit_behaves_iff {cap₁ cap₂ : ℕ} (hcap₁ : 0 < cap₁) (hcap₂ : 0 < cap₂)
    {mem₁ mem mem₂ : ℕ → Int} {emptySlots fullSlots : ℕ} {ops : T → List Op}
    {s : State T (Shared T Unit) Empty (Pc Caller)}
    (h : (bufferSystem (programs T) cap₁ mem₁ () (callers ops)).Reachable s) (hreturned : Returned s) :
    Behaves cap₂ (bufferInit cap₂ mem₂ (bufferDestroy mem emptySlots fullSlots s.shared)) ↔
      (stored s.shared.history).length % cap₁ = (taken s.shared.history).length % cap₁ ∧
        (taken s.shared.history).length % cap₁ < cap₂ := by
  obtain ⟨hin, hout⟩ := indices_of_returned hcap₁ h hreturned
  rw [← hin, ← hout]
  constructor
  · intro hbehaves
    obtain hempty | hthread := isEmpty_or_nonempty T
    · rw [hin, hout, history_eq_nil s.shared.history]
      exact ⟨rfl, by simpa using hcap₂⟩
    · exact hbehaves.indices hcap₂
  · rintro ⟨hmet, hlt⟩
    exact (fresh_bufferInit hmet hlt).behaves

theorem reachable_drained {cap : ℕ} (hcap : 0 < cap) :
    ∃ s, (bufferSystem (programs (Fin 1)) cap (fun _ => 0) ()
        (callers fun _ => [.put 7, .get])).Reachable s ∧
      Returned s ∧ (stored s.shared.history).length = 1 ∧ (taken s.shared.history).length = 1 := by
  refine ⟨_, (reachable_putGet 0 7 (bufferInit cap (fun _ => 0) (globals ())) hcap).2.2,
    fun t => ?_, rfl, rfl⟩
  obtain rfl : t = 0 := Subsingleton.elim t 0
  exact ⟨_, State.place_status_self⟩

theorem reinit_behaves_iff_drained :
    ∃ s, (bufferSystem (programs (Fin 1)) 1 (fun _ => 0) ()
        (callers fun _ => [.put 7, .get])).Reachable s ∧
      Behaves 3 (bufferInit 3 (fun _ => 0) (bufferDestroy (fun _ => 0) 0 0 s.shared)) := by
  obtain ⟨s, hreach, hreturned, hstored, htaken⟩ := reachable_drained Nat.one_pos
  refine ⟨s, hreach, (reinit_behaves_iff (by decide) (by decide) hreach hreturned).mpr ?_⟩
  rw [hstored, htaken]
  decide

/-- After a put and a get in a buffer of two slots, a second `buffer_init(1)` leaves `in` at 1: the
next put writes behind the end of the array. -/
theorem reinit_out_of_bounds :
    ¬ ∀ cap₁ cap₂ : ℕ, 0 < cap₁ → 0 < cap₂ → ∀ (mem₁ mem mem₂ : ℕ → Int)
      (emptySlots fullSlots : ℕ) (ops : Fin 1 → List Op)
      (s : State (Fin 1) (Shared (Fin 1) Unit) Empty (Pc Caller)),
      (bufferSystem (programs (Fin 1)) cap₁ mem₁ () (callers ops)).Reachable s → Returned s →
        Behaves cap₂ (bufferInit cap₂ mem₂ (bufferDestroy mem emptySlots fullSlots s.shared)) := by
  intro hclaim
  obtain ⟨s, hreach, hreturned, hstored, htaken⟩ := reachable_drained Nat.two_pos
  have hbehaves := hclaim 2 1 (by decide) (by decide) _ (fun _ => 0) (fun _ => 0) 0 0 _ s hreach
    hreturned
  have hindices := hbehaves.indices Nat.one_pos
  have hlt : s.shared.inIdx < 1 := hindices.1.trans_lt hindices.2
  rw [(indices_of_returned Nat.two_pos hreach hreturned).1, hstored] at hlt
  omega

end MultithreadMayhem.SemBuffer
