import MultithreadMayhem.Pthread.Count
import MultithreadMayhem.SemBuffer.Callers

/-!
# The semaphore buffer refines a bounded FIFO queue

The values of the semaphores say little about the ring, because they change
outside the mutex. Every call in flight holds a token of one of them, and the
tokens are conserved; this bounds the number of items in the ring at each array
access. Under these bounds the ring follows the abstract queue.
-/

namespace MultithreadMayhem.SemBuffer

open Foundation Pthread Buffer

variable {T D K : Type}

/-- In `buffer_put`, past its `sem_wait` and before its `sem_post`. -/
def putInFlight : Status Empty (Pc K) → Bool
  | .running (.putLock ..) | .running (.putStore ..) | .running (.putAdvance ..)
  | .running (.putUnlock ..) | .running (.putPost ..) => true
  | _ => false

/-- In `buffer_get`, past its `sem_wait` and before its `sem_post`. -/
def getInFlight : Status Empty (Pc K) → Bool
  | .running (.getLock ..) | .running (.getRead ..) | .running (.getAdvance ..)
  | .running (.getUnlock ..) | .running (.getPost ..) => true
  | _ => false

/-- The thread holds a token of `full_slots` for an item in the ring: it has stored the item and
not posted yet, or it has waited for the item and not read it yet. -/
def holdsItem : Status Empty (Pc K) → Bool
  | .running (.putAdvance ..) | .running (.putUnlock ..) | .running (.putPost ..)
  | .running (.getLock ..) | .running (.getRead ..) => true
  | _ => false

def inFlight (st : Status Empty (Pc K)) : Bool := putInFlight st || getInFlight st

theorem inFlight_of_holdsItem {st : Status Empty (Pc K)} (h : holdsItem st = true) :
    inFlight st = true := by
  cases st with
  | running pc => cases pc <;> first | rfl | cases h
  | parked cv pc => exact cv.elim
  | woken pc => cases h

def tokensOut (s : Shared T D) : Int := s.capacity - s.emptySlots - s.fullSlots

def itemsOut (s : Shared T D) : Int :=
  (BoundedQueue.stored s.history).length - (BoundedQueue.taken s.history).length - s.fullSlots

theorem inFlight_rule (client : Client T D K) :
    CountRule (code client) tokensOut (inFlight (K := K)) := by
  refine ⟨fun t pc s => ?_, fun cv => cv.elim, ?_⟩
  · cases pc with
    | client k =>
      simp only [code]
      cases client t k s.data <;> trivial
    | putWait item k =>
      by_cases hpos : 0 < s.emptySlots
      · simp only [code, bufferPut, if_pos hpos]
        change (s.capacity : Int) - ((s.emptySlots - 1 : ℕ) : Int) - s.fullSlots + 0 =
          (s.capacity : Int) - s.emptySlots - s.fullSlots + 1
        omega
      · simp only [code, bufferPut, if_neg hpos]
        trivial
    | getWait k =>
      by_cases hpos : 0 < s.fullSlots
      · simp only [code, bufferGet, if_pos hpos]
        change (s.capacity : Int) - s.emptySlots - ((s.fullSlots - 1 : ℕ) : Int) + 0 =
          (s.capacity : Int) - s.emptySlots - s.fullSlots + 1
        omega
      · simp only [code, bufferGet, if_neg hpos]
        trivial
    | putPost k =>
      change (s.capacity : Int) - s.emptySlots - ((s.fullSlots + 1 : ℕ) : Int) + 1 =
        (s.capacity : Int) - s.emptySlots - s.fullSlots + 0
      omega
    | getPost item k =>
      change (s.capacity : Int) - ((s.emptySlots + 1 : ℕ) : Int) - s.fullSlots + 1 =
        (s.capacity : Int) - s.emptySlots - s.fullSlots + 0
      omega
    | _ => rfl
  · intro t pc s cv
    exact cv.elim

theorem holdsItem_rule (client : Client T D K) :
    CountRule (code client) itemsOut (holdsItem (K := K)) := by
  refine ⟨fun t pc s => ?_, fun cv => cv.elim, ?_⟩
  · cases pc with
    | client k =>
      simp only [code]
      cases client t k s.data <;> trivial
    | putWait item k =>
      by_cases hpos : 0 < s.emptySlots
      · simp only [code, bufferPut, if_pos hpos]
        rfl
      · simp only [code, bufferPut, if_neg hpos]
        trivial
    | putStore item k =>
      change itemsOut { s with history := s.history ++ [Access.put t item], buffer := _ } + 0 =
        itemsOut s + 1
      simp only [itemsOut, BoundedQueue.stored_append, BoundedQueue.taken_append,
        BoundedQueue.stored_put, BoundedQueue.taken_put, List.length_append, List.length_singleton,
        List.length_nil]
      omega
    | getWait k =>
      by_cases hpos : 0 < s.fullSlots
      · simp only [code, bufferGet, if_pos hpos]
        change itemsOut { s with fullSlots := s.fullSlots - 1 } + 0 = itemsOut s + 1
        simp only [itemsOut]
        omega
      · simp only [code, bufferGet, if_neg hpos]
        trivial
    | getRead k =>
      change itemsOut { s with history := s.history ++ [Access.get t (s.buffer s.outIdx)] } + 1 =
        itemsOut s + 0
      simp only [itemsOut, BoundedQueue.stored_append, BoundedQueue.taken_append,
        BoundedQueue.stored_get, BoundedQueue.taken_get, List.length_append, List.length_singleton,
        List.length_nil]
      omega
    | putPost k =>
      change itemsOut { s with fullSlots := s.fullSlots + 1 } + 1 = itemsOut s + 0
      simp only [itemsOut]
      omega
    | _ => rfl
  · intro t pc s cv
    exact cv.elim

/-- The ring holds `q`, as seen from the control point of the holder of the mutex. -/
def RingAt (s : Shared T D) (q : List Int) : Option (Pc K) → Prop
  | some (.putAdvance ..) => Ring s.buffer s.capacity s.inIdx s.outIdx q 0 1
  | some (.getAdvance ..) => Ring s.buffer s.capacity s.inIdx s.outIdx q 1 0
  | _ => Ring s.buffer s.capacity s.inIdx s.outIdx q 0 0

/-- Under the bounds on the number of items, the accesses so far are a run of the abstract queue,
whose contents are in the ring. -/
structure Refines (cap : ℕ) (s : Shared T D) (h : Option (Pc K)) : Prop where
  capacity : s.capacity = cap
  in_lt : s.inIdx < cap
  out_lt : s.outIdx < cap
  follows : BoundedQueue.Bounded cap s.history →
    ∃ q, BoundedQueue.run cap [] s.history = some q ∧ RingAt s q h

/-- An empty buffer of capacity `cap`, wherever its two indices meet. -/
structure Fresh (cap : ℕ) (x : Shared T D) : Prop where
  capacity : x.capacity = cap
  in_eq : x.inIdx = x.outIdx
  out_lt : x.outIdx < cap
  emptySlots : x.emptySlots = cap
  fullSlots : x.fullSlots = 0
  history : x.history = []

theorem fresh_bufferInit {cap : ℕ} {mem : ℕ → Int} {x : Shared T D} (hin : x.inIdx = x.outIdx)
    (hout : x.outIdx < cap) : Fresh cap (bufferInit cap mem x) :=
  ⟨rfl, hin, hout, rfl, rfl, rfl⟩

theorem Fresh.refines {cap : ℕ} {x : Shared T D} (hx : Fresh cap x) :
    Refines cap x (none : Option (Pc K)) := by
  refine ⟨hx.capacity, hx.in_eq ▸ hx.out_lt, hx.out_lt, fun _ => ⟨[], ?_, ?_⟩⟩
  · rw [hx.history]
    rfl
  · rw [RingAt, hx.in_eq, hx.capacity]
    · exact Ring.empty hx.out_lt
    · nofun
    · nofun

theorem Refines.frame {cap : ℕ} {s s' : Shared T D} {h : Option (Pc K)} (hr : Refines cap s h)
    (hbuffer : s'.buffer = s.buffer) (hcapacity : s'.capacity = s.capacity)
    (hin : s'.inIdx = s.inIdx) (hout : s'.outIdx = s.outIdx) (hhist : s'.history = s.history) :
    Refines cap s' h := by
  obtain ⟨rfl, hi, ho, hf⟩ := hr
  refine ⟨hcapacity, hin ▸ hi, hout ▸ ho, fun hb => ?_⟩
  obtain ⟨q, hrun, hq⟩ := hf (hhist ▸ hb)
  refine ⟨q, hhist ▸ hrun, ?_⟩
  cases h with
  | none => simpa only [RingAt, hbuffer, hcapacity, hin, hout] using hq
  | some pc => cases pc <;> simpa only [RingAt, hbuffer, hcapacity, hin, hout] using hq

theorem refines_rule (client : Client T D K) (cap : ℕ) :
    MonitorRule (code client) Pc.inside (Refines cap) := by
  intro t pc s
  cases pc with
  | client k =>
    simp only [code]
    cases client t k s.data with
    | step d k => exact fun h hr => hr.frame rfl rfl rfl rfl rfl
    | put item k => exact fun h hr => hr
    | get k => exact fun h hr => hr
    | block => trivial
    | finish => trivial
  | putWait item k =>
    by_cases hpos : 0 < s.emptySlots
    · simp only [code, bufferPut, if_pos hpos]
      exact fun h hr => hr.frame rfl rfl rfl rfl rfl
    · simp only [code, bufferPut, if_neg hpos]
      trivial
  | getWait k =>
    by_cases hpos : 0 < s.fullSlots
    · simp only [code, bufferGet, if_pos hpos]
      exact fun h hr => hr.frame rfl rfl rfl rfl rfl
    · simp only [code, bufferGet, if_neg hpos]
      trivial
  | putPost k => exact fun h hr => hr.frame rfl rfl rfl rfl rfl
  | getPost item k => exact fun h hr => hr.frame rfl rfl rfl rfl rfl
  | putLock item k => exact fun hr => ⟨hr.capacity, hr.in_lt, hr.out_lt, hr.follows⟩
  | getLock k => exact fun hr => ⟨hr.capacity, hr.in_lt, hr.out_lt, hr.follows⟩
  | putUnlock k => exact fun hr => ⟨hr.capacity, hr.in_lt, hr.out_lt, hr.follows⟩
  | getUnlock item k => exact fun hr => ⟨hr.capacity, hr.in_lt, hr.out_lt, hr.follows⟩
  | putStore item k =>
    refine fun hr => ⟨hr.capacity, hr.in_lt, hr.out_lt, fun hb => ?_⟩
    obtain ⟨hbefore, _, hroom⟩ := BoundedQueue.bounded_concat_iff.mp hb
    obtain ⟨q, hrun, hq⟩ := hr.follows hbefore
    have hlen := BoundedQueue.run_length hrun
    simp only [BoundedQueue.stored_append, BoundedQueue.taken_append, BoundedQueue.stored_put,
      BoundedQueue.taken_put, List.length_append, List.length_singleton, List.length_nil] at hroom
    have hlt : q.length < cap := by omega
    exact ⟨q ++ [item], BoundedQueue.run_put hrun hlt t item, Ring.store hq (hr.capacity ▸ hlt) item⟩
  | putAdvance k =>
    have hpos (hr : Refines cap s (some (.putAdvance k))) : 0 < s.capacity :=
      hr.capacity ▸ Nat.zero_lt_of_lt hr.in_lt
    refine fun hr => ⟨hr.capacity, hr.capacity ▸ Nat.mod_lt _ (hpos hr), hr.out_lt, fun hb => ?_⟩
    obtain ⟨q, hrun, hq⟩ := hr.follows hb
    exact ⟨q, hrun, Ring.advanceIn hq⟩
  | getRead k =>
    refine fun hr => ⟨hr.capacity, hr.in_lt, hr.out_lt, fun hb => ?_⟩
    obtain ⟨hbefore, hitem, _⟩ := BoundedQueue.bounded_concat_iff.mp hb
    obtain ⟨q, hrun, hq⟩ := hr.follows hbefore
    have hlen := BoundedQueue.run_length hrun
    simp only [BoundedQueue.stored_append, BoundedQueue.taken_append, BoundedQueue.stored_get,
      BoundedQueue.taken_get, List.length_append, List.length_singleton, List.length_nil] at hitem
    cases q with
    | nil =>
      rw [List.length_nil] at hlen
      omega
    | cons x q =>
      obtain ⟨hx, hq⟩ := Ring.take hq
      exact ⟨q, hx ▸ BoundedQueue.run_get hrun t, hq⟩
  | getAdvance item k =>
    have hpos (hr : Refines cap s (some (.getAdvance item k))) : 0 < s.capacity :=
      hr.capacity ▸ Nat.zero_lt_of_lt hr.in_lt
    refine fun hr => ⟨hr.capacity, hr.in_lt, hr.capacity ▸ Nat.mod_lt _ (hpos hr), fun hb => ?_⟩
    obtain ⟨q, hrun, hq⟩ := hr.follows hb
    exact ⟨q, hrun, Ring.advanceOut hq⟩

section Reachable

variable [Fintype T] [DecidableEq T] {client : Client T D K} {cap : ℕ} {x : Shared T D}
variable {start : T → K} {s s' : State T (Shared T D) Empty (Pc K)}

theorem step_extends {l : Label T} (h : Pthread.step (code client) s l = some s') :
    ∃ t, BoundedQueue.ExtendsBy t s.shared.history s'.shared.history :=
  (step_iff.mp h).shared (fun _ => .rfl) fun t pc => code_extendsBy client t pc s.shared

theorem reachable_refines (hx : Fresh cap x) (h : (systemFrom client x start).Reachable s) :
    Holds (Refines cap) s :=
  MonitorRule.reachable (code_disciplined client) (refines_rule client cap) (fun _ => rfl)
    hx.refines h

theorem reachable_refines_some (hx : Fresh cap x) (h : (systemFrom client x start).Reachable s) :
    ∃ pc : Option (Pc K), Refines cap s.shared pc := by
  have hholds := reachable_refines hx h
  cases hm : s.mutex with
  | none => exact ⟨none, hholds.free hm⟩
  | some t =>
    obtain ⟨pc, hs, _⟩ := ((reachable_guarded (code_disciplined client) (fun _ => rfl) h).holder t).mp hm
    exact ⟨some pc, hholds.held t pc hm hs⟩

theorem reachable_tokensOut (hx : Fresh cap x) (h : (systemFrom client x start).Reachable s) :
    tokensOut s.shared = countThreads inFlight s.status := by
  refine (inFlight_rule client).reachable (code_disciplined client) (fun _ => rfl) ?_
    (fun _ => rfl) h
  rw [tokensOut, hx.capacity, hx.emptySlots, hx.fullSlots]
  omega

theorem reachable_itemsOut (hx : Fresh cap x) (h : (systemFrom client x start).Reachable s) :
    itemsOut s.shared = countThreads holdsItem s.status := by
  refine (holdsItem_rule client).reachable (code_disciplined client) (fun _ => rfl) ?_
    (fun _ => rfl) h
  rw [itemsOut, hx.history, hx.fullSlots]
  rfl

omit [DecidableEq T] in
theorem countThreads_inFlight (f : T → Status Empty (Pc K)) :
    countThreads inFlight f = countThreads putInFlight f + countThreads getInFlight f := by
  refine countThreads_or fun st hput => ?_
  cases st with
  | running pc => cases pc <;> first | rfl | cases hput
  | parked cv => exact cv.elim
  | woken => rfl

/-- The items in the ring are those that `full_slots` counts and those that calls hold tokens of. -/
theorem reachable_lengths (hx : Fresh cap x) (h : (systemFrom client x start).Reachable s) :
    (BoundedQueue.taken s.shared.history).length ≤ (BoundedQueue.stored s.shared.history).length ∧
      (BoundedQueue.stored s.shared.history).length ≤
        (BoundedQueue.taken s.shared.history).length + cap := by
  have htokens := reachable_tokensOut hx h
  have hitems := reachable_itemsOut hx h
  have hle : countThreads holdsItem s.status ≤ countThreads inFlight s.status :=
    countThreads_mono fun t => inFlight_of_holdsItem
  obtain ⟨_, hr⟩ := reachable_refines_some hx h
  have hcapacity := hr.capacity
  simp only [tokensOut, itemsOut] at htokens hitems
  omega

theorem reachable_bounded (hx : Fresh cap x) (h : (systemFrom client x start).Reachable s) :
    BoundedQueue.Bounded cap s.shared.history := by
  induction h with
  | init =>
    change BoundedQueue.Bounded cap x.history
    rw [hx.history]
    exact BoundedQueue.bounded_nil
  | @step s s' l hr hs ih =>
    have hlen := reachable_lengths hx (hr.step hs)
    obtain ⟨t, heq | ⟨e, _, heq⟩⟩ := step_extends hs
    · rwa [heq]
    · rw [heq] at hlen ⊢
      exact BoundedQueue.bounded_concat_iff.mpr ⟨ih, hlen⟩

end Reachable

/-- In every reachable state the tokens are conserved, the values read are a prefix of the values
written, and the accesses so far are a run of a FIFO queue of capacity `cap`. A thread between two
calls has been returned the values that it has read. -/
theorem sem_buffer_fifo [Fintype T] [DecidableEq T] {cap : ℕ} (hcap : 0 < cap) {mem : ℕ → Int}
    {ops : T → List Op} {s : State T (Shared T Unit) Empty (Pc Caller)}
    (h : (bufferSystem (programs T) cap mem () (callers ops)).Reachable s) :
    s.shared.emptySlots + s.shared.fullSlots + countThreads putInFlight s.status +
        countThreads getInFlight s.status = cap ∧
      BoundedQueue.taken s.shared.history <+: BoundedQueue.stored s.shared.history ∧
      (BoundedQueue.taken s.shared.history).length ≤
        (BoundedQueue.stored s.shared.history).length ∧
      (BoundedQueue.stored s.shared.history).length ≤
        (BoundedQueue.taken s.shared.history).length + cap ∧
      s.shared.inIdx < cap ∧ s.shared.outIdx < cap ∧
      (BoundedQueue.run cap [] s.shared.history).isSome = true ∧
      ∀ t p, s.status t = .running (.client p) →
        p.returned = BoundedQueue.takenBy t s.shared.history := by
  have hx : Fresh cap (bufferInit (T := T) cap mem (globals ())) := fresh_bufferInit rfl hcap
  obtain ⟨_, hr⟩ := reachable_refines_some hx h
  obtain ⟨q, hrun, _⟩ := hr.follows (reachable_bounded hx h)
  have htokens := reachable_tokensOut hx h
  have hsum := countThreads_inFlight s.status
  have hcapacity := hr.capacity
  obtain ⟨hle, hroom⟩ := reachable_lengths hx h
  have hconserves := BoundedQueue.run_conserves hrun
  rw [List.nil_append] at hconserves
  simp only [tokensOut] at htokens
  exact ⟨by omega, ⟨q, hconserves.symm⟩, hle, hroom, hr.in_lt, hr.out_lt, by rw [hrun]; rfl,
    fun _ _ => returned_eq rfl h⟩

theorem sem_buffer_fifo_one_slot :
    let ops : Fin 2 → List Op := fun t => if t = 0 then [.put 7, .put 8] else [.get]
    ∃ s, (bufferSystem (programs (Fin 2)) 1 (fun _ => 0) () (callers ops)).Reachable s ∧
      s.shared.emptySlots = 0 ∧ s.shared.fullSlots = 0 ∧
      BoundedQueue.stored s.shared.history = [7] ∧
      s.shared.emptySlots + s.shared.fullSlots + countThreads putInFlight s.status +
        countThreads getInFlight s.status = 1 := by
  intro ops
  have hreach := System.reachable_of_run
    (M := bufferSystem (programs (Fin 2)) 1 (fun _ => 0) () (callers ops))
    (List.replicate 6 (Label.run 0) ++ List.replicate 1 (Label.run 1)) rfl
  exact ⟨_, hreach, rfl, rfl, rfl, (sem_buffer_fifo (by decide) hreach).1⟩

end MultithreadMayhem.SemBuffer
