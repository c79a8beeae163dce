import MultithreadMayhem.Pthread.Local
import MultithreadMayhem.SemBuffer.Progress
import Mathlib.Algebra.BigOperators.Fin
import Mathlib.Algebra.Order.BigOperators.Group.Finset

/-!
# A balanced workload runs to its end

`producer` and `consumer` of `sem_buffer.c`, for any number of producers and
consumers and any number of items for each. When as many items are put as are
taken out, the threads stop only at their ends.
-/

namespace MultithreadMayhem.SemBuffer

open Foundation Pthread Buffer BoundedQueue

variable {producers consumers : ℕ}

abbrev Worker (producers consumers : ℕ) := Fin producers ⊕ Fin consumers

/-- The rest of the loop of a thread; a consumer keeps the items that it has received. -/
inductive Work
  | produce (items : List Int)
  | consume (left : ℕ) (received : List Int)

/-- `producer(arg)` and `consumer(arg)`. -/
def workers : Client (Worker producers consumers) Unit Work
  | _, .produce (item :: items), _ => .put item (.produce items)
  | _, .consume (left + 1) received, _ => .get fun item => .consume left (received ++ [item])
  | _, .produce [], _ => .finish
  | _, .consume 0 _, _ => .finish

def workersStart (items : Fin producers → List Int) (gets : ℕ) :
    Worker producers consumers → Work
  | .inl p => .produce (items p)
  | .inr _ => .consume gets []

def workersSystem (consumers cap : ℕ) (mem : ℕ → Int) (items : Fin producers → List Int)
    (gets : ℕ) : System (State (Worker producers consumers)
      (Shared (Worker producers consumers) Unit) Empty (Pc Work)) (Label (Worker producers consumers)) :=
  bufferSystem workers cap mem () (workersStart items gets)

/-- The control points of a producer, with the items that it has yet to store. -/
inductive ProducerPc : Pc Work → List Int → Prop
  | next (l : List Int) : ProducerPc (.client (.produce l)) l
  | wait (item : Int) (l : List Int) : ProducerPc (.putWait item (.produce l)) (item :: l)
  | lock (item : Int) (l : List Int) : ProducerPc (.putLock item (.produce l)) (item :: l)
  | store (item : Int) (l : List Int) : ProducerPc (.putStore item (.produce l)) (item :: l)
  | advance (l : List Int) : ProducerPc (.putAdvance (.produce l)) l
  | unlock (l : List Int) : ProducerPc (.putUnlock (.produce l)) l
  | post (l : List Int) : ProducerPc (.putPost (.produce l)) l

/-- The control points of a consumer, with the items that it has yet to take out and those that it
has taken out. -/
inductive ConsumerPc : Pc Work → ℕ → List Int → Prop
  | next (n : ℕ) (l : List Int) : ConsumerPc (.client (.consume n l)) n l
  | wait (n : ℕ) (l : List Int) :
    ConsumerPc (.getWait fun item => .consume n (l ++ [item])) (n + 1) l
  | lock (n : ℕ) (l : List Int) :
    ConsumerPc (.getLock fun item => .consume n (l ++ [item])) (n + 1) l
  | read (n : ℕ) (l : List Int) :
    ConsumerPc (.getRead fun item => .consume n (l ++ [item])) (n + 1) l
  | advance (item : Int) (n : ℕ) (l : List Int) :
    ConsumerPc (.getAdvance item fun item => .consume n (l ++ [item])) n (l ++ [item])
  | unlock (item : Int) (n : ℕ) (l : List Int) :
    ConsumerPc (.getUnlock item fun item => .consume n (l ++ [item])) n (l ++ [item])
  | post (item : Int) (n : ℕ) (l : List Int) :
    ConsumerPc (.getPost item fun item => .consume n (l ++ [item])) n (l ++ [item])

def Accounts (items : Fin producers → List Int) (gets : ℕ) :
    Worker producers consumers → Shared (Worker producers consumers) Unit → Pc Work → Prop
  | .inl p, x, pc => takenBy (.inl p) x.history = [] ∧
    ∃ l, ProducerPc pc l ∧ storedBy (.inl p) x.history ++ l = items p
  | .inr c, x, pc => storedBy (.inr c) x.history = [] ∧
    ∃ n l, ConsumerPc pc n l ∧ takenBy (.inr c) x.history = l ∧ l.length + n = gets

theorem Accounts.others {items : Fin producers → List Int} {gets : ℕ}
    {t u : Worker producers consumers} {x y : Shared (Worker producers consumers) Unit}
    {pc : Pc Work} (h : Accounts items gets t x pc) (hext : ExtendsBy u x.history y.history)
    (hne : u ≠ t) : Accounts items gets t y pc := by
  have haccesses := hext.accessesOf_eq hne
  cases t with
  | inl p => simpa only [Accounts, storedBy, takenBy, haccesses] using h
  | inr c => simpa only [Accounts, storedBy, takenBy, haccesses] using h

theorem producer_own {items : Fin producers → List Int} {gets : ℕ} {p : Fin producers}
    {x : Shared (Worker producers consumers) Unit} {pc : Pc Work}
    (h : Accounts items gets (.inl p) x pc) :
    (code workers (.inl p) pc x).Leads (fun y st => Accounts items gets (.inl p) y st.pc) x := by
  obtain ⟨htaken, l, hpc, hl⟩ := h
  cases hpc with
  | next l =>
    cases l with
    | nil => trivial
    | cons item l => exact ⟨htaken, _, .wait item l, hl⟩
  | wait item l =>
    simp only [code, bufferPut]
    split
    · exact ⟨htaken, _, .lock item l, hl⟩
    · trivial
  | lock item l => exact ⟨htaken, _, .store item l, hl⟩
  | store item l =>
    refine ⟨?_, _, .advance l, ?_⟩
    · rwa [takenBy_put]
    · rw [storedBy_put, List.append_assoc]
      exact hl
  | advance l => exact ⟨htaken, _, .unlock l, hl⟩
  | unlock l => exact ⟨htaken, _, .post l, hl⟩
  | post l => exact ⟨htaken, _, .next l, hl⟩

theorem consumer_own {items : Fin producers → List Int} {gets : ℕ} {c : Fin consumers}
    {x : Shared (Worker producers consumers) Unit} {pc : Pc Work}
    (h : Accounts items gets (.inr c) x pc) :
    (code workers (.inr c) pc x).Leads (fun y st => Accounts items gets (.inr c) y st.pc) x := by
  obtain ⟨hstored, n, l, hpc, htaken, hn⟩ := h
  cases hpc with
  | next n l =>
    cases n with
    | zero => trivial
    | succ n => exact ⟨hstored, _, _, .wait n l, htaken, hn⟩
  | wait n l =>
    simp only [code, bufferGet]
    split
    · exact ⟨hstored, _, _, .lock n l, htaken, hn⟩
    · trivial
  | lock n l => exact ⟨hstored, _, _, .read n l, htaken, hn⟩
  | read n l =>
    refine ⟨?_, _, _, .advance _ n l, ?_, ?_⟩
    · rwa [storedBy_get]
    · rw [takenBy_get, htaken]
    · rw [List.length_append, List.length_singleton]
      omega
  | advance item n l => exact ⟨hstored, _, _, .unlock item n l, htaken, hn⟩
  | unlock item n l => exact ⟨hstored, _, _, .post item n l, htaken, hn⟩
  | post item n l => exact ⟨hstored, _, _, .next n (l ++ [item]), htaken, hn⟩

theorem accounts_rule (items : Fin producers → List Int) (gets : ℕ) :
    LocalRule (code (workers : Client (Worker producers consumers) Unit Work))
      (Accounts items gets) := by
  constructor
  · intro t pc x h
    cases t with
    | inl p => exact producer_own h
    | inr c => exact consumer_own h
  · intro t u pc q x hne ht _
    exact (code_extendsBy workers u q x).imp fun y _ hext => ht.others hext hne

section Reachable

variable {cap gets : ℕ} {mem : ℕ → Int} {items : Fin producers → List Int}
variable {s : State (Worker producers consumers) (Shared (Worker producers consumers) Unit) Empty
  (Pc Work)}

theorem reachable_accounts (h : (workersSystem consumers cap mem items gets).Reachable s)
    (t : Worker producers consumers) : Accounts items gets t s.shared (s.status t).pc := by
  refine (accounts_rule items gets).reachable (fun t => ?_) h t
  cases t with
  | inl p => exact ⟨rfl, _, .next _, rfl⟩
  | inr c => exact ⟨rfl, _, _, .next _ _, rfl, Nat.zero_add gets⟩

theorem stuck_producer (h : (workersSystem consumers cap mem items gets).Reachable s)
    (hstuck : ¬ CanStep (code workers) s) (p : Fin producers) :
    (s.status (.inl p) = .running (.client (.produce [])) ∧
      storedBy (.inl p) s.shared.history = items p) ∨
      (s.shared.emptySlots = 0 ∧
        (storedBy (.inl p) s.shared.history).length < (items p).length) := by
  obtain ⟨_, l, hpc, hl⟩ := reachable_accounts h (.inl p)
  obtain ⟨k, hs, hcall⟩ | ⟨item, k, hs, hempty⟩ | ⟨k, hs, _⟩ := stuck_place h hstuck (.inl p)
  · rw [hs] at hpc
    cases hpc with
    | next l =>
      cases l with
      | nil => exact .inl ⟨hs, by rwa [List.append_nil] at hl⟩
      | cons item l => obtain hcall | hcall := hcall <;> cases hcall
  · rw [hs] at hpc
    cases hpc with
    | wait item l =>
      rw [← hl, List.length_append, List.length_cons]
      exact .inr ⟨hempty, by omega⟩
  · rw [hs] at hpc
    cases hpc

theorem stuck_consumer (h : (workersSystem consumers cap mem items gets).Reachable s)
    (hstuck : ¬ CanStep (code workers) s) (c : Fin consumers) :
    (s.status (.inr c) = .running (.client (.consume 0 (takenBy (.inr c) s.shared.history))) ∧
      (takenBy (.inr c) s.shared.history).length = gets) ∨
      (s.shared.fullSlots = 0 ∧ (takenBy (.inr c) s.shared.history).length < gets) := by
  obtain ⟨_, n, l, hpc, htaken, hn⟩ := reachable_accounts h (.inr c)
  obtain ⟨k, hs, hcall⟩ | ⟨item, k, hs, _⟩ | ⟨k, hs, hempty⟩ := stuck_place h hstuck (.inr c)
  · rw [hs] at hpc
    cases hpc with
    | next n l =>
      cases n with
      | zero => exact .inl ⟨htaken ▸ hs, htaken ▸ hn⟩
      | succ n => obtain hcall | hcall := hcall <;> cases hcall
  · rw [hs] at hpc
    cases hpc
  · rw [hs] at hpc
    cases hpc with
    | wait n l =>
      rw [htaken]
      exact .inr ⟨hempty, by omega⟩

theorem sum_accounts (h : (workersSystem consumers cap mem items gets).Reachable s) :
    (stored s.shared.history : Multiset Int) =
        ∑ p : Fin producers, (storedBy (.inl p) s.shared.history : Multiset Int) ∧
      (taken s.shared.history : Multiset Int) =
        ∑ c : Fin consumers, (takenBy (.inr c) s.shared.history : Multiset Int) := by
  have hproducer (p : Fin producers) : takenBy (.inl p) s.shared.history = [] :=
    (reachable_accounts h (.inl p)).1
  have hconsumer (c : Fin consumers) : storedBy (.inr c) s.shared.history = [] :=
    (reachable_accounts h (.inr c)).1
  constructor
  · simp [← sum_storedBy, Fintype.sum_sum_type, hconsumer]
  · simp [← sum_takenBy, Fintype.sum_sum_type, hproducer]

theorem length_accounts (h : (workersSystem consumers cap mem items gets).Reachable s) :
    (stored s.shared.history).length =
        ∑ p : Fin producers, (storedBy (.inl p) s.shared.history).length ∧
      (taken s.shared.history).length =
        ∑ c : Fin consumers, (takenBy (.inr c) s.shared.history).length := by
  obtain ⟨hstored, htaken⟩ := sum_accounts h
  have hs := congrArg Multiset.card hstored
  have ht := congrArg Multiset.card htaken
  simp only [Multiset.card_sum, Multiset.coe_card] at hs ht
  exact ⟨hs, ht⟩

/-- All threads are at their ends once no thread can go on. -/
theorem stuck_finished {puts : ℕ} (hcap : 0 < cap) (hitems : ∀ p, (items p).length = puts)
    (hbalanced : producers * puts = consumers * gets)
    (h : (workersSystem consumers cap mem items gets).Reachable s)
    (hstuck : ¬ CanStep (code workers) s) :
    (∀ p, s.status (.inl p) = .running (.client (.produce [])) ∧
      storedBy (.inl p) s.shared.history = items p) ∧
    ∀ c, s.status (.inr c) =
        .running (.client (.consume 0 (takenBy (.inr c) s.shared.history))) ∧
      (takenBy (.inr c) s.shared.history).length = gets := by
  obtain ⟨hslots, q, hrun, hlength, _⟩ := stuck_slots (fresh_bufferInit rfl hcap) h hstuck
  obtain ⟨hstored, htaken⟩ := length_accounts h
  have hqueue := run_length hrun
  have hstoredLe : (stored s.shared.history).length ≤ producers * puts := by
    rw [hstored]
    calc ∑ p : Fin producers, (storedBy (.inl p) s.shared.history).length
        ≤ ∑ _p : Fin producers, puts := by
          refine Finset.sum_le_sum fun p _ => ?_
          obtain ⟨_, l, _, hl⟩ := reachable_accounts h (.inl p)
          rw [← hitems p, ← hl, List.length_append]
          omega
      _ = producers * puts := by simp
  have hproducer (p : Fin producers) : s.status (.inl p) = .running (.client (.produce [])) ∧
      storedBy (.inl p) s.shared.history = items p := by
    obtain hdone | ⟨hempty, _⟩ := stuck_producer h hstuck p
    · exact hdone
    -- All slots are occupied, so the consumers have taken everything that was ever to be put.
    have hall : (taken s.shared.history).length = consumers * gets := by
      rw [htaken]
      calc ∑ c : Fin consumers, (takenBy (.inr c) s.shared.history).length
          = ∑ _c : Fin consumers, gets := by
            refine Finset.sum_congr rfl fun c _ => ?_
            obtain ⟨_, hdone⟩ | ⟨hfull, _⟩ := stuck_consumer h hstuck c
            · exact hdone
            · omega
        _ = consumers * gets := by simp
    omega
  refine ⟨hproducer, fun c => ?_⟩
  obtain hdone | ⟨hfull, hlt⟩ := stuck_consumer h hstuck c
  · exact hdone
  have hall : (stored s.shared.history).length = producers * puts := by
    rw [hstored]
    simp [hproducer, hitems]
  have hless : (taken s.shared.history).length < consumers * gets := by
    rw [htaken]
    calc ∑ c : Fin consumers, (takenBy (.inr c) s.shared.history).length
        < ∑ _c : Fin consumers, gets := by
          refine Finset.sum_lt_sum (fun c' _ => ?_) ⟨c, Finset.mem_univ c, hlt⟩
          obtain ⟨_, hdone⟩ | ⟨_, hle⟩ := stuck_consumer h hstuck c'
          · exact hdone.le
          · exact hle.le
      _ = consumers * gets := by simp
  omega

/-- With as many values to take out as to put, the threads stop only when all of them have finished;
then the buffer is empty and the values received are those that were put. -/
theorem balanced_workload {puts : ℕ} (hcap : 0 < cap) (hitems : ∀ p, (items p).length = puts)
    (hbalanced : producers * puts = consumers * gets)
    (h : (workersSystem consumers cap mem items gets).Reachable s)
    (hstuck : ¬ CanStep (code workers) s) :
    s.shared.emptySlots = cap ∧ s.shared.fullSlots = 0 ∧ s.shared.inIdx = s.shared.outIdx ∧
      ∃ received : Fin consumers → List Int,
        (∀ p, s.status (.inl p) = .running (.client (.produce []))) ∧
        (∀ c, s.status (.inr c) = .running (.client (.consume 0 (received c)))) ∧
        ∑ c, (received c : Multiset Int) = ∑ p, (items p : Multiset Int) := by
  obtain ⟨hproducer, hconsumer⟩ := stuck_finished hcap hitems hbalanced h hstuck
  obtain ⟨hslots, q, hrun, hlength, hring⟩ := stuck_slots (fresh_bufferInit rfl hcap) h hstuck
  obtain ⟨hstored, htaken⟩ := length_accounts h
  obtain ⟨hput, hgot⟩ := sum_accounts h
  have hqueue := run_length hrun
  simp only [hproducer, hitems, hconsumer, Finset.sum_const, Finset.card_univ, Fintype.card_fin,
    smul_eq_mul] at hstored htaken
  have hempty : q = [] := List.length_eq_zero_iff.mp (by omega)
  have hconserves := run_conserves hrun
  rw [hempty, List.nil_append, List.append_nil] at hconserves
  rw [hempty, List.length_nil] at hlength
  rw [hempty] at hring
  refine ⟨by omega, hlength.symm, ?_, fun c => takenBy (.inr c) s.shared.history,
    fun p => (hproducer p).1, fun c => (hconsumer c).1, ?_⟩
  · rw [hring.in_eq, List.length_nil, Nat.add_zero, Nat.mod_eq_of_lt hring.out_lt]
  · rw [← hgot, ← hconserves, hput]
    simp only [hproducer]

def isFinished : Status Empty (Pc Work) → Bool
  | .running (.client (.produce [])) | .running (.client (.consume 0 _)) => true
  | _ => false

theorem not_canStep_of_finished (h : ∀ t, isFinished (s.status t) = true) :
    ¬ CanStep (code workers) s := by
  refine not_canStep_of_stopped fun t => .inl ?_
  have ht := h t
  unfold isFinished at ht
  split at ht
  · exact ⟨_, ‹_›, .inr (by simp [code, workers])⟩
  · exact ⟨_, ‹_›, .inr (by simp [code, workers])⟩
  · cases ht

theorem balanced_workload_one_slot :
    let items : Fin 1 → List Int := fun _ => [5, 6]
    ∃ s, (workersSystem 1 1 (fun _ => 0) items 2).Reachable s ∧ ¬ CanStep (code workers) s ∧
      s.shared.emptySlots = 1 ∧ s.shared.fullSlots = 0 ∧ s.shared.inIdx = s.shared.outIdx := by
  intro items
  have hrun : ((workersSystem 1 1 (fun _ => 0) items 2).run
      (workersSystem 1 1 (fun _ => 0) items 2).init
      (List.replicate 8 (.run (.inl 0)) ++ List.replicate 8 (.run (.inr 0)) ++
        List.replicate 6 (.run (.inl 0)) ++ List.replicate 6 (.run (.inr 0)))).any
      (fun s => decide (∀ t, isFinished (s.status t) = true)) = true := by decide +kernel
  obtain ⟨s, hs, hfinished⟩ := (Option.any_eq_true _ _).mp hrun
  have hstuck := not_canStep_of_finished (of_decide_eq_true hfinished)
  have hreach := System.reachable_of_run _ hs
  obtain ⟨hempty, hfull, hindex, _⟩ :=
    balanced_workload (by decide) (fun _ => rfl) (by decide) hreach hstuck
  exact ⟨s, hreach, hstuck, hempty, hfull, hindex⟩

end Reachable

end MultithreadMayhem.SemBuffer
