import MultithreadMayhem.BoundedBuffer.Program
import MultithreadMayhem.Pthread.Local

/-!
# The accounts of the producers, the consumers and `main`

Each thread accounts for its own accesses at its control point, and no statement
of another thread touches this account. `main` puts a `STOP` only after all
producers have returned, so no item is ever behind a `STOP` in the buffer.
-/

namespace MultithreadMayhem.BoundedBuffer

open Foundation Pthread Buffer BoundedQueue

variable {producers consumers : ℕ}

/-- The control points of a producer, with the items that it has yet to store. -/
inductive ProducerPc : Pc Program → List Int → Prop
  | start (l : List Int) : ProducerPc (.client (.start (.produce l))) l
  | next (l : List Int) : ProducerPc (.client (.produce l)) l
  | lock (item : Int) (l : List Int) : ProducerPc (.putLock item (.produce l)) (item :: l)
  | test (item : Int) (l : List Int) : ProducerPc (.putTest item (.produce l)) (item :: l)
  | store (item : Int) (l : List Int) : ProducerPc (.putStore item (.produce l)) (item :: l)
  | advance (l : List Int) : ProducerPc (.putAdvance (.produce l)) l
  | count (l : List Int) : ProducerPc (.putCount (.produce l)) l
  | signal (l : List Int) : ProducerPc (.putSignal (.produce l)) l
  | unlock (l : List Int) : ProducerPc (.putUnlock (.produce l)) l
  | returned : ProducerPc (.client .returned) []

/-- The control points of a consumer that has counted the items `counted`: the item in its hands, and
the item that is missing in its sum. -/
inductive ConsumerPc (counted : List Int) : Pc Program → List Int → Int → Prop
  | start (h : counted = []) : ConsumerPc counted (.client (.start .zeroCount)) [] 0
  | zeroCount (h : counted = []) : ConsumerPc counted (.client .zeroCount) [] 0
  | zeroSum (h : counted = []) : ConsumerPc counted (.client .zeroSum) [] 0
  | take : ConsumerPc counted (.client .take) [] 0
  | lock : ConsumerPc counted (.getLock .test) [] 0
  | empty : ConsumerPc counted (.getTest .test) [] 0
  | read : ConsumerPc counted (.getRead .test) [] 0
  | advance (item : Int) : ConsumerPc counted (.getAdvance item .test) [item] 0
  | count (item : Int) : ConsumerPc counted (.getCount item .test) [item] 0
  | signal (item : Int) : ConsumerPc counted (.getSignal item .test) [item] 0
  | unlock (item : Int) : ConsumerPc counted (.getUnlock item .test) [item] 0
  | test (item : Int) : ConsumerPc counted (.client (.test item)) [item] 0
  | addCount (item : Int) (h : item ≠ stop) :
    ConsumerPc counted (.client (.addCount item)) [item] 0
  | addSum (item : Int) : ConsumerPc counted (.client (.addSum item)) [] item
  | returned : ConsumerPc counted (.client .returned) [stop] 0

structure Phase where
  createdConsumers : ℕ
  createdProducers : ℕ
  joinedProducers : ℕ
  stops : ℕ
  joinedConsumers : ℕ

inductive MainPc (producers consumers : ℕ) : Pc Program → Phase → Prop
  | createConsumers (i : ℕ) (h : i ≤ consumers) :
    MainPc producers consumers (.client (.createConsumers i)) ⟨i, 0, 0, 0, 0⟩
  | createProducers (i : ℕ) (h : i ≤ producers) :
    MainPc producers consumers (.client (.createProducers i)) ⟨consumers, i, 0, 0, 0⟩
  | joinProducers (i : ℕ) (h : i ≤ producers) :
    MainPc producers consumers (.client (.joinProducers i)) ⟨consumers, producers, i, 0, 0⟩
  | putStops (i : ℕ) (h : i ≤ consumers) :
    MainPc producers consumers (.client (.putStops i)) ⟨consumers, producers, producers, i, 0⟩
  | lock (i : ℕ) (h : i < consumers) : MainPc producers consumers (.putLock stop (.putStops (i + 1)))
      ⟨consumers, producers, producers, i, 0⟩
  | test (i : ℕ) (h : i < consumers) : MainPc producers consumers (.putTest stop (.putStops (i + 1)))
      ⟨consumers, producers, producers, i, 0⟩
  | store (i : ℕ) (h : i < consumers) :
    MainPc producers consumers (.putStore stop (.putStops (i + 1)))
      ⟨consumers, producers, producers, i, 0⟩
  | advance (i : ℕ) (h : i ≤ consumers) :
    MainPc producers consumers (.putAdvance (.putStops i)) ⟨consumers, producers, producers, i, 0⟩
  | count (i : ℕ) (h : i ≤ consumers) :
    MainPc producers consumers (.putCount (.putStops i)) ⟨consumers, producers, producers, i, 0⟩
  | signal (i : ℕ) (h : i ≤ consumers) :
    MainPc producers consumers (.putSignal (.putStops i)) ⟨consumers, producers, producers, i, 0⟩
  | unlock (i : ℕ) (h : i ≤ consumers) :
    MainPc producers consumers (.putUnlock (.putStops i)) ⟨consumers, producers, producers, i, 0⟩
  | joinConsumers (i : ℕ) (h : i ≤ consumers) :
    MainPc producers consumers (.client (.joinConsumers i))
      ⟨consumers, producers, producers, consumers, i⟩
  | returned : MainPc producers consumers (.client .returned)
      ⟨consumers, producers, producers, consumers, consumers⟩

abbrev ProgramShared (producers consumers : ℕ) :=
  Shared (Thread producers consumers) (Results producers consumers)

/-- The producer `p` has stored its items up to those that its control point still has to store. -/
structure ProducerAt (items : List Int) (p : Fin producers) (x : ProgramShared producers consumers)
    (pc : Pc Program) : Prop where
  place : ∃ l, ProducerPc pc l ∧ storedBy (.producer p) x.history ++ l = items
  taken : takenBy (.producer p) x.history = []
  returned : x.data.returned (.producer p) = true ↔ pc = .client .returned

/-- The consumer `c` has taken the items that it has counted and the one in its hands. -/
structure ConsumerAt (c : Fin consumers) (x : ProgramShared producers consumers)
    (pc : Pc Program) : Prop where
  place : ∃ hand lag, ConsumerPc (x.data.counted c) pc hand lag ∧
    takenBy (.consumer c) x.history = x.data.counted c ++ hand ∧
    x.data.consumedSum c + lag = (x.data.counted c).sum
  stored : storedBy (.consumer c) x.history = []
  items : stop ∉ x.data.counted c
  count : x.data.consumedCount c = (x.data.counted c).length
  returned : x.data.returned (.consumer c) = true ↔ pc = .client .returned

structure Done (x : ProgramShared producers consumers) (f : Phase) : Prop where
  takers : ∀ c : Fin consumers, c < f.createdConsumers → x.data.created (.consumer c) = true
  makers : ∀ p : Fin producers, p < f.createdProducers → x.data.created (.producer p) = true
  joined : ∀ p : Fin producers, p < f.joinedProducers → x.data.returned (.producer p) = true
  stops : storedBy .main x.history = List.replicate f.stops stop
  collected : ∀ c : Fin consumers, c < f.joinedConsumers → x.data.returned (.consumer c) = true

structure MainAt (x : ProgramShared producers consumers) (pc : Pc Program) : Prop where
  place : ∃ f, MainPc producers consumers pc f ∧ Done x f
  taken : takenBy .main x.history = []
  returned : x.data.returned .main = true ↔ pc = .client .returned

def Accounts (items : Fin producers → List Int) :
    Thread producers consumers → ProgramShared producers consumers → Pc Program → Prop
  | .producer p, x, pc => ProducerAt (items p) p x pc
  | .consumer c, x, pc => ConsumerAt c x pc
  | .main, x, pc => MainAt x pc

theorem Results.created_create (d : Results producers consumers)
    (t u : Thread producers consumers) (h : d.created u = true) :
    (d.create t).created u = true := by
  obtain rfl | hne := eq_or_ne u t
  · exact Function.update_self ..
  · exact (Function.update_of_ne hne ..).trans h

theorem Results.returned_finish (d : Results producers consumers)
    (t u : Thread producers consumers) (h : d.returned u = true) :
    (d.finish t).returned u = true := by
  obtain rfl | hne := eq_or_ne u t
  · exact Function.update_self ..
  · exact (Function.update_of_ne hne ..).trans h

/-- A change of the results that does not touch what `t` keeps there. -/
structure Unseen (t : Thread producers consumers) (d e : Results producers consumers) : Prop where
  returned : e.returned t = d.returned t
  created : ∀ u, d.created u = true → e.created u = true
  finished : ∀ u, d.returned u = true → e.returned u = true
  tallies : ∀ c, t = .consumer c → e.consumedCount c = d.consumedCount c ∧
    e.consumedSum c = d.consumedSum c ∧ e.counted c = d.counted c

namespace Unseen

variable {t u : Thread producers consumers} {d : Results producers consumers}

theorem refl (t : Thread producers consumers) (d : Results producers consumers) : Unseen t d d :=
  ⟨rfl, fun _ => id, fun _ => id, fun _ _ => ⟨rfl, rfl, rfl⟩⟩

theorem create (t u : Thread producers consumers) (d : Results producers consumers) :
    Unseen t d (d.create u) :=
  ⟨rfl, d.created_create u, fun _ => id, fun _ _ => ⟨rfl, rfl, rfl⟩⟩

theorem finish (hne : u ≠ t) : Unseen t d (d.finish u) :=
  ⟨Function.update_of_ne hne.symm .., fun _ => id, d.returned_finish u,
    fun _ _ => ⟨rfl, rfl, rfl⟩⟩

theorem tally {c : Fin consumers} (hne : .consumer c ≠ t) {e : Results producers consumers}
    (hcreated : e.created = d.created) (hreturned : e.returned = d.returned)
    (hrest : ∀ c', c' ≠ c → e.consumedCount c' = d.consumedCount c' ∧
      e.consumedSum c' = d.consumedSum c' ∧ e.counted c' = d.counted c') : Unseen t d e := by
  refine ⟨by rw [hreturned], fun u hu => by rwa [hcreated], fun u hu => by rwa [hreturned],
    fun c' ht => hrest c' ?_⟩
  rintro rfl
  exact hne ht.symm

variable {k k' : Program} {e : Results producers consumers}

theorem producer_step {p : Fin producers} (hne : .producer p ≠ t)
    (h : producer p d k = .step e k') : Unseen t d e := by
  unfold producer at h
  split at h <;> cases h
  exact finish hne

theorem consumer_step {c : Fin consumers} (hne : .consumer c ≠ t)
    (h : consumer c d k = .step e k') : Unseen t d e := by
  unfold consumer at h
  split at h
  case h_4 item =>
    split at h <;> cases h
    · exact finish hne
    · exact refl t d
  all_goals cases h
  all_goals
    refine tally hne rfl rfl fun c' hc => ?_
    simp [Function.update_of_ne hc]

theorem main_step (hne : .main ≠ t) (h : main d k = .step e k') : Unseen t d e := by
  unfold main at h
  split at h
  case h_3 i =>
    split at h
    · split at h <;> cases h
      exact refl t d
    · cases h
      exact refl t d
  case h_5 i =>
    split at h
    · split at h <;> cases h
      exact refl t d
    · cases h
      exact finish hne
  case h_6 => cases h
  all_goals split at h <;> cases h
  all_goals first | exact refl t d | exact create t _ d

theorem program_step (hne : u ≠ t) (h : program producers consumers u k d = .step e k') :
    Unseen t d e := by
  unfold program at h
  split at h
  case h_1 => cases h
  case h_2 =>
    split at h <;> cases h
    exact refl t d
  case h_3 => exact producer_step hne h
  case h_4 => exact consumer_step hne h
  case h_5 => exact main_step hne h

end Unseen

theorem Accounts.unseen {items : Fin producers → List Int} {t : Thread producers consumers}
    {x y : ProgramShared producers consumers} {pc : Pc Program} (h : Accounts items t x pc)
    (haccesses : accessesOf t y.history = accessesOf t x.history) (hu : Unseen t x.data y.data) :
    Accounts items t y pc := by
  have hstored : storedBy t y.history = storedBy t x.history := by rw [storedBy, haccesses, storedBy]
  have htaken : takenBy t y.history = takenBy t x.history := by rw [takenBy, haccesses, takenBy]
  have hreturned := hu.returned
  cases t with
  | producer p =>
    obtain ⟨⟨l, hpc, hl⟩, ht, hr⟩ := h
    exact ⟨⟨l, hpc, by rwa [hstored]⟩, by rwa [htaken], by rwa [hreturned]⟩
  | consumer c =>
    obtain ⟨hcount, hsum, hcounted⟩ := hu.tallies c rfl
    obtain ⟨⟨hand, lag, hpc, hhand, hlag⟩, hs, hi, hc, hr⟩ := h
    refine ⟨⟨hand, lag, ?_, ?_, ?_⟩, by rwa [hstored], ?_, ?_, by rwa [hreturned]⟩
    · rwa [hcounted]
    · rwa [htaken, hcounted]
    · rwa [hsum, hcounted]
    · rwa [hcounted]
    · rwa [hcount, hcounted]
  | main =>
    obtain ⟨⟨f, hpc, hf⟩, ht, hr⟩ := h
    refine ⟨⟨f, hpc, ?_⟩, by rwa [htaken], by rwa [hreturned]⟩
    exact ⟨fun c hc => hu.created _ (hf.takers c hc), fun p hp => hu.created _ (hf.makers p hp),
      fun p hp => hu.finished _ (hf.joined p hp), by rw [hstored, hf.stops],
      fun c hc => hu.finished _ (hf.collected c hc)⟩

theorem code_unseen {t u : Thread producers consumers} (hne : u ≠ t) (q : Pc Program)
    (x : ProgramShared producers consumers) :
    (code (program producers consumers) u q x).Leads
      (fun y _ => accessesOf t y.history = accessesOf t x.history ∧ Unseen t x.data y.data) x := by
  refine (code_extendsBy _ u q x).imp₂ (code_data _ u q x) fun y _ hext hdata => ?_
  refine ⟨hext.accessesOf_eq hne, ?_⟩
  obtain heq | ⟨k, k', hstep⟩ := hdata
  · rw [heq]
    exact .refl t x.data
  · exact Unseen.program_step hne hstep

theorem producer_own {items : List Int} {p : Fin producers} {pc : Pc Program}
    {x : ProgramShared producers consumers} (h : ProducerAt items p x pc) :
    (code (program producers consumers) (.producer p) pc x).Leads
      (fun y st => ProducerAt items p y st.pc) x := by
  obtain ⟨⟨l, hpc, hl⟩, ht, hr⟩ := h
  cases hpc with
  | start l =>
    cases hcreated : x.data.created (.producer p) with
    | true =>
      simp only [code, program, hcreated, if_true]
      exact ⟨⟨l, .next l, hl⟩, ht, hr.trans (by simp)⟩
    | false =>
      simp only [code, program, hcreated]
      trivial
  | next l =>
    cases l with
    | nil => exact ⟨⟨[], .returned, hl⟩, ht, by simp [Status.pc, Results.finish]⟩
    | cons item l => exact ⟨⟨_, .lock item l, hl⟩, ht, hr.trans (by simp)⟩
  | lock item l => exact ⟨⟨_, .test item l, hl⟩, ht, hr.trans (by simp)⟩
  | test item l =>
    simp only [code, bufferPut]
    split
    · exact ⟨⟨_, .test item l, hl⟩, ht, hr⟩
    · exact ⟨⟨_, .store item l, hl⟩, ht, hr.trans (by simp)⟩
  | store item l =>
    refine ⟨⟨_, .advance l, ?_⟩, ?_, hr.trans (by simp)⟩
    · rw [storedBy_put, List.append_assoc]
      exact hl
    · rwa [takenBy_put]
  | advance l => exact ⟨⟨_, .count l, hl⟩, ht, hr.trans (by simp)⟩
  | count l => exact ⟨⟨_, .signal l, hl⟩, ht, hr.trans (by simp)⟩
  | signal l => exact ⟨⟨_, .unlock l, hl⟩, ht, hr.trans (by simp)⟩
  | unlock l => exact ⟨⟨_, .next l, hl⟩, ht, hr.trans (by simp)⟩
  | returned => trivial

theorem consumer_own {c : Fin consumers} {pc : Pc Program} {x : ProgramShared producers consumers}
    (h : ConsumerAt c x pc) : (code (program producers consumers) (.consumer c) pc x).Leads
      (fun y st => ConsumerAt c y st.pc) x := by
  obtain ⟨⟨hand, lag, hpc, hhand, hlag⟩, hs, hi, hc, hr⟩ := h
  cases hpc with
  | start h =>
    cases hcreated : x.data.created (.consumer c) with
    | true =>
      simp only [code, program, hcreated, if_true]
      exact ⟨⟨_, _, .zeroCount h, hhand, hlag⟩, hs, hi, hc, hr.trans (by simp)⟩
    | false =>
      simp only [code, program, hcreated]
      trivial
  | zeroCount h =>
    refine ⟨⟨_, _, .zeroSum h, hhand, hlag⟩, hs, hi, ?_, hr.trans (by simp)⟩
    simp [h]
  | zeroSum h =>
    refine ⟨⟨_, _, .take, hhand, ?_⟩, hs, hi, hc, hr.trans (by simp)⟩
    simp [h]
  | take => exact ⟨⟨_, _, .lock, hhand, hlag⟩, hs, hi, hc, hr.trans (by simp)⟩
  | lock => exact ⟨⟨_, _, .empty, hhand, hlag⟩, hs, hi, hc, hr.trans (by simp)⟩
  | empty =>
    simp only [code, bufferGet]
    split
    · exact ⟨⟨_, _, .empty, hhand, hlag⟩, hs, hi, hc, hr⟩
    · exact ⟨⟨_, _, .read, hhand, hlag⟩, hs, hi, hc, hr.trans (by simp)⟩
  | read =>
    refine ⟨⟨_, _, .advance _, ?_, hlag⟩, ?_, hi, hc, hr.trans (by simp)⟩
    · rw [List.append_nil] at hhand
      rw [takenBy_get, hhand]
    · rwa [storedBy_get]
  | advance item => exact ⟨⟨_, _, .count item, hhand, hlag⟩, hs, hi, hc, hr.trans (by simp)⟩
  | count item => exact ⟨⟨_, _, .signal item, hhand, hlag⟩, hs, hi, hc, hr.trans (by simp)⟩
  | signal item => exact ⟨⟨_, _, .unlock item, hhand, hlag⟩, hs, hi, hc, hr.trans (by simp)⟩
  | unlock item => exact ⟨⟨_, _, .test item, hhand, hlag⟩, hs, hi, hc, hr.trans (by simp)⟩
  | test item =>
    obtain rfl | hne := eq_or_ne item stop
    · simp only [code, program, consumer, if_true]
      exact ⟨⟨_, _, .returned, hhand, hlag⟩, hs, hi, hc, by simp [Results.finish]⟩
    · simp only [code, program, consumer, if_neg hne]
      exact ⟨⟨_, _, .addCount item hne, hhand, hlag⟩, hs, hi, hc, hr.trans (by simp)⟩
  | addCount item hne =>
    refine ⟨⟨[], item, .addSum item, ?_, ?_⟩, hs, ?_, ?_, hr.trans (by simp)⟩
    · simpa using hhand
    · simpa using hlag
    · simpa using ⟨hi, hne.symm⟩
    · simp [hc]
  | addSum item =>
    refine ⟨⟨_, _, .take, hhand, ?_⟩, hs, hi, hc, hr.trans (by simp)⟩
    simpa using hlag
  | returned => trivial

theorem Done.of_data {x y : ProgramShared producers consumers} {f : Phase} (h : Done x f)
    (hhistory : y.history = x.history) (hdata : y.data = x.data) : Done y f := by
  obtain ⟨ht, hm, hj, hs, hc⟩ := h
  exact ⟨by rwa [hdata], by rwa [hdata], by rwa [hdata], by rwa [hhistory], by rwa [hdata]⟩

theorem forall_lt_succ {n i : ℕ} {P : Fin n → Prop} (h : ∀ k : Fin n, k < i → P k) (hi : i < n)
    (hP : P ⟨i, hi⟩) (k : Fin n) (hk : (k : ℕ) < i + 1) : P k := by
  obtain hlt | heq := Nat.lt_succ_iff_lt_or_eq.mp hk
  · exact h k hlt
  · have hki : k = ⟨i, hi⟩ := Fin.ext heq
    rwa [hki]

theorem main_own {pc : Pc Program} {x : ProgramShared producers consumers} (h : MainAt x pc) :
    (code (program producers consumers) .main pc x).Leads (fun y st => MainAt y st.pc) x := by
  obtain ⟨⟨f, hpc, hf⟩, ht, hr⟩ := h
  cases hpc with
  | createConsumers i hi =>
    by_cases h : i < consumers
    · simp only [code, program, main, dif_pos h]
      refine ⟨⟨_, .createConsumers (i + 1) h, ?_⟩, ht, hr.trans (by simp)⟩
      refine ⟨forall_lt_succ ?_ h (Function.update_self ..), by rintro _ ⟨⟩, hf.joined, hf.stops, by rintro _ ⟨⟩⟩
      exact fun c hc => Results.created_create _ _ _ (hf.takers c hc)
    · simp only [code, program, main, dif_neg h]
      obtain rfl : i = consumers := by omega
      exact ⟨⟨_, .createProducers 0 (Nat.zero_le _), hf⟩, ht, hr.trans (by simp)⟩
  | createProducers i hi =>
    by_cases h : i < producers
    · simp only [code, program, main, dif_pos h]
      refine ⟨⟨_, .createProducers (i + 1) h, ?_⟩, ht, hr.trans (by simp)⟩
      refine ⟨fun c hc => Results.created_create _ _ _ (hf.takers c hc),
        forall_lt_succ ?_ h (Function.update_self ..), hf.joined, hf.stops, by rintro _ ⟨⟩⟩
      exact fun p hp => Results.created_create _ _ _ (hf.makers p hp)
    · simp only [code, program, main, dif_neg h]
      obtain rfl : i = producers := by omega
      exact ⟨⟨_, .joinProducers 0 (Nat.zero_le _), hf⟩, ht, hr.trans (by simp)⟩
  | joinProducers i hi =>
    by_cases h : i < producers
    · simp only [code, program, main, dif_pos h]
      cases hret : x.data.returned (.producer ⟨i, h⟩) with
      | true =>
        refine ⟨⟨_, .joinProducers (i + 1) h, ?_⟩, ht, hr.trans (by simp)⟩
        exact ⟨hf.takers, hf.makers, forall_lt_succ hf.joined h hret, hf.stops, by rintro _ ⟨⟩⟩
      | false => trivial
    · simp only [code, program, main, dif_neg h]
      obtain rfl : i = producers := by omega
      exact ⟨⟨_, .putStops 0 (Nat.zero_le _), hf⟩, ht, hr.trans (by simp)⟩
  | putStops i hi =>
    by_cases h : i < consumers
    · simp only [code, program, main, if_pos h]
      exact ⟨⟨_, .lock i h, hf⟩, ht, hr.trans (by simp)⟩
    · simp only [code, program, main, if_neg h]
      obtain rfl : i = consumers := by omega
      exact ⟨⟨_, .joinConsumers 0 (Nat.zero_le _), hf⟩, ht, hr.trans (by simp)⟩
  | lock i h => exact ⟨⟨_, .test i h, hf⟩, ht, hr.trans (by simp)⟩
  | test i h =>
    simp only [code, bufferPut]
    split
    · exact ⟨⟨_, .test i h, hf⟩, ht, hr⟩
    · exact ⟨⟨_, .store i h, hf⟩, ht, hr.trans (by simp)⟩
  | store i h =>
    refine ⟨⟨_, .advance (i + 1) h, ?_⟩, by rwa [takenBy_put], hr.trans (by simp)⟩
    refine ⟨hf.takers, hf.makers, hf.joined, ?_, by rintro _ ⟨⟩⟩
    rw [storedBy_put, hf.stops, ← List.replicate_succ']
  | advance i h => exact ⟨⟨_, .count i h, hf.of_data rfl rfl⟩, ht, hr.trans (by simp)⟩
  | count i h => exact ⟨⟨_, .signal i h, hf.of_data rfl rfl⟩, ht, hr.trans (by simp)⟩
  | signal i h => exact ⟨⟨_, .unlock i h, hf⟩, ht, hr.trans (by simp)⟩
  | unlock i h => exact ⟨⟨_, .putStops i h, hf⟩, ht, hr.trans (by simp)⟩
  | joinConsumers i hi =>
    by_cases h : i < consumers
    · simp only [code, program, main, dif_pos h]
      cases hret : x.data.returned (.consumer ⟨i, h⟩) with
      | true =>
        refine ⟨⟨_, .joinConsumers (i + 1) h, ?_⟩, ht, hr.trans (by simp)⟩
        exact ⟨hf.takers, hf.makers, hf.joined, hf.stops, forall_lt_succ hf.collected h hret⟩
      | false => trivial
    · simp only [code, program, main, dif_neg h]
      obtain rfl : i = consumers := by omega
      refine ⟨⟨_, .returned, ?_⟩, ht, by simp [Results.finish]⟩
      exact ⟨hf.takers, hf.makers, fun p hp => x.data.returned_finish _ _ (hf.joined p hp), hf.stops,
        fun c hc => x.data.returned_finish _ _ (hf.collected c hc)⟩
  | returned => trivial

theorem accounts_rule (items : Fin producers → List Int) :
    LocalRule (code (program producers consumers)) (Accounts items) := by
  constructor
  · intro t pc x h
    cases t with
    | producer p => exact producer_own h
    | consumer c => exact consumer_own h
    | main => exact main_own h
  · intro t u pc q x hne ht _
    exact (code_unseen hne q x).imp fun y _ hy => ht.unseen hy.1 hy.2

section Reachable

variable {cap : ℕ} {mem : ℕ → Int} {items : Fin producers → List Int}
variable {s : State (Thread producers consumers) (ProgramShared producers consumers) Cv (Pc Program)}

theorem accounts_start (cap : ℕ) (mem : ℕ → Int) (items : Fin producers → List Int)
    (t : Thread producers consumers) :
    Accounts items t (bufferInit cap mem Results.init) (.client (programStart items t)) := by
  cases t with
  | producer p => exact ⟨⟨_, .start _, rfl⟩, rfl, by simp [bufferInit, Results.init, programStart]⟩
  | consumer c =>
    exact ⟨⟨[], 0, .start rfl, rfl, rfl⟩, rfl, List.not_mem_nil, rfl,
      by simp [bufferInit, Results.init, programStart]⟩
  | main =>
    exact ⟨⟨_, .createConsumers 0 (Nat.zero_le _), nofun, nofun, nofun, rfl, nofun⟩, rfl,
      by simp [bufferInit, Results.init, programStart]⟩

theorem reachable_accounts (h : (programSystem consumers cap mem items).Reachable s)
    (t : Thread producers consumers) : Accounts items t s.shared (s.status t).pc :=
  (accounts_rule items).reachable (accounts_start cap mem items) h t

/-- Behind a `STOP` there are only `STOP`s. -/
def Sealed (l : List Int) : Prop := l.Pairwise fun a b => a = stop → b = stop

omit items s in
theorem Sealed.concat {l : List Int} {x : Int} (h : Sealed l) (hx : stop ∈ l → x = stop) :
    Sealed (l ++ [x]) := by
  refine List.pairwise_append.mpr ⟨h, List.pairwise_singleton _ x, fun a ha b hb hstop => ?_⟩
  rw [List.mem_singleton.mp hb]
  exact hx (hstop ▸ ha)

omit s in
theorem MainPc.joined_of_stops {pc : Pc Program} {f : Phase} (h : MainPc producers consumers pc f)
    (hstops : f.stops ≠ 0) : f.joinedProducers = producers := by
  cases h <;> first | rfl | exact absurd rfl hstops

omit s in
theorem MainPc.stops_le {pc : Pc Program} {f : Phase} (h : MainPc producers consumers pc f) :
    f.stops ≤ consumers := by
  cases h <;> first | exact Nat.zero_le _ | assumption | exact Nat.le_of_lt ‹_› | exact le_rfl

/-- A producer that is about to store an item finds no `STOP` in the buffer's history. -/
theorem stop_notMem_stored (hitems : ∀ p, stop ∉ items p) {x : ProgramShared producers consumers}
    {pcs : Thread producers consumers → Pc Program} (h : ∀ t, Accounts items t x (pcs t))
    {p : Fin producers} (hp : pcs (.producer p) ≠ .client .returned) : stop ∉ stored x.history := by
  intro hmem
  obtain ⟨t, ht⟩ := mem_stored_iff.mp hmem
  cases t with
  | producer p' =>
    obtain ⟨l, _, hl⟩ := (h (.producer p')).place
    exact hitems p' (hl ▸ List.mem_append_left l ht)
  | consumer c =>
    rw [(h (.consumer c)).stored] at ht
    cases ht
  | main =>
    obtain ⟨f, hpc, hf⟩ := (h .main).place
    rw [hf.stops] at ht
    have hjoined := hpc.joined_of_stops (List.mem_replicate.mp ht).1
    exact hp ((h (.producer p)).returned.mp (hf.joined p (hjoined ▸ p.isLt)))

theorem reachable_sealed (hitems : ∀ p, stop ∉ items p)
    (h : (programSystem consumers cap mem items).Reachable s) : Sealed (stored s.shared.history) := by
  refine (accounts_rule items).shared (J := fun x => Sealed (stored x.history)) ?_
    (accounts_start cap mem items) List.Pairwise.nil h
  intro pcs t x hI hJ
  refine (code_stored _ t (pcs t) x).imp fun y _ hstored => ?_
  obtain heq | ⟨item, k, hpc, heq⟩ := hstored
  · rwa [heq]
  · rw [heq]
    refine hJ.concat fun hmem => ?_
    have ht := hI t
    rw [hpc] at ht
    cases t with
    | producer p => exact absurd hmem (stop_notMem_stored hitems hI (p := p) (by simp [hpc]))
    | consumer c =>
      obtain ⟨_, _, hplace, _⟩ := ht.place
      cases hplace
    | main =>
      obtain ⟨_, hplace, _⟩ := ht.place
      cases hplace
      rfl

end Reachable

end MultithreadMayhem.BoundedBuffer
