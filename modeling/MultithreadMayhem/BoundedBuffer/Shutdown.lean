import MultithreadMayhem.BoundedBuffer.Accounts
import MultithreadMayhem.BoundedBuffer.Progress
import Mathlib.Algebra.Order.BigOperators.Group.Finset

/-!
# The shutdown of the program is exact

When no thread can go on, a consumer that waits has taken no `STOP` and finds the
buffer empty. Then all `STOP`s were taken by the other consumers, one each, which
are too few. So all consumers have returned, nothing is left behind the `STOP`s,
and the joins of `main` succeed.
-/

namespace MultithreadMayhem.BoundedBuffer

open Foundation Pthread Buffer BoundedQueue

variable {producers consumers : ℕ} {cap : ℕ} {mem : ℕ → Int} {items : Fin producers → List Int}
variable {s : State (Thread producers consumers) (ProgramShared producers consumers) Cv (Pc Program)}

/-- `main` never stops before it has created all threads. It stops in a join, at a full buffer or at
its end. -/
theorem stuck_main (h : (programSystem consumers cap mem items).Reachable s)
    (hstuck : ¬ CanStep (code (program producers consumers)) s) :
    (∀ t, t ≠ .main → s.shared.data.created t = true) ∧
      ((∃ p, s.shared.data.returned (.producer p) = false) ∨
        (s.shared.capacity : Int) ≤ s.shared.count ∨
        (storedBy .main s.shared.history = List.replicate consumers stop ∧
          ((∃ c, s.shared.data.returned (.consumer c) = false) ∨
            s.status .main = .running (.client .returned)))) := by
  obtain ⟨f, hpc, hf⟩ := (reachable_accounts h .main).place
  have created (hc : f.createdConsumers = consumers) (hp : f.createdProducers = producers)
      (t : Thread producers consumers) (ht : t ≠ .main) : s.shared.data.created t = true := by
    cases t with
    | producer p => exact hf.makers p (hp ▸ p.isLt)
    | consumer c => exact hf.takers c (hc ▸ c.isLt)
    | main => exact absurd rfl ht
  obtain ⟨k, hs, hstop⟩ | ⟨item, k, hs, hfull⟩ | ⟨k, hs, _⟩ := stuck_place h hstuck .main
  · rw [hs] at hpc
    cases hpc with
    | createConsumers i hi =>
      simp only [program, main] at hstop
      split at hstop <;> obtain hstop | hstop := hstop <;> cases hstop
    | createProducers i hi =>
      simp only [program, main] at hstop
      split at hstop <;> obtain hstop | hstop := hstop <;> cases hstop
    | joinProducers i hi =>
      refine ⟨created rfl rfl, .inl ?_⟩
      simp only [program, main] at hstop
      by_cases hlt : i < producers
      · refine ⟨⟨i, hlt⟩, ?_⟩
        cases hret : s.shared.data.returned (.producer ⟨i, hlt⟩) with
        | false => rfl
        | true =>
          rw [dif_pos hlt, hret] at hstop
          obtain hstop | hstop := hstop <;> cases hstop
      · rw [dif_neg hlt] at hstop
        obtain hstop | hstop := hstop <;> cases hstop
    | putStops i hi =>
      simp only [program, main] at hstop
      split at hstop <;> obtain hstop | hstop := hstop <;> cases hstop
    | joinConsumers i hi =>
      refine ⟨created rfl rfl, .inr (.inr ⟨hf.stops, .inl ?_⟩)⟩
      simp only [program, main] at hstop
      by_cases hlt : i < consumers
      · refine ⟨⟨i, hlt⟩, ?_⟩
        cases hret : s.shared.data.returned (.consumer ⟨i, hlt⟩) with
        | false => rfl
        | true =>
          rw [dif_pos hlt, hret] at hstop
          obtain hstop | hstop := hstop <;> cases hstop
      · rw [dif_neg hlt] at hstop
        obtain hstop | hstop := hstop <;> cases hstop
    | returned => exact ⟨created rfl rfl, .inr (.inr ⟨hf.stops, .inr hs⟩)⟩
  · rw [hs] at hpc
    cases hpc with
    | test i hi => exact ⟨created rfl rfl, .inr (.inl hfull)⟩
  · rw [hs] at hpc
    cases hpc

theorem stuck_producer (h : (programSystem consumers cap mem items).Reachable s)
    (hstuck : ¬ CanStep (code (program producers consumers)) s) (p : Fin producers) :
    s.status (.producer p) = .running (.client .returned) ∨
      (s.shared.capacity : Int) ≤ s.shared.count := by
  obtain ⟨l, hpc, _⟩ := (reachable_accounts h (.producer p)).place
  obtain ⟨k, hs, hstop⟩ | ⟨item, k, hs, hfull⟩ | ⟨k, hs, _⟩ := stuck_place h hstuck (.producer p)
  · rw [hs] at hpc
    cases hpc with
    | start l =>
      have hcreated := (stuck_main h hstuck).1 (.producer p) nofun
      simp only [program, hcreated, if_true] at hstop
      obtain hstop | hstop := hstop <;> cases hstop
    | next l => cases l <;> obtain hstop | hstop := hstop <;> cases hstop
    | returned => exact .inl hs
  · exact .inr hfull
  · rw [hs] at hpc
    cases hpc

theorem stuck_consumer (h : (programSystem consumers cap mem items).Reachable s)
    (hstuck : ¬ CanStep (code (program producers consumers)) s) (c : Fin consumers) :
    (s.status (.consumer c) = .running (.client .returned) ∧
      takenBy (.consumer c) s.shared.history = s.shared.data.counted c ++ [stop]) ∨
      (s.shared.count ≤ 0 ∧ stop ∉ takenBy (.consumer c) s.shared.history) := by
  have hat := reachable_accounts h (.consumer c)
  obtain ⟨hand, lag, hpc, hhand, _⟩ := hat.place
  obtain ⟨k, hs, hstop⟩ | ⟨item, k, hs, _⟩ | ⟨k, hs, hempty⟩ := stuck_place h hstuck (.consumer c)
  · rw [hs] at hpc
    cases hpc with
    | start _ =>
      have hcreated := (stuck_main h hstuck).1 (.consumer c) nofun
      simp only [program, hcreated, if_true] at hstop
      obtain hstop | hstop := hstop <;> cases hstop
    | test item =>
      simp only [program, consumer] at hstop
      split at hstop <;> obtain hstop | hstop := hstop <;> cases hstop
    | returned => exact .inl ⟨hs, hhand⟩
    | _ => obtain hstop | hstop := hstop <;> cases hstop
  · rw [hs] at hpc
    cases hpc
  · rw [hs] at hpc
    cases hpc with
    | empty =>
      rw [List.append_nil] at hhand
      exact .inr ⟨hempty, hhand ▸ hat.items⟩

theorem count_stop_stored (hitems : ∀ p, stop ∉ items p)
    (h : (programSystem consumers cap mem items).Reachable s) :
    (stored s.shared.history).count stop = (storedBy .main s.shared.history).count stop := by
  have hproducer (p : Fin producers) :
      (storedBy (.producer p) s.shared.history).count stop = 0 := by
    obtain ⟨l, _, hl⟩ := (reachable_accounts h (.producer p)).place
    exact List.count_eq_zero.mpr fun hmem => hitems p (hl ▸ List.mem_append_left l hmem)
  have hconsumer (c : Fin consumers) :
      (storedBy (.consumer c) s.shared.history).count stop = 0 := by
    rw [(reachable_accounts h (.consumer c)).stored, List.count_nil]
  simp [count_stored, Thread.sum_eq, hproducer, hconsumer]

theorem stops_stored_le (h : (programSystem consumers cap mem items).Reachable s) :
    (storedBy .main s.shared.history).count stop ≤ consumers := by
  obtain ⟨f, hpc, hf⟩ := (reachable_accounts h .main).place
  rw [hf.stops, List.count_replicate_self]
  exact hpc.stops_le

theorem count_stop_taken (h : (programSystem consumers cap mem items).Reachable s) :
    (taken s.shared.history).count stop =
      ∑ c : Fin consumers, (takenBy (.consumer c) s.shared.history).count stop := by
  have hproducer (p : Fin producers) : takenBy (.producer p) s.shared.history = [] :=
    (reachable_accounts h (.producer p)).taken
  have hmain : takenBy .main s.shared.history = [] := (reachable_accounts h .main).taken
  simp [count_taken, Thread.sum_eq, hproducer, hmain]

/-- When the consumers have taken all `STOP`s, the buffer is empty. -/
theorem queue_eq_nil (hitems : ∀ p, stop ∉ items p)
    (h : (programSystem consumers cap mem items).Reachable s) {q : List Int}
    (hq : stored s.shared.history = taken s.shared.history ++ q) (hconsumers : 0 < consumers)
    (hall : ∀ c : Fin consumers, stop ∈ takenBy (.consumer c) s.shared.history) : q = [] := by
  have htaken : consumers ≤ (taken s.shared.history).count stop := by
    rw [count_stop_taken h]
    calc consumers = ∑ _c : Fin consumers, 1 := by simp
      _ ≤ _ := Finset.sum_le_sum fun c _ => List.count_pos_iff.mpr (hall c)
  have hstored := stops_stored_le h
  rw [← count_stop_stored hitems h, hq, List.count_append] at hstored
  have hmem : stop ∈ taken s.shared.history := List.count_pos_iff.mp (by omega)
  have hsealed := reachable_sealed hitems h
  rw [hq] at hsealed
  have hstops : ∀ x ∈ q, x = stop := fun x hx =>
    (List.pairwise_append.mp hsealed).2.2 stop hmem x hx rfl
  have hzero : q.count stop = 0 := by omega
  cases q with
  | nil => rfl
  | cons x q =>
    rw [hstops x List.mem_cons_self, List.count_cons_self] at hzero
    omega

/-- A full buffer is not left behind: all consumers would have returned. -/
theorem stuck_not_full (hcap : 0 < cap) (hconsumers : 0 < consumers)
    (hitems : ∀ p, stop ∉ items p) (h : (programSystem consumers cap mem items).Reachable s)
    (hstuck : ¬ CanStep (code (program producers consumers)) s) :
    ¬ (s.shared.capacity : Int) ≤ s.shared.count := by
  intro hfull
  have hg : Guarded (code (program producers consumers)) Pc.inside s :=
    reachable_guarded (code_disciplined _) (fun _ => rfl) h
  have hfree := (hg.stuck (code_disciplined _) hstuck).1
  obtain ⟨rfl, q, hrun, _, hcount⟩ := (reachable_refines hcap h).free hfree
  have hq := run_conserves hrun
  rw [List.nil_append] at hq
  have hempty : q = [] := by
    refine queue_eq_nil hitems h hq hconsumers fun c => ?_
    obtain ⟨_, htaken⟩ | ⟨hle, _⟩ := stuck_consumer h hstuck c
    · simp [htaken]
    · omega
  rw [hempty, List.length_nil] at hcount
  omega

theorem stuck_returned (hcap : 0 < cap) (hconsumers : 0 < consumers)
    (hitems : ∀ p, stop ∉ items p) (h : (programSystem consumers cap mem items).Reachable s)
    (hstuck : ¬ CanStep (code (program producers consumers)) s) :
    (∀ t, s.status t = .running (.client .returned)) ∧
      storedBy .main s.shared.history = List.replicate consumers stop := by
  have hnotFull := stuck_not_full hcap hconsumers hitems h hstuck
  have hproducer (p : Fin producers) : s.status (.producer p) = .running (.client .returned) :=
    (stuck_producer h hstuck p).resolve_right hnotFull
  have returned (t : Thread producers consumers)
      (ht : s.status t = .running (.client .returned)) : s.shared.data.returned t = true := by
    have hat := reachable_accounts h t
    rw [ht] at hat
    cases t with
    | producer p => exact hat.returned.mpr rfl
    | consumer c => exact hat.returned.mpr rfl
    | main => exact hat.returned.mpr rfl
  obtain ⟨_, ⟨p, hp⟩ | hfull | ⟨hstops, hmain⟩⟩ := stuck_main h hstuck
  · rw [returned _ (hproducer p)] at hp
    cases hp
  · exact absurd hfull hnotFull
  have hfree : s.mutex = none :=
    ((reachable_guarded (code_disciplined _) (fun _ => rfl) h).stuck (code_disciplined _) hstuck).1
  obtain ⟨_, q, hrun, _, hcount⟩ := (reachable_refines hcap h).free hfree
  have hq := run_conserves hrun
  rw [List.nil_append] at hq
  -- A consumer that waits would find one of the `STOP`s, since the others take at most one each.
  have hconsumer (c : Fin consumers) : s.status (.consumer c) = .running (.client .returned) := by
    obtain ⟨hs, _⟩ | ⟨hle, hnone⟩ := stuck_consumer h hstuck c
    · exact hs
    exfalso
    have hempty : q = [] := List.length_eq_zero_iff.mp (by omega)
    have hstored := count_stop_stored hitems h
    rw [hq, hempty, List.append_nil, hstops, List.count_replicate_self, count_stop_taken h] at hstored
    have hlt : ∑ c : Fin consumers, (takenBy (.consumer c) s.shared.history).count stop <
        ∑ _c : Fin consumers, 1 := by
      refine Finset.sum_lt_sum (fun c' _ => ?_) ⟨c, Finset.mem_univ c, ?_⟩
      · obtain ⟨_, htaken⟩ | ⟨_, hnone'⟩ := stuck_consumer h hstuck c'
        · rw [htaken, List.count_append,
            List.count_eq_zero.mpr (reachable_accounts h (.consumer c')).items]
          simp
        · rw [List.count_eq_zero.mpr hnone']
          exact Nat.zero_le 1
      · rw [List.count_eq_zero.mpr hnone]
        exact Nat.zero_lt_one
    rw [hstored] at hlt
    simp at hlt
  refine ⟨fun t => ?_, hstops⟩
  cases t with
  | producer p => exact hproducer p
  | consumer c => exact hconsumer c
  | main =>
    obtain ⟨c, hc⟩ | hs := hmain
    · rw [returned _ (hconsumer c)] at hc
      cases hc
    · exact hs

theorem sum_counted (hitems : ∀ p, stop ∉ items p)
    (h : (programSystem consumers cap mem items).Reachable s) (hconsumers : 0 < consumers)
    (hdone : ∀ t, s.status t = .running (.client .returned))
    (hstops : storedBy .main s.shared.history = List.replicate consumers stop) {q : List Int}
    (hq : stored s.shared.history = taken s.shared.history ++ q) :
    ∑ c, (s.shared.data.counted c : Multiset Int) = ∑ p, (items p : Multiset Int) := by
  have hproducer (p : Fin producers) : storedBy (.producer p) s.shared.history = items p ∧
      takenBy (.producer p) s.shared.history = [] := by
    have hat := reachable_accounts h (.producer p)
    rw [hdone] at hat
    obtain ⟨⟨l, hpc, hl⟩, htaken, _⟩ := hat
    cases hpc with
    | returned => exact ⟨by rwa [List.append_nil] at hl, htaken⟩
  have hconsumer (c : Fin consumers) : storedBy (.consumer c) s.shared.history = [] ∧
      takenBy (.consumer c) s.shared.history = s.shared.data.counted c ++ [stop] := by
    have hat := reachable_accounts h (.consumer c)
    rw [hdone] at hat
    obtain ⟨⟨hand, lag, hpc, hhand, _⟩, hstored, _⟩ := hat
    cases hpc with
    | returned => exact ⟨hstored, hhand⟩
  have hmain : takenBy .main s.shared.history = [] := (reachable_accounts h .main).taken
  have hempty : q = [] :=
    queue_eq_nil hitems h hq hconsumers fun c => by simp [(hconsumer c).2]
  rw [hempty, List.append_nil] at hq
  have hsum := (sum_takenBy s.shared.history).trans
    ((congrArg _ hq.symm).trans (sum_storedBy s.shared.history).symm)
  simp only [Thread.sum_eq, hproducer, hconsumer, hmain, hstops, ← Multiset.coe_add,
    Finset.sum_add_distrib, Multiset.coe_nil, Finset.sum_const_zero, zero_add, add_zero,
    Finset.sum_const, Finset.card_univ, Fintype.card_fin, Multiset.coe_singleton,
    Multiset.coe_replicate, Multiset.nsmul_singleton] at hsum
  exact add_right_cancel hsum

/-- When no thread can go on, all threads have returned and the buffer is empty; the consumers have
counted exactly the items produced, and each of them has taken one `STOP`. -/
theorem shutdown_exact (hcap : 0 < cap) (hconsumers : 0 < consumers)
    (hitems : ∀ p, stop ∉ items p) (h : (programSystem consumers cap mem items).Reachable s)
    (hstuck : ¬ CanStep (code (program producers consumers)) s) :
    (∀ t, s.status t = .running (.client .returned)) ∧ s.shared.count = 0 ∧
      ∑ c, (s.shared.data.counted c : Multiset Int) = ∑ p, (items p : Multiset Int) ∧
      s.shared.data.totalCount = producedCount items ∧
      s.shared.data.totalSum = producedSum items ∧
      ∀ c, (takenBy (.consumer c) s.shared.history).count stop = 1 := by
  obtain ⟨hdone, hstops⟩ := stuck_returned hcap hconsumers hitems h hstuck
  have hfree : s.mutex = none :=
    ((reachable_guarded (code_disciplined _) (fun _ => rfl) h).stuck (code_disciplined _) hstuck).1
  obtain ⟨_, q, hrun, _, hcount⟩ := (reachable_refines hcap h).free hfree
  have hq := run_conserves hrun
  rw [List.nil_append] at hq
  have hconsumer (c : Fin consumers) :
      takenBy (.consumer c) s.shared.history = s.shared.data.counted c ++ [stop] ∧
        s.shared.data.consumedSum c = (s.shared.data.counted c).sum ∧
        s.shared.data.consumedCount c = (s.shared.data.counted c).length ∧
        stop ∉ s.shared.data.counted c := by
    have hat := reachable_accounts h (.consumer c)
    rw [hdone] at hat
    obtain ⟨⟨hand, lag, hpc, hhand, hlag⟩, _, hnone, hlength, _⟩ := hat
    cases hpc with
    | returned => exact ⟨hhand, by simpa using hlag, hlength, hnone⟩
  have hsum := sum_counted hitems h hconsumers hdone hstops hq
  refine ⟨hdone, ?_, hsum, ?_, ?_, fun c => ?_⟩
  · have hempty := queue_eq_nil hitems h hq hconsumers fun c => by simp [(hconsumer c).1]
    rw [hcount, hempty]
    rfl
  · have hcard := congrArg Multiset.card hsum
    simp only [Multiset.card_sum, Multiset.coe_card] at hcard
    simp only [Results.totalCount, producedCount, hconsumer]
    exact_mod_cast hcard
  · have htotal := congrArg Multiset.sum hsum
    simp only [Multiset.sum_sum, Multiset.sum_coe] at htotal
    simpa only [Results.totalSum, producedSum, hconsumer] using htotal
  · obtain ⟨htaken, _, _, hnone⟩ := hconsumer c
    rw [htaken, List.count_append, List.count_eq_zero.mpr hnone]
    simp

def hasReturned : Status Cv (Pc Program) → Bool
  | .running (.client .returned) => true
  | _ => false

theorem hasReturned_iff {st : Status Cv (Pc Program)} :
    hasReturned st = true ↔ st = .running (.client .returned) := by
  constructor
  · intro h
    unfold hasReturned at h
    split at h
    · rfl
    · cases h
  · rintro rfl
    rfl

theorem not_canStep_of_returned (h : ∀ t, hasReturned (s.status t) = true) :
    ¬ CanStep (code (program producers consumers)) s := by
  refine not_canStep_of_stopped fun t => .inl ⟨_, hasReturned_iff.mp (h t), .inr ?_⟩
  simp [code, program]

theorem shutdown_exact_one_item :
    let items : Fin 1 → List Int := fun _ => [5]
    ∃ s, (programSystem 1 2 (fun _ => 0) items).Reachable s ∧
      ¬ CanStep (code (program 1 1)) s ∧ s.shared.data.totalSum = producedSum items ∧
      ∀ c, (takenBy (.consumer c) s.shared.history).count stop = 1 := by
  intro items
  have hrun : ((programSystem 1 2 (fun _ => 0) items).run
      (programSystem 1 2 (fun _ => 0) items).init
      (List.replicate 4 (.run .main) ++ List.replicate 10 (.run (.producer 0)) ++
        List.replicate 11 (.run .main) ++ List.replicate 23 (.run (.consumer 0)) ++
        List.replicate 2 (.run .main))).any
      (fun s => decide (∀ t, hasReturned (s.status t) = true)) = true := by decide +kernel
  obtain ⟨s, hs, hreturned⟩ := (Option.any_eq_true _ _).mp hrun
  have hstuck := not_canStep_of_returned (of_decide_eq_true hreturned)
  have hreach := System.reachable_of_run _ hs
  have hexact := shutdown_exact (by decide) (by decide) (by decide) hreach hstuck
  exact ⟨s, hreach, hstuck, hexact.2.2.2.2.1, hexact.2.2.2.2.2⟩

end MultithreadMayhem.BoundedBuffer
