import MultithreadMayhem.Foundation.Ranking
import MultithreadMayhem.Kernel.Data

/-!
# The round-robin scheduler

The `scheduler()` of week 5, from before the priorities. It dispatches every process that its
scan finds `RUNNABLE` and goes on with the next slot, so a process that waits is passed
over at most once by each other process and is reached within one round of the table.
The rest of the kernel, the process that runs and the other CPUs included, is the
environment: it may change any slot whose lock this CPU does not hold.
-/

namespace MultithreadMayhem.RoundRobin

open Foundation Kernel

variable {n : ℕ} {p q : Fin n}

inductive Pc (n : ℕ)
  | start
  | loop (i : ℕ) (found : Bool)
  | acquire (p : Fin n) (found : Bool)
  | test (p : Fin n) (found : Bool)
  | setState (p : Fin n) (found : Bool)
  | setProc (p : Fin n)
  | swtch (p : Fin n)
  | clearProc (p : Fin n)
  | setFound (p : Fin n)
  | release (p : Fin n) (found : Bool)
  | wfi
  deriving DecidableEq

/-- The slot whose lock the CPU holds. In `swtch` the lock is with the process that runs. -/
def Pc.locked : Pc n → Option (Fin n)
  | .test p _ | .setState p _ | .setProc p | .clearProc p | .setFound p | .release p _ => some p
  | _ => none

structure State (n : ℕ) where
  states : Fin n → Procstate
  /-- `c->proc` -/
  proc : Option (Fin n)
  pc : Pc n

inductive Label (n : ℕ)
  | scheduler
  | environment (states : Fin n → Procstate)

def Label.isScheduler : Label n → Bool
  | .scheduler => true
  | .environment _ => false

/-- One statement of `scheduler()`. The process that runs gives the CPU back through `sched()`, which
panics in state `RUNNING`. -/
def scheduler (s : State n) : Option (State n) :=
  match s.pc with
  | .start => some { s with pc := .loop 0 false }
  | .loop i found =>
    if h : i < n then some { s with pc := .acquire ⟨i, h⟩ found }
    else if found then some { s with pc := .start }
    else some { s with pc := .wfi }
  | .acquire p found => some { s with pc := .test p found }
  | .test p found =>
    if s.states p = .runnable then some { s with pc := .setState p found }
    else some { s with pc := .release p found }
  | .setState p _ =>
    some { s with states := Function.update s.states p .running, pc := .setProc p }
  | .setProc p => some { s with proc := some p, pc := .swtch p }
  | .swtch p => if s.states p = .running then none else some { s with pc := .clearProc p }
  | .clearProc p => some { s with proc := none, pc := .setFound p }
  | .setFound p => some { s with pc := .release p true }
  | .release p found => some { s with pc := .loop (p + 1) found }
  | .wfi => some { s with pc := .start }

def step (s : State n) : Label n → Option (State n)
  | .scheduler => scheduler s
  | .environment states =>
    if ∀ p ∈ s.pc.locked, states p = s.states p then some { s with states := states } else none

/-- One CPU, from the entry of `scheduler()` in a table in the states `states`. -/
def cpu (states : Fin n → Procstate) : System (State n) (Label n) where
  init := { states := states, proc := none, pc := .start }
  step := step

section Rank

/-- The statements left until the scan tests the slot `q`, if every process on the way is
dispatched, from the head of the loop at `i`. -/
def ahead (q : Fin n) (i : ℕ) : ℕ := if i ≤ q then 9 * (q - i) + 3 else 9 * (n - i) + 9 * q + 6

def Pc.rank (q : Fin n) : Pc n → ℕ
  | .start => ahead q 0 + 1
  | .wfi => ahead q 0 + 2
  | .loop i _ => ahead q i
  | .acquire p _ => if p = q then 2 else ahead q (p + 1) + 8
  | .test p _ => if p = q then 1 else ahead q (p + 1) + 7
  | .setState p _ => if p = q then 0 else ahead q (p + 1) + 6
  | .setProc p => ahead q (p + 1) + 5
  | .swtch p => ahead q (p + 1) + 4
  | .clearProc p => ahead q (p + 1) + 3
  | .setFound p => ahead q (p + 1) + 2
  | .release p _ => ahead q (p + 1) + 1

theorem ahead_le (q : Fin n) (i : ℕ) : ahead q i + 3 ≤ 9 * n := by
  unfold ahead
  have hq := q.isLt
  split <;> omega

theorem ahead_self : ahead q q = 3 := by
  simp [ahead]

/-- A slot other than `q` costs nine statements at most. -/
theorem ahead_succ {i : ℕ} (hi : i < n) (hne : i ≠ q) : ahead q (i + 1) + 9 = ahead q i := by
  unfold ahead
  split <;> split <;> omega

theorem ahead_end {i : ℕ} (hi : ¬i < n) : ahead q 0 + 3 ≤ ahead q i := by
  unfold ahead
  have hq := q.isLt
  split <;> split <;> omega

theorem scheduler_rank {s t : State n} (hs : s.states q = .runnable) (ht : t.states q = .runnable)
    (hstep : scheduler s = some t) : t.pc.rank q < s.pc.rank q := by
  obtain ⟨states, proc, pc⟩ := s
  cases pc with
  | start | setProc p | clearProc p | setFound p | release p found | wfi =>
    cases hstep
    exact Nat.lt_succ_self _
  | loop i found =>
    simp only [scheduler] at hstep
    split at hstep
    · rename_i hi
      cases hstep
      simp only [Pc.rank]
      split
      · rename_i heq
        rw [← heq, ahead_self]
        exact Nat.lt_succ_self 2
      · rename_i hne
        have hsucc : ahead q (i + 1) + 9 = ahead q i := ahead_succ hi fun heq => hne (Fin.ext heq)
        omega
    · have hend : ahead q 0 + 3 ≤ ahead q i := ahead_end ‹_›
      split at hstep
      · cases hstep
        simp only [Pc.rank]
        omega
      · cases hstep
        simp only [Pc.rank]
        omega
  | acquire p found =>
    cases hstep
    simp only [Pc.rank]
    split <;> omega
  | test p found =>
    simp only [scheduler] at hstep
    split at hstep
    · cases hstep
      simp only [Pc.rank]
      split <;> omega
    · have hne : p ≠ q := by
        rintro rfl
        exact absurd hs ‹_›
      cases hstep
      simp only [Pc.rank, if_neg hne]
      omega
  | setState p found =>
    have hne : p ≠ q := by
      rintro rfl
      cases hstep
      change Function.update states p .running p = .runnable at ht
      rw [Function.update_self] at ht
      cases ht
    cases hstep
    simp only [Pc.rank, if_neg hne]
    omega
  | swtch p =>
    simp only [scheduler] at hstep
    split at hstep <;> cases hstep
    exact Nat.lt_succ_self _

theorem ranked (q : Fin n) (states : Fin n → Procstate) :
    (cpu states).Ranked (fun s => s.states q = .runnable) (fun s => s.pc.rank q)
      Label.isScheduler := by
  intro s l t hs hstep ht
  cases l with
  | scheduler => exact scheduler_rank hs ht hstep
  | environment states' =>
    change (if _ then _ else _) = _ at hstep
    split at hstep <;> cases hstep
    exact Nat.le_refl _

theorem rank_le (q : Fin n) (pc : Pc n) : pc.rank q ≤ 9 * n + 2 := by
  cases pc with
  | start | wfi =>
    have hle := ahead_le q 0
    have hzero : ahead q 0 = 9 * q + 3 := by simp [ahead]
    have hq := q.isLt
    simp only [Pc.rank]
    omega
  | loop i found =>
    have hle := ahead_le q i
    simp only [Pc.rank]
    omega
  | acquire p | test p | setState p =>
    have hle := ahead_le q p
    simp only [Pc.rank]
    split
    · omega
    · rename_i hne
      have hsucc : ahead q (p + 1) + 9 = ahead q p := ahead_succ p.isLt fun heq => hne (Fin.ext heq)
      omega
  | setProc p | swtch p | clearProc p | setFound p | release p =>
    have hle := ahead_le q (p + 1)
    simp only [Pc.rank]
    omega

end Rank

instance (q : Fin n) : DecidablePred fun s : State n => s.states q = .runnable :=
  fun _ => inferInstance

/-- Bounded waiting. While the process in the slot `q` stays `RUNNABLE`, whatever the other CPUs and
the processes do, the scheduler takes at most `9 * n + 2` statements, it does not dispatch any
other process twice, and a pass that begins then does not end in `wfi`. -/
theorem bounded_waiting {states : Fin n → Procstate} {s t : State n} (ls : List (Label n))
    (hrun : (cpu states).runInside (fun s => s.states q = .runnable) s ls = some t) :
    ls.countP Label.isScheduler ≤ 9 * n + 2 ∧
      (∀ p found, s.pc = .setProc p → p ≠ q → t.pc ≠ .setState p found) ∧
      (s.pc = .start → t.pc ≠ .wfi) := by
  have hcount := (ranked q states).countP_add_le ls hrun
  have hle := (ranked q states).le_of_path (System.path_of_runInside ls hrun)
  have hbound := rank_le q s.pc
  refine ⟨by omega, fun p found hs hpq ht => ?_, fun hs ht => ?_⟩
  · rw [hs, ht, Pc.rank, Pc.rank, if_neg hpq] at hle
    omega
  · rw [hs, ht, Pc.rank, Pc.rank] at hle
    omega

def yieldOnce : List (Label 2) :=
  List.replicate 6 .scheduler ++ .environment (fun _ => .runnable) :: List.replicate 7 .scheduler

theorem bounded_waiting_yield : ∃ t : State 2, t.pc = .setState 1 true ∧
    yieldOnce.countP Label.isScheduler ≤ 20 ∧ t.pc ≠ .wfi := by
  have hrun : ((cpu fun _ => .runnable).runInside (fun s => s.states 1 = .runnable)
      (cpu fun _ => .runnable).init yieldOnce).any fun t : State 2 =>
        decide (t.pc = .setState 1 true) := by
    decide +kernel
  obtain ⟨t, hrun, ht⟩ := (Option.any_eq_true _ _).mp hrun
  obtain ⟨hcount, -, hwfi⟩ := bounded_waiting (q := 1) yieldOnce hrun
  exact ⟨t, of_decide_eq_true ht, hcount, hwfi rfl⟩

end MultithreadMayhem.RoundRobin
