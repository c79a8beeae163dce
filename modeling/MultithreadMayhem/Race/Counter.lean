import MultithreadMayhem.Pthread.Machine
import Mathlib.Algebra.Order.Ring.Int
import Mathlib.Tactic.Convert

/-!
# The unsynchronised counter

`increment()` of `race_amplified.c`, run by two threads without a lock. A stale
store can wipe out all but one of the other thread's increments and all but one of
its own, so that two is the least final value. Every value between two and the
number of iterations is reached.
-/

namespace MultithreadMayhem.Race

open Foundation Pthread

inductive Thread
  | t1
  | t2
  deriving DecidableEq, Repr

instance : Fintype Thread := ⟨{.t1, .t2}, fun t => by cases t <;> decide⟩

inductive Pc
  | load (i : ℕ)
  | add (i : ℕ) (tmp : Int)
  | store (i : ℕ) (tmp : Int)
  deriving DecidableEq, Repr

def increment (iters : ℕ) (pc : Pc) (counter : Int) : Act Int PEmpty Pc :=
  match pc with
  | .load i => if i < iters then .exec counter (.add i counter) else .exit
  | .add i tmp => .exec counter (.store i (tmp + 1))
  | .store i tmp => .exec tmp (.load (i + 1))

def raceSystem (iters : ℕ) : System (State Thread Int PEmpty Pc) (Label Thread) :=
  Pthread.system (fun _ => increment iters) 0 fun _ => .load 0

def Pc.done : Pc → ℕ
  | .load i | .add i _ | .store i _ => i

def total (f : Thread → Pc) : ℕ := (f .t1).done + (f .t2).done

/-- What holds of the value in the hands of a thread: it is at most the number of stores so far, and
from the second iteration on it comes from a load after a store. -/
def Carries (iters : ℕ) (f : Thread → Pc) : Pc → Prop
  | .load i => i ≤ iters
  | .add i tmp => i < iters ∧ 0 ≤ tmp ∧ tmp ≤ total f ∧ (1 ≤ i → 1 ≤ tmp)
  | .store i tmp => i < iters ∧ 1 ≤ tmp ∧ tmp ≤ total f + 1 ∧ (1 ≤ i → 2 ≤ tmp)

structure Counting (iters : ℕ) (counter : Int) (f : Thread → Pc) : Prop where
  nonneg : 0 ≤ counter
  upper : counter ≤ total f
  stored : ∀ t, 1 ≤ (f t).done → 1 ≤ counter
  low : counter < 2 → ∃ t, (f t).done ≤ 1
  carries : ∀ t, Carries iters f (f t)

theorem total_update (f : Thread → Pc) (t : Thread) (pc : Pc) :
    total (Function.update f t pc) + (f t).done = total f + pc.done := by
  cases t with
  | t1 =>
    simp only [total, Function.update_self, Function.update_of_ne (show Thread.t2 ≠ .t1 by decide)]
    omega
  | t2 =>
    simp only [total, Function.update_self, Function.update_of_ne (show Thread.t1 ≠ .t2 by decide)]
    omega

theorem Carries.mono {iters : ℕ} {f g : Thread → Pc} {pc : Pc} (h : Carries iters f pc)
    (hle : total f ≤ total g) : Carries iters g pc := by
  cases pc with
  | load i => exact h
  | add i tmp =>
    obtain ⟨hi, hnonneg, htotal, hone⟩ := h
    exact ⟨hi, hnonneg, by omega, hone⟩
  | store i tmp =>
    obtain ⟨hi, hpos, htotal, htwo⟩ := h
    exact ⟨hi, hpos, by omega, htwo⟩

variable {iters : ℕ} {counter next : Int} {f : Thread → Pc}

theorem Counting.goto (h : Counting iters counter f) {t : Thread} {pc : Pc}
    (hdone : pc.done = (f t).done) (hcarries : Carries iters f pc) :
    Counting iters counter (Function.update f t pc) := by
  have htotal := total_update f t pc
  have hsame (u : Thread) : (Function.update f t pc u).done = (f u).done := by
    obtain rfl | hne := eq_or_ne u t
    · rw [Function.update_self, hdone]
    · rw [Function.update_of_ne hne]
  refine ⟨h.nonneg, ?_, ?_, ?_, ?_⟩
  · have := h.upper
    omega
  · intro u hu
    rw [hsame] at hu
    exact h.stored u hu
  · intro hlt
    obtain ⟨u, hu⟩ := h.low hlt
    exact ⟨u, by rw [hsame]; exact hu⟩
  · intro u
    obtain rfl | hne := eq_or_ne u t
    · rw [Function.update_self]
      exact hcarries.mono (by omega)
    · rw [Function.update_of_ne hne]
      exact (h.carries u).mono (by omega)

theorem Counting.store (h : Counting iters counter f) {t : Thread} {i : ℕ} {tmp : Int}
    (hpc : f t = .store i tmp) : Counting iters tmp (Function.update f t (.load (i + 1))) := by
  have htotal := total_update f t (.load (i + 1))
  have hcarries := h.carries t
  rw [hpc] at hcarries htotal
  obtain ⟨hi, hpos, hle, htwo⟩ := hcarries
  change _ + i = _ + (i + 1) at htotal
  refine ⟨by omega, by omega, fun _ _ => hpos, ?_, ?_⟩
  -- A store below two ends the first iteration of its thread.
  · intro hlt
    refine ⟨t, ?_⟩
    rw [Function.update_self]
    change i + 1 ≤ 1
    by_contra hi'
    have := htwo (by omega)
    omega
  · intro u
    obtain rfl | hne := eq_or_ne u t
    · rw [Function.update_self]
      exact hi
    · rw [Function.update_of_ne hne]
      exact (h.carries u).mono (by omega)

theorem Counting.step (h : Counting iters counter f) {t : Thread} {pc : Pc}
    (hexec : increment iters (f t) counter = .exec next pc) :
    Counting iters next (Function.update f t pc) := by
  have hcarries := h.carries t
  cases hpc : f t with
  | load i =>
    rw [hpc] at hexec
    simp only [increment] at hexec
    split at hexec <;> cases hexec
    refine h.goto (by rw [hpc]; rfl) ⟨‹_›, h.nonneg, h.upper, fun hi => ?_⟩
    exact h.stored t (by rw [hpc]; exact hi)
  | add i tmp =>
    rw [hpc] at hexec hcarries
    cases hexec
    obtain ⟨hi, hnonneg, hle, hone⟩ := hcarries
    refine h.goto (by rw [hpc]; rfl) ⟨hi, by omega, by omega, fun hi' => ?_⟩
    have := hone hi'
    omega
  | store i tmp =>
    rw [hpc] at hexec
    cases hexec
    exact h.store hpc

/-- A reachable state with the counter at `counter` and the threads at `f`. -/
def Reaches (iters : ℕ) (counter : Int) (f : Thread → Pc) : Prop :=
  ∃ s, (raceSystem iters).Reachable s ∧ s.shared = counter ∧ ∀ t, s.status t = .running (f t)

theorem increment_ne_lock {pc q : Pc} : increment iters pc counter ≠ .lock q := by
  cases pc <;> simp only [increment, ne_eq, reduceCtorEq, not_false_eq_true]
  split <;> nofun

theorem increment_ne_unlock {pc q : Pc} : increment iters pc counter ≠ .unlock q := by
  cases pc <;> simp only [increment, ne_eq, reduceCtorEq, not_false_eq_true]
  split <;> nofun

theorem reachable_counting {s : State Thread Int PEmpty Pc}
    (h : (raceSystem iters).Reachable s) :
    ∃ f, (∀ t, s.status t = .running (f t)) ∧ Counting iters s.shared f := by
  refine h.invariant
    (fun s => ∃ f, (∀ t, s.status t = .running (f t)) ∧ Counting iters s.shared f)
    ⟨fun _ => .load 0, fun _ => rfl, ?_⟩ ?_
  · refine ⟨le_rfl, le_rfl, ?_, fun _ => ⟨.t1, Nat.zero_le _⟩, fun _ => Nat.zero_le _⟩
    intro t ht
    exact absurd ht (by decide)
  · rintro s l s' _ ⟨f, hf, hcount⟩ hstep
    cases step_iff.mp hstep with
    | @exec t pc next x hs hc =>
      rw [hf t] at hs
      cases hs
      refine ⟨Function.update f t next, ?_, hcount.step hc⟩
      intro u
      simp only [State.goto, Function.update_apply]
      split
      · rfl
      · exact hf u
    | @lock t pc next hs hc hm => exact (increment_ne_lock hc).elim
    | @unlock t pc next hs hc hm => exact (increment_ne_unlock hc).elim
    | @wait t pc next cv hs hc hm => exact cv.elim
    | @signalNone t pc next cv hs hc hn => exact cv.elim
    | @signalWake t w pc next pc' cv hs hc hw => exact cv.elim
    | @broadcast t pc next cv hs hc => exact cv.elim
    | @relock t pc hs hm =>
      rw [hf] at hs
      cases hs
    | @spurious t cv pc hs => exact cv.elim

theorem Reaches.exec (h : Reaches iters counter f) {t : Thread} {pc : Pc}
    (hexec : increment iters (f t) counter = .exec next pc) :
    Reaches iters next (Function.update f t pc) := by
  obtain ⟨s, hreach, rfl, hf⟩ := h
  refine ⟨_, hreach.step (step_iff.mpr (.exec (hf t) hexec)), rfl, fun u => ?_⟩
  simp only [State.goto, Function.update_apply]
  split
  · rfl
  · exact hf u

theorem Reaches.fetch (h : Reaches iters counter f) {t : Thread} {i : ℕ} (hf : f t = .load i)
    (hi : i < iters) :
    Reaches iters counter (Function.update f t (.store i (counter + 1))) := by
  have hload : Reaches iters counter (Function.update f t (.add i counter)) :=
    h.exec (by rw [hf, increment, if_pos hi])
  have hadd : Reaches iters counter (Function.update (Function.update f t (.add i counter)) t
      (.store i (counter + 1))) := hload.exec (by rw [Function.update_self]; rfl)
  rwa [Function.update_idem] at hadd

theorem Reaches.store (h : Reaches iters counter f) {t : Thread} {i : ℕ} {tmp : Int}
    (hf : f t = .store i tmp) : Reaches iters tmp (Function.update f t (.load (i + 1))) :=
  h.exec (by rw [hf]; rfl)

theorem Reaches.iterate (h : Reaches iters counter f) {t : Thread} {i : ℕ} (m : ℕ)
    (hf : f t = .load i) (hi : i + m ≤ iters) :
    Reaches iters (counter + m) (Function.update f t (.load (i + m))) := by
  induction m with
  | zero =>
    rw [Nat.cast_zero, add_zero, add_zero, ← hf, Function.update_eq_self]
    exact h
  | succ m ih =>
    have hfetch := (ih (by omega)).fetch (t := t) (Function.update_self ..) (by omega)
    have hstore := hfetch.store (t := t) (Function.update_self ..)
    rw [Function.update_idem, Function.update_idem] at hstore
    rwa [Nat.cast_succ, ← add_assoc, ← add_assoc]

/-- Both threads load the same value, `m` times: one of each two increments is lost. -/
theorem Reaches.lockstep (m : ℕ) (hm : m ≤ iters) : Reaches iters m fun _ => .load m := by
  induction m with
  | zero => exact ⟨_, .init, rfl, fun _ => rfl⟩
  | succ m ih =>
    have h₁ := (ih (by omega)).fetch (t := .t1) rfl (by omega)
    have h₂ := h₁.fetch (t := .t2) rfl (by omega)
    have h₃ := h₂.store (t := .t1) rfl
    have h₄ := h₃.store (t := .t2) rfl
    convert h₄ using 1
    · push_cast
      rfl
    · funext t
      cases t <;> rfl

def Final (iters : ℕ) (counter : Int) : Prop :=
  ∃ s, (raceSystem iters).Reachable s ∧ s.shared = counter ∧
    ∀ t, ∃ pc, s.status t = .running pc ∧ increment iters pc s.shared = .exit

theorem Reaches.final (h : Reaches iters counter f) (hf : ∀ t, f t = .load iters) :
    Final iters counter := by
  obtain ⟨s, hreach, rfl, hs⟩ := h
  refine ⟨s, hreach, rfl, fun t => ⟨_, hs t, ?_⟩⟩
  rw [hf, increment, if_neg (lt_irrefl _)]

theorem final_of_lost {lost : ℕ} (hlost : lost ≤ iters) :
    Final iters ((2 * iters - lost : ℕ) : Int) := by
  have h₁ : Reaches iters lost fun _ => .load lost := Reaches.lockstep lost hlost
  have h₂ := h₁.iterate (t := .t1) (iters - lost) rfl (by omega)
  have h₃ := h₂.iterate (t := .t2) (iters - lost) rfl (by omega)
  have hcount : ((2 * iters - lost : ℕ) : Int) =
      lost + (iters - lost : ℕ) + (iters - lost : ℕ) := by omega
  rw [hcount]
  apply h₃.final
  intro t
  cases t
  · exact congrArg Pc.load (by omega)
  · exact congrArg Pc.load (by omega)

/-- A stale store of the first thread wipes out the second thread's iterations but the last, and the
last store of the second wipes out what the first has added meanwhile. -/
theorem final_of_stale {v : ℕ} (hlow : 2 ≤ v) (hhigh : v ≤ iters + 1) (hiters : 2 ≤ iters) :
    Final iters v := by
  have h₀ : Reaches iters 0 fun _ => .load 0 := Reaches.lockstep 0 (Nat.zero_le _)
  have h₁ := h₀.fetch (t := .t1) rfl (by omega)
  have h₂ := h₁.iterate (t := .t2) (iters - 1) rfl (by omega)
  have h₃ := h₂.store (t := .t1) rfl
  have h₄ := h₃.iterate (t := .t1) (v - 2) rfl (by omega)
  have h₅ := h₄.fetch (t := .t2) rfl (by omega)
  have h₆ := h₅.iterate (t := .t1) (iters + 1 - v) rfl (by omega)
  have h₇ := h₆.store (t := .t2) rfl
  have hvalue : (0 + 1 + ((v - 2 : ℕ) : Int) + 1) = v := by omega
  rw [hvalue] at h₇
  apply h₇.final
  intro t
  cases t
  · exact congrArg Pc.load (by omega)
  · exact congrArg Pc.load (by omega)

theorem final_bounds (h : Final iters counter) :
    min iters 2 ≤ counter ∧ counter ≤ 2 * iters := by
  obtain ⟨s, hreach, rfl, hfinal⟩ := h
  obtain ⟨f, hf, hcount⟩ := reachable_counting hreach
  have hdone (t : Thread) : (f t).done = iters := by
    obtain ⟨pc, hs, hexit⟩ := hfinal t
    rw [hf t] at hs
    cases hs
    have hcarries := hcount.carries t
    cases hpc : f t with
    | load i =>
      rw [hpc] at hexit hcarries
      simp only [increment] at hexit
      split at hexit
      · cases hexit
      · exact le_antisymm hcarries (not_lt.mp ‹_›)
    | add i tmp =>
      rw [hpc] at hexit
      cases hexit
    | store i tmp =>
      rw [hpc] at hexit
      cases hexit
  have hupper := hcount.upper
  have hnonneg := hcount.nonneg
  rw [total, hdone, hdone] at hupper
  refine ⟨?_, by omega⟩
  obtain rfl | hpos := Nat.eq_zero_or_pos iters
  · omega
  · have hone := hcount.stored .t1 (by rw [hdone]; exact hpos)
    by_contra hlt
    obtain ⟨t, ht⟩ := hcount.low (by omega)
    rw [hdone] at ht
    omega

/-- The final values of the counter are exactly those from `min iters 2` to `2 * iters`. -/
theorem final_counter_range (iters : ℕ) (counter : Int) :
    Final iters counter ↔ min iters 2 ≤ counter ∧ counter ≤ 2 * iters := by
  constructor
  · exact final_bounds
  · rintro ⟨hlow, hhigh⟩
    obtain ⟨v, rfl⟩ := Int.eq_ofNat_of_zero_le (show 0 ≤ counter by omega)
    obtain hle | hgt := le_or_gt iters v
    · have hlost := final_of_lost (show 2 * iters - v ≤ iters by omega)
      rwa [show 2 * iters - (2 * iters - v) = v by omega] at hlost
    · exact final_of_stale (by omega) (by omega) (by omega)

end MultithreadMayhem.Race
