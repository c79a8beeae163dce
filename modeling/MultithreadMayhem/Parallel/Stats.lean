import MultithreadMayhem.Parallel.LockedSum

/-!
# Private sums

`parallel_stats.c`. Every worker sums its slice in its own result, and `main` adds
the results after it has joined the workers. No lock is needed: nobody else writes
a worker's result, and `main` reads it only after the worker has returned.
-/

namespace MultithreadMayhem.Parallel.Stats

open Foundation Pthread

abbrev Thread (threads : ℕ) := Option (Fin threads)

structure Shared (threads : ℕ) where
  /-- `start` and `end` of `results[i]`, once the worker `i` is created. -/
  slices : Thread threads → Option Slice
  /-- `sum` of `results[i]`. -/
  sum : Thread threads → Int
  returned : Thread threads → Bool

inductive Pc
  | start
  | zero
  | loop (i : ℕ)
  | load (i : ℕ)
  | store (i : ℕ) (tmp : Int)
  | returned
  | create (i : ℕ)
  | join (i : ℕ) (totalSum : Int)
  | add (i : ℕ) (totalSum : Int)
  | report (totalSum : Int)
  deriving DecidableEq, Repr

variable {threads : ℕ}

/-- `worker()`; `r->sum += data[i]` is a load and a store. -/
def worker (data : ℕ → Int32) (t : Thread threads) (x : Shared threads) :
    Pc → Act (Shared threads) PEmpty Pc
  | .start => if (x.slices t).isSome then .exec x .zero else .block
  | .zero =>
    match x.slices t with
    | some r => .exec { x with sum := Function.update x.sum t 0 } (.loop r.start)
    | none => .block
  | .loop i =>
    match x.slices t with
    | some r =>
      if i < r.stop then .exec x (.load i)
      else .exec { x with returned := Function.update x.returned t true } .returned
    | none => .block
  | .load i => .exec x (.store i (x.sum t))
  | .store i tmp =>
    .exec { x with sum := Function.update x.sum t (tmp + (data i).toInt) } (.loop (i + 1))
  | _ => .exit

/-- `main()`, up to the report. -/
def main (n : ℕ) (x : Shared threads) : Pc → Act (Shared threads) PEmpty Pc
  | .create i =>
    if h : i < threads then
      .exec { x with slices := Function.update x.slices (some ⟨i, h⟩) (some (slice n threads i)) }
        (.create (i + 1))
    else .exec x (.join 0 0)
  | .join i totalSum =>
    if h : i < threads then
      if x.returned (some ⟨i, h⟩) then .exec x (.add i totalSum) else .block
    else .exec x (.report totalSum)
  | .add i totalSum =>
    if h : i < threads then .exec x (.join (i + 1) (totalSum + x.sum (some ⟨i, h⟩))) else .block
  | _ => .exit

def code (data : ℕ → Int32) (n : ℕ) (t : Thread threads) (pc : Pc) (x : Shared threads) :
    Act (Shared threads) PEmpty Pc :=
  match pc with
  | .create _ | .join _ _ | .add _ _ | .report _ => main n x pc
  | _ => worker data t x pc

def programStart : Thread threads → Pc
  | some _ => .start
  | none => .create 0

/-- `results` is not initialised: `sum₀` is what the memory holds. -/
def statsSystem (data : ℕ → Int32) (n threads : ℕ) (sum₀ : Thread threads → Int64) :
    System (State (Thread threads) (Shared threads) PEmpty Pc) (Label (Thread threads)) :=
  Pthread.system (code data n) ⟨fun _ => none, fun t => (sum₀ t).toInt, fun _ => false⟩ programStart

/-- `total_sum`, before `main` initialises it zero. -/
def Pc.totalSum : Pc → Int
  | .join _ v | .add _ v | .report v => v
  | _ => 0

/-- The worker `w` has summed its slice up to `i`. -/
structure Summing (data : ℕ → Int32) (n : ℕ) (w : Fin threads) (x : Shared threads) (i : ℕ) :
    Prop where
  notReturned : x.returned (some w) = false
  slices : x.slices (some w) = some (slice n threads w)
  sum : x.sum (some w) = sliceSum data n threads w i
  start_le : (slice n threads w).start ≤ i
  le_stop : i ≤ (slice n threads w).stop

section Rules

variable (data : ℕ → Int32) (n : ℕ) (sum₀ : Thread threads → Int64)

def Knows (t : Thread threads) (x : Shared threads) : Pc → Prop
  | .start => ∃ w, t = some w ∧ x.returned t = false ∧ x.sum t = (sum₀ t).toInt
  | .zero => ∃ w, t = some w ∧ x.returned t = false ∧ x.sum t = (sum₀ t).toInt ∧
    x.slices t = some (slice n threads w)
  | .loop i => ∃ w, t = some w ∧ Summing data n w x i
  | .load i => ∃ w, t = some w ∧ Summing data n w x i ∧ i < (slice n threads w).stop
  | .store i tmp => ∃ w, t = some w ∧ Summing data n w x i ∧ i < (slice n threads w).stop ∧
    tmp = x.sum t
  | .returned => ∃ w, t = some w ∧ x.returned t = true ∧
    x.sum t = sliceSum data n threads w (slice n threads w).stop
  | .create _ => t = none
  | .join i totalSum => t = none ∧ i ≤ threads ∧ totalSum = arraySum data (cut n threads i)
  | .add i totalSum => t = none ∧ totalSum = arraySum data (cut n threads i) ∧
    ∃ h : i < threads, x.returned (some ⟨i, h⟩) = true
  | .report totalSum => t = none ∧ totalSum = arraySum data n

/-- What the threads know together: the slices are assigned by `main`, and a returned worker has
summed its slice. -/
structure Common (x : Shared threads) : Prop where
  slices : ∀ w : Fin threads, x.slices (some w) = none ∨
    x.slices (some w) = some (slice n threads w)
  sum : ∀ w : Fin threads, x.returned (some w) = true →
    x.sum (some w) = sliceSum data n threads w (slice n threads w).stop

/-- What a statement of `u` may change, as the other threads see it. -/
structure Change (u : Thread threads) (x y : Shared threads) : Prop where
  slices : ∀ w : Fin threads, y.slices (some w) = x.slices (some w) ∨
    y.slices (some w) = some (slice n threads w)
  sum : ∀ t, t ≠ u → y.sum t = x.sum t
  returned : ∀ t, t ≠ u → y.returned t = x.returned t
  stays : ∀ t, x.returned t = true → y.returned t = true
  common : Common data n y

theorem code_change (u : Thread threads) (q : Pc) (x : Shared threads) (hcommon : Common data n x)
    (h : Knows data n sum₀ u x q) :
    (code data n u q x).Leads (fun y _ => Change data n u x y) x := by
  have same : Change data n u x x :=
    ⟨fun _ => .inl rfl, fun _ _ => rfl, fun _ _ => rfl, fun _ => id, hcommon⟩
  -- A worker that has not returned may write its own sum.
  have write (v : Int) (hret : x.returned u = false) :
      Change data n u x { x with sum := Function.update x.sum u v } := by
    refine ⟨fun _ => .inl rfl, fun t hne => Function.update_of_ne hne .., fun _ _ => rfl,
      fun _ => id, hcommon.slices, fun w hw => ?_⟩
    have hne : some w ≠ u := by
      rintro rfl
      rw [hret] at hw
      cases hw
    exact (Function.update_of_ne hne ..).trans (hcommon.sum w hw)
  cases q with
  | start =>
    simp only [code, worker]
    split
    · exact same
    · trivial
  | zero =>
    obtain ⟨w, rfl, hret, _⟩ := h
    simp only [code, worker]
    split
    · exact write 0 hret
    · trivial
  | loop i =>
    obtain ⟨w, rfl, hsum⟩ := h
    simp only [code, worker, hsum.slices]
    split
    · exact same
    · rename_i hend
      obtain rfl : i = (slice n threads w).stop := le_antisymm hsum.le_stop (not_lt.mp hend)
      refine ⟨fun _ => .inl rfl, fun _ _ => rfl, fun t hne => Function.update_of_ne hne .., ?_,
        hcommon.slices, fun v hv => ?_⟩
      · intro t ht
        simp only [Function.update_apply]
        split
        · rfl
        · exact ht
      · obtain rfl | hne := eq_or_ne v w
        · exact hsum.sum
        · have hsome : some v ≠ some w := fun heq => hne (Option.some.inj heq)
          exact hcommon.sum v ((Function.update_of_ne hsome ..).symm.trans hv)
  | load i => exact same
  | store i tmp =>
    obtain ⟨w, rfl, hsum, _⟩ := h
    exact write _ hsum.notReturned
  | create i =>
    simp only [code, main]
    split
    · have hslices (w : Fin threads) (k : Fin threads) :
          Function.update x.slices (some k) (some (slice n threads k)) (some w) =
            x.slices (some w) ∨
          Function.update x.slices (some k) (some (slice n threads k)) (some w) =
            some (slice n threads w) := by
        simp only [Function.update_apply, Option.some.injEq]
        split
        · rename_i heq
          exact .inr (by rw [heq])
        · exact .inl rfl
      refine ⟨fun w => hslices w ⟨i, _⟩, fun _ _ => rfl, fun _ _ => rfl, fun _ => id, ?_,
        hcommon.sum⟩
      intro w
      obtain hsame | hnew := hslices w ⟨i, ‹_›⟩
      · exact (hcommon.slices w).imp hsame.trans hsame.trans
      · exact .inr hnew
    · exact same
  | join i totalSum =>
    simp only [code, main]
    split
    · split
      · exact same
      · trivial
    · exact same
  | add i totalSum =>
    simp only [code, main]
    split
    · exact same
    · trivial
  | returned => trivial
  | report => trivial

variable {data n sum₀}

theorem Change.slices_eq {u : Thread threads} {x y : Shared threads} (hc : Change data n u x y)
    {w : Fin threads} (h : x.slices (some w) = some (slice n threads w)) :
    y.slices (some w) = some (slice n threads w) := by
  obtain hsame | hnew := hc.slices w
  · exact hsame.trans h
  · exact hnew

theorem Change.summing {u : Thread threads} {x y : Shared threads} (hc : Change data n u x y)
    {w : Fin threads} (hne : some w ≠ u) {i : ℕ} (h : Summing data n w x i) :
    Summing data n w y i where
  notReturned := (hc.returned _ hne).trans h.notReturned
  slices := hc.slices_eq h.slices
  sum := (hc.sum _ hne).trans h.sum
  start_le := h.start_le
  le_stop := h.le_stop

theorem Change.knows {u t : Thread threads} {pc : Pc} {x y : Shared threads}
    (hc : Change data n u x y) (hne : t ≠ u) (h : Knows data n sum₀ t x pc) :
    Knows data n sum₀ t y pc := by
  cases pc with
  | start =>
    obtain ⟨w, rfl, hret, hsum⟩ := h
    exact ⟨w, rfl, (hc.returned _ hne).trans hret, (hc.sum _ hne).trans hsum⟩
  | zero =>
    obtain ⟨w, rfl, hret, hsum, hslice⟩ := h
    exact ⟨w, rfl, (hc.returned _ hne).trans hret, (hc.sum _ hne).trans hsum,
      hc.slices_eq hslice⟩
  | loop i =>
    obtain ⟨w, rfl, hsum⟩ := h
    exact ⟨w, rfl, hc.summing hne hsum⟩
  | load i =>
    obtain ⟨w, rfl, hsum, hlt⟩ := h
    exact ⟨w, rfl, hc.summing hne hsum, hlt⟩
  | store i tmp =>
    obtain ⟨w, rfl, hsum, hlt, htmp⟩ := h
    exact ⟨w, rfl, hc.summing hne hsum, hlt, htmp.trans (hc.sum _ hne).symm⟩
  | returned =>
    obtain ⟨w, rfl, hret, hsum⟩ := h
    exact ⟨w, rfl, hc.stays _ hret, (hc.sum _ hne).trans hsum⟩
  | create i => exact h
  | join i totalSum => exact h
  | add i totalSum =>
    obtain ⟨hmain, htotal, hi, hret⟩ := h
    exact ⟨hmain, htotal, hi, hc.stays _ hret⟩
  | report totalSum => exact h

variable (data n sum₀)

theorem knows_own (ht : 0 < threads) (t : Thread threads) (pc : Pc) (x : Shared threads)
    (hcommon : Common data n x) (h : Knows data n sum₀ t x pc) :
    (code data n t pc x).Leads (fun y st => Knows data n sum₀ t y st.pc) x := by
  cases pc with
  | start =>
    obtain ⟨w, rfl, hret, hsum⟩ := h
    simp only [code, worker]
    split
    · rename_i hsome
      obtain hnone | hslice := hcommon.slices w
      · rw [hnone] at hsome
        cases hsome
      · exact ⟨w, rfl, hret, hsum, hslice⟩
    · trivial
  | zero =>
    obtain ⟨w, rfl, hret, hsum, hslice⟩ := h
    simp only [code, worker, hslice]
    refine ⟨w, rfl, hret, hslice, ?_, le_rfl, slice_start_le_stop w.isLt⟩
    rw [sliceSum, sub_self]
    exact Function.update_self ..
  | loop i =>
    obtain ⟨w, rfl, hsum⟩ := h
    simp only [code, worker, hsum.slices]
    split
    · exact ⟨w, rfl, hsum, ‹_›⟩
    · rename_i hend
      obtain rfl : i = (slice n threads w).stop := le_antisymm hsum.le_stop (not_lt.mp hend)
      exact ⟨w, rfl, Function.update_self .., hsum.sum⟩
  | load i =>
    obtain ⟨w, rfl, hsum, hlt⟩ := h
    exact ⟨w, rfl, hsum, hlt, rfl⟩
  | store i tmp =>
    obtain ⟨w, rfl, hsum, hlt, rfl⟩ := h
    refine ⟨w, rfl, hsum.notReturned, hsum.slices, ?_, Nat.le_succ_of_le hsum.start_le, hlt⟩
    refine (Function.update_self ..).trans ?_
    rw [hsum.sum, sliceSum, sliceSum, arraySum_succ]
    ring
  | create i =>
    simp only [code, main]
    split
    · exact h
    · refine ⟨h, Nat.zero_le _, ?_⟩
      rw [cut_zero ht, arraySum_zero]
  | join i totalSum =>
    obtain ⟨rfl, hi, htotal⟩ := h
    simp only [code, main]
    split
    · split
      · exact ⟨rfl, htotal, ‹_›, ‹_›⟩
      · trivial
    · obtain rfl : i = threads := by omega
      exact ⟨rfl, htotal.trans (by rw [cut_last])⟩
  | add i totalSum =>
    obtain ⟨rfl, htotal, hi, hret⟩ := h
    simp only [code, main, dif_pos hi]
    refine ⟨rfl, hi, ?_⟩
    rw [hcommon.sum ⟨i, hi⟩ hret, htotal, sliceSum, slice_start hi, slice_stop hi]
    ring
  | returned => trivial
  | report => trivial

theorem knows_rule (ht : 0 < threads) : LocalRule (code data n)
    (fun (t : Thread threads) x pc => Common data n x ∧ Knows data n sum₀ t x pc) where
  own t pc x h := by
    apply (code_change data n sum₀ t pc x h.1 h.2).imp₂ (knows_own data n sum₀ ht t pc x h.1 h.2)
    exact fun y st hc hknows => ⟨hc.common, hknows⟩
  others t u pc q x hne h h' := by
    apply (code_change data n sum₀ u q x h'.1 h'.2).imp
    exact fun y _ hc => ⟨hc.common, hc.knows hne.symm h.2⟩

end Rules

def InLong (v : Int) : Prop := -2 ^ 63 ≤ v ∧ v < 2 ^ 63

section Reachable

variable {data : ℕ → Int32} {n : ℕ} {sum₀ : Thread threads → Int64}
variable {s : State (Thread threads) (Shared threads) PEmpty Pc}

theorem reachable_knows (ht : 0 < threads) (h : (statsSystem data n threads sum₀).Reachable s)
    (t : Thread threads) :
    Common data n s.shared ∧ Knows data n sum₀ t s.shared (s.status t).pc := by
  refine (knows_rule data n sum₀ ht).reachable (fun t => ⟨⟨fun _ => .inl rfl, ?_⟩, ?_⟩) h t
  · exact fun _ hret => Bool.noConfusion hret
  · cases t with
    | some w => exact ⟨w, rfl, rfl, rfl⟩
    | none => exact (rfl : (none : Thread threads) = none)

theorem inLong_zero : InLong 0 := ⟨by decide, by decide⟩

theorem inLong_of_bound {v : Int} {m : ℕ} (hm : m ≤ n) (hn : n < 2 ^ 31)
    (h : -(m * 2 ^ 31 : Int) ≤ v ∧ v ≤ (m * 2 ^ 31 : Int)) : InLong v := by
  constructor <;> omega

theorem inLong_arraySum (hn : n < 2 ^ 31) {i : ℕ} (hi : i ≤ n) : InLong (arraySum data i) := by
  have hbounds := arraySum_sub_bounds data (Nat.zero_le i)
  rw [arraySum_zero, sub_zero, Nat.sub_zero] at hbounds
  exact inLong_of_bound hi hn hbounds

theorem Summing.inLong (hn : n < 2 ^ 31) {w : Fin threads} {x : Shared threads} {i : ℕ}
    (h : Summing data n w x i) : InLong (x.sum (some w)) := by
  have hstop := slice_stop_le (n := n) w.isLt
  have hle := h.le_stop
  rw [h.sum, sliceSum]
  exact inLong_of_bound (by omega) hn (arraySum_sub_bounds data h.start_le)

theorem sum_inLong (ht : 0 < threads) (hn : n < 2 ^ 31)
    (h : (statsSystem data n threads sum₀).Reachable s) (w : Fin threads) :
    InLong (s.shared.sum (some w)) := by
  have hslice := slice_start_le_stop (n := n) w.isLt
  have hstop := slice_stop_le (n := n) w.isLt
  have hknows := (reachable_knows ht h (some w)).2
  generalize (s.status (some w)).pc = pc at hknows
  cases pc with
  | start =>
    obtain ⟨_, _, _, hsum⟩ := hknows
    rw [hsum]
    exact ⟨Int64.le_toInt _, Int64.toInt_lt _⟩
  | zero =>
    obtain ⟨_, _, _, hsum, _⟩ := hknows
    rw [hsum]
    exact ⟨Int64.le_toInt _, Int64.toInt_lt _⟩
  | loop i =>
    obtain ⟨_, heq, hsum⟩ := hknows
    cases heq
    exact hsum.inLong hn
  | load i =>
    obtain ⟨_, heq, hsum, _⟩ := hknows
    cases heq
    exact hsum.inLong hn
  | store i tmp =>
    obtain ⟨_, heq, hsum, _⟩ := hknows
    cases heq
    exact hsum.inLong hn
  | returned =>
    obtain ⟨_, heq, _, hsum⟩ := hknows
    cases heq
    rw [hsum, sliceSum]
    exact inLong_of_bound (by omega) hn (arraySum_sub_bounds data hslice)
  | create i => cases hknows
  | join i totalSum => cases hknows.1
  | add i totalSum => cases hknows.1
  | report totalSum => cases hknows.1

theorem totalSum_inLong (ht : 0 < threads) (hn : n < 2 ^ 31)
    (h : (statsSystem data n threads sum₀).Reachable s) : InLong (s.status none).pc.totalSum := by
  have hknows := (reachable_knows ht h none).2
  generalize (s.status none).pc = pc at hknows
  cases pc with
  | join i totalSum =>
    obtain ⟨_, hi, rfl⟩ := hknows
    exact inLong_arraySum hn (cut_le hi)
  | add i totalSum =>
    obtain ⟨_, rfl, hi, _⟩ := hknows
    exact inLong_arraySum hn (cut_le hi.le)
  | report totalSum =>
    obtain ⟨_, rfl⟩ := hknows
    exact inLong_arraySum hn le_rfl
  | _ => exact inLong_zero

theorem read_in_range (ht : 0 < threads) (h : (statsSystem data n threads sum₀).Reachable s)
    {t : Thread threads} {i : ℕ} {tmp : Int} (hs : (s.status t).pc = .store i tmp) : i < n := by
  have hknows := (reachable_knows ht h t).2
  rw [hs] at hknows
  obtain ⟨w, _, _, hlt, _⟩ := hknows
  exact lt_of_lt_of_le hlt (slice_stop_le w.isLt)

theorem totalSum_of_report (ht : 0 < threads) (h : (statsSystem data n threads sum₀).Reachable s)
    {totalSum : Int} (hs : (s.status none).pc = .report totalSum) :
    totalSum = arraySum data n := by
  have hknows := (reachable_knows ht h none).2
  rw [hs] at hknows
  exact hknows.2

end Reachable

/-- The slices partition the array, and the total under the lock and the total of the private sums
are both the sum of the array, with every intermediate value in range. -/
theorem parallel_sums_agree (array : ℕ → Int32) {n : ℕ} (hn : n < 2 ^ 31) (ht : 0 < threads) :
    (∀ i < threads, (slice n threads i).start ≤ (slice n threads i).stop ∧
      (slice n threads i).stop ≤ n ∧ (slice n threads i).stop < 2 ^ 31) ∧
    (∀ k < n, ∃! i, i < threads ∧ (slice n threads i).start ≤ k ∧ k < (slice n threads i).stop) ∧
    (∀ s, (LockedSum.sumSystem array n threads).Reachable s →
      InLong s.shared.total ∧
      (∀ t i tmp, (s.status t).pc = .store i tmp → i < n) ∧
      ((s.status none).pc = .report → s.shared.total = arraySum array n)) ∧
    ∀ sum₀ s, (statsSystem array n threads sum₀).Reachable s →
      (∀ w, InLong (s.shared.sum (some w))) ∧
      InLong (s.status none).pc.totalSum ∧
      (∀ t i tmp, (s.status t).pc = .store i tmp → i < n) ∧
      ∀ totalSum, (s.status none).pc = .report totalSum → totalSum = arraySum array n := by
  obtain ⟨hrange, hpartition⟩ := slices_partition (n := n) ht
  refine ⟨?_, hpartition, ?_, ?_⟩
  · intro i hi
    have := hrange i hi
    omega
  · intro s h
    refine ⟨inLong_of_bound le_rfl hn (LockedSum.total_bounds ht h), ?_, ?_⟩
    · exact fun t i tmp hs => LockedSum.read_in_range h hs
    · exact LockedSum.total_of_report ht h
  · intro sum₀ s h
    refine ⟨sum_inLong ht hn h, totalSum_inLong ht hn h, ?_, ?_⟩
    · exact fun t i tmp hs => read_in_range ht h hs
    · exact fun totalSum hs => totalSum_of_report ht h hs

theorem parallel_sums_agree_two_threads :
    (∃ s, (LockedSum.sumSystem (fun i => Int32.ofNat (i + 4)) 3 2).Reachable s ∧
      (s.status none).pc = .report ∧ s.shared.total = 15) ∧
    ∃ s, (statsSystem (fun i => Int32.ofNat (i + 4)) 3 2 fun _ => 7).Reachable s ∧
      ∃ totalSum, (s.status none).pc = .report totalSum ∧ totalSum = 15 := by
  let array : ℕ → Int32 := fun i => Int32.ofNat (i + 4)
  have hsum : arraySum array 3 = 15 := by decide
  have hall := parallel_sums_agree array (show 3 < 2 ^ 31 by decide) (show 0 < 2 by decide)
  let locked : List (Label (LockedSum.Thread 2)) := List.replicate 3 (.run none) ++
    List.replicate 4 (.run (some 1)) ++ List.replicate 1 (.run (some 0)) ++
    List.replicate 6 (.run (some 1)) ++ List.replicate 5 (.run (some 0)) ++
    List.replicate 3 (.run none)
  let own : List (Label (Thread 2)) := List.replicate 3 (.run none) ++
    List.replicate 4 (.run (some 1)) ++ List.replicate 6 (.run (some 0)) ++
    List.replicate 5 (.run (some 1)) ++ List.replicate 5 (.run none)
  let M := LockedSum.sumSystem array 3 2
  let N := statsSystem array 3 2 fun _ => 7
  let s := (M.run M.init locked).get rfl
  let s' := (N.run N.init own).get rfl
  have hs : M.Reachable s := System.reachable_of_run locked rfl
  have hs' : N.Reachable s' := System.reachable_of_run own rfl
  refine ⟨⟨s, hs, rfl, ?_⟩, s', hs', _, rfl, ?_⟩
  · exact ((hall.2.2.1 s hs).2.2 rfl).trans hsum
  · exact ((hall.2.2.2 _ s' hs').2.2.2 _ rfl).trans hsum

end MultithreadMayhem.Parallel.Stats
