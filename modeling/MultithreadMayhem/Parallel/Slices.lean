import Mathlib.Algebra.BigOperators.Group.Finset.Basic
import Mathlib.Algebra.BigOperators.Intervals
import Mathlib.Algebra.BigOperators.Fin
import Mathlib.Algebra.BigOperators.Ring.Finset
import Mathlib.Algebra.Order.BigOperators.Group.Finset
import Mathlib.Data.Int.Interval
import Mathlib.Tactic.Ring
import Mathlib.Tactic.Linarith

/-!
# Slices of an array

The slices that `main` of `parallel_sum_fixed.c` and of `parallel_stats.c` hand to
their threads, and the sums over them. The slices are the pieces between the cuts
`i * (n / threads)`, the last of which is moved to `n`.
-/

namespace MultithreadMayhem.Parallel

/-- `start_index` and `end_index` of `thread_arg_t`, `start` and `end` of `worker_result_t`. -/
structure Slice where
  start : ℕ
  stop : ℕ
  deriving DecidableEq, Repr

def slice (n threads i : ℕ) : Slice :=
  let chunk := n / threads
  { start := i * chunk
    stop := if i = threads - 1 then n else (i + 1) * chunk }

/-- The sum of the first `i` elements, over exact integers. -/
def arraySum (array : ℕ → Int32) (i : ℕ) : Int := ∑ k ∈ Finset.range i, (array k).toInt

section Cuts

variable {n threads : ℕ}

def cut (n threads i : ℕ) : ℕ := if i = threads then n else i * (n / threads)

theorem slice_start {i : ℕ} (hi : i < threads) : (slice n threads i).start = cut n threads i := by
  rw [cut, if_neg (by omega), slice]

theorem slice_stop {i : ℕ} (hi : i < threads) :
    (slice n threads i).stop = cut n threads (i + 1) := by
  simp only [slice, cut]
  split
  · rw [if_pos (by omega)]
  · rw [if_neg (by omega)]

theorem cut_zero (ht : 0 < threads) : cut n threads 0 = 0 := by
  rw [cut, if_neg (by omega), Nat.zero_mul]

theorem cut_last : cut n threads threads = n := if_pos rfl

theorem mul_chunk_le {i : ℕ} (hi : i ≤ threads) : i * (n / threads) ≤ n :=
  calc i * (n / threads) ≤ threads * (n / threads) := Nat.mul_le_mul_right _ hi
    _ ≤ n := Nat.mul_div_le n threads

theorem cut_le {i : ℕ} (hi : i ≤ threads) : cut n threads i ≤ n := by
  rw [cut]
  split
  · exact le_rfl
  · exact mul_chunk_le hi

theorem cut_mono_succ {i : ℕ} (hi : i < threads) : cut n threads i ≤ cut n threads (i + 1) := by
  rw [cut, if_neg (by omega), cut]
  split
  · exact mul_chunk_le hi.le
  · exact Nat.mul_le_mul_right _ (by omega)

theorem cut_mono {i j : ℕ} (hij : i ≤ j) (hj : j ≤ threads) : cut n threads i ≤ cut n threads j := by
  induction j, hij using Nat.le_induction with
  | base => exact le_rfl
  | succ j _ ih => exact (ih (by omega)).trans (cut_mono_succ (by omega))

theorem slice_start_le_stop {i : ℕ} (hi : i < threads) :
    (slice n threads i).start ≤ (slice n threads i).stop := by
  rw [slice_start hi, slice_stop hi]
  exact cut_mono_succ hi

theorem slice_stop_le {i : ℕ} (hi : i < threads) : (slice n threads i).stop ≤ n := by
  rw [slice_stop hi]
  exact cut_le hi

theorem exists_cut {j k : ℕ} (ht : 0 < threads) (hk : k < cut n threads j) :
    ∃ i < j, cut n threads i ≤ k ∧ k < cut n threads (i + 1) := by
  induction j with
  | zero =>
    rw [cut_zero ht] at hk
    omega
  | succ j ih =>
    by_cases hj : k < cut n threads j
    · obtain ⟨i, hi, hcut⟩ := ih hj
      exact ⟨i, by omega, hcut⟩
    · exact ⟨j, by omega, not_lt.mp hj, hk⟩

/-- The slices are in range, and every index is in exactly one of them. -/
theorem slices_partition (ht : 0 < threads) :
    (∀ i < threads, (slice n threads i).start ≤ (slice n threads i).stop ∧
      (slice n threads i).stop ≤ n) ∧
    ∀ k < n, ∃! i, i < threads ∧ (slice n threads i).start ≤ k ∧ k < (slice n threads i).stop := by
  constructor
  · intro i hi
    exact ⟨slice_start_le_stop hi, slice_stop_le hi⟩
  · intro k hk
    have hlast : cut n threads threads = n := cut_last
    rw [← hlast] at hk
    obtain ⟨i, hi, hle, hlt⟩ := exists_cut ht hk
    refine ⟨i, ?_, ?_⟩
    · simp only [slice_start hi, slice_stop hi]
      exact ⟨hi, hle, hlt⟩
    · rintro j ⟨hj, hj'⟩
      rw [slice_start hj, slice_stop hj] at hj'
      -- If the slices differ, one of them ends before the other begins.
      obtain hlt' | rfl | hgt := lt_trichotomy j i
      · have := cut_mono (n := n) (show j + 1 ≤ i from hlt') hi.le
        omega
      · rfl
      · have := cut_mono (n := n) (show i + 1 ≤ j from hgt) hj.le
        omega

end Cuts

section Sums

variable {array : ℕ → Int32} {n threads : ℕ}

theorem arraySum_zero : arraySum array 0 = 0 := rfl

theorem arraySum_succ (i : ℕ) : arraySum array (i + 1) = arraySum array i + (array i).toInt :=
  Finset.sum_range_succ _ i

theorem arraySum_sub_bounds (array : ℕ → Int32) {i j : ℕ} (hij : i ≤ j) :
    -((j - i : ℕ) * 2 ^ 31 : Int) ≤ arraySum array j - arraySum array i ∧
      arraySum array j - arraySum array i ≤ ((j - i : ℕ) * 2 ^ 31 : Int) := by
  induction j, hij using Nat.le_induction with
  | base => simp
  | succ j hj ih =>
    have hlen : j + 1 - i = (j - i) + 1 := by omega
    have hlow := Int32.le_toInt (array j)
    have hhigh := Int32.toInt_lt (array j)
    rw [hlen, arraySum_succ]
    push_cast
    constructor <;> linarith

/-- What the thread `i` adds to the total while it goes through its slice and has come to `k`. -/
def sliceSum (array : ℕ → Int32) (n threads i k : ℕ) : Int :=
  arraySum array k - arraySum array (slice n threads i).start

theorem sum_slices (ht : 0 < threads) :
    ∑ i : Fin threads, sliceSum array n threads i (slice n threads i).stop =
      arraySum array n := by
  have htelescope := Finset.sum_range_sub
    (fun i => arraySum array (cut n threads i)) threads
  rw [cut_zero ht, cut_last, arraySum_zero, sub_zero] at htelescope
  rw [← htelescope, Finset.sum_range]
  apply Finset.sum_congr rfl
  intro i _
  rw [sliceSum, slice_stop i.isLt, slice_start i.isLt]

theorem sum_sliceSum_bounds {k : Fin threads → ℕ} (ht : 0 < threads)
    (hk : ∀ i : Fin threads, (slice n threads i).start ≤ k i ∧
      k i ≤ (slice n threads i).stop) :
    -(n * 2 ^ 31 : Int) ≤ ∑ i : Fin threads, sliceSum array n threads i (k i) ∧
      ∑ i : Fin threads, sliceSum array n threads i (k i) ≤ (n * 2 ^ 31 : Int) := by
  have hlen : ∑ i : Fin threads, ((k i - (slice n threads i).start : ℕ) : Int) ≤
      n := by
    have htelescope := Finset.sum_range_sub (fun i => (cut n threads i : Int)) threads
    rw [cut_zero ht, cut_last, Nat.cast_zero, sub_zero, Finset.sum_range] at htelescope
    rw [← htelescope]
    apply Finset.sum_le_sum
    intro i _
    have hki := hk i
    rw [slice_start i.isLt, slice_stop i.isLt] at hki
    rw [slice_start i.isLt]
    omega
  have hlow : -(∑ i : Fin threads, ((k i - (slice n threads i).start : ℕ) : Int)) *
      2 ^ 31 ≤ ∑ i : Fin threads, sliceSum array n threads i (k i) := by
    rw [← Finset.sum_neg_distrib, Finset.sum_mul]
    apply Finset.sum_le_sum
    intro i _
    have := (arraySum_sub_bounds array (hk i).1).1
    rw [sliceSum]
    linarith
  have hhigh : ∑ i : Fin threads, sliceSum array n threads i (k i) ≤
      (∑ i : Fin threads, ((k i - (slice n threads i).start : ℕ) : Int)) * 2 ^ 31 := by
    rw [Finset.sum_mul]
    apply Finset.sum_le_sum
    intro i _
    exact (arraySum_sub_bounds array (hk i).1).2
  constructor <;> linarith

end Sums

end MultithreadMayhem.Parallel
