import MultithreadMayhem.Parallel.Slices
import MultithreadMayhem.Pthread.Mutex

/-!
# The sum under a lock

`parallel_sum_fixed.c`. Every thread adds the elements of its slice to `total`, one
at a time and under the lock. `total` is the sum of what the threads have gone
through so far, in whatever order they take the lock.
-/

namespace MultithreadMayhem.Parallel.LockedSum

open Foundation Pthread

abbrev Thread (threads : ℕ) := Option (Fin threads)

structure Shared (threads : ℕ) where
  total : Int
  /-- `args[i]`, once the thread `i` is created. -/
  args : Thread threads → Option Slice
  returned : Thread threads → Bool

inductive Pc
  | start
  | loop (i : ℕ)
  | load (i : ℕ)
  | store (i : ℕ) (tmp : Int)
  | unlock (i : ℕ)
  | returned
  | create (i : ℕ)
  | join (i : ℕ)
  | report
  deriving DecidableEq, Repr

variable {threads : ℕ}

/-- `partial_sum()`; `total += array[i]` is a load and a store. -/
def partialSum (array : ℕ → Int32) (t : Thread threads) (x : Shared threads) :
    Pc → Act (Shared threads) PEmpty Pc
  | .start =>
    match x.args t with
    | some arg => .exec x (.loop arg.start)
    | none => .block
  | .loop i =>
    match x.args t with
    | some arg =>
      if i < arg.stop then .lock (.load i)
      else .exec { x with returned := Function.update x.returned t true } .returned
    | none => .block
  | .load i => .exec x (.store i x.total)
  | .store i tmp => .exec { x with total := tmp + (array i).toInt } (.unlock i)
  | .unlock i => .unlock (.loop (i + 1))
  | _ => .exit

/-- `main()`, up to the comparison with the expected sum. -/
def main (n : ℕ) (x : Shared threads) : Pc → Act (Shared threads) PEmpty Pc
  | .create i =>
    if h : i < threads then
      .exec { x with args := Function.update x.args (some ⟨i, h⟩) (some (slice n threads i)) }
        (.create (i + 1))
    else .exec x (.join 0)
  | .join i =>
    if h : i < threads then
      if x.returned (some ⟨i, h⟩) then .exec x (.join (i + 1)) else .block
    else .exec x .report
  | _ => .exit

def code (array : ℕ → Int32) (n : ℕ) (t : Thread threads) (pc : Pc) (x : Shared threads) :
    Act (Shared threads) PEmpty Pc :=
  match pc with
  | .create _ | .join _ | .report => main n x pc
  | _ => partialSum array t x pc

def programStart : Thread threads → Pc
  | some _ => .start
  | none => .create 0

def sumSystem (array : ℕ → Int32) (n threads : ℕ) :
    System (State (Thread threads) (Shared threads) PEmpty Pc) (Label (Thread threads)) :=
  Pthread.system (code array n) ⟨0, fun _ => none, fun _ => false⟩ programStart

def Pc.inside : Pc → Bool
  | .load _ | .store _ _ | .unlock _ => true
  | _ => false

theorem code_disciplined (array : ℕ → Int32) (n : ℕ) :
    Disciplined (T := Thread threads) (code array n) Pc.inside := by
  intro t pc x
  cases pc with
  | start =>
    simp only [code, partialSum]
    split <;> rfl
  | loop i =>
    simp only [code, partialSum]
    split
    · split
      · exact ⟨rfl, rfl⟩
      · rfl
    · rfl
  | unlock i => exact ⟨rfl, rfl⟩
  | create i =>
    simp only [code, main]
    split <;> rfl
  | join i =>
    simp only [code, main]
    split
    · split <;> rfl
    · rfl
  | _ => rfl

def Pc.added (arg : Slice) : Pc → ℕ
  | .loop i | .load i | .store i _ => i
  | .unlock i => i + 1
  | .returned => arg.stop
  | _ => arg.start

/-- The thread `t` works on its slice and has come to `i`. -/
structure Working (n : ℕ) (t : Thread threads) (x : Shared threads) (i : ℕ) : Prop where
  notReturned : x.returned t = false
  worker : ∃ w : Fin threads, t = some w ∧ x.args t = some (slice n threads w) ∧
    (slice n threads w).start ≤ i ∧ i ≤ (slice n threads w).stop

structure Adding (n : ℕ) (t : Thread threads) (x : Shared threads) (i : ℕ) : Prop where
  notReturned : x.returned t = false
  worker : ∃ w : Fin threads, t = some w ∧ x.args t = some (slice n threads w) ∧
    (slice n threads w).start ≤ i ∧ i < (slice n threads w).stop

def Knows (n : ℕ) (t : Thread threads) (x : Shared threads) : Pc → Prop
  | .start => t ≠ none ∧ x.returned t = false
  | .loop i => Working n t x i
  | .load i | .unlock i => Adding n t x i
  | .store i tmp => Adding n t x i ∧ tmp = x.total
  | .returned => t ≠ none ∧ x.returned t = true
  | .create _ => t = none
  | .join i => t = none ∧ ∀ w : Fin threads, w < i → x.returned (some w) = true
  | .report => t = none ∧ ∀ w : Fin threads, x.returned (some w) = true

/-- What the threads know together: an argument is the slice of its thread. -/
def Assigned (n : ℕ) (x : Shared threads) : Prop :=
  ∀ w : Fin threads, x.args (some w) = none ∨ x.args (some w) = some (slice n threads w)

/-- What a statement of `u` may change, as the other threads see it. -/
structure Change (n : ℕ) (u : Thread threads) (q : Pc) (x y : Shared threads) : Prop where
  total : q.inside = false → y.total = x.total
  args : ∀ w : Fin threads, y.args (some w) = x.args (some w) ∨
    y.args (some w) = some (slice n threads w)
  returned : ∀ t, t ≠ u → y.returned t = x.returned t
  stays : ∀ t, x.returned t = true → y.returned t = true

section Rules

variable (array : ℕ → Int32) (n : ℕ)

theorem code_change (u : Thread threads) (q : Pc) (x : Shared threads) (hknows : Knows n u x q) :
    (code array n u q x).Leads (fun y _ => Change n u q x y) x := by
  have same : Change n u q x x :=
    ⟨fun _ => rfl, fun _ => .inl rfl, fun _ _ => rfl, fun _ => id⟩
  cases q with
  | start =>
    simp only [code, partialSum]
    split
    · exact same
    · trivial
  | loop i =>
    simp only [code, partialSum]
    split
    · split
      · exact same
      · refine ⟨fun _ => rfl, fun _ => .inl rfl, fun t hne => Function.update_of_ne hne .., ?_⟩
        intro t ht
        simp only [Function.update_apply]
        split
        · rfl
        · exact ht
    · trivial
  | store i tmp => exact ⟨nofun, fun _ => .inl rfl, fun _ _ => rfl, fun _ => id⟩
  | create i =>
    simp only [code, main]
    split
    · refine ⟨fun _ => rfl, fun w => ?_, fun _ _ => rfl, fun _ => id⟩
      simp only [Function.update_apply, Option.some.injEq]
      split
      · rename_i heq
        exact .inr (by rw [heq])
      · exact .inl rfl
    · exact same
  | join i =>
    simp only [code, main]
    split
    · split
      · exact same
      · trivial
    · exact same
  | returned => trivial
  | report => trivial
  | _ => exact same

theorem Change.working {u t : Thread threads} {q : Pc} {x y : Shared threads} {i : ℕ}
    (hc : Change n u q x y) (hne : t ≠ u) (h : Working n t x i) : Working n t y i := by
  obtain ⟨hret, w, rfl, harg, hlow, hhigh⟩ := h
  refine ⟨(hc.returned _ hne).trans hret, w, rfl, ?_, hlow, hhigh⟩
  obtain hsame | hnew := hc.args w
  · exact hsame.trans harg
  · exact hnew

theorem Change.adding {u t : Thread threads} {q : Pc} {x y : Shared threads} {i : ℕ}
    (hc : Change n u q x y) (hne : t ≠ u) (h : Adding n t x i) : Adding n t y i := by
  obtain ⟨hret, w, rfl, harg, hlow, hhigh⟩ := h
  refine ⟨(hc.returned _ hne).trans hret, w, rfl, ?_, hlow, hhigh⟩
  obtain hsame | hnew := hc.args w
  · exact hsame.trans harg
  · exact hnew

theorem Change.knows {u t : Thread threads} {q pc : Pc} {x y : Shared threads}
    (hc : Change n u q x y) (hne : t ≠ u) (hone : OneInside Pc.inside q pc)
    (h : Knows n t x pc) : Knows n t y pc := by
  cases pc with
  | start => exact ⟨h.1, (hc.returned t hne).trans h.2⟩
  | loop i => exact hc.working n hne h
  | load i => exact hc.adding n hne h
  | unlock i => exact hc.adding n hne h
  | store i tmp =>
    refine ⟨hc.adding n hne h.1, h.2.trans (hc.total ?_).symm⟩
    by_contra hq
    exact absurd (hone (by simpa using hq)) (Bool.noConfusion :)
  | returned => exact ⟨h.1, hc.stays t h.2⟩
  | create i => exact h
  | join i => exact ⟨h.1, fun w hw => hc.stays _ (h.2 w hw)⟩
  | report => exact ⟨h.1, fun w => hc.stays _ (h.2 w)⟩

theorem assigned_step {u : Thread threads} {q : Pc} {x y : Shared threads}
    (hc : Change n u q x y) (h : Assigned n x) : Assigned n y := by
  intro w
  obtain hsame | hnew := hc.args w
  · rw [hsame]
    exact h w
  · exact .inr hnew

theorem knows_own (t : Thread threads) (pc : Pc) (x : Shared threads) (hassigned : Assigned n x)
    (h : Knows n t x pc) :
    (code array n t pc x).Leads (fun y st => Knows n t y st.pc) x := by
  cases pc with
  | start =>
    obtain ⟨hne, hret⟩ := h
    obtain ⟨w, rfl⟩ := Option.ne_none_iff_exists'.mp hne
    simp only [code, partialSum]
    split
    · rename_i arg harg
      obtain hnone | hsome := hassigned w
      · rw [hnone] at harg
        cases harg
      · rw [hsome] at harg
        cases harg
        exact ⟨hret, w, rfl, hsome, le_rfl, slice_start_le_stop w.isLt⟩
    · trivial
  | loop i =>
    obtain ⟨hret, w, rfl, harg, hlow, hhigh⟩ := h
    simp only [code, partialSum, harg]
    split
    · exact ⟨hret, w, rfl, harg, hlow, ‹_›⟩
    · exact ⟨nofun, Function.update_self ..⟩
  | load i => exact ⟨h, rfl⟩
  | store i tmp =>
    obtain ⟨⟨hret, w, rfl, harg, hlow, hhigh⟩, _⟩ := h
    exact ⟨hret, w, rfl, harg, hlow, hhigh⟩
  | unlock i =>
    obtain ⟨hret, w, rfl, harg, hlow, hhigh⟩ := h
    exact ⟨hret, w, rfl, harg, by omega, hhigh⟩
  | create i =>
    simp only [code, main]
    split
    · exact h
    · exact ⟨h, fun w hw => absurd hw (Nat.not_lt_zero w)⟩
  | join i =>
    simp only [code, main]
    split
    · split
      · rename_i hret
        refine ⟨h.1, fun w hw => ?_⟩
        obtain hlt | heq := Nat.lt_succ_iff_lt_or_eq.mp hw
        · exact h.2 w hlt
        · subst heq
          exact hret
      · trivial
    · exact ⟨h.1, fun w => h.2 w (by omega)⟩
  | returned => trivial
  | report => trivial

theorem knows_rule : RelyRule (code array n) (OneInside Pc.inside)
    (fun (t : Thread threads) x pc => Assigned n x ∧ Knows n t x pc) where
  own t pc x h := by
    apply (code_change array n t pc x h.2).imp₂ (knows_own array n t pc x h.1 h.2)
    exact fun y st hc hknows => ⟨assigned_step n hc h.1, hknows⟩
  others t u pc q x hne hone h h' := by
    apply (code_change array n u q x h'.2).imp
    exact fun y _ hc => ⟨assigned_step n hc h.1, hc.knows n hne.symm hone h.2⟩

def contribution (t : Thread threads) (pc : Pc) : Int :=
  match t with
  | some w => sliceSum array n threads w (pc.added (slice n threads w))
  | none => 0

theorem contribution_rule : TallyRule (code array n)
    (fun (t : Thread threads) x pc => Assigned n x ∧ Knows n t x pc) Shared.total
    (contribution array n) := by
  rintro t pc x ⟨hassigned, h⟩
  cases pc with
  | start =>
    obtain ⟨hne, hret⟩ := h
    obtain ⟨w, rfl⟩ := Option.ne_none_iff_exists'.mp hne
    simp only [code, partialSum]
    split
    · rename_i arg harg
      obtain hnone | hsome := hassigned w
      · rw [hnone] at harg
        cases harg
      · rw [hsome] at harg
        cases harg
        rfl
    · trivial
  | loop i =>
    obtain ⟨hret, w, rfl, harg, hlow, hhigh⟩ := h
    simp only [code, partialSum, harg]
    split
    · rfl
    · obtain rfl : i = (slice n threads w).stop := by omega
      rfl
  | store i tmp =>
    obtain ⟨⟨hret, w, rfl, harg, hlow, hhigh⟩, rfl⟩ := h
    change x.total + (array i).toInt + sliceSum array n threads w i =
      x.total + sliceSum array n threads w (i + 1)
    simp only [sliceSum, arraySum_succ]
    ring
  | load i => rfl
  | unlock i => cases t <;> rfl
  | create i =>
    obtain rfl : t = none := h
    simp only [code, main]
    split <;> rfl
  | join i =>
    obtain ⟨rfl, _⟩ := h
    simp only [code, main]
    split
    · split
      · rfl
      · trivial
    · rfl
  | returned => trivial
  | report => trivial

end Rules

section Reachable

variable {array : ℕ → Int32} {n : ℕ}
variable {s : State (Thread threads) (Shared threads) PEmpty Pc}

theorem reachable_knows (h : (sumSystem array n threads).Reachable s) (t : Thread threads) :
    Assigned n s.shared ∧ Knows n t s.shared (s.status t).pc := by
  refine (knows_rule array n).reachable_mutex (code_disciplined array n) ?_ ?_ h t
  · intro t
    cases t <;> rfl
  · intro t
    refine ⟨fun _ => .inl rfl, ?_⟩
    cases t with
    | some w => exact ⟨nofun, rfl⟩
    | none => exact (rfl : (none : Thread threads) = none)

theorem reachable_total (h : (sumSystem array n threads).Reachable s) :
    s.shared.total = ∑ w : Fin threads,
      sliceSum array n threads w ((s.status (some w)).pc.added (slice n threads w)) := by
  have hsum := (contribution_rule array n).reachable (fun _ hs => reachable_knows hs) ?_ h
  · rw [Fintype.sum_option] at hsum
    exact hsum.trans (by simp only [contribution, zero_add])
  · intro t
    cases t with
    | none => rfl
    | some w =>
      change sliceSum array n threads w (slice n threads w).start = 0
      rw [sliceSum, sub_self]

theorem added_in_slice (h : (sumSystem array n threads).Reachable s) (w : Fin threads) :
    (slice n threads w).start ≤ (s.status (some w)).pc.added (slice n threads w) ∧
      (s.status (some w)).pc.added (slice n threads w) ≤ (slice n threads w).stop := by
  have hslice := slice_start_le_stop (n := n) w.isLt
  have hknows := (reachable_knows h (some w)).2
  generalize (s.status (some w)).pc = pc at hknows
  cases pc with
  | start => exact ⟨le_rfl, hslice⟩
  | returned => exact ⟨hslice, le_rfl⟩
  | loop i =>
    obtain ⟨_, w', heq, _, hlow, hhigh⟩ := hknows
    cases heq
    exact ⟨hlow, hhigh⟩
  | load i =>
    obtain ⟨_, w', heq, _, hlow, hhigh⟩ := hknows
    cases heq
    exact ⟨hlow, hhigh.le⟩
  | store i tmp =>
    obtain ⟨⟨_, w', heq, _, hlow, hhigh⟩, _⟩ := hknows
    cases heq
    exact ⟨hlow, hhigh.le⟩
  | unlock i =>
    obtain ⟨_, w', heq, _, hlow, hhigh⟩ := hknows
    cases heq
    exact ⟨Nat.le_succ_of_le hlow, hhigh⟩
  | create i => exact ⟨le_rfl, hslice⟩
  | join i => exact ⟨le_rfl, hslice⟩
  | report => exact ⟨le_rfl, hslice⟩

theorem total_bounds (ht : 0 < threads) (h : (sumSystem array n threads).Reachable s) :
    -(n * 2 ^ 31 : Int) ≤ s.shared.total ∧ s.shared.total ≤ (n * 2 ^ 31 : Int) := by
  rw [reachable_total h]
  exact sum_sliceSum_bounds ht (added_in_slice h)

/-- After all joins `total` is the sum of the array. -/
theorem total_of_report (ht : 0 < threads) (h : (sumSystem array n threads).Reachable s)
    (hreport : (s.status none).pc = .report) : s.shared.total = arraySum array n := by
  rw [reachable_total h, ← sum_slices ht]
  apply Finset.sum_congr rfl
  intro w _
  have hmain := (reachable_knows h none).2
  rw [hreport] at hmain
  have hret : s.shared.returned (some w) = true := hmain.2 w
  have hknows := (reachable_knows h (some w)).2
  generalize (s.status (some w)).pc = pc at hknows
  cases pc with
  | returned => rfl
  | start => exact absurd hknows.2 (by simp [hret])
  | loop i => exact absurd hknows.notReturned (by simp [hret])
  | load i => exact absurd hknows.notReturned (by simp [hret])
  | store i tmp => exact absurd hknows.1.notReturned (by simp [hret])
  | unlock i => exact absurd hknows.notReturned (by simp [hret])
  | create i => cases hknows
  | join i => cases hknows.1
  | report => cases hknows.1

theorem read_in_range (h : (sumSystem array n threads).Reachable s) {t : Thread threads} {i : ℕ}
    {tmp : Int} (hs : (s.status t).pc = .store i tmp) : i < n := by
  have hknows := (reachable_knows h t).2
  rw [hs] at hknows
  obtain ⟨⟨_, w, _, _, _, hhigh⟩, _⟩ := hknows
  exact lt_of_lt_of_le hhigh (slice_stop_le w.isLt)

end Reachable

end MultithreadMayhem.Parallel.LockedSum
