import Mathlib.Data.List.Induction
import Mathlib.Data.Nat.ModEq
import Mathlib.Logic.Function.Basic

/-!
# Bounded queues and their circular-array representation

The abstract queue is a list with a capacity; a history of accesses is legal
when the queue can perform it from the empty list. `slots a cap out n` reads
`n` items of a circular array from the index `out` on. Storing behind the last
item and dropping the first one are the two ways in which a circular array
follows the abstract queue.
-/

namespace MultithreadMayhem.Foundation

universe u v

/-- An access of the thread `t`: it has stored `x`, or it has taken `x` out. -/
inductive Access (T : Type u) (α : Type v)
  | put (t : T) (x : α)
  | get (t : T) (x : α)
  deriving DecidableEq

namespace Access

variable {T : Type u} {α : Type v}

def stored? : Access T α → Option α
  | put _ x => some x
  | get _ _ => none

def taken? : Access T α → Option α
  | put _ _ => none
  | get _ x => some x

end Access

namespace BoundedQueue

variable {T : Type u} {α : Type v}

/-- One access of a queue of capacity `cap`, oldest item first. -/
def step [DecidableEq α] (cap : ℕ) (q : List α) : Access T α → Option (List α)
  | .put _ x => if q.length < cap then some (q ++ [x]) else none
  | .get _ x =>
    match q with
    | [] => none
    | y :: q => if y = x then some q else none

def run [DecidableEq α] (cap : ℕ) (q : List α) (h : List (Access T α)) : Option (List α) :=
  h.foldlM (step cap) q

def stored (h : List (Access T α)) : List α := h.filterMap Access.stored?

def taken (h : List (Access T α)) : List α := h.filterMap Access.taken?

@[simp]
theorem stored_nil : stored ([] : List (Access T α)) = [] := rfl

@[simp]
theorem taken_nil : taken ([] : List (Access T α)) = [] := rfl

@[simp]
theorem stored_append (h k : List (Access T α)) : stored (h ++ k) = stored h ++ stored k :=
  List.filterMap_append

@[simp]
theorem taken_append (h k : List (Access T α)) : taken (h ++ k) = taken h ++ taken k :=
  List.filterMap_append

@[simp]
theorem stored_put (t : T) (x : α) : stored [Access.put t x] = [x] := rfl

@[simp]
theorem stored_get (t : T) (x : α) : stored [Access.get t x] = [] := rfl

@[simp]
theorem taken_put (t : T) (x : α) : taken [Access.put t x] = [] := rfl

@[simp]
theorem taken_get (t : T) (x : α) : taken [Access.get t x] = [x] := rfl

variable [DecidableEq α] {cap : ℕ}

@[simp]
theorem run_nil (q : List α) : run (T := T) cap q [] = some q := rfl

theorem run_append (q : List α) (h k : List (Access T α)) :
    run cap q (h ++ k) = (run cap q h).bind fun r => run cap r k :=
  List.foldlM_append

theorem run_concat (q : List α) (h : List (Access T α)) (e : Access T α) :
    run cap q (h ++ [e]) = (run cap q h).bind fun r => step cap r e := by
  rw [run_append]
  congr 1
  funext r
  simp only [run, List.foldlM_cons, List.foldlM_nil]
  exact bind_pure (step cap r e)

theorem run_put {q r : List α} {h : List (Access T α)} (hr : run cap q h = some r)
    (hlen : r.length < cap) (t : T) (x : α) :
    run cap q (h ++ [.put t x]) = some (r ++ [x]) := by
  rw [run_concat, hr]
  exact if_pos hlen

theorem run_get {q r : List α} {x : α} {h : List (Access T α)}
    (hr : run cap q h = some (x :: r)) (t : T) : run cap q (h ++ [.get t x]) = some r := by
  rw [run_concat, hr]
  exact if_pos rfl

theorem step_conserves {q r : List α} {e : Access T α} (h : step cap q e = some r) :
    q ++ stored [e] = taken [e] ++ r := by
  cases e with
  | put t x =>
    simp only [step] at h
    split at h
    · cases h
      rfl
    · cases h
  | get t x =>
    cases q with
    | nil => cases h
    | cons y q =>
      simp only [step] at h
      split at h
      · rename_i hyx
        cases h
        simp [hyx]
      · cases h

theorem step_length_le {q r : List α} {e : Access T α} (h : step cap q e = some r)
    (hq : q.length ≤ cap) : r.length ≤ cap := by
  cases e with
  | put t x =>
    simp only [step] at h
    split at h
    · rename_i hlen
      cases h
      simpa using Nat.succ_le_of_lt hlen
    · cases h
  | get t x =>
    cases q with
    | nil => cases h
    | cons y q =>
      simp only [step] at h
      split at h
      · cases h
        exact Nat.le_of_succ_le hq
      · cases h

/-- Nothing is lost, duplicated or reordered: what was in the queue and what was stored since is
what was taken out followed by what is left. -/
theorem run_conserves {q r : List α} {h : List (Access T α)} (hr : run cap q h = some r) :
    q ++ stored h = taken h ++ r := by
  induction h using List.reverseRecOn generalizing r with
  | nil =>
    cases hr
    simp
  | append_singleton h e ih =>
    rw [run_concat] at hr
    obtain ⟨m, hm, he⟩ := Option.bind_eq_some_iff.mp hr
    rw [stored_append, taken_append, List.append_assoc, ← step_conserves he,
      ← List.append_assoc, ih hm, List.append_assoc]

theorem run_length_le {q r : List α} {h : List (Access T α)} (hr : run cap q h = some r)
    (hq : q.length ≤ cap) : r.length ≤ cap := by
  induction h using List.reverseRecOn generalizing r with
  | nil =>
    cases hr
    exact hq
  | append_singleton h e ih =>
    rw [run_concat] at hr
    obtain ⟨m, hm, he⟩ := Option.bind_eq_some_iff.mp hr
    exact step_length_le he (ih hm)

/-- At no time were more items taken than stored, or more than `cap` items left to be taken. -/
def Bounded (cap : ℕ) (h : List (Access T α)) : Prop :=
  ∀ p, p <+: h → (taken p).length ≤ (stored p).length ∧
    (stored p).length ≤ (taken p).length + cap

omit [DecidableEq α] in
theorem bounded_nil : Bounded cap ([] : List (Access T α)) := by
  intro p hp
  rw [List.prefix_nil.mp hp]
  exact ⟨Nat.le_refl _, Nat.zero_le _⟩

omit [DecidableEq α] in
theorem bounded_concat_iff {h : List (Access T α)} {e : Access T α} :
    Bounded cap (h ++ [e]) ↔ Bounded cap h ∧
      (taken (h ++ [e])).length ≤ (stored (h ++ [e])).length ∧
      (stored (h ++ [e])).length ≤ (taken (h ++ [e])).length + cap := by
  constructor
  · intro hb
    exact ⟨fun p hp => hb p (hp.trans (List.prefix_append h [e])), hb _ List.prefix_rfl⟩
  · rintro ⟨hb, hlast⟩ p hp
    obtain rfl | hp := List.prefix_concat_iff.mp hp
    · exact hlast
    · exact hb p hp

theorem run_length {q : List α} {h : List (Access T α)} (hr : run cap [] h = some q) :
    (stored h).length = (taken h).length + q.length := by
  have := congrArg List.length (run_conserves hr)
  simpa using this

end BoundedQueue

/-- The `n` items of a circular array of capacity `cap` from the index `out` on. -/
def slots {α : Type v} (a : ℕ → α) (cap out n : ℕ) : List α :=
  (List.range n).map fun k => a ((out + k) % cap)

section Slots

variable {α : Type v} {a : ℕ → α} {cap out n : ℕ}

@[simp]
theorem slots_zero : slots a cap out 0 = [] := rfl

theorem slot_ne_of_lt {k : ℕ} (hk : k < n) (hn : n < cap) :
    (out + k) % cap ≠ (out + n) % cap := by
  intro h
  have hmod : k ≡ n [MOD cap] := Nat.ModEq.add_left_cancel' out h
  exact Nat.ne_of_lt hk (hmod.eq_of_lt_of_lt (hk.trans hn) hn)

theorem slots_store (hn : n < cap) (x : α) :
    slots (Function.update a ((out + n) % cap) x) cap out (n + 1) = slots a cap out n ++ [x] := by
  simp only [slots, List.range_succ, List.map_append, List.map_cons, List.map_nil,
    Function.update_self]
  congr 1
  apply List.map_congr_left
  intro k hk
  rw [Function.update_of_ne (slot_ne_of_lt (List.mem_range.mp hk) hn)]

theorem slots_take : slots a cap out (n + 1) =
    a (out % cap) :: slots a cap ((out + 1) % cap) n := by
  simp only [slots, List.range_succ_eq_map, List.map_cons, List.map_map, Nat.add_zero]
  congr 1
  apply List.map_congr_left
  intro k _
  change a ((out + (k + 1)) % cap) = a (((out + 1) % cap + k) % cap)
  rw [Nat.mod_add_mod, Nat.add_assoc, Nat.add_comm 1 k]

end Slots

end MultithreadMayhem.Foundation
