import MultithreadMayhem.Foundation.BoundedQueue
import Mathlib.Algebra.BigOperators.Group.Finset.Basic
import Mathlib.Algebra.Order.Group.Multiset

/-!
# The accesses of one thread

A history splits into the accesses of the threads. The values stored by the
threads make up all stored values, and likewise for the values taken out.
-/

namespace MultithreadMayhem.Foundation

universe u v

variable {T : Type u} {α : Type v}

def Access.thread : Access T α → T
  | put t _ => t
  | get t _ => t

namespace BoundedQueue

variable [DecidableEq T]

def accessesOf (t : T) (h : List (Access T α)) : List (Access T α) :=
  h.filter fun e => e.thread = t

def storedBy (t : T) (h : List (Access T α)) : List α := stored (accessesOf t h)

def takenBy (t : T) (h : List (Access T α)) : List α := taken (accessesOf t h)

@[simp]
theorem accessesOf_nil (t : T) : accessesOf t ([] : List (Access T α)) = [] := rfl

@[simp]
theorem storedBy_nil (t : T) : storedBy t ([] : List (Access T α)) = [] := rfl

@[simp]
theorem takenBy_nil (t : T) : takenBy t ([] : List (Access T α)) = [] := rfl

theorem accessesOf_append (t : T) (h k : List (Access T α)) :
    accessesOf t (h ++ k) = accessesOf t h ++ accessesOf t k :=
  List.filter_append h k

theorem accessesOf_concat_self (h : List (Access T α)) (e : Access T α) :
    accessesOf e.thread (h ++ [e]) = accessesOf e.thread h ++ [e] := by
  rw [accessesOf_append]
  simp [accessesOf]

theorem accessesOf_concat_of_ne {t : T} {h : List (Access T α)} {e : Access T α}
    (hne : e.thread ≠ t) : accessesOf t (h ++ [e]) = accessesOf t h := by
  rw [accessesOf_append]
  simp [accessesOf, hne]

@[simp]
theorem storedBy_put (t : T) (h : List (Access T α)) (x : α) :
    storedBy t (h ++ [.put t x]) = storedBy t h ++ [x] := by
  have hself := accessesOf_concat_self h (.put t x)
  simp only [Access.thread] at hself
  simp [storedBy, hself]

@[simp]
theorem storedBy_get (t : T) (h : List (Access T α)) (x : α) :
    storedBy t (h ++ [.get t x]) = storedBy t h := by
  have hself := accessesOf_concat_self h (.get t x)
  simp only [Access.thread] at hself
  simp [storedBy, hself]

@[simp]
theorem takenBy_put (t : T) (h : List (Access T α)) (x : α) :
    takenBy t (h ++ [.put t x]) = takenBy t h := by
  have hself := accessesOf_concat_self h (.put t x)
  simp only [Access.thread] at hself
  simp [takenBy, hself]

@[simp]
theorem takenBy_get (t : T) (h : List (Access T α)) (x : α) :
    takenBy t (h ++ [.get t x]) = takenBy t h ++ [x] := by
  have hself := accessesOf_concat_self h (.get t x)
  simp only [Access.thread] at hself
  simp [takenBy, hself]

theorem storedBy_of_ne {t : T} {h : List (Access T α)} {e : Access T α} (hne : e.thread ≠ t) :
    storedBy t (h ++ [e]) = storedBy t h := by
  rw [storedBy, accessesOf_concat_of_ne hne, storedBy]

theorem takenBy_of_ne {t : T} {h : List (Access T α)} {e : Access T α} (hne : e.thread ≠ t) :
    takenBy t (h ++ [e]) = takenBy t h := by
  rw [takenBy, accessesOf_concat_of_ne hne, takenBy]

theorem mem_stored_iff {h : List (Access T α)} {x : α} :
    x ∈ stored h ↔ ∃ t, x ∈ storedBy t h := by
  constructor
  · intro hx
    obtain ⟨e, he, hex⟩ := List.mem_filterMap.mp hx
    exact ⟨e.thread, List.mem_filterMap.mpr ⟨e, List.mem_filter.mpr ⟨he, by simp⟩, hex⟩⟩
  · rintro ⟨t, hx⟩
    obtain ⟨e, he, hex⟩ := List.mem_filterMap.mp hx
    exact List.mem_filterMap.mpr ⟨e, (List.mem_filter.mp he).1, hex⟩

def ExtendsBy (t : T) (h k : List (Access T α)) : Prop :=
  k = h ∨ ∃ e : Access T α, e.thread = t ∧ k = h ++ [e]

omit [DecidableEq T] in
theorem ExtendsBy.rfl {t : T} {h : List (Access T α)} : ExtendsBy t h h := .inl (Eq.refl h)

omit [DecidableEq T] in
theorem ExtendsBy.concat {h : List (Access T α)} (e : Access T α) :
    ExtendsBy e.thread h (h ++ [e]) :=
  .inr ⟨e, Eq.refl _, Eq.refl _⟩

theorem ExtendsBy.accessesOf_eq {t u : T} {h k : List (Access T α)} (hext : ExtendsBy u h k)
    (hne : u ≠ t) : accessesOf t k = accessesOf t h := by
  obtain hk | ⟨e, rfl, hk⟩ := hext
  · rw [hk]
  · rw [hk, accessesOf_concat_of_ne hne]

theorem sum_concat [Fintype T] (f : T → List α) {g : T → List α} {t : T} {x : α}
    (hself : g t = f t ++ [x]) (hothers : ∀ u, t ≠ u → g u = f u) :
    ∑ u, (g u : Multiset α) = ∑ u, (f u : Multiset α) + {x} := by
  rw [← Finset.add_sum_erase _ _ (Finset.mem_univ t), ← Finset.add_sum_erase _ _ (Finset.mem_univ t)]
  have hrest : ∑ u ∈ Finset.univ.erase t, (g u : Multiset α) =
      ∑ u ∈ Finset.univ.erase t, (f u : Multiset α) := by
    apply Finset.sum_congr rfl
    intro u hu
    rw [hothers u (Finset.ne_of_mem_erase hu).symm]
  rw [hrest, hself, ← Multiset.coe_add, Multiset.coe_singleton, add_right_comm]

theorem sum_storedBy [Fintype T] (h : List (Access T α)) :
    ∑ t, (storedBy t h : Multiset α) = (stored h : Multiset α) := by
  induction h using List.reverseRecOn with
  | nil => simp
  | append_singleton h e ih =>
    cases e with
    | put t x =>
      rw [sum_concat (fun u => storedBy u h) (storedBy_put t h x) fun u hu => storedBy_of_ne hu,
        ih, stored_append, stored_put, ← Multiset.coe_add, Multiset.coe_singleton]
    | get t x =>
      rw [stored_append, stored_get, List.append_nil, ← ih]
      apply Finset.sum_congr rfl
      intro u _
      obtain rfl | hne := eq_or_ne t u
      · rw [storedBy_get]
      · rw [storedBy_of_ne (e := .get t x) hne]

theorem sum_takenBy [Fintype T] (h : List (Access T α)) :
    ∑ t, (takenBy t h : Multiset α) = (taken h : Multiset α) := by
  induction h using List.reverseRecOn with
  | nil => simp
  | append_singleton h e ih =>
    cases e with
    | get t x =>
      rw [sum_concat (fun u => takenBy u h) (takenBy_get t h x) fun u hu => takenBy_of_ne hu,
        ih, taken_append, taken_get, ← Multiset.coe_add, Multiset.coe_singleton]
    | put t x =>
      rw [taken_append, taken_put, List.append_nil, ← ih]
      apply Finset.sum_congr rfl
      intro u _
      obtain rfl | hne := eq_or_ne t u
      · rw [takenBy_put]
      · rw [takenBy_of_ne (e := .put t x) hne]

theorem count_stored [Fintype T] [DecidableEq α] (h : List (Access T α)) (x : α) :
    (stored h).count x = ∑ t, (storedBy t h).count x := by
  rw [← Multiset.coe_count, ← sum_storedBy, Multiset.count_sum']
  simp only [Multiset.coe_count]

theorem count_taken [Fintype T] [DecidableEq α] (h : List (Access T α)) (x : α) :
    (taken h).count x = ∑ t, (takenBy t h).count x := by
  rw [← Multiset.coe_count, ← sum_takenBy, Multiset.count_sum']
  simp only [Multiset.coe_count]

end BoundedQueue

end MultithreadMayhem.Foundation
