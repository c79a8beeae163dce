import MultithreadMayhem.Foundation.BoundedQueue

/-!
# A circular array between two index updates

An access of a circular array takes two statements: the array access and the
update of the index. `Ring` describes the array at all points in between, in
terms of the queue that it holds.
-/

namespace MultithreadMayhem.Foundation

universe u

variable {α : Type u}

/-- The array `a` holds `q`. `read` items were read but `outIdx` is not advanced yet, and `written`
items were stored but `inIdx` is not advanced yet. -/
structure Ring (a : ℕ → α) (cap inIdx outIdx : ℕ) (q : List α) (read written : ℕ) : Prop where
  items : slots a cap (outIdx + read) q.length = q
  next : (inIdx + written) % cap = (outIdx + read + q.length) % cap
  in_lt : inIdx < cap
  out_lt : outIdx < cap

theorem slots_mod (a : ℕ → α) (cap out n : ℕ) : slots a cap (out % cap) n = slots a cap out n := by
  simp only [slots, Nat.mod_add_mod]

namespace Ring

variable {a : ℕ → α} {cap inIdx outIdx : ℕ} {q : List α}

theorem cap_pos {read written : ℕ} (h : Ring a cap inIdx outIdx q read written) : 0 < cap :=
  Nat.zero_lt_of_lt h.in_lt

theorem empty {i : ℕ} (hi : i < cap) : Ring a cap i i [] 0 0 := ⟨rfl, rfl, hi, hi⟩

theorem in_eq (h : Ring a cap inIdx outIdx q 0 0) : inIdx = (outIdx + q.length) % cap := by
  have hnext := h.next
  rwa [Nat.add_zero, Nat.mod_eq_of_lt h.in_lt, Nat.add_zero] at hnext

theorem slots_eq (h : Ring a cap inIdx outIdx q 0 0) : slots a cap outIdx q.length = q := h.items

theorem store (h : Ring a cap inIdx outIdx q 0 0) (hlen : q.length < cap) (x : α) :
    Ring (Function.update a inIdx x) cap inIdx outIdx (q ++ [x]) 0 1 := by
  refine ⟨?_, ?_, h.in_lt, h.out_lt⟩
  · rw [List.length_append, List.length_singleton, h.in_eq, Nat.add_zero, slots_store hlen,
      h.slots_eq]
  · simp only [List.length_append, List.length_singleton, h.in_eq, Nat.mod_add_mod, Nat.add_assoc,
      Nat.zero_add]

theorem take {x : α} (h : Ring a cap inIdx outIdx (x :: q) 0 0) :
    a outIdx = x ∧ Ring a cap inIdx outIdx q 1 0 := by
  have hitems := h.slots_eq
  rw [List.length_cons, slots_take, Nat.mod_eq_of_lt h.out_lt, slots_mod] at hitems
  obtain ⟨hx, hq⟩ := List.cons.inj hitems
  refine ⟨hx, hq, ?_, h.in_lt, h.out_lt⟩
  have hnext := h.next
  rwa [List.length_cons, Nat.add_zero outIdx, Nat.add_comm q.length, ← Nat.add_assoc] at hnext

theorem advanceIn (h : Ring a cap inIdx outIdx q 0 1) :
    Ring a cap ((inIdx + 1) % cap) outIdx q 0 0 := by
  refine ⟨h.items, ?_, Nat.mod_lt _ h.cap_pos, h.out_lt⟩
  rw [Nat.add_zero, Nat.mod_mod]
  exact h.next

theorem advanceOut (h : Ring a cap inIdx outIdx q 1 0) :
    Ring a cap inIdx ((outIdx + 1) % cap) q 0 0 := by
  refine ⟨?_, ?_, h.in_lt, Nat.mod_lt _ h.cap_pos⟩
  · rw [Nat.add_zero, slots_mod]
    exact h.items
  · rw [Nat.add_zero ((outIdx + 1) % cap), Nat.mod_add_mod]
    exact h.next

end Ring

end MultithreadMayhem.Foundation
