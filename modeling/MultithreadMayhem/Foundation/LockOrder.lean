import Mathlib.Logic.Relation
import Mathlib.Order.WellFounded

/-!
# Locks taken in order

Threads that wait for locks held by other threads form chains. When every thread
takes a lock of a higher rank than those it holds, and the ranks are bounded, each
chain ends at a thread that can go on.
-/

namespace MultithreadMayhem.Foundation

universe u v

/-- The locks that the threads are about to take, and the threads that hold them. -/
structure LockTable (T : Type u) (L : Type v) where
  wants : T → L → Prop
  holder : L → Option T

namespace LockTable

variable {T : Type u} {L : Type v} (M : LockTable T L)

def Waits (t t' : T) : Prop := ∃ l, M.wants t l ∧ M.holder l = some t'

def Spins (t : T) : Prop := ∃ l, M.wants t l ∧ M.holder l ≠ none

def Ordered (rank : L → ℕ) : Prop :=
  ∀ t l, M.wants t l → ∀ l', M.holder l' = some t → rank l' < rank l

variable {M} {rank : L → ℕ} {bound : ℕ}

theorem Ordered.not_holder (h : M.Ordered rank) {t : T} {l : L} (hw : M.wants t l) :
    M.holder l ≠ some t := fun hl => lt_irrefl _ (h t l hw l hl)

theorem Ordered.wellFounded (h : M.Ordered rank) (hb : ∀ t l, M.wants t l → rank l < bound) :
    WellFounded fun t' t => M.Waits t t' := by
  -- The induction is on the room that is left above the locks that a thread may wait for.
  have acc (k : ℕ) : ∀ t, (∀ l, M.wants t l → bound ≤ rank l + k) →
      Acc (fun t' t => M.Waits t t') t := by
    induction k with
    | zero =>
      intro t ht
      constructor
      rintro t' ⟨l, hw, -⟩
      exact absurd (hb t l hw) (Nat.not_lt.mpr (ht l hw))
    | succ k ih =>
      intro t ht
      constructor
      rintro t' ⟨l, hw, hl⟩
      refine ih t' fun l' hw' => ?_
      have hlt : rank l < rank l' := h t' l' hw' l hl
      have hroom : bound ≤ rank l + (k + 1) := ht l hw
      omega
  exact ⟨fun t => acc bound t fun l _ => Nat.le_add_left bound (rank l)⟩

theorem Ordered.acyclic (h : M.Ordered rank) (hb : ∀ t l, M.wants t l → rank l < bound) (t : T) :
    ¬Relation.TransGen M.Waits t t := by
  intro hcycle
  have hwf := (h.wellFounded hb).transGen
  exact hwf.irrefl.irrefl t (Relation.transGen_swap.mpr hcycle)

/-- Every chain of waiting threads ends at a thread that waits for nobody. -/
theorem Ordered.exists_end (h : M.Ordered rank) (hb : ∀ t l, M.wants t l → rank l < bound) (t : T) :
    ∃ t', Relation.ReflTransGen M.Waits t t' ∧ ¬M.Spins t' := by
  induction t using (h.wellFounded hb).induction with
  | _ t ih =>
    by_cases hs : M.Spins t
    · obtain ⟨l, hw, hl⟩ := hs
      obtain ⟨t', ht'⟩ := Option.ne_none_iff_exists'.mp hl
      have hedge : M.Waits t t' := ⟨l, hw, ht'⟩
      obtain ⟨u, hpath, hu⟩ := ih t' hedge
      exact ⟨u, .head hedge hpath, hu⟩
    · exact ⟨t, .refl, hs⟩

end LockTable

end MultithreadMayhem.Foundation
