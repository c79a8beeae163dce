import MultithreadMayhem.Foundation.System
import Mathlib.Data.List.Count

/-!
# Runs that a rank bounds

A rank that no step inside a set of states raises, and that some labels lower, bounds how many
of these labels a run inside the set has.
-/

namespace MultithreadMayhem.Foundation.System

universe u v

variable {S : Type u} {L : Type v} {M : System S L} {Q : S → Prop} {rank : S → ℕ}
  {counts : L → Bool}

/-- No step inside `Q` raises the rank, and the counted ones lower it. -/
def Ranked (M : System S L) (Q : S → Prop) (rank : S → ℕ) (counts : L → Bool) : Prop :=
  ∀ s l t, Q s → M.step s l = some t → Q t → rank t + (if counts l then 1 else 0) ≤ rank s

theorem Ranked.countP_add_le [DecidablePred Q] (h : M.Ranked Q rank counts) {s t : S}
    (ls : List L) (hrun : M.runInside Q s ls = some t) : ls.countP counts + rank t ≤ rank s := by
  induction ls generalizing s with
  | nil =>
    rw [runInside] at hrun
    split at hrun <;> cases hrun
    simp
  | cons l ls ih =>
    rw [runInside] at hrun
    split at hrun
    · obtain ⟨u, hu, hrun⟩ := Option.bind_eq_some_iff.mp hrun
      have hstep := h s l u ‹_› hu (path_of_runInside ls hrun).left
      have hrest := ih hrun
      rw [List.countP_cons]
      omega
    · cases hrun

theorem Ranked.le_of_path (h : M.Ranked Q rank counts) {s t : S} (hpath : M.Path Q s t) :
    rank t ≤ rank s := by
  induction hpath with
  | refl => exact Nat.le_refl _
  | step hp hu hq ih =>
    have hstep := h _ _ _ hp.right hu hq
    omega

end MultithreadMayhem.Foundation.System
