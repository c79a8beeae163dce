import MultithreadMayhem.Foundation.System

/-!
# Runs with a record of their events

A step of a system may show an event. The recorded system keeps the events of its run in
a list, the latest first; it takes the same steps as the system itself.
-/

namespace MultithreadMayhem.Foundation

variable {S L E : Type}

namespace System

def guarded (M : System S L) (ok : S → L → Prop) [∀ s l, Decidable (ok s l)] : System S L where
  init := M.init
  step := fun s l => if ok s l then M.step s l else none

def recorded (M : System S L) (event : S → L → S → Option E) : System (S × List E) L where
  init := (M.init, [])
  step := fun y l => (M.step y.1 l).map fun t => (t, (event y.1 l t).toList ++ y.2)

variable {M : System S L} {event : S → L → S → Option E} {ok : S → L → Prop}
  [∀ s l, Decidable (ok s l)]

theorem step_guarded {s t : S} {l : L} (h : (M.guarded ok).step s l = some t) :
    ok s l ∧ M.step s l = some t := by
  change (if ok s l then M.step s l else none) = some t at h
  split at h
  · exact ⟨‹_›, h⟩
  · cases h

theorem Reachable.of_guarded {s : S} (h : (M.guarded ok).Reachable s) : M.Reachable s := by
  induction h with
  | init => exact .init
  | step _ ht ih => exact ih.step (step_guarded ht).2

theorem step_recorded {y z : S × List E} {l : L} (h : (M.recorded event).step y l = some z) :
    M.step y.1 l = some z.1 ∧ z.2 = (event y.1 l z.1).toList ++ y.2 := by
  obtain ⟨t, ht, rfl⟩ := Option.map_eq_some_iff.mp h
  exact ⟨ht, rfl⟩

theorem Reachable.fst {y : S × List E} (h : (M.recorded event).Reachable y) : M.Reachable y.1 := by
  induction h with
  | init => exact .init
  | step _ ht ih => exact ih.step (step_recorded ht).1

/-- Every reachable state is reached with a record. -/
theorem Reachable.recorded {s : S} (h : M.Reachable s) :
    ∃ log, (M.recorded event).Reachable (s, log) := by
  induction h with
  | init => exact ⟨[], .init⟩
  | @step s t l _ ht ih =>
    obtain ⟨log, hr⟩ := ih
    refine ⟨(event s l t).toList ++ log, hr.step (l := l) ?_⟩
    change (M.step s l).map _ = _
    rw [ht, Option.map_some]

end System

end MultithreadMayhem.Foundation
