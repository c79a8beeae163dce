import MultithreadMayhem.Kernel.PriorityStore

/-!
# When the calls about a priority return -1

Priorities are not checked, so -1 can be stored like any other value, and then the two
calls return it for a process that is there. Nothing else makes the result ambiguous: the
priority of a process is 31 or what the last `set_priority` of its slot has stored.
-/

namespace MultithreadMayhem.Kernel

open Foundation

variable {n nofile : ℕ} {C : Type} {op : PidOp} {sh sh' : Shared n} {pc : PidScanPc n} {v : Int}
  {j : Fin n} {e : Option (Event n)} {t : Thread n C} {log : Log n C}

/-- A call that looks for a pid, on the table `sh` which nobody else changes. -/
inductive PidScanPc.Alone (op : PidOp) (sh : Shared n) : PidScanPc n → Shared n → Prop
  | start : Alone op sh (.loop 0) sh
  | step {pc pc' : PidScanPc n} {sh₁ sh₂ : Shared n} {e : Option (Event n)} :
    Alone op sh pc sh₁ → pc.Goes op sh₁ pc' sh₂ e → Alone op sh pc' sh₂

def PidOp.Returns (op : PidOp) (sh : Shared n) (v : Int) : Prop :=
  ∃ sh', PidScanPc.Alone op sh (.done v) sh'

def PidScanPc.Passed (op : PidOp) (sh sh' : Shared n) (i : ℕ) : Prop :=
  sh' = sh ∧ ∀ j : Fin n, j < i → op.hit (sh.proc j) = none

def PidOp.HitsFirst (op : PidOp) (sh : Shared n) (j : Fin n) (v : Int) : Prop :=
  (∃ q, op.hit (sh.proc j) = some (q, v)) ∧ ∀ i < j, op.hit (sh.proc i) = none

def PidScanPc.Found (op : PidOp) (sh sh' : Shared n) : PidScanPc n → Prop
  | .loop i => Passed op sh sh' i
  | .acquire p | .test p => Passed op sh sh' p
  | .release p => Passed op sh sh' (p + 1)
  | .releaseFound p v => op.HitsFirst sh p v
  | .done v => (∃ j, op.HitsFirst sh j v) ∨ v = -1 ∧ ∀ j, op.hit (sh.proc j) = none

theorem PidScanPc.Alone.found (h : Alone op sh pc sh') : pc.Found op sh sh' := by
  induction h with
  | start => exact ⟨rfl, fun j hj => absurd hj (Nat.not_lt_zero j)⟩
  | step _ hgoes ih =>
    cases hgoes with
    | loop hi => exact ih
    | miss hi => exact .inr ⟨rfl, fun j => ih.2 j (j.isLt.trans_le hi)⟩
    | acquire => exact ih
    | @hit p q v hq =>
      obtain ⟨rfl, hpassed⟩ := ih
      exact ⟨⟨q, hq⟩, hpassed⟩
    | @pass p hp =>
      obtain ⟨rfl, hpassed⟩ := ih
      refine ⟨rfl, fun j hj => ?_⟩
      obtain hlt | heq := Nat.lt_succ_iff_lt_or_eq.mp hj
      · exact hpassed j hlt
      · rwa [Fin.ext heq]
    | release => exact ih
    | @found p v => exact .inl ⟨p, ih⟩

theorem hit_eq_none_iff (hop : op.ofPriority = true) :
    op.hit (sh.proc j) = none ↔ ¬ sh.Has j op.pid := by
  constructor
  · intro h hj
    obtain ⟨q, v, hq⟩ := op.hit_of_has hj
    rw [h] at hq
    cases hq
  · intro h
    cases hhit : op.hit (sh.proc j) with
    | none => rfl
    | some r => exact absurd (hit_priority hop hhit).1 h

def Shared.HasFirst (sh : Shared n) (j : Fin n) (pid : Int) : Prop :=
  sh.Has j pid ∧ ∀ i < j, ¬ sh.Has i pid

theorem PidOp.Returns.cases (hop : op.ofPriority = true) (h : op.Returns sh v) :
    (∃ j, sh.HasFirst j op.pid ∧ v = (sh.proc j).priority) ∨
      v = -1 ∧ ∀ j, ¬ sh.Has j op.pid := by
  obtain ⟨sh', halone⟩ := h
  obtain ⟨j, ⟨q, hq⟩, hfirst⟩ | ⟨hv, hnone⟩ := halone.found
  · obtain ⟨hj, hv, -⟩ := hit_priority hop hq
    exact .inl ⟨j, ⟨hj, fun i hi => (hit_eq_none_iff hop).mp (hfirst i hi)⟩, hv⟩
  · exact .inr ⟨hv, fun j => (hit_eq_none_iff hop).mp (hnone j)⟩

theorem Shared.HasFirst.unique {i : Fin n} {pid : Int} (hi : sh.HasFirst i pid)
    (hj : sh.HasFirst j pid) : i = j := by
  obtain hlt | heq | hgt := lt_trichotomy i j
  · exact absurd hi.1 (hj.2 i hlt)
  · exact heq
  · exact absurd hj.1 (hi.2 j hgt)

variable [DecidableEq C] {s : State n C}

end MultithreadMayhem.Kernel
