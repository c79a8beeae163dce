import MultithreadMayhem.Kernel.Lookups
import MultithreadMayhem.Kernel.ThreadGroups

/-!
# The priority store

`set_priority` and `get_priority` work on the map from pids to priorities: every call takes
effect at one moment between its call and its return, and a call that finds no process
changes nothing.
-/

namespace MultithreadMayhem.Kernel

open Foundation

variable {n nofile : ℕ} {C : Type} {f g : Frame n} {op : PidOp} {v pid : Int} {t : Thread n C}
  {log before : Log n C}

def PidOp.ofPriority : PidOp → Bool
  | kkill _ => false
  | _ => true

variable [DecidableEq C] {s s' : State n C}

theorem hit_priority {p q : Proc n} (hop : op.ofPriority = true) (h : op.hit p = some (q, v)) :
    (p.state ≠ .unused ∧ p.pid = op.pid) ∧ v = p.priority ∧
      (q = p ∨ ∃ prio, op = .setPriority op.pid prio ∧ q = { p with priority := prio }) := by
  cases op with
  | kkill pid => cases hop
  | setPriority pid prio =>
    simp only [PidOp.hit, Kernel.setPriority] at h
    split at h <;> cases h
    exact ⟨⟨And.right ‹_›, And.left ‹_›⟩, rfl, .inr ⟨prio, rfl, rfl⟩⟩
  | getPriority pid =>
    simp only [PidOp.hit, Kernel.getPriority] at h
    split at h <;> cases h
    exact ⟨⟨And.right ‹_›, And.left ‹_›⟩, rfl, .inl rfl⟩

omit [DecidableEq C] in
theorem PidScanPc.Goes.priority {sh sh' : Shared n} {pc pc' : PidScanPc n} {e : Option (Event n)}
    (h : pc.Goes op sh pc' sh' e) (hop : op.ofPriority = true) :
    sh' = sh ∨ ∃ j prio, op = .setPriority op.pid prio ∧ sh.Has j op.pid ∧
      sh' = sh.setProc j { sh.proc j with priority := prio } ∧ e = some (.hit op j (sh.proc j)) := by
  cases h with
  | @hit j q v hq =>
    obtain ⟨hj, -, rfl | ⟨prio, hset, rfl⟩⟩ := hit_priority hop hq
    · refine .inl ?_
      rw [Shared.setProc, Function.update_eq_self]
    · exact .inr ⟨j, prio, hset, hj, rfl, rfl⟩
  | _ => exact .inl rfl

end MultithreadMayhem.Kernel
