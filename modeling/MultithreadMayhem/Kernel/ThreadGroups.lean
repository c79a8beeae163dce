import Mathlib.Data.List.Pairwise
import MultithreadMayhem.Kernel.Pids

/-!
# Every process leads a thread group of its own

A process reports its own pid as its `tgid`, and no pid is used twice. So two reports of
`sys_getthreadinfo` name the same thread group only if the same process has made them.
-/

namespace MultithreadMayhem.Kernel

open Foundation

variable {n nofile : ℕ} {C : Type} {log later mid earlier : Log n C} {t t' : Thread n C}
  {i j : Fin n} {v : Int}

theorem event_info {sh : Shared n} {f g : Frame n} {r : ThreadInfo}
    (he : f.event sh g = some (.info j r)) :
    f = .syscall j .dispatch ∧ r = (sh.proc j).threadInfo := by
  unfold Frame.event at he
  split at he
  case h_8 =>
    split at he
    · split at he <;> cases he
    · cases he
  case h_11 =>
    split at he
    · cases he
    · split at he <;> cases he
      exact ⟨rfl, rfl⟩
    · cases he
  case h_12 => split at he <;> cases he
  all_goals cases he

namespace Log

theorem allocated_append : Log.allocated (later ++ log) = later.allocated ++ log.allocated :=
  List.filterMap_append ..

theorem mem_of_latest (h : log.latest j = some v) : ∃ u, (u, Event.alloc j v) ∈ log := by
  obtain ⟨⟨u, e⟩, hmem, he⟩ := List.exists_of_findSome?_eq_some h
  cases e with
  | alloc k w =>
    simp only [Event.allocatedIn] at he
    split at he <;> cases he
    subst k
    exact ⟨u, hmem⟩
  | _ => cases he

theorem mem_allocated (h : (t, Event.alloc j v) ∈ log) : v ∈ log.allocated :=
  List.mem_filterMap.mpr ⟨_, h, rfl⟩

theorem slot_unique (hnodup : log.allocated.Nodup) (hi : (t, Event.alloc i v) ∈ log)
    (hj : (t', Event.alloc j v) ∈ log) : i = j := by
  by_contra hij
  have hne : (t, Event.alloc i v) ≠ (t', Event.alloc j v) := by
    rintro ⟨⟩
    exact hij rfl
  let R (x y : Thread n C × Event n) : Prop :=
    ∀ w, x.2.allocated = some w → ∀ w', y.2.allocated = some w' → w ≠ w'
  have hsymm : Std.Symm R := ⟨fun x y hxy w hw w' hw' => (hxy w' hw' w hw).symm⟩
  have hpairs : log.Pairwise R := List.pairwise_filterMap.mp hnodup
  exact hpairs.forall hi hj hne v rfl v rfl rfl

theorem latest_append (h : (t, Event.alloc j v) ∈ later) (log : Log n C) :
    Log.latest (later ++ log) j = later.latest j := by
  obtain ⟨w, hw⟩ : ∃ w, later.latest j = some w := by
    refine Option.isSome_iff_exists.mp (List.findSome?_isSome_iff.mpr ⟨_, h, ?_⟩)
    simp [Event.allocatedIn]
  rw [latest, List.findSome?_append]
  change (later.latest j).or _ = later.latest j
  rw [hw, Option.some_or]

def Truthful (log : Log n C) : Prop :=
  ∀ later earlier t j r, log = later ++ (t, Event.info j r) :: earlier →
    r.tgid = r.pid ∧ r.isThread = 0 ∧ Log.latest earlier j = some r.pid

theorem Truthful.ne (h : log.Truthful) (hnodup : log.allocated.Nodup) {r r' : ThreadInfo}
    (hlog : log = later ++ (t, .info j r) :: (mid ++ (t', .info i r') :: earlier))
    (hij : j ≠ i ∨ ∃ u v, (u, .alloc j v) ∈ mid) : r.tgid ≠ r'.tgid := by
  obtain ⟨htgid, -, hlatest⟩ := h later _ t j r hlog
  obtain ⟨htgid', -, hlatest'⟩ := h (later ++ (t, .info j r) :: mid) earlier t' i r' (by
    rw [hlog, List.append_assoc, List.cons_append])
  rw [htgid, htgid']
  intro hpid
  rw [← hpid] at hlatest'
  have hsub : (mid ++ (t', Event.info i r') :: earlier).Sublist log := by
    rw [hlog]
    exact (List.sublist_cons_self _ _).trans (List.sublist_append_right _ _)
  have hmid : (mid.allocated ++ Log.allocated ((t', Event.info i r') :: earlier)).Nodup := by
    rw [← allocated_append]
    exact hnodup.sublist (hsub.filterMap _)
  obtain ⟨u', hearlier⟩ := mem_of_latest hlatest'
  obtain hne | ⟨u, w, hw⟩ := hij
  · obtain ⟨u, hrest⟩ := mem_of_latest hlatest
    have hi : (u', Event.alloc i r.pid) ∈ log :=
      hsub.subset (List.mem_append_right _ (List.mem_cons_of_mem _ hearlier))
    exact hne (slot_unique hnodup (hsub.subset hrest) hi)
  · rw [latest_append hw] at hlatest
    obtain ⟨u, hrest⟩ := mem_of_latest hlatest
    exact (List.nodup_append.mp hmid).2.2 r.pid (mem_allocated hrest) r.pid
      (mem_allocated (List.mem_cons_of_mem _ hearlier)) rfl

end Log

variable [DecidableEq C]

theorem truthful_of_history {b : C} {y : State n C × Log n C}
    (hy : (history n nofile b).Reachable y) (hfew : y.2.Few) : y.2.Truthful := by
  refine hy.invariant (fun y => y.2.Few → y.2.Truthful) ?_ ?_ hfew
  · intro _ later earlier t j r hlog
    cases later <;> cases hlog
  intro y l z hr ih hstep hfew later earlier t j r hlog
  obtain ⟨hstep, hz⟩ := System.step_recorded hstep
  have h := Sound.of_reachable hr.fst
  obtain ⟨f, rest, e, hs, hturn, he⟩ := h.turn hstep
  rw [he, Log.add_eq] at hz
  have hold : y.2.Few := by
    rw [hz, ← Log.add_eq] at hfew
    exact Log.few_of_append hfew
  rw [hz] at hlog
  obtain _ | e := e
  · exact ih hold later earlier t j r hlog
  obtain _ | ⟨x, later⟩ := later
  · -- The report is the event of this step.
    obtain ⟨hx, rfl⟩ := List.cons.inj hlog
    cases hx
    obtain ⟨g, hg⟩ := hturn.eq_event _ rfl
    obtain ⟨rfl, rfl⟩ := event_info hg
    have hrelies : (Frame.syscall j .dispatch).Relies (y.1.ctx nofile l.1 .run) (y.1.running l.1) :=
      h.relies hs .run
    have hstate : y.1.shared.states j = .running := hrelies.self hrelies.on rfl
    have hused : y.1.shared.states j ≠ .unused := by
      rw [hstate]
      exact nofun
    have hp := Pids.of_reachable hr hold
    obtain ⟨-, htgid, hthread⟩ := hp.live j hused
    exact ⟨htgid, hthread, hp.latest j hused⟩
  · exact ih hold later earlier t j r (List.cons.inj hlog).2

/-- While no pid is used twice, every process whose lock is free leads a thread group of its own,
and reports so. -/
theorem leads_own_group {b : C} {s : State n C} (hr : (history n nofile b).Reachable (s, log))
    (hfew : log.Few) :
    (∀ j, s.holder (.proc j) = none → s.shared.states j ≠ .unused → 1 ≤ (s.shared.proc j).pid ∧
      (s.shared.proc j).tgid = (s.shared.proc j).pid ∧ (s.shared.proc j).isThread = 0) ∧
    (∀ i j, i ≠ j → s.holder (.proc i) = none → s.shared.states i ≠ .unused →
      s.holder (.proc j) = none → s.shared.states j ≠ .unused →
      (s.shared.proc i).pid ≠ (s.shared.proc j).pid ∧
        (s.shared.proc i).tgid ≠ (s.shared.proc j).tgid) ∧
    (∀ t j r, (t, .info j r) ∈ log → r.tgid = r.pid ∧ r.isThread = 0) ∧
    ∀ later mid earlier t t' i j r r',
      log = later ++ (t, .info j r) :: (mid ++ (t', .info i r') :: earlier) →
      (j ≠ i ∨ ∃ u v, (u, .alloc j v) ∈ mid) → r.tgid ≠ r'.tgid := by
  have hp := Pids.of_reachable hr hfew
  have htruth := truthful_of_history hr hfew
  refine ⟨fun j _ hj => hp.live j hj, fun i j hij _ hi _ hj => ?_, fun t j r hmem => ?_, ?_⟩
  · obtain ⟨hpos, htgid, -⟩ := hp.live i hi
    obtain ⟨-, htgid', -⟩ := hp.live j hj
    have hne : (s.shared.proc i).pid ≠ (s.shared.proc j).pid := fun heq =>
      hij (hp.distinct i j heq hpos.ne')
    rw [htgid, htgid']
    exact ⟨hne, hne⟩
  · obtain ⟨later, earlier, hlog⟩ := List.append_of_mem hmem
    obtain ⟨htgid, hthread, -⟩ := htruth later earlier t j r hlog
    exact ⟨htgid, hthread⟩
  · intro later mid earlier t t' i j r r' hlog hij
    exact htruth.ne hp.nodup hlog hij

def forkThenReport : List (Unit × Choice) :=
  steps 14 ++ ((), .alloc 0) :: steps 23 ++ ((), .ret 0) :: steps 3 ++ ((), .ret 0) :: steps 4 ++
    trapWith 1 0 0 :: steps 20 ++ ((), .alloc 0) :: steps 20 ++ trapWith 25 0 0 :: steps 5

theorem leads_own_group_forked : ∃ (s : State 2 Unit) (log : Log 2 Unit),
    (history 2 0 ()).Reachable (s, log) ∧
      (s.shared.proc 0).tgid ≠ (s.shared.proc 1).tgid ∧ ∃ t j r, (t, .info j r) ∈ log ∧
        r.tgid = r.pid := by
  have hrun : ((history 2 0 ()).run (history 2 0 ()).init forkThenReport).any fun y =>
      decide y.2.Few && (decide (y.1.holder (.proc 0) = none) &&
        (decide (y.1.shared.states 0 ≠ .unused) && (decide (y.1.holder (.proc 1) = none) &&
          (decide (y.1.shared.states 1 ≠ .unused) && y.2.any fun e => e.2.report.isSome)))) := by
    decide +kernel
  obtain ⟨⟨s, log⟩, hs, hrun⟩ := (Option.any_eq_true _ _).mp hrun
  obtain ⟨hfew, hrun⟩ := Bool.and_eq_true_iff.mp hrun
  obtain ⟨h₀, hrun⟩ := Bool.and_eq_true_iff.mp hrun
  obtain ⟨hst₀, hrun⟩ := Bool.and_eq_true_iff.mp hrun
  obtain ⟨h₁, hrun⟩ := Bool.and_eq_true_iff.mp hrun
  obtain ⟨hst₁, hrun⟩ := Bool.and_eq_true_iff.mp hrun
  obtain ⟨⟨t, e⟩, hmem, he⟩ := List.any_eq_true.mp hrun
  have hr := System.reachable_of_run _ hs
  obtain ⟨-, hdistinct, hreports, -⟩ := leads_own_group hr (of_decide_eq_true hfew)
  refine ⟨s, log, hr, (hdistinct 0 1 nofun (of_decide_eq_true h₀) (of_decide_eq_true hst₀)
    (of_decide_eq_true h₁) (of_decide_eq_true hst₁)).2, ?_⟩
  cases e with
  | info j r => exact ⟨t, j, r, hmem, (hreports t j r hmem).1⟩
  | _ => cases he

end MultithreadMayhem.Kernel
