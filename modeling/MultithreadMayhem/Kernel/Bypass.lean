import MultithreadMayhem.Kernel.Dispatch

/-!
# Who is dispatched before whom on one CPU

Every pass starts at the first slot and a tie goes to the slot that is examined
first. So a process that waits is passed over again and again by a process of the
same priority in a lower slot, but by no process in a higher slot and by none with a
larger priority value.
-/

namespace MultithreadMayhem.Kernel

open Foundation

variable {n nofile : ℕ} {C : Type} {c : C} {p q : Fin n} {s t u : State n C}
  {pc : SchedulerPc n}

/-- A pass that examines both slots prefers `b` to `q`. -/
def Shared.Precedes (sh : Shared n) (b q : Fin n) : Prop :=
  (sh.proc b).priority < (sh.proc q).priority ∨
    (sh.proc b).priority = (sh.proc q).priority ∧ b ≤ q

theorem Shared.Precedes.refl (sh : Shared n) (q : Fin n) : sh.Precedes q q := .inr ⟨rfl, le_rfl⟩

theorem Shared.Precedes.le {sh : Shared n} {b q : Fin n} (h : sh.Precedes b q) :
    (sh.proc b).priority ≤ (sh.proc q).priority := by
  obtain h | ⟨h, -⟩ := h
  · exact h.le
  · exact h.le

/-- A pass that has examined the slot `q` has a choice that it prefers to `q`. -/
def SchedulerPc.Covers (sh : Shared n) (q : Fin n) : SchedulerPc n → Prop
  | .loop i best => q < i → ∃ b ∈ best, sh.Precedes b q
  | .acquire p best | .test p best => q < p → ∃ b ∈ best, sh.Precedes b q
  | .releaseBest p _ => q ≤ p → sh.Precedes p q
  | .releaseSlot p best => q ≤ p → ∃ b ∈ best, sh.Precedes b q
  | .setState b => sh.Precedes b q
  | _ => True

theorem SchedulerPc.Covers.of_unlocked {sh sh' : Shared n} (h : pc.Covers sh q)
    (hpc : held [Frame.scheduler pc] = 0) : pc.Covers sh' q := by
  have hlocks : pc.locks = 0 := (add_zero _).symm.trans hpc
  cases pc with
  | loop i best | acquire i best =>
    cases best with
    | none =>
      intro hq
      obtain ⟨b, hb, -⟩ := h hq
      cases hb
    | some b => exact absurd hlocks (Multiset.singleton_ne_zero _)
  | test p best | releaseSlot p best => exact absurd hlocks (by simp [SchedulerPc.locks])
  | releaseBest p b => exact absurd hlocks (by simp [SchedulerPc.locks])
  | setState b => exact absurd hlocks (Multiset.singleton_ne_zero _)
  | _ => trivial

/-- Where the only CPU is between two dispatches while the process in the slot `q` waits. -/
inductive Passing (c : C) (q : Fin n) (s : State n C) : Prop
  | pass {pc : SchedulerPc n} (hat : s.At c pc) (h : pc.Covers s.shared q)
  | handler {pc : SchedulerPc n} {f : Frame n} {fs : List (Frame n)} (hr : s.running c = .cpu c)
      (hstack : s.stack (.cpu c) = f :: fs ++ [.scheduler pc])
      (hpc : held [Frame.scheduler pc] = 0) (h : pc.Covers s.shared q)
  | process {r : Fin n} (hr : s.running c = .proc r)

namespace Passing

theorem of_returned (h : pc.Covers t.shared q) (hpc : held [Frame.scheduler pc] = 0)
    (hr : u.running c = .cpu c) {fs : List (Frame n)}
    (hstack : u.stack (.cpu c) = fs ++ [.scheduler pc]) : Passing c q u := by
  cases fs with
  | nil => exact .pass ⟨hr, hstack⟩ (h.of_unlocked hpc)
  | cons f fs => exact .handler hr hstack hpc (h.of_unlocked hpc)

variable [DecidableEq C]

theorem own {x : Choice} (hsound : Sound t) (hat : t.At c pc) (h : pc.Covers t.shared q)
    (hq : (t.shared.proc q).state = .runnable) (hx : x ≠ .interrupt)
    (hu : t.step nofile (c, x) = some u) : Passing c q u := by
  have hs : t.stack (t.running c) = [.scheduler pc] := by rw [hat.1, hat.2]
  have hok := hsound.stack (t.running c)
  rw [hs] at hok
  rw [hat.step hx] at hu
  have goes {v : State n C} (pc' : SchedulerPc n) (hv : v = u) (hr : v.running = t.running)
      (hstack : v.stack = Function.update t.stack (.cpu c) [.scheduler pc'])
      (h' : pc'.Covers v.shared q) : Passing c q u := by
    subst hv
    refine .pass ⟨?_, ?_⟩ h'
    · rw [hr, hat.1]
    · rw [hstack, Function.update_self]
  cases pc with
  | start => exact goes (.loop 0 none) (Option.some.inj hu) rfl rfl (by rintro ⟨⟩)
  | loop i best =>
    simp only [Kernel.scheduler] at hu
    split at hu
    · exact goes _ (Option.some.inj hu) rfl rfl h
    · rename_i hi
      cases best with
      | none => exact goes _ (Option.some.inj hu) rfl rfl trivial
      | some b =>
        obtain ⟨b', hb', hcov⟩ := h (q.isLt.trans_le (Nat.not_lt.mp hi))
        obtain rfl := Option.some.inj hb'
        exact goes _ (Option.some.inj hu) rfl rfl hcov
  | acquire p best =>
    have hne : t.holder (.proc p) ≠ some c := hsound.not_holder_of_acquire hs
      (show code (t.ctx nofile c x) _ = .acquire (.proc p) _ from rfl) rfl
    simp only [Kernel.scheduler, State.act, if_neg hne] at hu
    split at hu
    · exact goes _ (Option.some.inj hu) rfl rfl h
    · cases hu
  | test p best =>
    have hlow : ∀ b ∈ best, b < p := hok.wf
    have h : q < p → ∃ b ∈ best, t.shared.Precedes b q := h
    change t.act c (.cpu c) (.scheduler (.test p best)) []
      (if (t.shared.proc p).state = .runnable then _ else _) = some u at hu
    split at hu
    · cases best with
      | none =>
        refine goes (.loop (p + 1) (some p)) (Option.some.inj hu) rfl rfl fun hqp => ⟨p, rfl, ?_⟩
        obtain hlt | heq := Nat.lt_succ_iff_lt_or_eq.mp hqp
        · obtain ⟨b, hb, -⟩ := h hlt
          cases hb
        · obtain rfl := Fin.ext heq
          exact .refl _ _
      | some b =>
        dsimp only at hu
        split at hu
        · rename_i hprio
          refine goes (.releaseBest p b) (Option.some.inj hu) rfl rfl fun hqp => ?_
          obtain hlt | rfl := lt_or_eq_of_le hqp
          · obtain ⟨b', hb', hcov⟩ := h hlt
            obtain rfl := Option.some.inj hb'
            exact .inl (lt_of_lt_of_le hprio hcov.le)
          · exact .refl _ _
        · rename_i hprio
          refine goes (.releaseSlot p (some b)) (Option.some.inj hu) rfl rfl fun hqp => ?_
          obtain hlt | rfl := lt_or_eq_of_le hqp
          · exact h hlt
          · refine ⟨b, rfl, ?_⟩
            obtain hlt | heq := lt_or_eq_of_le (not_lt.mp hprio)
            · exact .inl hlt
            · exact .inr ⟨heq, (hlow b rfl).le⟩
    · rename_i hst
      refine goes (.releaseSlot p best) (Option.some.inj hu) rfl rfl fun hqp => ?_
      obtain hlt | rfl := lt_or_eq_of_le hqp
      · exact h hlt
      · exact absurd hq hst
  | releaseBest p b =>
    have hl : t.holder (.proc b) = some c := hsound.holder_of_release hs
      (show code (t.ctx nofile c x) _ = .release (.proc b) _ from rfl)
    simp only [Kernel.scheduler, State.act, if_pos hl] at hu
    exact goes _ (Option.some.inj hu) rfl rfl fun hq => ⟨p, rfl, h (Nat.lt_succ_iff.mp hq)⟩
  | releaseSlot p best =>
    have hl : t.holder (.proc p) = some c := hsound.holder_of_release hs
      (show code (t.ctx nofile c x) _ = .release (.proc p) _ from rfl)
    simp only [Kernel.scheduler, State.act, if_pos hl] at hu
    exact goes _ (Option.some.inj hu) rfl rfl fun hq => h (Nat.lt_succ_iff.mp hq)
  | setState b => exact goes (.setProc b) (Option.some.inj hu) rfl rfl trivial
  | setProc b => exact goes (.swtch b) (Option.some.inj hu) rfl rfl trivial
  | swtch b =>
    cases hu
    exact .process (Function.update_self _ _ _)
  | clearProc b => exact goes (.release b) (Option.some.inj hu) rfl rfl trivial
  | release b =>
    have hl : t.holder (.proc b) = some c := hsound.holder_of_release hs
      (show code (t.ctx nofile c x) _ = .release (.proc b) _ from rfl)
    simp only [Kernel.scheduler, State.act, if_pos hl] at hu
    exact goes .start (Option.some.inj hu) rfl rfl trivial

theorem step [Subsingleton C] {l : C × Choice} (h : Passing c q t) (hsound : Sound t)
    (hq : (t.shared.proc q).state = .runnable) (hu : t.step nofile l = some u) : Passing c q u := by
  obtain ⟨c', x⟩ := l
  obtain rfl := Subsingleton.elim c' c
  cases h with
  | @pass pc hat h =>
    by_cases hx : x = .interrupt
    · subst hx
      obtain ⟨hpc, hr, hstack, hshared⟩ := hsound.interrupt_at hat hu
      exact .handler hr hstack hpc (hshared ▸ h)
    · exact own hsound hat h hq hx hu
  | handler hr hstack hpc h =>
    obtain ⟨hr', fs', hstack'⟩ := hsound.handler hr hstack (State.step_transition hu)
    exact of_returned h hpc hr' hstack'
  | @process r hr =>
    have hcpu : t.stack (.cpu c') = [.scheduler (.clearProc r)] := by
      obtain hr' | ⟨q', hr', hstack⟩ := hsound.mode c'
      · rw [hr] at hr'
        cases hr'
      · rw [hr] at hr'
        cases hr'
        exact hstack
    cases State.step_transition hu with
    | swtchBack hs ha =>
      have hne : (Thread.cpu c' : Thread n C) ≠ t.running c' := by
        rw [hr]
        nofun
      exact .pass ⟨Function.update_self _ _ _, (Function.update_of_ne hne _ _).trans hcpu⟩ trivial
    | swtchTo hs ha => exact .process (Function.update_self _ _ _)
    | _ => exact .process hr

/-- While the process in the slot `q` stays `RUNNABLE`, a process that is about to be dispatched is
preferred to it. -/
theorem precedes [Subsingleton C] {b : C} (h : Passing c q t) (ht : (kernel n nofile b).Reachable t)
    (hpath : (kernel n nofile b).Path (fun s => (s.shared.proc q).state = .runnable) t u)
    (hat : u.At c (.setState p)) : u.shared.Precedes p q := by
  have hinv : Sound u ∧ Passing c q u :=
    hpath.invariant (fun s => Sound s ∧ Passing c q s) ⟨.of_reachable ht, h⟩
      fun s l s' hq hs hstep _ => ⟨hs.1.step hstep, hs.2.step hs.1 hq hstep⟩
  cases hinv.2 with
  | pass hat' h =>
    cases hat.2.symm.trans hat'.2
    exact h
  | handler _ hstack =>
    rw [hat.2] at hstack
    cases (List.append_eq_nil_iff.mp (List.cons.inj hstack).2.symm).2
  | process hr =>
    rw [hat.1] at hr
    cases hr

end Passing

variable [DecidableEq C]

/-- On one CPU, a process that waits `RUNNABLE` while another one is dispatched twice has the same
priority as the other one then, and a higher slot. -/
theorem not_dispatched_again [Subsingleton C] {b : C} {x : Choice}
    (hs : (kernel n nofile b).Reachable s) (hat : s.At c (.setState p))
    (ht : s.step nofile (c, x) = some t)
    (hpath : (kernel n nofile b).Path (fun v => (v.shared.proc q).state = .runnable ∧
      (v.shared.proc q).priority ≤ (v.shared.proc p).priority) t u)
    (hpq : q < p ∨ (u.shared.proc q).priority < (u.shared.proc p).priority) :
    ¬u.At c (.setState p) := by
  intro hu
  have hx : x ≠ .interrupt := by
    rintro rfl
    obtain ⟨hl, -⟩ := (Sound.of_reachable hs).interrupt_at hat ht
    exact Multiset.singleton_ne_zero _ ((add_zero _).symm.trans hl)
  have hnew : t.At c (.setProc p) := by
    rw [hat.step hx] at ht
    cases ht
    exact ⟨hat.1, Function.update_self _ _ _⟩
  have hstates := hpath.mono fun v hv => hv.1
  obtain hlt | ⟨heq, hle⟩ := (Passing.pass hnew trivial).precedes (hs.step ht) hstates hu
  · exact absurd hpath.right.2 (not_le.mpr hlt)
  · obtain hqp | hqp := hpq
    · exact absurd hqp (not_lt.mpr hle)
    · exact absurd heq hqp.ne'

def schedulerPc : List (Frame n) → Option (SchedulerPc n)
  | [.scheduler pc] => some pc
  | _ => none

theorem schedulerPc_eq_some {fs : List (Frame n)} :
    schedulerPc fs = some pc ↔ fs = [.scheduler pc] := by
  constructor
  · intro h
    unfold schedulerPc at h
    split at h <;> cases h
    rfl
  · rintro rfl
    rfl

instance : Decidable (s.At c pc) :=
  decidable_of_iff (s.running c = .cpu c ∧ schedulerPc (s.stack (.cpu c)) = some pc)
    (and_congr_right fun _ => schedulerPc_eq_some)

section Runs

def forkThenYield : List (Unit × Choice) :=
  steps 14 ++ ((), .alloc 0) :: steps 23 ++ ((), .ret 0) :: steps 3 ++ ((), .ret 0) :: steps 4 ++
    trapWith 1 0 0 :: steps 20 ++ ((), .alloc 0) :: steps 20 ++ ((), .yield) :: steps 19

def yieldAgain : List (Unit × Choice) := steps 5 ++ ((), .yield) :: steps 19

def raiseThenYield : List (Unit × Choice) :=
  steps 5 ++ trapWith 23 2 5 :: steps 14 ++ ((), .yield) :: steps 19

theorem not_dispatched_again_raised : ∃ u : State 2 Unit, (kernel 2 0 ()).Reachable u ∧
    u.At () (.setState 1) ∧ ¬u.At () (.setState 0) := by
  have hrun : ((kernel 2 0 ()).run (kernel 2 0 ()).init forkThenYield).any fun s =>
      decide (s.At () (.setState 0)) && (s.step 0 ((), .run)).any fun t =>
        ((kernel 2 0 ()).runInside (fun v => (v.shared.proc 1).state = .runnable ∧
          (v.shared.proc 1).priority ≤ (v.shared.proc 0).priority) t raiseThenYield).any fun u =>
            decide (u.At () (.setState 1)) &&
              decide ((u.shared.proc 1).priority < (u.shared.proc 0).priority) := by
    decide +kernel
  obtain ⟨s, hs, hrun⟩ := (Option.any_eq_true _ _).mp hrun
  obtain ⟨hat, hrun⟩ := Bool.and_eq_true_iff.mp hrun
  obtain ⟨t, ht, hrun⟩ := (Option.any_eq_true _ _).mp hrun
  obtain ⟨u, hu, hrun⟩ := (Option.any_eq_true _ _).mp hrun
  obtain ⟨hat', hprio⟩ := Bool.and_eq_true_iff.mp hrun
  have hr := System.reachable_of_run _ hs
  have hpath := System.path_of_runInside _ hu
  exact ⟨u, hpath.reachable (hr.step ht), of_decide_eq_true hat',
    not_dispatched_again hr (of_decide_eq_true hat) ht hpath (.inr (of_decide_eq_true hprio))⟩

def ChildWaits (s : State 2 Unit) : Prop :=
  (s.shared.proc 1).state = .runnable ∧ (s.shared.proc 1).priority = 31 ∧
    (s.shared.proc 0).priority = 31

instance : DecidablePred ChildWaits := fun s => by unfold ChildWaits; infer_instance

/-- With two processes of the default priority, the first one is dispatched again while the second
one waits. -/
theorem dispatched_again_at_lower_slot : ∃ s t u : State 2 Unit, (kernel 2 0 ()).Reachable s ∧
    s.At () (.setState 0) ∧ s.step 0 ((), .run) = some t ∧ (kernel 2 0 ()).Path ChildWaits t u ∧
    u.At () (.setState 0) := by
  have hrun : ((kernel 2 0 ()).run (kernel 2 0 ()).init forkThenYield).any fun s =>
      decide (s.At () (.setState 0)) && (s.step 0 ((), .run)).any fun t =>
        ((kernel 2 0 ()).runInside ChildWaits t yieldAgain).any fun u =>
          decide (u.At () (.setState 0)) := by
    decide +kernel
  obtain ⟨s, hs, hrun⟩ := (Option.any_eq_true _ _).mp hrun
  obtain ⟨hat, hrun⟩ := Bool.and_eq_true_iff.mp hrun
  obtain ⟨t, ht, hrun⟩ := (Option.any_eq_true _ _).mp hrun
  obtain ⟨u, hu, hrun⟩ := (Option.any_eq_true _ _).mp hrun
  exact ⟨s, t, u, System.reachable_of_run _ hs, of_decide_eq_true hat, ht,
    System.path_of_runInside _ hu, of_decide_eq_true hrun⟩

end Runs

end MultithreadMayhem.Kernel
