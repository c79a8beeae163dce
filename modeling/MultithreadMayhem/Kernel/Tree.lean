import MultithreadMayhem.Foundation.Forest
import MultithreadMayhem.Kernel.ExitNotice
import MultithreadMayhem.Kernel.Kin

/-!
# The process tree has no cycles

`kfork` hangs a process that has no children below its parent, and `reparent` hangs the
children of a process that exits below the first process, which has no parent. So the
parents stay a forest at every step, and every process descends from `initproc`.
-/

namespace MultithreadMayhem.Kernel

open Foundation Foundation.Forest

variable {n nofile : ℕ} {C : Type} [DecidableEq C] {s s' : State n C} {c : C} {f g : Frame n}
  {rest : List (Frame n)} {y : Choice} {sh : Shared n} {e : Option (Event n)} {i j : Fin n}

structure Tree (s : State n C) : Prop where
  grounded : Grounded s.shared.parent
  root : ∀ i, s.shared.initproc = some i → s.shared.parent i = none

namespace Tree

omit [DecidableEq C] in
theorem childless_of_used (hk : Kin s) (hj : s.shared.states j = .used) (k : Fin n) :
    s.shared.parent k ≠ some j := by
  intro hkj
  have halive := (hk.parents k j hkj).2
  rw [Shared.Alive, hj] at halive
  cases halive

theorem grounded_step (htr : Tree s) (hk : Kin s) (ht : Tidy nofile s)
    (hs : s.stack (s.running c) = f :: rest)
    (hw : Write (s.ctx nofile c y) (s.running c) sh f g e) : Grounded sh.parent := by
  have hf : f.Kin s.shared := hk.frames (s.running c) f (by rw [hs]; exact List.mem_cons_self)
  cases hw with
  | globals hsp hproc hparent =>
    rw [hparent]
    exact htr.grounded
  | free => exact htr.grounded.update fun x hx => by cases hx
  | @fork p np pid hnp =>
    refine htr.grounded.update fun x hx hanc => ?_
    obtain rfl := Option.some.inj hx
    obtain rfl := eq_of_ancestor_leaf (childless_of_used hk hnp) hanc
    have halive : s.shared.Alive p := hf.1
    rw [Shared.Alive, show s.shared.states p = .used from hnp] at halive
    cases halive
  | @reparent p pp =>
    refine htr.grounded.update fun x hx hanc => ?_
    obtain rfl := eq_of_ancestor_root (htr.root x hx) hanc
    cases (ht.moving c p x ⟨rest, hs⟩).symm.trans (htr.root x hx)
  | _ => exact htr.grounded

theorem root_step (htr : Tree s) (h : Sound s) (hb : Booted s) (hk : Kin s) (ht : Tidy nofile s)
    (hs : s.stack (s.running c) = f :: rest) (ha : code (s.ctx nofile c y) f = .exec sh g)
    (hi : sh.initproc = some i) : sh.parent i = none := by
  have hf : f.Kin s.shared := hk.frames (s.running c) f (by rw [hs]; exact List.mem_cons_self)
  have hold : s.shared.parent i = none := by
    obtain hstarted | hstarted := Bool.eq_false_or_eq_true s.shared.started
    · exact htr.root i ((hb.initproc_eq h hs ha hstarted).symm.trans hi)
    · -- Before the other CPUs go on, no process has a parent.
      by_contra hne
      obtain ⟨q, hq⟩ := Option.ne_none_iff_exists'.mp hne
      cases hstarted.symm.trans (hk.parents i q hq).1
  cases (h.write hs ha).parent i with
  | same hsame => exact hsame.trans hold
  | @fork p pid hfork =>
    subst hfork
    have hrel : (Frame.kfork p (.setParent i pid)).Relies (s.ctx nofile c y) (s.running c) :=
      h.relies hs y
    have hstarted := hb.started_of_running h hrel.on
    have hinit := (hb.initproc_eq h hs ha hstarted).symm.trans hi
    obtain ⟨r, hr, halive⟩ := hk.rooted hstarted
    obtain rfl := Option.some.inj (hr.symm.trans hinit)
    have hused : s.shared.states r = .used := h.built (s.running c) r
      (by rw [hs]; exact mem_built List.mem_cons_self (Multiset.mem_singleton_self r))
    rw [Shared.Alive, hused] at halive
    cases halive
  | @reparent p hrep =>
    subst hrep
    cases (ht.moving c p i ⟨rest, hs⟩).symm.trans hold
  | free _ hnone => exact hnone

theorem of_reachable {b : C} (hs : (kernel n nofile b).Reachable s) : Tree s := by
  refine hs.invariant Tree ⟨grounded_none, fun _ _ => rfl⟩ ?_
  intro s l s' hr htr hstep
  have h := Sound.of_reachable hr
  have hk : Kin s := .of_reachable hr
  obtain ⟨f, rest, e, hs, hturn, -⟩ := h.turn hstep
  obtain ⟨hsh, -⟩ | ⟨y, g, ha, -, -, hw⟩ := hturn.written
  · constructor
    · rw [hsh]
      exact htr.grounded
    · rw [hsh]
      exact htr.root
  · constructor
    · exact htr.grounded_step hk (.of_reachable hr) hs hw
    · exact fun _ => htr.root_step h (.of_reachable hr) hk (.of_reachable hr) hs ha

end Tree

/-- At no step is a process its own ancestor, and every process that lives or waits to be reaped
descends from the first one through processes that live. -/
theorem descends_from_init {b : C} (hs : (kernel n nofile b).Reachable s) :
    (∀ j, ¬Relation.TransGen (IsParent s.shared.parent) j j) ∧
      ∀ j, s.shared.Alive j ∨ s.shared.states j = .zombie →
        ∃ i, s.shared.initproc = some i ∧ s.shared.parent i = none ∧
          Ancestor s.shared.parent i j ∧
          ∀ q, Ancestor s.shared.parent q j → q = j ∨ s.shared.Alive q := by
  have htr : Tree s := .of_reachable hs
  have hk : Kin s := .of_reachable hs
  refine ⟨htr.grounded.acyclic, fun j hj => ?_⟩
  have hinit : ∃ i, s.shared.initproc = some i := by
    by_contra hnone
    obtain ⟨q, hq⟩ := Option.ne_none_iff_exists'.mp (hk.raised j hj fun hi => hnone ⟨j, hi⟩)
    obtain ⟨i, hi, -⟩ := hk.rooted (hk.parents j q hq).1
    exact hnone ⟨i, hi⟩
  obtain ⟨i, hi⟩ := hinit
  have habove {q : Fin n} (hq : Ancestor s.shared.parent q j) : q = j ∨ s.shared.Alive q := by
    obtain rfl | ⟨x, hx, -⟩ := Relation.ReflTransGen.cases_head hq
    · exact .inl rfl
    · exact .inr (hk.parents x q hx).2
  refine ⟨i, hi, htr.root i hi, ?_, fun _ => habove⟩
  refine htr.grounded.ancestor_of_raised (P := fun j => s.shared.Alive j ∨ s.shared.states j = .zombie)
    (fun a ha hne => ?_) hj
  obtain ⟨q, hq⟩ := Option.ne_none_iff_exists'.mp
    (hk.raised a ha fun hia => hne (Option.some.inj (hia.symm.trans hi)))
  exact ⟨q, hq, .inl (hk.parents a q hq).2⟩

theorem descends_from_init_forked : ∃ s : State 2 Unit, (kernel 2 0 ()).Reachable s ∧
    s.shared.parent 1 = some 0 ∧ s.shared.Alive 1 ∧
    ∃ i, s.shared.initproc = some i ∧ Ancestor s.shared.parent i 1 := by
  have hrun : ((kernel 2 0 ()).run (kernel 2 0 ()).init forkThenWait).any fun s =>
      decide (s.shared.parent 1 = some 0) && (s.shared.states 1).alive := by
    decide +kernel
  obtain ⟨s, hs, hrun⟩ := (Option.any_eq_true _ _).mp hrun
  obtain ⟨hparent, halive⟩ := Bool.and_eq_true_iff.mp hrun
  have hr := System.reachable_of_run _ hs
  obtain ⟨i, hi, -, hanc, -⟩ := (descends_from_init hr).2 1 (.inl halive)
  exact ⟨s, hr, of_decide_eq_true hparent, halive, i, hi, hanc⟩

end MultithreadMayhem.Kernel
