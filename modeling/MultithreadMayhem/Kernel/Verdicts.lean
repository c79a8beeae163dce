import MultithreadMayhem.Kernel.Children
import MultithreadMayhem.Kernel.ExitNotice

/-!
# What a wait decides

The scan of `kwait` is one look at the family of the caller, because `wait_lock` is held
throughout: the call goes to sleep beside living children only, reaps a child of its
own that has exited, and gives up for want of children only when there are none.
-/

namespace MultithreadMayhem.Kernel

open Foundation

variable {n nofile : ℕ} {C : Type} {f g : Frame n} {j p : Fin n} {rest : List (Frame n)}
  {e : Option (Event n)} {sh sh' : Shared n} {addr : BitVec 64} {pc pc' : KwaitPc n}

def KwaitPc.Kids (sh : Shared n) (p : Fin n) : KwaitPc n → Prop
  | .loop i false => ∀ j : Fin n, j < i → sh.parent j ≠ some p
  | .release j => sh.parent j = some p
  | .loop _ true | .killed | .killing | .testKilled _ | .sleep => ∃ j, sh.parent j = some p
  | _ => True

/-- The facts about children that waits have established. -/
structure Kids {C : Type} (s : State n C) : Prop where
  wait : ∀ c p addr pc, s.Top c (.kwait p addr pc) → pc.Kids s.shared p
  called : ∀ c q pc p addr pc' rest,
    s.stack (s.running c) = .killed q pc :: .kwait p addr pc' :: rest →
    ∃ j, s.shared.parent j = some p

namespace KwaitPc

theorem Kids.congr (h : pc.Kids sh p) (hparent : ∀ j, sh'.parent j = some p ↔ sh.parent j = some p) :
    pc.Kids sh' p := by
  have kid (hkid : ∃ j, sh.parent j = some p) : ∃ j, sh'.parent j = some p := by
    obtain ⟨j, hj⟩ := hkid
    exact ⟨j, (hparent j).mpr hj⟩
  cases pc with
  | loop i havekids =>
    cases havekids with
    | false => exact fun j hj hp => h j hj ((hparent j).mp hp)
    | true => exact kid h
  | release j => exact (hparent j).mpr h
  | killed | killing | testKilled | sleep => exact kid h
  | _ => trivial

theorem kids_of_locks (p : Fin n) (addr : BitVec 64) (h : Lock.waitLock ∉ (Frame.kwait p addr pc).locks) :
    pc.Kids sh p := by
  cases pc with
  | loop | killed | killing | testKilled | sleep => exact absurd (Multiset.mem_singleton_self _) h
  | release j => exact absurd (Multiset.mem_cons_of_mem (Multiset.mem_singleton_self _)) h
  | _ => trivial

theorem kids_next {x : Ctx n} {a : Act n} (h : pc.Kids x.shared p)
    (hmine : ∀ j, pc.child = some j → x.shared.parent j = some p)
    (ha : code x (.kwait p addr pc) = a) (hnext : a.next = some (.kwait p addr pc')) :
    pc'.Kids (a.shared x.shared) p := by
  cases pc with
  | loop i havekids =>
    simp only [code, kwait] at ha
    split at ha
    · split at ha
      · subst ha
        cases hnext
        trivial
      · rename_i hi hparent
        subst ha
        cases hnext
        cases havekids with
        | false =>
          intro j hj hp
          obtain hlt | heq := Nat.lt_succ_iff_lt_or_eq.mp hj
          · exact h j hlt hp
          · obtain rfl : j = ⟨i, hi⟩ := Fin.ext heq
            exact hparent hp
        | true => exact h
    · split at ha
      · rename_i hkids
        subst ha hkids
        cases hnext
        exact h
      · subst ha
        cases hnext
        trivial
  | test pp =>
    simp only [code, kwait] at ha
    split at ha
    · subst ha
      cases hnext
      trivial
    · subst ha
      cases hnext
      exact hmine pp rfl
  | copyout pp pid =>
    simp only [code, kwait] at ha
    repeat' split at ha
    all_goals
      subst ha
      cases hnext
      trivial
  | testKilled k =>
    simp only [code, kwait] at ha
    split at ha
    · subst ha
      cases hnext
      trivial
    · subst ha
      cases hnext
      exact h
  | sleep =>
    simp only [code, kwait, Ctx.withProc] at ha
    split at ha
    · subst ha
      cases hnext
      trivial
    · subst ha
      cases hnext
  | acquireWait =>
    subst ha
    cases hnext
    exact fun j hj => absurd hj (Nat.not_lt_zero j)
  | release j =>
    subst ha
    cases hnext
    exact ⟨j, h⟩
  | killed =>
    subst ha
    cases hnext
    exact h
  | acquire | freeproc | releaseSlot | releaseWait =>
    subst ha
    cases hnext
    trivial
  | killing | sleeping | done =>
    subst ha
    cases hnext

end KwaitPc

theorem Frame.Awaits.resume_kwait {r : Frame n} {fn : Fn n} {v : Val n} (h : r.Awaits fn)
    (hr : .kwait p addr pc = r.resume v) :
    (fn = .killed ∧ r = .kwait p addr .killing ∧
        ∀ sh : Shared n, (∃ j, sh.parent j = some p) → pc.Kids sh p) ∨ pc = .loop 0 false := by
  cases h.calls with
  | waitKilled =>
    left
    cases v with
    | int k | proc q =>
      cases hr
      exact ⟨rfl, rfl, fun _ hkid => hkid⟩
  | waitSleep =>
    right
    cases hr
    rfl
  | initAllocproc | forkAllocproc => obtain _ | _ | q := v <;> cases hr
  | _ => cases v <;> cases hr

theorem StackOk.held_of_killed {t : Thread n C} {q : Fin n} {kpc : KilledPc}
    (h : StackOk t (.killed q kpc :: .kwait p addr pc :: rest)) :
    Lock.waitLock ∈ held (.kwait p addr pc :: rest) := by
  obtain hi | hp | hawaits := h.1
  · cases hi
  · cases hp
  · cases hawaits.calls
    exact Multiset.mem_add.mpr (.inl (Multiset.mem_singleton_self _))

variable [DecidableEq C] {s s' : State n C} {c c' : C}

theorem Turn.parent_locked (h : Sound s) (hs : s.stack (s.running c) = f :: rest)
    (hturn : Turn nofile s c f rest s' e) (hc : c' ≠ c)
    (hheld : Lock.waitLock ∈ held (s.stack (s.running c')))
    (hparent : s'.shared.parent j = some p) : s.shared.parent j = some p := by
  have mine (hmine : Lock.waitLock ∈ held (f :: rest)) : s.shared.parent j = some p := by
    refine absurd (h.cpu_eq hheld ?_) hc
    rwa [hs]
  have hok := h.stack (s.running c)
  rw [hs] at hok
  obtain ⟨hsh, -⟩ | ⟨y, g, ha, -, -, hw⟩ := hturn.written
  · rwa [hsh] at hparent
  cases hw.parent j with
  | same hsame => exact hsame.symm.trans hparent
  | fork hf =>
    subst hf
    exact mine (Multiset.mem_add.mpr (.inl (Multiset.mem_singleton_self _)))
  | reparent hf =>
    subst hf
    exact mine (Multiset.mem_add.mpr (.inr hok.held_of_reparent))
  | free hf hnone => cases hnone.symm.trans hparent

namespace Kids

theorem wait_self (hk : Kids s) (hch : Children s) (h : Sound s)
    (hs : s.stack (s.running c) = f :: rest) (hturn : Turn nofile s c f rest s' e)
    (hg : s'.Top c (.kwait p addr pc)) : pc.Kids s'.shared p := by
  obtain ⟨rest', hg⟩ := hg
  cases hturn.newTop hg with
  | @next y a ha hnext hcall hsh =>
    obtain ⟨addr', pc', rfl⟩ := Frame.eq_kwait_of_fn ((h.disciplined hs ha).next_fn hnext).symm
    obtain ⟨pc₁, hpc, -⟩ := kwait_goes ha hnext
    obtain ⟨-, rfl, rfl⟩ := Frame.kwait.inj hpc
    rw [hsh]
    exact KwaitPc.kids_next (x := s.ctx nofile c y) (hk.wait c p addr pc' ⟨rest, hs⟩)
      (fun j => hch.mine c p addr pc' j ⟨rest, hs⟩) ha hnext
  | start hstart =>
    cases pc with
    | acquireWait => trivial
    | _ => cases hstart
  | @ret y v r ha hrest hawaits hgr hsh =>
    subst hrest
    obtain ⟨hfn, rfl, hkid⟩ | rfl := hawaits.resume_kwait hgr
    · obtain ⟨q, pc', rfl⟩ := Frame.eq_killed_of_fn hfn
      rw [hsh]
      exact hkid _ (hk.called c q pc' p addr .killing rest' hs)
    · exact fun j hj => absurd hj (Nat.not_lt_zero j)
  | panic hg => cases hg
  | free hheld =>
    apply KwaitPc.kids_of_locks p addr
    rw [locks_eq_zero hheld]
    exact Multiset.notMem_zero _
  | switch hsw => obtain ⟨pc, hsw⟩ | ⟨q, hsw | hsw⟩ := hsw <;> cases hsw

theorem called_self (hk : Kids s) (h : Sound s) (h' : Sound s')
    (hs : s.stack (s.running c) = f :: rest) (hturn : Turn nofile s c f rest s' e) {q : Fin n}
    {kpc : KilledPc} {rest' : List (Frame n)}
    (hg : s'.stack (s'.running c) = .killed q kpc :: .kwait p addr pc :: rest') :
    ∃ j, s'.shared.parent j = some p := by
  have hok := h'.stack (s'.running c)
  rw [hg] at hok
  have top {fs : List (Frame n)} (hstack : s'.stack = Function.update s.stack (s.running c) fs)
      (hrun : s'.running = s.running) : .killed q kpc :: .kwait p addr pc :: rest' = fs :=
    hg.symm.trans (State.stack_running hstack hrun)
  have next {y : Choice} {a : Act n} (ha : code (s.ctx nofile c y) f = a)
      (hnext : a.next = some (.killed q kpc)) (hrest : rest = .kwait p addr pc :: rest') :
      ∃ j, s.shared.parent j = some p := by
    obtain ⟨q', kpc', rfl⟩ := Frame.eq_killed_of_fn ((h.disciplined hs ha).next_fn hnext).symm
    rw [hrest] at hs
    exact hk.called c q' kpc' p addr pc rest' hs
  cases hturn with
  | lock ha hstack hrun hsh =>
    obtain ⟨rfl, hrest⟩ := List.cons.inj (top hstack hrun)
    rw [hsh]
    obtain ha | ha := ha
    · exact next ha rfl hrest.symm
    · exact next ha rfl hrest.symm
  | exec ha he hw hstack hrun =>
    obtain ⟨rfl, hrest⟩ := List.cons.inj (top hstack hrun)
    obtain ⟨q', kpc', rfl⟩ := Frame.eq_killed_of_fn ((h.disciplined hs ha).next_fn rfl).symm
    have hparent : s'.shared.parent = s.shared.parent := by
      cases kpc' with
      | read =>
        injection ha with hsh
        rw [← hsh]
        rfl
      | _ => cases ha
    rw [hparent]
    exact next ha rfl hrest.symm
  | @call y g callee ha hstack hrun hsh =>
    obtain ⟨rfl, hrest⟩ := List.cons.inj (top hstack hrun)
    obtain ⟨rfl, rfl⟩ := List.cons.inj hrest
    obtain ⟨addr', pc', rfl⟩ := Frame.eq_kwait_of_fn ((h.disciplined hs ha).next_fn rfl).symm
    rw [hsh]
    cases pc' with
    | killed => cases ha; exact hk.wait c p addr .killed ⟨rest', hs⟩
    | loop | test | copyout | testKilled | sleep =>
      simp only [code, kwait, Ctx.withProc] at ha
      repeat' split at ha
      all_goals cases ha
    | _ => cases ha
  | ret ha hrest hawaits hstack hrun =>
    obtain ⟨hr, -⟩ := List.cons.inj (top hstack hrun)
    have hfn := congrArg Frame.fn hr.symm
    rw [Frame.resume_fn] at hfn
    obtain ⟨q', kpc', rfl⟩ := Frame.eq_killed_of_fn hfn
    generalize f.fn = fn at hawaits
    cases hawaits.calls
  | interrupt hn hstack hrun => cases (List.cons.inj (top hstack hrun)).1
  | panic ha hstack hrun => cases (List.cons.inj (top hstack hrun)).1
  | iret hrest hf hheld hstack hrun =>
    rw [← top hstack hrun] at hheld
    have hmem : Lock.waitLock ∈ held (.killed q kpc :: .kwait p addr pc :: rest') :=
      Multiset.mem_add.mpr (.inr hok.held_of_killed)
    rw [hheld] at hmem
    cases hmem
  | context hf hidle hstack hrun =>
    rw [hrun, hstack, Function.update_of_ne (hidle c), Function.update_self] at hg
    cases hg
  | switch hf hg' hstack htop =>
    obtain ⟨rfl, -⟩ := List.cons.inj (hg.symm.trans htop)
    obtain ⟨_, hg'⟩ | ⟨_, hg' | hg'⟩ := hg' <;> cases hg'

theorem step (hk : Kids s) (hch : Children s) (htidy : Tidy nofile s) (h : Sound s) (h' : Sound s')
    (hstep : Transition nofile s c s') (hs : s.stack (s.running c) = f :: rest)
    (hturn : Turn nofile s c f rest s' e) : Kids s' := by
  -- The children that a CPU with `wait_lock` looks at are the same after a step of another one.
  have same {c' : C} (hc : c' ≠ c) (hheld : Lock.waitLock ∈ held (s.stack (s.running c')))
      (p j : Fin n) : s'.shared.parent j = some p ↔ s.shared.parent j = some p :=
    ⟨hturn.parent_locked h hs hc hheld, htidy.parent_locked h hs hturn hc hheld⟩
  constructor
  · intro c' p addr pc hg
    obtain rfl | hc := eq_or_ne c' c
    · exact hk.wait_self hch h hs hturn hg
    have hold := (h.top_other hstep hc).mp hg
    obtain hheld | hfree := em (Lock.waitLock ∈ (Frame.kwait p addr pc).locks)
    · exact (hk.wait c' p addr pc hold).congr (same hc (hold.mem_held hheld) p)
    · exact KwaitPc.kids_of_locks p addr hfree
  · intro c' q pc p addr pc' rest' hg
    obtain rfl | hc := eq_or_ne c' c
    · exact hk.called_self h h' hs hturn hg
    obtain ⟨hrun, hstack, -⟩ := h.others hstep hc
    rw [hrun, hstack] at hg
    have hheld : Lock.waitLock ∈ held (s.stack (s.running c')) := by
      have hok := h.stack (s.running c')
      rw [hg] at hok ⊢
      exact Multiset.mem_add.mpr (.inr hok.held_of_killed)
    obtain ⟨j, hj⟩ := hk.called c' q pc p addr pc' rest' hg
    exact ⟨j, (same hc hheld p j).mpr hj⟩

theorem of_reachable {b : C} (hr : (kernel n nofile b).Reachable s) : Kids s := by
  refine hr.invariant Kids ⟨fun c p addr pc hg => ?_, fun c q pc p addr pc' rest hg => ?_⟩ ?_
  · obtain ⟨rest, hg⟩ := hg
    obtain ⟨pc', hf⟩ := State.boot_main (b := b) (hg ▸ List.mem_cons_self)
    cases hf
  · obtain ⟨pc', hf⟩ := State.boot_main (b := b) (hg ▸ List.mem_cons_self)
    cases hf
  · intro s l s' hr hk hstep
    have h := Sound.of_reachable hr
    obtain ⟨f, rest, e, hs, hturn, -⟩ := h.turn hstep
    exact hk.step (.of_reachable hr) (.of_reachable hr) h (h.step hstep) (State.step_transition hstep)
      hs hturn

end Kids

/-- A wait goes to sleep only beside children all of which live, it reaps only a child that has
exited, with the pid it returns, and it gives up for want of children only if there are none. -/
theorem wait_decides {b : C} (hr : (kernel n nofile b).Reachable s)
    (hs : s.Top c (.kwait p addr pc)) :
    (pc = .sleep → (∃ j, s.shared.parent j = some p) ∧
      ∀ j, s.shared.parent j = some p → s.shared.states j ≠ .zombie) ∧
    (∀ j pid, pc = .copyout j pid ∨ pc = .freeproc j pid → s.shared.parent j = some p ∧
      s.shared.states j = .zombie ∧ (s.shared.proc j).pid = pid) ∧
    ∀ i havekids x s' v, pc = .loop i havekids → s.step nofile (c, x) = some s' →
      s'.Top c (.kwait p addr (.releaseWait v)) → v = -1 ∧ ∀ j, s.shared.parent j ≠ some p := by
  have h := Sound.of_reachable hr
  have hk : Kids s := .of_reachable hr
  have hch : Children s := .of_reachable hr
  refine ⟨?_, ?_, ?_⟩
  · rintro rfl
    have hheld : s.holder .waitLock = some c :=
      h.holder_of_mem (hs.mem_held (Multiset.mem_singleton_self _))
    refine ⟨hk.wait c p addr .sleep hs, fun j hj => ?_⟩
    obtain ⟨rest, hs⟩ := hs
    have hscan : s.shared.NoZombie p n := (Notified.of_reachable hr).role c _ rest hheld hs
    exact hscan j j.isLt hj
  · intro j pid hpc
    obtain ⟨rest, hstack⟩ := id hs
    have hfound : pc.child = some j ∧ pc.found = some (j, pid) ∧
        (j, .zombie) ∈ (Frame.kwait p addr pc).knows := by
      obtain rfl | rfl := hpc
      · exact ⟨rfl, rfl, List.mem_singleton_self _⟩
      · exact ⟨rfl, rfl, List.mem_singleton_self _⟩
    refine ⟨hch.mine c p addr pc j hs hfound.1, h.known c (j, .zombie) ?_,
      hch.read c p addr pc j pid hs hfound.2.1⟩
    rw [hstack]
    exact List.mem_append_left _ hfound.2.2
  · rintro i havekids x s' v rfl hstep hg
    have hkids := hk.wait c p addr (.loop i havekids) hs
    obtain ⟨f, rest, e, htop, hturn, -⟩ := h.turn hstep
    obtain ⟨rest₀, hs⟩ := hs
    cases htop.symm.trans hs
    obtain ⟨rest', hg⟩ := hg
    cases hturn.newTop hg with
    | @next y a ha hnext =>
      simp only [code, kwait] at ha
      split at ha
      · split at ha <;> subst ha <;> cases hnext
      · split at ha
        · subst ha
          cases hnext
        · rename_i hi hno
          subst ha
          cases hnext
          cases havekids with
          | false => exact ⟨rfl, fun j => hkids j (j.isLt.trans_le (Nat.not_lt.mp hi))⟩
          | true => exact absurd rfl hno
    | start hstart => cases hstart
    | ret ha =>
      obtain ⟨w, hw⟩ := kwait_ret ha
      cases hw
    | panic hg => cases hg
    | free hheld => exact absurd (locks_eq_zero hheld) (Multiset.singleton_ne_zero _)
    | switch hsw => obtain ⟨pc, hsw⟩ | ⟨q, hsw | hsw⟩ := hsw <;> cases hsw

def forkThenSleep : List (Unit × Choice) :=
  steps 14 ++ ((), .alloc 0) :: steps 23 ++ ((), .ret 0) :: steps 3 ++ ((), .ret 0) :: steps 4 ++
    trapWith 1 0 0 :: steps 20 ++ ((), .alloc 0) :: steps 20 ++ trapWith 3 0 0 :: steps 16

set_option maxRecDepth 10000 in
theorem wait_decides_sleep : ∃ s : State 2 Unit, (kernel 2 0 ()).Reachable s ∧
    s.Top () (.kwait 0 0 .sleep) ∧ (∃ j, s.shared.parent j = some 0) ∧
    ∀ j, s.shared.parent j = some 0 → s.shared.states j ≠ .zombie := by
  have hrun : ∃ (s : State 2 Unit) (rest : List (Frame 2)),
      (kernel 2 0 ()).run (kernel 2 0 ()).init forkThenSleep = some s ∧
        s.stack (s.running ()) = .kwait 0 0 .sleep :: rest := ⟨_, _, rfl, rfl⟩
  obtain ⟨s, rest, hs, hstack⟩ := hrun
  have hr := System.reachable_of_run _ hs
  exact ⟨s, hr, ⟨rest, hstack⟩, (wait_decides hr ⟨rest, hstack⟩).1 rfl⟩

end MultithreadMayhem.Kernel
