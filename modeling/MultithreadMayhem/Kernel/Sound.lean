import MultithreadMayhem.Kernel.Effect

/-!
# Every step keeps the invariant

One lemma for each kind of action. Calls, returns, lock operations and assignments
change the stack that the CPU executes; `swtch` changes the CPU's thread, and hands
the lock of the process over to the stack that goes on.
-/

namespace MultithreadMayhem.Kernel

open Foundation

variable {n : ℕ} {C : Type} [DecidableEq C] {nofile : ℕ} {s s' : State n C} {c : C} {x : Choice}
variable {f g next callee : Frame n} {rest : List (Frame n)}

namespace Sound

omit [DecidableEq C] in
theorem me_eq (h : Sound s) (hs : s.stack (s.running c) = f :: rest) (hp : f.fn ≠ .panic)
    (hf : f.fn ≠ .idle) (q : Fin n) (hq : s.me c = some q) : s.running c = .proc q := by
  rw [h.me c] at hq
  obtain hr | ⟨q', hr, hstack⟩ := h.mode c
  · exfalso
    have hok := h.stack (.cpu c)
    rw [hr] at hs
    rw [hs] at hok hq
    cases rest with
    | nil =>
      obtain hi | ⟨p, hi⟩ := hok.1
      · exact hf hi
      · have hon := hok.on
        rw [hi] at hon
        cases hon
    | cons g rest =>
      change bottomCurrent (g :: rest) = some q at hq
      rw [bottomCurrent_above hok hp] at hq
      cases hq
  · rw [hstack] at hq
    cases hq
    exact hr

theorem disciplined (h : Sound s) {a : Act n} (hs : s.stack (s.running c) = f :: rest)
    (ha : code (s.ctx nofile c x) f = a) : a.Disciplined (s.running c) (held rest) f := by
  subst ha
  have hok := h.stack (s.running c)
  rw [hs] at hok
  by_cases hp : f.fn = .panic
  · cases f with
    | panic msg => trivial
    | ext kind => cases kind <;> cases hp
    | _ => cases hp
  · exact code_disciplined (h.me_eq hs hp) hok.on hok.pre hok.wf

theorem relies (h : Sound s) (hs : s.stack (s.running c) = f :: rest) (x : Choice) :
    f.Relies (s.ctx nofile c x) (s.running c) := by
  have hok := h.stack (s.running c)
  rw [hs] at hok
  refine ⟨hok.on, fun e he => ?_, fun j hj => ?_, fun p hp => ?_, fun p pc hf hl => ?_⟩
  · refine h.known c e ?_
    rw [hs]
    exact List.mem_append_left _ he
  · refine h.built (s.running c) j ?_
    rw [hs]
    exact Multiset.mem_add.mpr (.inl hj)
  · have hrun := h.running c p hp
    rwa [← hp, hs, leavingTop_cons] at hrun
  · subst hf
    have hrest : held rest = {.proc p} := hok.pre
    have hheld : held (s.stack (s.running c)) = {.proc p} := by
      rw [hs, held_cons, hrest]
      rfl
    constructor
    · refine decide_eq_true (h.holder_of_mem ?_)
      rw [hheld]
      exact Multiset.mem_singleton_self _
    · change s.noff c = 1
      rw [h.noff c, hheld]
      rfl

theorem plays (h : Sound s) {a : Act n} (hs : s.stack (s.running c) = f :: rest)
    (ha : code (s.ctx nofile c x) f = a) : a.Plays (s.ctx nofile c x) (s.running c) f := by
  subst ha
  exact code_plays (h.relies hs x)

theorem cpus_move (h : Sound s) {fs fs' : List (Frame n)} (hfs : s.stack (s.running c) = fs)
    (hrunning : s'.running = s.running)
    (hstack : s'.stack = Function.update s.stack (s.running c) fs') (hme : s'.me = s.me)
    (hcur : bottomCurrent fs' = bottomCurrent fs) : Cpus s' := by
  have cpu (c' : C) (ht : Thread.cpu c' = s.running c) : c' = c := by
    obtain hr | ⟨q, hr, _⟩ := h.mode c
    · rw [hr] at ht
      cases ht
      rfl
    · rw [hr] at ht
      cases ht
  constructor
  · intro c'
    rw [hrunning, hstack]
    obtain hr | ⟨q, hr, hq⟩ := h.mode c'
    · exact .inl hr
    · refine .inr ⟨q, hr, ?_⟩
      have hne : Thread.cpu c' ≠ s.running c := by
        intro ht
        obtain rfl := cpu c' ht
        rw [hr] at ht
        cases ht
      rw [Function.update_of_ne hne, hq]
  · intro c'
    rw [hme, hstack, h.me c']
    by_cases ht : Thread.cpu c' = s.running c
    · rw [ht, Function.update_self, hcur, hfs]
    · rw [Function.update_of_ne ht]
  · intro c₁ c₂
    rw [hrunning]
    exact h.one c₁ c₂

theorem stack_move (h : Sound s) {t : Thread n C} {fs' : List (Frame n)} (hok : StackOk t fs')
    (u : Thread n C) : StackOk u (Function.update s.stack t fs' u) := by
  by_cases hu : u = t
  · subst u
    rwa [Function.update_self]
  · rw [Function.update_of_ne hu]
    exact h.stack u

theorem stack_other (h : Sound s) {fs' : List (Frame n)} {c' : C} (hc : c' ≠ c) :
    Function.update s.stack (s.running c) fs' (s.running c') = s.stack (s.running c') :=
  Function.update_of_ne (fun heq => hc (h.one c' c heq)) _ _

omit [DecidableEq C] in
theorem locked_same (h : Sound s) (hok : ∀ t, StackOk t (s'.stack t))
    (hholder : s'.holder = s.holder) (hnoff : s'.noff = s.noff)
    (same : ∀ c, held (s'.stack (s'.running c)) = held (s.stack (s.running c))) : Locked s' := by
  refine ⟨hok, fun l c => ?_, fun c => ?_, fun c => ?_⟩
  · rw [hholder, same]
    exact h.holder l c
  · rw [same]
    exact h.nodup c
  · rw [hnoff, same]
    exact h.noff c

theorem locked_keep (h : Sound s) {fs fs' : List (Frame n)} (hfs : s.stack (s.running c) = fs)
    (hrunning : s'.running = s.running)
    (hstack : s'.stack = Function.update s.stack (s.running c) fs')
    (hholder : s'.holder = s.holder) (hnoff : s'.noff = s.noff) (hheld : held fs' = held fs)
    (hok : StackOk (s.running c) fs') : Locked s' := by
  refine h.locked_same (fun u => ?_) hholder hnoff fun c' => ?_
  · rw [hstack]
    exact h.stack_move hok u
  · rw [hrunning, hstack]
    by_cases hc : c' = c
    · subst c'
      rw [Function.update_self, hheld, hfs]
    · rw [h.stack_other hc]

theorem locked_take (h : Sound s) {l : Lock n} (hs : s.stack (s.running c) = f :: rest)
    (hl : s.holder l = none) (hlocks : next.locks = l ::ₘ f.locks)
    (hok : StackOk (s.running c) (next :: rest)) :
    Locked ((s.take c l).setStack (s.running c) (next :: rest)) := by
  have hnew : l ∉ held (s.stack (s.running c)) := by
    intro hmem
    rw [h.holder_of_mem hmem] at hl
    cases hl
  have hheld : held (next :: rest) = l ::ₘ held (s.stack (s.running c)) := by
    rw [hs, held_cons, hlocks, Multiset.cons_add]
    rfl
  constructor
  · exact h.stack_move hok
  · intro l' c'
    change Function.update s.holder l (some c) l' = some c' ↔
      l' ∈ held (Function.update s.stack (s.running c) (next :: rest) (s.running c'))
    by_cases hc : c' = c
    · subst c'
      rw [Function.update_self, hheld, Multiset.mem_cons]
      by_cases hll : l' = l
      · simp [hll]
      · rw [Function.update_of_ne hll, h.holder]
        simp [hll]
    · rw [h.stack_other hc]
      by_cases hll : l' = l
      · subst l'
        rw [Function.update_self, ← h.holder, hl]
        simp [Ne.symm hc]
      · rw [Function.update_of_ne hll]
        exact h.holder l' c'
  · intro c'
    change (held (Function.update s.stack (s.running c) (next :: rest) (s.running c'))).Nodup
    by_cases hc : c' = c
    · subst c'
      rw [Function.update_self, hheld]
      exact Multiset.nodup_cons.mpr ⟨hnew, h.nodup c⟩
    · rw [h.stack_other hc]
      exact h.nodup c'
  · intro c'
    change Function.update s.noff c (s.noff c + 1) c' =
      (held (Function.update s.stack (s.running c) (next :: rest) (s.running c'))).card
    by_cases hc : c' = c
    · subst c'
      rw [Function.update_self, Function.update_self, hheld, Multiset.card_cons, h.noff]
    · rw [Function.update_of_ne hc, h.stack_other hc]
      exact h.noff c'

theorem locked_give (h : Sound s) {l : Lock n} (hs : s.stack (s.running c) = f :: rest)
    (hlocks : f.locks = l ::ₘ next.locks) (hok : StackOk (s.running c) (next :: rest)) :
    Locked ((s.give c l).setStack (s.running c) (next :: rest)) := by
  have hheld : held (s.stack (s.running c)) = l ::ₘ held (next :: rest) := by
    rw [hs, held_cons, hlocks, Multiset.cons_add]
    rfl
  have hnodup := h.nodup c
  rw [hheld] at hnodup
  obtain ⟨hnew, hnodup⟩ := Multiset.nodup_cons.mp hnodup
  have hmine : s.holder l = some c := h.holder_of_mem (hheld ▸ Multiset.mem_cons_self _ _)
  constructor
  · exact h.stack_move hok
  · intro l' c'
    change Function.update s.holder l none l' = some c' ↔
      l' ∈ held (Function.update s.stack (s.running c) (next :: rest) (s.running c'))
    by_cases hc : c' = c
    · subst c'
      rw [Function.update_self]
      by_cases hll : l' = l
      · subst l'
        rw [Function.update_self]
        exact ⟨nofun, fun hmem => absurd hmem hnew⟩
      · rw [Function.update_of_ne hll, h.holder, hheld]
        simp [hll]
    · rw [h.stack_other hc]
      by_cases hll : l' = l
      · subst l'
        rw [Function.update_self, ← h.holder, hmine]
        simp [Ne.symm hc]
      · rw [Function.update_of_ne hll]
        exact h.holder l' c'
  · intro c'
    change (held (Function.update s.stack (s.running c) (next :: rest) (s.running c'))).Nodup
    by_cases hc : c' = c
    · subst c'
      rwa [Function.update_self]
    · rw [h.stack_other hc]
      exact h.nodup c'
  · intro c'
    change Function.update s.noff c (s.noff c - 1) c' =
      (held (Function.update s.stack (s.running c) (next :: rest) (s.running c'))).card
    by_cases hc : c' = c
    · subst c'
      rw [Function.update_self, Function.update_self, h.noff, hheld, Multiset.card_cons,
        Nat.add_sub_cancel]
    · rw [Function.update_of_ne hc, h.stack_other hc]
      exact h.noff c'

theorem stay (h : Sound s) {fs fs' : List (Frame n)} (hfs : s.stack (s.running c) = fs)
    (hok : StackOk (s.running c) fs') (hheld : held fs' = held fs)
    (hcur : bottomCurrent fs' = bottomCurrent fs) (ha : StackAlike fs fs')
    (hk : ∀ e ∈ Kernel.known fs', e ∈ Kernel.known fs) :
    Sound (s.setStack (s.running c) fs') :=
  ⟨h.locked_keep hfs rfl rfl rfl rfl hheld hok, h.cpus_move hfs rfl rfl rfl hcur,
    Procs.move h hfs rfl rfl (.same rfl ha) (fun _ hj => absurd rfl hj)
      (fun e he => h.known c e (hfs ▸ hk e he))⟩

theorem acquire (h : Sound s) {l : Lock n} (hs : s.stack (s.running c) = f :: rest)
    (ha : code (s.ctx nofile c x) f = .acquire l next) (hl : s.holder l = none) :
    Sound ((s.take c l).setStack (s.running c) (next :: rest)) := by
  have hd := h.disciplined hs ha
  have hp := h.plays hs ha
  obtain ⟨hlocks, hfn, hwf, -⟩ := hd
  obtain ⟨halike, hknows⟩ := hp
  have hok := h.stack (s.running c)
  rw [hs] at hok
  refine ⟨h.locked_take hs hl hlocks (hok.replace hfn hwf),
    h.cpus_move hs rfl rfl rfl (bottomCurrent_replace halike.current),
    Procs.move h hs rfl rfl (.same rfl (halike.stack rest)) (fun _ hj => absurd rfl hj) ?_⟩
  intro e he
  refine h.known c e ?_
  rw [hs]
  obtain he | he := List.mem_append.mp he
  · exact List.mem_append_left _ (hknows he)
  · exact List.mem_append_right _ he

theorem release (h : Sound s) {l : Lock n} (hs : s.stack (s.running c) = f :: rest)
    (ha : code (s.ctx nofile c x) f = .release l next) :
    Sound ((s.give c l).setStack (s.running c) (next :: rest)) := by
  have hd := h.disciplined hs ha
  have hp := h.plays hs ha
  obtain ⟨hlocks, hfn, hwf⟩ := hd
  obtain ⟨halike, hknows⟩ := hp
  have hok := h.stack (s.running c)
  rw [hs] at hok
  refine ⟨h.locked_give hs hlocks (hok.replace hfn hwf),
    h.cpus_move hs rfl rfl rfl (bottomCurrent_replace halike.current),
    Procs.move h hs rfl rfl (.same rfl (halike.stack rest)) (fun _ hj => absurd rfl hj) ?_⟩
  intro e he
  refine h.known c e ?_
  rw [hs]
  obtain he | he := List.mem_append.mp he
  · exact List.mem_append_left _ (hknows he)
  · exact List.mem_append_right _ he

theorem holder_of_release (h : Sound s) {l : Lock n} (hs : s.stack (s.running c) = f :: rest)
    (ha : code (s.ctx nofile c x) f = .release l next) : s.holder l = some c := by
  have hd := h.disciplined hs ha
  refine h.holder_of_mem ?_
  rw [hs, held_cons, hd.1]
  exact Multiset.mem_add.mpr (.inl (Multiset.mem_cons_self _ _))

theorem not_holder_of_acquire (h : Sound s) {l : Lock n} (hs : s.stack (s.running c) = f :: rest)
    (ha : code (s.ctx nofile c x) f = .acquire l next) (hl : l.isKernel = true) :
    s.holder l ≠ some c := by
  have hd := h.disciplined hs ha
  intro hmine
  have hmem := (h.holder l c).mp hmine
  rw [hs, held_cons] at hmem
  exact lt_irrefl _ (hd.2.2.2 hl l hmem)

theorem exec (h : Sound s) {sh : Shared n} (hs : s.stack (s.running c) = f :: rest)
    (ha : code (s.ctx nofile c x) f = .exec sh next) :
    Sound { s.setStack (s.running c) (next :: rest) with shared := sh } := by
  have hd := h.disciplined hs ha
  have hp := h.plays hs ha
  obtain ⟨hlocks, hfn, hwf⟩ := hd
  obtain ⟨hchange, hwrites, hknows⟩ := hp
  have hok := h.stack (s.running c)
  have hnodup := h.nodup c
  rw [hs] at hok hnodup
  have hheld : held (next :: rest) = held (f :: rest) := by rw [held_cons, held_cons, hlocks]
  have heffect : Effect (s.running c) (f :: rest) (next :: rest) s.shared.states sh.states :=
    hchange.effect hok hfn
  have changed {j : Fin n} (hj : sh.states j ≠ s.shared.states j) : Lock.proc j ∈ f.locks := by
    refine hwrites j fun heq => hj ?_
    change sh.proc j = s.shared.proc j at heq
    rw [Shared.states, heq, Shared.states]
  have hcur : next.current = f.current := by
    cases hchange with
    | same _ hfg => exact hfg.current
    | wake _ _ _ _ hfg => exact hfg.current
    | reap _ _ _ _ hfg => exact hfg.current
    | dispatch _ _ _ hf hg => rw [hf, hg]; rfl
    | alloc _ _ _ hf hg => rw [hf, hg]; rfl
    | abandon _ _ _ hi => rw [(Frame.not_idle hi).2, (Frame.not_idle (hfn ▸ hi)).2]
    | publish _ _ _ hi => rw [(Frame.not_idle hi).2, (Frame.not_idle (hfn ▸ hi)).2]
    | leave _ _ _ _ _ hi => rw [(Frame.not_idle hi).2, (Frame.not_idle (hfn ▸ hi)).2]
  refine ⟨h.locked_keep hs rfl rfl rfl rfl hheld (hok.replace hfn hwf),
    h.cpus_move hs rfl rfl rfl (bottomCurrent_replace hcur),
    Procs.move h hs rfl rfl heffect
      (fun j hj => Multiset.mem_add.mpr (.inl (changed hj))) ?_⟩
  intro e he
  obtain he | he := List.mem_append.mp he
  · exact hknows e he
  · -- A lower frame knows about a slot whose lock it holds itself.
    have hold : s.shared.states e.1 = e.2 :=
      h.known c e (by rw [hs]; exact List.mem_append_right _ he)
    by_contra hne
    have hj : sh.states e.1 ≠ s.shared.states e.1 := fun heq => hne (heq.trans hold)
    exact Multiset.disjoint_left.mp (Multiset.nodup_add.mp hnodup).2.2 (changed hj)
      (mem_held_of_known he)

theorem call (h : Sound s) (hs : s.stack (s.running c) = f :: rest)
    (ha : code (s.ctx nofile c x) f = .call callee next) :
    Sound (s.setStack (s.running c) (callee :: next :: rest)) := by
  have hd := h.disciplined hs ha
  have hp := h.plays hs ha
  obtain ⟨hlocks, hfn, hwf, hawaits, hpre, hcwf, hon⟩ := hd
  obtain ⟨hbuilds, hready, hknows, hcur, hdisp, hcbuilds, hcknows, hleaving⟩ := hp
  have hcready : callee.ready = 0 := Multiset.subset_zero.mp (hcbuilds ▸ callee.ready_subset)
  have hok := h.stack (s.running c)
  rw [hs] at hok
  refine h.stay hs ⟨.inr (.inr hawaits), hpre, hon, hcwf, hok.replace hfn hwf⟩ ?_
    (bottomCurrent_replace hcur) ⟨?_, ?_, hleaving, ?_⟩ ?_
  · rw [held_cons, held_cons, held_cons, ← hlocks, add_assoc]
  · rw [built_cons, built_cons, built_cons, hcbuilds, hbuilds, zero_add]
  · rw [readied_cons, readied_cons, readied_cons, hcready, hready, zero_add]
  · cases rest with
    | nil => exact hdisp.symm
    | cons => rfl
  · intro e he
    rw [known_cons, known_cons, hcknows, List.nil_append] at he
    obtain he | he := List.mem_append.mp he
    · exact List.mem_append_left _ (hknows he)
    · exact List.mem_append_right _ he

theorem ret (h : Sound s) {v : Val n} (hs : s.stack (s.running c) = f :: g :: rest)
    (ha : code (s.ctx nofile c x) f = .ret v) :
    Sound (s.setStack (s.running c) (g.resume v :: rest)) := by
  have hd := h.disciplined hs ha
  have hp := h.plays hs ha
  obtain ⟨hlocks, hisr, hpanic⟩ := hd
  obtain ⟨hbuilds, hready, hleaving⟩ := hp
  have hok := h.stack (s.running c)
  rw [hs] at hok
  obtain hfn | hfn | hawaits := hok.1
  · exact absurd hfn hisr
  · exact absurd hfn hpanic
  obtain ⟨hb, hr, hl, hdisp, hcur, hknows⟩ := hawaits.resume v
  refine h.stay hs (hok.tail.replace (Frame.resume_fn v) (Frame.resume_wf v hok.tail.wf)) ?_
    (bottomCurrent_replace (hcur.trans hawaits.not_idle.2.1.symm)) ⟨?_, ?_, ?_, ?_⟩ ?_
  · rw [held_cons, held_cons, held_cons, Frame.resume_locks v hawaits, hlocks, add_assoc]
  · rw [built_cons, built_cons, built_cons, hb, hbuilds, add_assoc]
  · rw [readied_cons, readied_cons, readied_cons, hr, hready, add_assoc]
  · exact hl.trans hleaving.symm
  · cases rest with
    | nil => exact hdisp
    | cons => rfl
  · intro e he
    obtain he | he := List.mem_append.mp he
    · exact List.mem_append_right _ (List.mem_append_left _ (hknows he))
    · exact List.mem_append_right _ (List.mem_append_right _ he)

theorem quiet_of_acquire {y : Ctx n} {l : Lock n} (ha : code y f = .acquire l next) :
    f.leaving = false ∧ f.dispatching = none := by
  constructor
  · refine Bool.eq_false_iff.mpr fun hl => ?_
    obtain ⟨p, rfl⟩ | ⟨p, ch, lk, rfl⟩ | ⟨p, status, rfl | rfl⟩ | ⟨p, pc, rfl⟩ :=
      Frame.cases_leaving hl
    · simp only [code, Kernel.yield, Ctx.withProc] at ha
      split at ha <;> cases ha
    · simp only [code, Kernel.sleep, Ctx.withProc] at ha
      split at ha <;> cases ha
    · cases ha
    · simp only [code, kexit, Ctx.withProc] at ha
      split at ha <;> cases ha
    · cases pc with
      | swtch | done => cases ha
      | _ =>
        simp only [code, sched] at ha
        split at ha <;> cases ha
  · unfold Frame.dispatching
    split <;> first | rfl | cases ha

theorem iret (h : Sound s) (hs : s.stack (s.running c) = f :: g :: rest)
    (ha : code (s.ctx nofile c x) f = .iret) : Sound (s.setStack (s.running c) (g :: rest)) := by
  have hd := h.disciplined hs ha
  have hp := h.plays hs ha
  obtain ⟨hlocks, hfn⟩ := hd
  obtain ⟨hbuilds, hleaving⟩ := hp
  have hready : f.ready = 0 := Multiset.subset_zero.mp (hbuilds ▸ f.ready_subset)
  have hok := h.stack (s.running c)
  rw [hs] at hok
  have hpre := hok.pre
  rw [hfn] at hpre
  -- The interrupted code has no lock, so it was not in the middle of a switch.
  obtain ⟨hg, hgd⟩ := hok.tail.quiet hpre
  refine h.stay hs hok.tail ?_ rfl ⟨?_, ?_, hg.trans hleaving.symm, hgd⟩ ?_
  · rw [held_cons (f := f), hlocks, zero_add]
  · rw [built_cons (f := f), hbuilds, zero_add]
  · rw [readied_cons (f := f), hready, zero_add]
  · exact fun e he => List.mem_append_right _ he

theorem interrupt (h : Sound s) (hs : s.stack (s.running c) = f :: rest) (hn : s.noff c = 0) :
    Sound (s.setStack (s.running c) (.ext .handler (.run []) :: f :: rest)) := by
  have hok := h.stack (s.running c)
  have hl : held (s.stack (s.running c)) = 0 := Multiset.card_eq_zero.mp ((h.noff c).symm.trans hn)
  rw [hs] at hok hl
  obtain ⟨hf, hd⟩ := hok.quiet hl
  refine h.stay hs ⟨.inl rfl, hl, trivial, trivial, hok⟩ ?_ rfl ⟨?_, ?_, hf.symm, hd.symm⟩
    fun _ he => he
  · exact zero_add _
  · exact zero_add _
  · exact zero_add _

theorem panicked (h : Sound s) {msg : String} (hs : s.stack (s.running c) = f :: rest)
    (hf : f.leaving = false) (hd : f.dispatching = none) :
    Sound (s.setStack (s.running c) (.panic msg :: f :: rest)) := by
  have hok := h.stack (s.running c)
  rw [hs] at hok
  refine h.stay hs ⟨.inr (.inl rfl), trivial, trivial, trivial, hok⟩ ?_ rfl
    ⟨?_, ?_, hf.symm, ?_⟩ fun _ he => he
  · exact zero_add _
  · exact zero_add _
  · exact zero_add _
  · cases rest with
    | nil => exact hd.symm
    | cons => rfl

theorem panic (h : Sound s) {msg : String} (hs : s.stack (s.running c) = f :: rest)
    (ha : code (s.ctx nofile c x) f = .panic msg) :
    Sound (s.setStack (s.running c) (.panic msg :: f :: rest)) := by
  have hp := h.plays hs ha
  refine h.panicked hs hp ?_
  unfold Frame.dispatching
  split <;> first | rfl | cases ha

theorem acquireAgain (h : Sound s) {l : Lock n} (hs : s.stack (s.running c) = f :: rest)
    (ha : code (s.ctx nofile c x) f = .acquire l next) :
    Sound (s.setStack (s.running c) (.panic "acquire" :: f :: rest)) := by
  obtain ⟨hl, hd⟩ := quiet_of_acquire ha
  exact h.panicked hs hl hd

end Sound

end MultithreadMayhem.Kernel
