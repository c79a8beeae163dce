import MultithreadMayhem.Kernel.Invariant

/-!
# Steps that do not switch

Between two calls of `swtch` a CPU changes its own stack and makes at most one
change of a process state. `Effect` is such a change as seen from the whole
stack, and `Procs.move` shows that it keeps the states of all slots consistent
with all stacks.
-/

namespace MultithreadMayhem.Kernel

variable {n : ℕ} {C : Type}

structure StackAlike (fs fs' : List (Frame n)) : Prop where
  built : Kernel.built fs' = Kernel.built fs
  readied : Kernel.readied fs' = Kernel.readied fs
  leaving : leavingTop fs' = leavingTop fs
  dispatched : Kernel.dispatched fs' = Kernel.dispatched fs

/-- What a step of the thread `t` that takes its stack from `fs` to `fs'` does to the states. -/
inductive Effect (t : Thread n C) (fs fs' : List (Frame n)) (st st' : Fin n → Procstate) : Prop
  | same (hst : st' = st) (h : StackAlike fs fs')
  | wake (j : Fin n) (hj : st j = .sleeping) (hst : st' = Function.update st j .runnable)
      (hl : leavingTop fs = false) (h : StackAlike fs fs')
  | reap (j : Fin n) (hj : st j = .zombie) (hst : st' = Function.update st j .unused)
      (hl : leavingTop fs = false) (h : StackAlike fs fs')
  | dispatch (j : Fin n) (hj : st j = .runnable) (hst : st' = Function.update st j .running)
      (hl : leavingTop fs = false ∧ leavingTop fs' = false) (hb : built fs' = built fs)
      (hr : readied fs' = readied fs) (ht : ∃ c, t = .cpu c)
      (hd : dispatched fs = none ∧ dispatched fs' = some j)
  | alloc (j : Fin n) (hj : st j = .unused) (hst : st' = Function.update st j .used)
      (hl : leavingTop fs = false ∧ leavingTop fs' = false) (hb : built fs' = j ::ₘ built fs)
      (hr : readied fs' = readied fs) (hd : dispatched fs' = dispatched fs)
  | abandon (j : Fin n) (hj : st j = .used) (hst : st' = Function.update st j .unused)
      (hl : leavingTop fs = false ∧ leavingTop fs' = false) (hb : built fs = j ::ₘ built fs')
      (hr : readied fs' ⊆ readied fs) (hd : dispatched fs' = dispatched fs)
  | publish (j : Fin n) (hj : st j = .used) (hst : st' = Function.update st j .runnable)
      (hl : leavingTop fs = false ∧ leavingTop fs' = false) (hb : built fs = j ::ₘ built fs')
      (hr : readied fs' ⊆ readied fs) (hready : j ∈ readied fs)
      (hd : dispatched fs' = dispatched fs)
  | leave (j : Fin n) (st₁ : Procstate) (hj : st j = .running)
      (hst : st' = Function.update st j st₁) (ht : t = .proc j)
      (hl : leavingTop fs = false ∧ leavingTop fs' = true) (hok : RunOk true st₁)
      (hb : built fs' = built fs) (hr : readied fs' = readied fs)
      (hd : dispatched fs' = dispatched fs)

theorem Frame.not_idle {f : Frame n} (h : f.fn ≠ .idle) : f.dispatching = none ∧ f.current = none := by
  cases f with
  | scheduler => exact absurd rfl h
  | main => exact absurd rfl h
  | _ => exact ⟨rfl, rfl⟩

theorem dispatched_of_not_idle {f : Frame n} {rest : List (Frame n)} (h : f.fn ≠ .idle) :
    dispatched (f :: rest) = none := by
  cases rest with
  | nil => exact (Frame.not_idle h).1
  | cons => rfl

theorem Frame.Alike.stack {f g : Frame n} (h : f.Alike g) (rest : List (Frame n)) :
    StackAlike (f :: rest) (g :: rest) := by
  refine ⟨?_, ?_, h.leaving, ?_⟩
  · rw [built_cons, built_cons, h.builds]
  · rw [readied_cons, readied_cons, h.ready]
  · cases rest with
    | nil => exact h.dispatching
    | cons => rfl

theorem Change.effect {t : Thread n C} {f g : Frame n} {rest : List (Frame n)}
    {st st' : Fin n → Procstate} (h : Change t f g st st') (hok : StackOk t (f :: rest))
    (hfn : g.fn = f.fn) : Effect t (f :: rest) (g :: rest) st st' := by
  have quiet (hf : f.fn ≠ .idle) : dispatched (g :: rest) = dispatched (f :: rest) := by
    rw [dispatched_of_not_idle hf, dispatched_of_not_idle (hfn ▸ hf)]
  have fewer {j : Fin n} (hb : f.builds = {j} ∧ g.builds = 0) :
      built (f :: rest) = j ::ₘ built (g :: rest) := by
    rw [built_cons, built_cons, hb.1, hb.2, zero_add, Multiset.singleton_add]
  have unready (hg : g.builds = 0) : readied (g :: rest) ⊆ readied (f :: rest) := by
    intro k hk
    obtain hk | hk := Multiset.mem_add.mp hk
    · have hk := g.ready_subset hk
      rw [hg] at hk
      cases hk
    · exact Multiset.mem_add.mpr (.inr hk)
  cases h with
  | same hst hfg => exact .same hst (hfg.stack rest)
  | wake j hj hst hf hfg => exact .wake j hj hst hf (hfg.stack rest)
  | reap j hj hst hf hfg => exact .reap j hj hst hf (hfg.stack rest)
  | dispatch j hj hst hf hg =>
    subst hf hg
    obtain rfl := hok.rest_eq_nil (.inl rfl)
    exact .dispatch j hj hst ⟨rfl, rfl⟩ rfl rfl hok.on ⟨rfl, rfl⟩
  | alloc j hj hst hf hg =>
    subst hf hg
    refine .alloc j hj hst ⟨rfl, rfl⟩ ?_ rfl (quiet nofun)
    exact (Multiset.singleton_add j _).trans (congrArg (j ::ₘ ·) (zero_add (built rest)).symm)
  | abandon j hj hst hidle hl hb =>
    exact .abandon j hj hst hl (fewer hb) (unready hb.2) (quiet hidle)
  | publish j hj hst hidle hl hb hr =>
    refine .publish j hj hst hl (fewer hb) (unready hb.2) ?_ (quiet hidle)
    rw [readied_cons, hr]
    exact Multiset.mem_add.mpr (.inl (Multiset.mem_singleton_self j))
  | leave j st₁ hj hst ht hidle hl hrun hb =>
    have hready {k : Frame n} (hk : k.builds = 0) : k.ready = 0 :=
      Multiset.subset_zero.mp (hk ▸ k.ready_subset)
    refine .leave j st₁ hj hst ht hl hrun ?_ ?_ (quiet hidle)
    · rw [built_cons, built_cons, hb.1, hb.2]
    · rw [readied_cons, readied_cons, hready hb.1, hready hb.2]

namespace Effect

variable {t : Thread n C} {fs fs' : List (Frame n)} {st st' : Fin n → Procstate}

theorem changed (h : Effect t fs fs' st st') {j : Fin n} (hj : st' j ≠ st j) :
    (st j = .running → t = .proc j) ∧ (st j = .used → j ∈ built fs) ∧
      (st' j = .running → dispatched fs' = some j ∧ ∃ c, t = .cpu c) := by
  have only {k : Fin n} {st₁ : Procstate} (hst : st' = Function.update st k st₁) : j = k := by
    by_contra hne
    rw [hst] at hj
    exact hj (Function.update_of_ne hne _ _)
  have value {k : Fin n} {st₁ : Procstate} (hst : st' = Function.update st k st₁) (hk : j = k) :
      st' j = st₁ := by
    rw [hst, hk, Function.update_self]
  cases h with
  | same hst => exact absurd (congrFun hst j) hj
  | wake k hk hst =>
    obtain rfl := only hst
    rw [hk, value hst rfl]
    exact ⟨nofun, nofun, nofun⟩
  | reap k hk hst =>
    obtain rfl := only hst
    rw [hk, value hst rfl]
    exact ⟨nofun, nofun, nofun⟩
  | dispatch k hk hst hl hb hr ht hd =>
    obtain rfl := only hst
    rw [hk]
    exact ⟨nofun, nofun, fun _ => ⟨hd.2, ht⟩⟩
  | alloc k hk hst =>
    obtain rfl := only hst
    rw [hk, value hst rfl]
    exact ⟨nofun, nofun, nofun⟩
  | abandon k hk hst hl hb =>
    obtain rfl := only hst
    rw [hk, value hst rfl, hb]
    exact ⟨nofun, fun _ => Multiset.mem_cons_self _ _, nofun⟩
  | publish k hk hst hl hb =>
    obtain rfl := only hst
    rw [hk, value hst rfl, hb]
    exact ⟨nofun, fun _ => Multiset.mem_cons_self _ _, nofun⟩
  | leave k st₁ hk hst ht hl hok =>
    obtain rfl := only hst
    rw [hk, value hst rfl]
    refine ⟨fun _ => ht, nofun, fun hrun => ?_⟩
    subst hrun
    obtain hst | hst | hst := hok <;> cases hst

theorem readied_mem (h : Effect t fs fs' st st') : readied fs' ⊆ readied fs := by
  cases h with
  | same _ h => rw [h.readied]; exact fun _ hj => hj
  | wake _ _ _ _ h => rw [h.readied]; exact fun _ hj => hj
  | reap _ _ _ _ h => rw [h.readied]; exact fun _ hj => hj
  | dispatch _ _ _ _ _ hr => rw [hr]; exact fun _ hj => hj
  | alloc _ _ _ _ _ hr => rw [hr]; exact fun _ hj => hj
  | abandon _ _ _ _ _ hr => exact hr
  | publish _ _ _ _ _ hr => exact hr
  | leave _ _ _ _ _ _ _ _ hr => rw [hr]; exact fun _ hj => hj

theorem built_mem (h : Effect t fs fs' st st') {j : Fin n} (hj : j ∈ built fs') :
    j ∈ built fs ∨ st j = .unused := by
  cases h with
  | same _ h => exact .inl (h.built ▸ hj)
  | wake _ _ _ _ h => exact .inl (h.built ▸ hj)
  | reap _ _ _ _ h => exact .inl (h.built ▸ hj)
  | dispatch _ _ _ _ hb => exact .inl (hb ▸ hj)
  | alloc k hk _ _ hb =>
    rw [hb] at hj
    obtain rfl | hj := Multiset.mem_cons.mp hj
    · exact .inr hk
    · exact .inl hj
  | abandon _ _ _ _ hb => exact .inl (hb ▸ Multiset.mem_cons_of_mem hj)
  | publish _ _ _ _ hb => exact .inl (hb ▸ Multiset.mem_cons_of_mem hj)
  | leave _ _ _ _ _ _ _ hb => exact .inl (hb ▸ hj)

theorem dispatched_eq (h : Effect t fs fs' st st') {j : Fin n} (hj : dispatched fs' = some j) :
    dispatched fs = some j ∨ (st j = .runnable ∧ st' j = .running) := by
  cases h with
  | same _ h => exact .inl (h.dispatched ▸ hj)
  | wake _ _ _ _ h => exact .inl (h.dispatched ▸ hj)
  | reap _ _ _ _ h => exact .inl (h.dispatched ▸ hj)
  | dispatch k hk hst _ _ _ _ hd =>
    rw [hd.2] at hj
    cases hj
    exact .inr ⟨hk, by rw [hst, Function.update_self]⟩
  | alloc _ _ _ _ _ _ hd => exact .inl (hd ▸ hj)
  | abandon _ _ _ _ _ _ hd => exact .inl (hd ▸ hj)
  | publish _ _ _ _ _ _ _ hd => exact .inl (hd ▸ hj)
  | leave _ _ _ _ _ _ _ _ _ hd => exact .inl (hd ▸ hj)

theorem dispatched_keep (h : Effect t fs fs' st st') {j : Fin n} (hj : dispatched fs = some j) :
    dispatched fs' = some j := by
  cases h with
  | same _ h => exact h.dispatched ▸ hj
  | wake _ _ _ _ h => exact h.dispatched ▸ hj
  | reap _ _ _ _ h => exact h.dispatched ▸ hj
  | dispatch _ _ _ _ _ _ _ hd =>
    rw [hd.1] at hj
    cases hj
  | alloc _ _ _ _ _ _ hd => exact hd ▸ hj
  | abandon _ _ _ _ _ _ hd => exact hd ▸ hj
  | publish _ _ _ _ _ _ _ hd => exact hd ▸ hj
  | leave _ _ _ _ _ _ _ _ _ hd => exact hd ▸ hj

theorem resumed (h : Effect t fs fs' st st') {j : Fin n} (hj : st' j ≠ st j)
    (hst' : st' j = .runnable ∨ st' j = .sleeping ∨ st' j = .running) :
    (st j = .runnable ∨ st j = .sleeping) ∨ j ∈ readied fs ∨ t = .proc j := by
  have only {k : Fin n} {st₁ : Procstate} (hst : st' = Function.update st k st₁) : j = k := by
    by_contra hne
    rw [hst] at hj
    exact hj (Function.update_of_ne hne _ _)
  have never {k : Fin n} {st₁ : Procstate} (hst : st' = Function.update st k st₁) (hk : j = k)
      (h₁ : st₁ = .used ∨ st₁ = .unused) : False := by
    rw [hst, hk, Function.update_self] at hst'
    obtain h₁ | h₁ := h₁ <;> rw [h₁] at hst' <;> obtain h₂ | h₂ | h₂ := hst' <;> cases h₂
  cases h with
  | same hst => exact absurd (congrFun hst j) hj
  | wake k hk hst =>
    obtain rfl := only hst
    exact .inl (.inr hk)
  | reap k hk hst => exact (never hst (only hst) (.inr rfl)).elim
  | dispatch k hk hst =>
    obtain rfl := only hst
    exact .inl (.inl hk)
  | alloc k hk hst => exact (never hst (only hst) (.inl rfl)).elim
  | abandon k hk hst => exact (never hst (only hst) (.inr rfl)).elim
  | publish k hk hst hl hb hr hready =>
    obtain rfl := only hst
    exact .inr (.inl hready)
  | leave k st₁ hk hst ht =>
    obtain rfl := only hst
    exact .inr (.inr ht)

theorem run (h : Effect t fs fs' st st') {q : Fin n} (hq : t = .proc q)
    (hrun : RunOk (leavingTop fs) (st q)) : RunOk (leavingTop fs') (st' q) := by
  have stays {j : Fin n} {st₁ : Procstate} (hl : leavingTop fs = false) (hj : st j ≠ .running)
      (hst : st' = Function.update st j st₁) (hl' : leavingTop fs' = leavingTop fs) :
      RunOk (leavingTop fs') (st' q) := by
    rw [hl] at hrun
    have hne : q ≠ j := by
      rintro rfl
      exact hj hrun
    rw [hl', hl, hst, Function.update_of_ne hne]
    exact hrun
  cases h with
  | same hst h => rwa [h.leaving, hst]
  | wake j hj hst hl h => exact stays hl (by rw [hj]; nofun) hst h.leaving
  | reap j hj hst hl h => exact stays hl (by rw [hj]; nofun) hst h.leaving
  | dispatch j hj hst hl _ _ ht =>
    obtain ⟨c, ht⟩ := ht
    rw [hq] at ht
    cases ht
  | alloc j hj hst hl => exact stays hl.1 (by rw [hj]; nofun) hst (hl.2.trans hl.1.symm)
  | abandon j hj hst hl => exact stays hl.1 (by rw [hj]; nofun) hst (hl.2.trans hl.1.symm)
  | publish j hj hst hl => exact stays hl.1 (by rw [hj]; nofun) hst (hl.2.trans hl.1.symm)
  | leave j st₁ hj hst ht hl hok =>
    rw [hq] at ht
    cases ht
    rw [hl.2, hst, Function.update_self]
    exact hok

theorem built_used (h : Effect t fs fs' st st') (hused : ∀ j ∈ built fs, st j = .used)
    (hone : (built fs).Nodup) : (∀ j ∈ built fs', st' j = .used) ∧ (built fs').Nodup := by
  have other {j : Fin n} {st₁ : Procstate} (hj : st j ≠ .used)
      (hst : st' = Function.update st j st₁) (hb : built fs' = built fs) :
      (∀ k ∈ built fs', st' k = .used) ∧ (built fs').Nodup := by
    rw [hb]
    refine ⟨fun k hk => ?_, hone⟩
    have hne : k ≠ j := by
      rintro rfl
      exact hj (hused k hk)
    rw [hst, Function.update_of_ne hne]
    exact hused k hk
  have fewer {j : Fin n} {st₁ : Procstate} (hst : st' = Function.update st j st₁)
      (hb : built fs = j ::ₘ built fs') :
      (∀ k ∈ built fs', st' k = .used) ∧ (built fs').Nodup := by
    rw [hb] at hone
    obtain ⟨hj, hone⟩ := Multiset.nodup_cons.mp hone
    refine ⟨fun k hk => ?_, hone⟩
    have hne : k ≠ j := by
      rintro rfl
      exact hj hk
    rw [hst, Function.update_of_ne hne]
    exact hused k (hb ▸ Multiset.mem_cons_of_mem hk)
  cases h with
  | same hst h =>
    rw [h.built, hst]
    exact ⟨hused, hone⟩
  | wake j hj hst _ h => exact other (by rw [hj]; nofun) hst h.built
  | reap j hj hst _ h => exact other (by rw [hj]; nofun) hst h.built
  | dispatch j hj hst _ hb => exact other (by rw [hj]; nofun) hst hb
  | alloc j hj hst _ hb =>
    have hnew : j ∉ built fs := by
      intro hmem
      have hj' := hused j hmem
      rw [hj] at hj'
      cases hj'
    rw [hb]
    refine ⟨fun k hk => ?_, Multiset.nodup_cons.mpr ⟨hnew, hone⟩⟩
    obtain rfl | hold := Multiset.mem_cons.mp hk
    · rw [hst, Function.update_self]
    · have hne : k ≠ j := by
        rintro rfl
        exact hnew hold
      rw [hst, Function.update_of_ne hne]
      exact hused k hold
  | abandon j hj hst _ hb => exact fewer hst hb
  | publish j hj hst _ hb => exact fewer hst hb
  | leave j st₁ hj hst _ _ _ hb => exact other (by rw [hj]; nofun) hst hb

end Effect

/-- A step of the CPU `c` that does not switch: it leaves the stack `fs'` in the place of the one it
executes, and it changes a state with the lock of the slot only. -/
structure Move [DecidableEq C] (s s' : State n C) (c : C) (fs' : List (Frame n)) : Prop where
  running : s'.running = s.running
  stack : s'.stack = Function.update s.stack (s.running c) fs'
  effect : Effect (s.running c) (s.stack (s.running c)) fs' s.shared.states s'.shared.states
  locked : ∀ j, s'.shared.states j ≠ s.shared.states j → Lock.proc j ∈ held (s.stack (s.running c))
  known : ∀ e ∈ Kernel.known fs', s'.shared.states e.1 = e.2

namespace Move

variable [DecidableEq C] {s s' : State n C} {c c' : C} {fs' : List (Frame n)} {t t' u : Thread n C}
  {j q : Fin n}

theorem here (hm : Move s s' c fs') : s'.stack (s.running c) = fs' := by
  rw [hm.stack, Function.update_self]

theorem there (hm : Move s s' c fs') (hu : u ≠ s.running c) : s'.stack u = s.stack u := by
  rw [hm.stack, Function.update_of_ne hu]

theorem idle_iff (hm : Move s s' c fs') : s'.Idle q ↔ s.Idle q := by
  unfold State.Idle
  rw [hm.running]

/-- A CPU that executes a thread with the lock of a changed slot is the one that changed it. -/
theorem writer (hm : Move s s' c fs') (h : Sound s) (hj : s'.shared.states j ≠ s.shared.states j)
    (hl : Lock.proc j ∈ held (s.stack (s.running c'))) : c' = c :=
  h.cpu_eq hl (hm.locked j hj)

theorem runOk (hm : Move s s' c fs') (h : Sound s) (hr : s'.running c' = .proc q) :
    RunOk (leavingTop (s'.stack (.proc q))) (s'.shared.states q) := by
  rw [hm.running] at hr
  by_cases hcc : c' = c
  · subst c'
    have hrun := h.running c q hr
    rw [← hr] at hrun
    rw [← hr, hm.here]
    exact hm.effect.run hr hrun
  · have hne : Thread.proc q ≠ s.running c := by
      rw [← hr]
      exact fun heq => hcc (h.one c' c heq)
    rw [hm.there hne]
    by_cases hst : s'.shared.states q = s.shared.states q
    · rw [hst]
      exact h.running c' q hr
    · obtain hrun | hl := h.running_or_locked hr
      · exact absurd ((hm.effect.changed hst).1 hrun).symm hne
      · exact absurd (hm.writer h hst hl) hcc

theorem dispatched (hm : Move s s' c fs') (h : Sound s) (hq : s'.Idle q)
    (hst' : s'.shared.states q = .running) :
    ∃ c₀, Kernel.dispatched (s'.stack (.cpu c₀)) = some q := by
  by_cases hst : s'.shared.states q = s.shared.states q
  · obtain ⟨c₀, hd⟩ := h.dispatched q (hm.idle_iff.mp hq) (hst ▸ hst')
    refine ⟨c₀, ?_⟩
    by_cases ht : Thread.cpu c₀ = s.running c
    · rw [ht] at hd
      rw [ht, hm.here]
      exact hm.effect.dispatched_keep hd
    · rwa [hm.there ht]
  · obtain ⟨hd, c₀, ht⟩ := (hm.effect.changed hst).2.2 hst'
    exact ⟨c₀, by rw [← ht, hm.here, hd]⟩

theorem resumable (hm : Move s s' c fs') (h : Sound s) (hq : s'.Idle q)
    (hst' : s'.shared.states q = .runnable ∨ s'.shared.states q = .sleeping ∨
      s'.shared.states q = .running) : Resumable q (s'.stack (.proc q)) := by
  have hidle : s.Idle q := hm.idle_iff.mp hq
  have hne : Thread.proc q ≠ s.running c := fun heq => hidle c heq.symm
  rw [hm.there hne]
  by_cases hst : s'.shared.states q = s.shared.states q
  · rw [hst] at hst'
    exact h.resumable q hidle hst'
  · obtain (hold | hold) | hready | ht := hm.effect.resumed hst hst'
    · exact h.resumable q hidle (.inl hold)
    · exact h.resumable q hidle (.inr (.inl hold))
    · rw [h.readied (s.running c) q hready]
      exact ⟨_, _, rfl, .inr rfl⟩
    · exact absurd ht.symm hne

theorem idle (hm : Move s s' c fs') (h : Sound s)
    (hd : Kernel.dispatched (s'.stack (.cpu c')) = some q) : s'.Idle q := by
  rw [hm.idle_iff]
  by_cases ht : Thread.cpu c' = s.running c
  · rw [ht, hm.here] at hd
    obtain hold | ⟨hold, hnew⟩ := hm.effect.dispatched_eq hd
    · exact h.idle c' q (by rw [ht, hold])
    · have hl : Lock.proc q ∈ held (s.stack (s.running c)) :=
        hm.locked q (by rw [hold, hnew]; nofun)
      exact h.idle_of_locked hl (by rw [← ht]; nofun) (by rw [hold]; nofun)
  · rw [hm.there ht] at hd
    exact h.idle c' q hd

theorem known_running (hm : Move s s' c fs') (h : Sound s) {e : Fin n × Procstate}
    (he : e ∈ Kernel.known (s'.stack (s'.running c'))) : s'.shared.states e.1 = e.2 := by
  rw [hm.running] at he
  by_cases hcc : c' = c
  · subst c'
    rw [hm.here] at he
    exact hm.known e he
  · rw [hm.there fun heq => hcc (h.one c' c heq)] at he
    by_cases hst : s'.shared.states e.1 = s.shared.states e.1
    · rw [hst]
      exact h.known c' e he
    · exact absurd (hm.writer h hst (mem_held_of_known he)) hcc

theorem built_used (hm : Move s s' c fs') (h : Sound s) :
    (∀ j ∈ built fs', s'.shared.states j = .used) ∧ (built fs').Nodup :=
  hm.effect.built_used (h.built (s.running c)) (h.builtOnce (s.running c))

theorem used (hm : Move s s' c fs') (h : Sound s) (hj : j ∈ built (s'.stack t)) :
    s'.shared.states j = .used := by
  by_cases ht : t = s.running c
  · subst t
    rw [hm.here] at hj
    exact (hm.built_used h).1 j hj
  · rw [hm.there ht] at hj
    by_cases hst : s'.shared.states j = s.shared.states j
    · rw [hst]
      exact h.built t j hj
    · have hmine := (hm.effect.changed hst).2.1 (h.built t j hj)
      exact absurd (h.builtBy _ _ _ hj hmine) ht

theorem builtOnce (hm : Move s s' c fs') (h : Sound s) (t : Thread n C) :
    (built (s'.stack t)).Nodup := by
  by_cases ht : t = s.running c
  · subst t
    rw [hm.here]
    exact (hm.built_used h).2
  · rw [hm.there ht]
    exact h.builtOnce t

/-- A slot that the thread is making now, and another thread too, was in use before. -/
theorem not_built (hm : Move s s' c fs') (h : Sound s) (ht : t ≠ s.running c)
    (hj : j ∈ built fs') : j ∉ built (s.stack t) := by
  intro hj'
  obtain hold | hnew := hm.effect.built_mem hj
  · exact ht (h.builtBy _ _ _ hj' hold)
  · have hused := h.built t j hj'
    rw [hnew] at hused
    cases hused

theorem builtBy (hm : Move s s' c fs') (h : Sound s) (hj : j ∈ built (s'.stack t))
    (hj' : j ∈ built (s'.stack t')) : t = t' := by
  by_cases ht : t = s.running c <;> by_cases ht' : t' = s.running c
  · rw [ht, ht']
  · rw [ht, hm.here] at hj
    rw [hm.there ht'] at hj'
    exact absurd hj' (hm.not_built h ht' hj)
  · rw [hm.there ht] at hj
    rw [ht', hm.here] at hj'
    exact absurd hj (hm.not_built h ht hj')
  · rw [hm.there ht] at hj
    rw [hm.there ht'] at hj'
    exact h.builtBy t t' j hj hj'

theorem readied (hm : Move s s' c fs') (h : Sound s) (hj : j ∈ Kernel.readied (s'.stack t)) :
    s'.stack (.proc j) = [.forkret j .release] := by
  have hold : j ∈ Kernel.readied (s.stack t) := by
    by_cases ht : t = s.running c
    · subst t
      rw [hm.here] at hj
      exact hm.effect.readied_mem hj
    · rwa [hm.there ht] at hj
  have hne : Thread.proc j ≠ s.running c := fun heq =>
    h.idle_of_used (.inl (h.built t j (readied_subset hold))) c heq.symm
  rw [hm.there hne]
  exact h.readied t j hold

theorem procs (hm : Move s s' c fs') (h : Sound s) : Procs s' where
  running _ _ hr := hm.runOk h hr
  dispatched _ hq hst := hm.dispatched h hq hst
  resumable _ hq hst := hm.resumable h hq hst
  idle _ _ hd := hm.idle h hd
  known _ _ he := hm.known_running h he
  built _ _ hj := hm.used h hj
  builtOnce t := hm.builtOnce h t
  builtBy _ _ _ hj hj' := hm.builtBy h hj hj'
  readied _ _ hj := hm.readied h hj

end Move

/-- A step of the CPU `c` that does not switch keeps the states consistent. -/
theorem Procs.move {s s' : State n C} {c : C} {fs fs' : List (Frame n)} (h : Sound s)
    [DecidableEq C]
    (hfs : s.stack (s.running c) = fs) (hrunning : s'.running = s.running)
    (hstack : s'.stack = Function.update s.stack (s.running c) fs')
    (he : Effect (s.running c) fs fs' s.shared.states s'.shared.states)
    (hlock : ∀ j, s'.shared.states j ≠ s.shared.states j → Lock.proc j ∈ held fs)
    (hknown : ∀ e ∈ Kernel.known fs', s'.shared.states e.1 = e.2) : Procs s' := by
  subst hfs
  have hm : Move s s' c fs' := ⟨hrunning, hstack, he, hlock, hknown⟩
  exact hm.procs h

end MultithreadMayhem.Kernel
