import MultithreadMayhem.Kernel.DataRaces
import MultithreadMayhem.Kernel.SyscallCount

/-!
# Steps of two CPUs commute

A step of a CPU is a patch of the state: of the locks it takes or gives, the context of the CPU, the
stack it executes and the places it writes. It depends only on what the CPU sees. Since there are no
data races, the patches of two CPUs do not meet, and the order of the steps does not matter unless
both take the same lock.
-/

namespace MultithreadMayhem.Kernel

open Foundation

variable {n nofile : ℕ} {C : Type} [DecidableEq C] {s s' s₁ s₂ : State n C} {c c' : C}
  {f g : Frame n} {rest : List (Frame n)} {x y : Choice} {l : Place n}

section Patch

/-- What a step changes beside the shared data. -/
structure Patch (n : ℕ) (C : Type) where
  lock : Lock n → Option (Option C)
  me : Option (Fin n)
  noff : ℕ
  running : Thread n C
  stack : Thread n C → Option (List (Frame n))

def State.patch (s : State n C) (c : C) (P : Patch n C) (sh : Shared n) : State n C where
  shared := sh
  holder := fun l => (P.lock l).getD (s.holder l)
  me := Function.update s.me c P.me
  noff := Function.update s.noff c P.noff
  running := Function.update s.running c P.running
  stack := fun t => (P.stack t).getD (s.stack t)

def Patch.stay (s : State n C) (c : C) (fs : List (Frame n)) : Patch n C where
  lock := fun _ => none
  me := s.me c
  noff := s.noff c
  running := s.running c
  stack := fun t => if t = s.running c then some fs else none

@[simp]
theorem Patch.stay_stack_self (s : State n C) (c : C) (fs : List (Frame n)) :
    (stay s c fs).stack (s.running c) = some fs := if_pos rfl

theorem Patch.stay_stack_of_ne {fs : List (Frame n)} {t : Thread n C} (ht : t ≠ s.running c) :
    (stay s c fs).stack t = none := if_neg ht

/-- The patch is about the CPU, locks that are free or its own, and slots that it builds. -/
structure Patch.Fits (P : Patch n C) (s : State n C) (c : C) : Prop where
  lock : ∀ l o, P.lock l = some o → s.holder l = none ∧ o = some c ∨ s.holder l = some c ∧ o = none
  stack : ∀ t, P.stack t ≠ none →
    t = s.running c ∨ ∃ p, t = .proc p ∧ p ∈ built (s.stack (s.running c))

/-- The CPU sees the same context and the same stack in both states, and holds the same locks. -/
structure State.Alike (s s' : State n C) (c : C) : Prop where
  me : s'.me c = s.me c
  noff : s'.noff c = s.noff c
  running : s'.running c = s.running c
  stack : s'.stack (s.running c) = s.stack (s.running c)
  holder : ∀ l, s'.holder l = some c ↔ s.holder l = some c

omit [DecidableEq C] in
theorem State.Alike.refl (s : State n C) (c : C) : s.Alike s c :=
  ⟨rfl, rfl, rfl, rfl, fun _ => Iff.rfl⟩

omit [DecidableEq C] in
theorem Place.same_ext {sh sh' : Shared n} (h : ∀ l : Place n, l.Same sh sh') : sh = sh' := by
  have hproc : sh.proc = sh'.proc := by
    funext j
    obtain ⟨hthread, htgid⟩ := h (.field j .group)
    have hstate := h (.field j .state)
    have hchan := h (.field j .chan)
    have hkilled := h (.field j .killed)
    have hxstate := h (.field j .xstate)
    have hpid := h (.field j .pid)
    have hpriority := h (.field j .priority)
    simp only [Place.Same, Field.Same] at hstate hchan hkilled hxstate hpid hpriority
    cases hp : sh.proc j
    cases hp' : sh'.proc j
    simp_all
  have hparent : sh.parent = sh'.parent := funext fun j => h (.parent j)
  have himage : sh.image = sh'.image := funext fun j => h (.image j)
  have hnextpid : sh.nextpid = sh'.nextpid := h .nextpid
  have hinitproc : sh.initproc = sh'.initproc := h .initproc
  have hfirst : sh.first = sh'.first := h .first
  have hstarted : sh.started = sh'.started := h .started
  cases sh
  cases sh'
  simp_all

omit [DecidableEq C] in
theorem Place.Same.symm {sh sh' : Shared n} (h : l.Same sh sh') : l.Same sh' sh := by
  cases l with
  | field j a =>
    cases a with
    | group => exact ⟨h.1.symm, h.2.symm⟩
    | _ => exact Eq.symm h
  | _ => exact Eq.symm h

omit [DecidableEq C] in
theorem Place.Same.trans {sh sh' sh'' : Shared n} (h : l.Same sh sh') (h' : l.Same sh' sh'') :
    l.Same sh sh'' := by
  cases l with
  | field j a =>
    cases a with
    | group => exact ⟨h.1.trans h'.1, h.2.trans h'.2⟩
    | _ => exact Eq.trans h h'
  | _ => exact Eq.trans h h'

/-- The patches of two CPUs that do not touch the same lock or stack can be applied in either
order. -/
theorem State.patch_comm {P Q : Patch n C} {sh₁ sh₂ sh : Shared n} (hne : c ≠ c')
    (hlock : ∀ l, P.lock l = none ∨ Q.lock l = none)
    (hstack : ∀ t, P.stack t = none ∨ Q.stack t = none) :
    (s.patch c P sh₁).patch c' Q sh = (s.patch c' Q sh₂).patch c P sh := by
  simp only [State.patch, State.mk.injEq, true_and]
  refine ⟨?_, Function.update_comm hne _ _ _, Function.update_comm hne _ _ _,
    Function.update_comm hne _ _ _, ?_⟩
  · funext l
    obtain hl | hl := hlock l <;> rw [hl] <;> rfl
  · funext t
    obtain ht | ht := hstack t <;> rw [ht] <;> rfl

end Patch

section Local

/-- The step is a patch of what the CPU sees and of the places `W`. -/
structure Local (nofile : ℕ) (s : State n C) (c : C) (x : Choice) (s₁ : State n C) (P : Patch n C)
    (W : List (Place n)) : Prop where
  fits : P.Fits s c
  eq : s₁ = s.patch c P s₁.shared
  quiet : ∀ l ∉ W, l.Same s.shared s₁.shared
  again : ∀ s', s.Alike s' c → (∀ l, P.lock l = some (some c) → s'.holder l = none) →
    (x ≠ .interrupt → ∀ f, s.Top c f → ∀ l ∈ f.reads (s.me c), l.Same s.shared s'.shared) →
    ∃ s₁', s'.step nofile (c, x) = some s₁' ∧ s₁' = s'.patch c P s₁'.shared ∧
      (∀ l ∉ W, l.Same s'.shared s₁'.shared) ∧ ∀ l ∈ W, l.Same s₁.shared s₁'.shared

namespace State.Alike

theorem ctx (h : s.Alike s' c) : s'.ctx nofile c x = (s.ctx nofile c x).on s'.shared := by
  simp only [State.ctx, Ctx.on, h.me, h.noff, h.holder]

theorem update_stack (h : s.Alike s' c) (fs : List (Frame n)) :
    Function.update s'.stack (s'.running c) fs =
      fun t => ((Patch.stay s c fs).stack t).getD (s'.stack t) := by
  funext t
  rw [h.running]
  obtain rfl | ht := eq_or_ne t (s.running c)
  · rw [Function.update_self, Patch.stay_stack_self]
    rfl
  · rw [Function.update_of_ne ht, Patch.stay_stack_of_ne ht]
    rfl

theorem setStack (h : s.Alike s' c) (fs : List (Frame n)) :
    s'.setStack (s'.running c) fs = s'.patch c (.stay s c fs) s'.shared := by
  have hme : Function.update s'.me c (s.me c) = s'.me := by rw [← h.me, Function.update_eq_self]
  have hnoff : Function.update s'.noff c (s.noff c) = s'.noff := by
    rw [← h.noff, Function.update_eq_self]
  have hrunning : Function.update s'.running c (s.running c) = s'.running := by
    rw [← h.running, Function.update_eq_self]
  simp only [State.setStack, State.patch, State.mk.injEq, true_and]
  exact ⟨rfl, hme.symm, hnoff.symm, hrunning.symm, h.update_stack fs⟩

theorem setHolder (h : s.Alike s' c) (fs : List (Frame n)) (k : Lock n) (o : Option C) (d : ℕ) :
    { s'.setStack (s'.running c) fs with
      holder := Function.update s'.holder k o, noff := Function.update s'.noff c d } =
      s'.patch c { Patch.stay s c fs with lock := fun l => if l = k then some o else none, noff := d }
        s'.shared := by
  have hholder : Function.update s'.holder k o =
      fun l => (if l = k then some o else none).getD (s'.holder l) := by
    funext l
    obtain rfl | hl := eq_or_ne l k
    · rw [Function.update_self, if_pos rfl]
      rfl
    · rw [Function.update_of_ne hl, if_neg hl]
      rfl
  rw [h.setStack, hholder]
  rfl

end State.Alike

theorem Local.of_again {P : Patch n C} {W : List (Place n)} (hstep : s.step nofile (c, x) = some s₁)
    (fits : P.Fits s c)
    (again : ∀ s', s.Alike s' c → (∀ l, P.lock l = some (some c) → s'.holder l = none) →
      (x ≠ .interrupt → ∀ f, s.Top c f → ∀ l ∈ f.reads (s.me c), l.Same s.shared s'.shared) →
      ∃ s₁', s'.step nofile (c, x) = some s₁' ∧ s₁' = s'.patch c P s₁'.shared ∧
        (∀ l ∉ W, l.Same s'.shared s₁'.shared) ∧ ∀ l ∈ W, l.Same s₁.shared s₁'.shared) :
    Local nofile s c x s₁ P W := by
  obtain ⟨t, ht, heq, hquiet, -⟩ := again s (.refl s c)
    (fun l hl => ((fits.lock l _ hl).resolve_right fun h => Option.some_ne_none c h.2).1)
    fun _ _ _ l _ => Place.same_refl _ l
  obtain rfl := Option.some.inj (hstep.symm.trans ht)
  exact ⟨fits, heq, hquiet, again⟩

theorem Local.of_act {P : Patch n C} {a : Act n} (hs : s.stack (s.running c) = f :: rest)
    (hf : ∀ msg, f ≠ .panic msg) (hx : x ≠ .interrupt) (ha : code (s.ctx nofile c x) f = a)
    (hexec : ∀ sh g, a ≠ .exec sh g) (hstep : s.step nofile (c, x) = some s₁) (fits : P.Fits s c)
    (hact : ∀ s', s.Alike s' c → (∀ l, P.lock l = some (some c) → s'.holder l = none) →
      s'.act c (s'.running c) f rest a = some (s'.patch c P s'.shared)) :
    Local nofile s c x s₁ P [] := by
  refine .of_again hstep fits fun s' halike hfree hreads => ?_
  have hs' : s'.stack (s'.running c) = f :: rest := by rw [halike.running, halike.stack, hs]
  have hagree := code_reads (x := s.ctx nofile c x) (hreads hx f ⟨rest, hs⟩)
  rw [← halike.ctx, ha] at hagree
  have ha' : code (s'.ctx nofile c x) f = a := by
    cases a with
    | exec sh g => exact absurd rfl (hexec sh g)
    | _ => exact hagree
  refine ⟨s'.patch c P s'.shared, ?_, rfl, fun l _ => Place.same_refl _ l, List.forall_mem_nil _⟩
  rw [State.step_eq_act hs' hf hx, ha']
  exact hact s' halike hfree

theorem Patch.Fits.stay (fs : List (Frame n)) : (Patch.stay s c fs).Fits s c := by
  refine ⟨fun l o hl => ?_, fun t ht => .inl ?_⟩
  · cases hl
  · by_contra hne
    exact ht (Patch.stay_stack_of_ne hne)

theorem Patch.Fits.lock_stay (fs : List (Frame n)) (d : ℕ) {k : Lock n} {o : Option C}
    (hk : s.holder k = none ∧ o = some c ∨ s.holder k = some c ∧ o = none) :
    Patch.Fits { Patch.stay s c fs with lock := fun l => if l = k then some o else none, noff := d }
      s c := by
  refine ⟨fun l o' hl => ?_, (Patch.Fits.stay fs).stack⟩
  obtain ⟨rfl, ho⟩ := Option.ite_none_right_eq_some.mp hl
  rwa [← Option.some.inj ho]

theorem Sound.local_act (h : Sound s) {a : Act n} (hs : s.stack (s.running c) = f :: rest)
    (hf : ∀ msg, f ≠ .panic msg) (hx : x ≠ .interrupt) (ha : code (s.ctx nofile c x) f = a)
    (hexec : ∀ sh g, a ≠ .exec sh g) (hstep : s.step nofile (c, x) = some s₁) :
    ∃ P, Local nofile s c x s₁ P [] := by
  have hact := hstep
  rw [State.step_eq_act hs hf hx, ha] at hact
  cases a with
  | exec sh next => exact absurd rfl (hexec sh next)
  | acquire k next =>
    rw [State.act] at hact
    by_cases hk : s.holder k = some c
    · refine ⟨_, .of_act hs hf hx ha hexec hstep (.stay (.panic "acquire" :: f :: rest))
        fun s' halike _ => ?_⟩
      rw [State.act, if_pos ((halike.holder k).mpr hk), halike.setStack]
    · rw [if_neg hk] at hact
      obtain hk' : s.holder k = none := by
        by_contra hne
        rw [if_neg hne] at hact
        cases hact
      refine ⟨_, .of_act hs hf hx ha hexec hstep
        (.lock_stay (next :: rest) (s.noff c + 1) (.inl ⟨hk', rfl⟩)) fun s' halike hfree => ?_⟩
      have hnone : s'.holder k = none := hfree k (if_pos rfl)
      rw [State.act, if_neg (by rw [hnone]; exact (Option.some_ne_none c).symm), if_pos hnone,
        ← halike.setHolder, ← halike.noff]
      rfl
  | release k next =>
    by_cases hk : s.holder k = some c
    · refine ⟨_, .of_act hs hf hx ha hexec hstep
        (.lock_stay (next :: rest) (s.noff c - 1) (.inr ⟨hk, rfl⟩)) fun s' halike _ => ?_⟩
      rw [State.act, if_pos ((halike.holder k).mpr hk), ← halike.setHolder, ← halike.noff]
      rfl
    · refine ⟨_, .of_act hs hf hx ha hexec hstep (.stay (.panic "release" :: f :: rest))
        fun s' halike _ => ?_⟩
      rw [State.act, if_neg (fun hk' => hk ((halike.holder k).mp hk')), halike.setStack]
  | call callee next =>
    refine ⟨_, .of_act hs hf hx ha hexec hstep (.stay (callee :: next :: rest))
      fun s' halike _ => ?_⟩
    rw [State.act, halike.setStack]
  | ret v =>
    cases rest with
    | nil =>
      cases hact
    | cons g rest =>
      refine ⟨_, .of_act hs hf hx ha hexec hstep (.stay (g.resume v :: rest))
        fun s' halike _ => ?_⟩
      rw [State.act, halike.setStack]
  | iret =>
    cases rest with
    | nil =>
      cases hact
    | cons g rest =>
      refine ⟨_, .of_act hs hf hx ha hexec hstep (.stay (g :: rest))
        fun s' halike _ => ?_⟩
      rw [State.act, halike.setStack]
  | setProc p next =>
    refine ⟨{ Patch.stay s c (next :: rest) with me := p }, .of_act hs hf hx ha hexec
      hstep ⟨(Patch.Fits.stay (next :: rest)).lock, (Patch.Fits.stay (next :: rest)).stack⟩ fun s' halike _ => ?_⟩
    rw [State.act, halike.setStack]
    rfl
  | setContext p next =>
    obtain ⟨rfl, -⟩ := h.plays hs ha
    have hbuilt : p ∈ built (s.stack (s.running c)) := by
      rw [hs]
      exact mem_built List.mem_cons_self (Multiset.mem_singleton_self p)
    let P : Patch n C := { Patch.stay s c (next :: rest) with
      stack := fun t => if t = .proc p then some [.forkret p .release]
        else (Patch.stay s c (next :: rest)).stack t }
    have hself : P.stack (.proc p) = some [.forkret p .release] := if_pos rfl
    have hother {t : Thread n C} (ht : t ≠ .proc p) :
        P.stack t = (Patch.stay s c (next :: rest)).stack t := if_neg ht
    have hfits : P.Fits s c := by
      refine ⟨(Patch.Fits.stay (next :: rest)).lock, fun t ht => ?_⟩
      obtain rfl | hp := eq_or_ne t (.proc p)
      · exact .inr ⟨p, rfl, hbuilt⟩
      · exact (Patch.Fits.stay (next :: rest)).stack t (by rwa [← hother hp])
    refine ⟨P, .of_act hs hf hx ha hexec hstep hfits fun s' halike _ => ?_⟩
    have hstack : Function.update ((s'.patch c (.stay s c (next :: rest)) s'.shared).stack) (.proc p)
        [.forkret p .release] = (s'.patch c P s'.shared).stack := by
      funext t
      obtain rfl | hp := eq_or_ne t (.proc p)
      · simp only [State.patch, Function.update_self, hself, Option.getD_some]
      · simp only [State.patch, Function.update_of_ne hp, hother hp]
    rw [State.act, halike.setStack, State.setStack, hstack]
    rfl
  | swtchTo p next =>
    refine ⟨{ Patch.stay s c (next :: rest) with running := .proc p }, .of_act hs hf hx ha hexec
      hstep ⟨(Patch.Fits.stay (next :: rest)).lock, (Patch.Fits.stay (next :: rest)).stack⟩ fun s' halike _ => ?_⟩
    rw [State.act, halike.setStack]
    rfl
  | swtchBack next =>
    refine ⟨{ Patch.stay s c (next :: rest) with running := .cpu c }, .of_act hs hf hx ha hexec
      hstep ⟨(Patch.Fits.stay (next :: rest)).lock, (Patch.Fits.stay (next :: rest)).stack⟩ fun s' halike _ => ?_⟩
    rw [State.act, halike.setStack]
    rfl
  | panic msg =>
    refine ⟨_, .of_act hs hf hx ha hexec hstep (.stay (.panic msg :: f :: rest))
      fun s' halike _ => ?_⟩
    rw [State.act, halike.setStack]
  | block =>
    cases hact

theorem Local.of_exec {sh : Shared n} (hs : s.stack (s.running c) = f :: rest)
    (hf : ∀ msg, f ≠ .panic msg) (hx : x ≠ .interrupt) (ha : code (s.ctx nofile c x) f = .exec sh g)
    (hstep : s.step nofile (c, x) = some s₁) :
    s₁.shared = sh ∧ Local nofile s c x s₁ (.stay s c (g :: rest)) (f.writes (s.me c)) := by
  have hsh : s₁.shared = sh := by
    rw [State.step_eq_act hs hf hx, ha] at hstep
    cases hstep
    rfl
  refine ⟨hsh, .of_again hstep (.stay _) fun s' halike _ hreads => ?_⟩
  have hs' : s'.stack (s'.running c) = f :: rest := by rw [halike.running, halike.stack, hs]
  have hagree := code_reads (x := s.ctx nofile c x) (hreads hx f ⟨rest, hs⟩)
  rw [← halike.ctx, ha] at hagree
  obtain ⟨sh', ha', hsame⟩ := hagree
  refine ⟨s'.patch c (.stay s c (g :: rest)) sh', ?_, rfl, fun l hl => ?_, fun l hl => ?_⟩
  · rw [State.step_eq_act hs' hf hx, ha', State.act, halike.setStack]
    rfl
  · refine code_writes ha' ?_
    rwa [show (s'.ctx nofile c x).me = s.me c from halike.me]
  · rw [hsh]
    exact hsame l hl

theorem Local.of_interrupt (hs : s.stack (s.running c) = f :: rest) (hf : ∀ msg, f ≠ .panic msg)
    (hstep : s.step nofile (c, .interrupt) = some s₁) : ∃ P, Local nofile s c .interrupt s₁ P [] := by
  have hinterrupt {t : State n C} (ht : t.stack (t.running c) = f :: rest) :
      t.step nofile (c, .interrupt) = if t.noff c = 0 then
        some (t.setStack (t.running c) (.ext .handler (.run []) :: f :: rest)) else none := by
    simp only [State.step, ht]
  have hn : s.noff c = 0 := by
    by_contra hne
    rw [hinterrupt hs, if_neg hne] at hstep
    cases hstep
  refine ⟨_, .of_again hstep (.stay (.ext .handler (.run []) :: f :: rest)) fun s' halike _ _ => ?_⟩
  have hs' : s'.stack (s'.running c) = f :: rest := by rw [halike.running, halike.stack, hs]
  refine ⟨s'.patch c (.stay s c (.ext .handler (.run []) :: f :: rest)) s'.shared, ?_, rfl,
    fun l _ => Place.same_refl _ l, List.forall_mem_nil _⟩
  rw [hinterrupt hs', if_pos (halike.noff.trans hn), halike.setStack]

/-- Each step is a patch, and only a statement on the shared data writes places. -/
theorem Sound.local_step (h : Sound s) (hstep : s.step nofile (c, x) = some s₁) :
    ∃ f, s.Top c f ∧ ∃ P W, Local nofile s c x s₁ P W ∧ ∀ l ∈ W, l ∈ f.writes (s.me c) ∧
      ∃ g, x ≠ .interrupt ∧ code (s.ctx nofile c x) f = .exec s₁.shared g := by
  obtain ⟨f, rest, hs⟩ : ∃ f rest, s.stack (s.running c) = f :: rest := by
    obtain ⟨f, rest, -, hs, -⟩ := h.turn hstep
    exact ⟨f, rest, hs⟩
  refine ⟨f, ⟨rest, hs⟩, ?_⟩
  have hf : ∀ msg, f ≠ .panic msg := by
    rintro msg rfl
    rw [State.step, hs] at hstep
    cases hstep
  obtain rfl | hx := eq_or_ne x .interrupt
  · obtain ⟨P, hP⟩ := Local.of_interrupt hs hf hstep
    exact ⟨P, [], hP, List.forall_mem_nil _⟩
  cases ha : code (s.ctx nofile c x) f with
  | exec sh g =>
    obtain ⟨rfl, hP⟩ := Local.of_exec hs hf hx ha hstep
    exact ⟨_, _, hP, fun l hl => ⟨hl, g, hx, rfl⟩⟩
  | _ =>
    obtain ⟨P, hP⟩ := h.local_act hs hf hx ha (by rintro _ _ ⟨⟩) hstep
    exact ⟨P, [], hP, List.forall_mem_nil _⟩

end Local

section Diamond

variable {P Q : Patch n C} {W : List (Place n)}

omit [DecidableEq C] in
theorem Patch.Fits.stack_running (hP : P.Fits s c) (h : Sound s) (hne : c ≠ c') :
    P.stack (s.running c') = none := by
  by_contra hsome
  obtain ht | ⟨p, ht, hp⟩ := hP.stack _ hsome
  · exact hne (h.one c c' ht.symm)
  · exact h.idle_of_used (.inl (h.built _ p hp)) c' ht

/-- A step of one CPU does not change what another sees. -/
theorem Local.alike (hP : Local nofile s c x s₁ P W) (h : Sound s) (hne : c ≠ c') : s.Alike s₁ c' := by
  rw [hP.eq]
  refine ⟨Function.update_of_ne hne.symm _ _, Function.update_of_ne hne.symm _ _,
    Function.update_of_ne hne.symm _ _, ?_, fun l => ?_⟩
  · simp only [State.patch, hP.fits.stack_running h hne, Option.getD_none]
  · cases ho : P.lock l with
    | none => simp only [State.patch, ho, Option.getD_none]
    | some o =>
      simp only [State.patch, ho, Option.getD_some]
      obtain ⟨hl, rfl⟩ | ⟨hl, rfl⟩ := hP.fits.lock l o ho
      · simp [hl, hne]
      · simp [hl, hne]

omit [DecidableEq C] in
theorem Patch.Fits.stack_disjoint (hP : P.Fits s c) (hQ : Q.Fits s c') (h : Sound s) (hne : c ≠ c')
    (t : Thread n C) : P.stack t = none ∨ Q.stack t = none := by
  by_contra hboth
  obtain ⟨hp, hq⟩ := not_or.mp hboth
  obtain rfl | ⟨j, rfl, hj⟩ := hP.stack t hp
  · exact hq (hQ.stack_running h hne.symm)
  · obtain ht | ⟨j', ht, hj'⟩ := hQ.stack _ hq
    · rw [ht] at hp
      exact hp (hP.stack_running h hne)
    · cases ht
      exact hne (h.one c c' (h.builtBy _ _ j hj hj'))

theorem reads_same {b : C} (hr : (kernel n nofile b).Reachable s) (hne : c ≠ c')
    (hstep : s.step nofile (c', y) = some s₂) (hy : y ≠ .interrupt) (hf : s.Top c f)
    (hP : Local nofile s c x s₁ P W) (hW : ∀ l ∈ W, l ∈ f.writes (s.me c) ∧
      ∃ g, x ≠ .interrupt ∧ code (s.ctx nofile c x) f = .exec s₁.shared g) (hg : s.Top c' g) :
    ∀ l ∈ g.reads (s.me c'), l.Same s.shared s₁.shared := by
  intro l hl
  by_cases hlW : l ∈ W
  swap
  · exact hP.quiet l hlW
  obtain ⟨hw, next, -, ha⟩ := hW l hlW
  have hharmless := (race_free hr hne hf hg hw).2 hl
  cases l with
  | started =>
    -- The CPU that waits for `started` takes no step before it is set.
    obtain rfl := Frame.eq_start hw
    have hfalse : s.shared.started = false :=
      (Booted.of_reachable hr).started c _ (hf.base_start (.of_reachable hr)) rfl
    obtain ⟨pc, rfl⟩ := g.reads_may _ _ hl
    obtain ⟨rest, hs⟩ := hg
    have hwaiting : code (s.ctx nofile c' y) (.main .waiting) = .block := by
      rw [code, main, State.ctx, hfalse]
      rfl
    cases pc with
    | waiting =>
      rw [State.step_eq_act hs (by rintro _ ⟨⟩) hy, hwaiting] at hstep
      cases hstep
    | _ => cases hl
  | parent j =>
    obtain ⟨habandons, hnone⟩ := hharmless
    -- `freeproc` stores the null pointer that is there already.
    have hsh : s₁.shared = s.shared.freeproc j := by
      unfold Frame.abandons at habandons
      split at habandons
      all_goals cases habandons
      · exact (Act.exec.inj ha).1.symm
      · exact (Act.exec.inj ha).1.symm
    rw [hsh]
    exact hnone.trans (by rw [Shared.freeproc_parent, Function.update_self])
  | _ => exact hharmless.elim

theorem State.patch_holder {sh : Shared n} {k : Lock n} {o : Option C} (ho : P.lock k = some o) :
    (s.patch c P sh).holder k = o := by
  rw [State.patch]
  exact congrArg (Option.getD · _) ho

omit [DecidableEq C] in
theorem Patch.Fits.free {k : Lock n} (hP : P.Fits s c) (hk : P.lock k = some (some c)) :
    s.holder k = none :=
  ((hP.lock k _ hk).resolve_right fun h => Option.some_ne_none c h.2).1

theorem Local.free {k : Lock n} (hQ : Local nofile s c' y s₂ Q W) (hfree : s.holder k = none)
    (hk : Q.lock k ≠ some (some c')) : s₂.holder k = none := by
  rw [hQ.eq]
  cases ho : Q.lock k with
  | none =>
    rw [State.patch, ← hfree]
    exact congrArg (Option.getD · _) ho
  | some o =>
    obtain ⟨-, rfl⟩ | ⟨hheld, -⟩ := hQ.fits.lock k o ho
    · exact absurd ho hk
    · cases hfree.symm.trans hheld

omit [DecidableEq C] in
theorem Patch.Fits.lock_disjoint (hP : P.Fits s c) (hQ : Q.Fits s c') (hne : c ≠ c')
    (hboth : ¬∃ l, P.lock l = some (some c) ∧ Q.lock l = some (some c')) (l : Lock n) :
    P.lock l = none ∨ Q.lock l = none := by
  cases ho : P.lock l with
  | none => exact .inl rfl
  | some o =>
    cases ho' : Q.lock l with
    | none => exact .inr rfl
    | some o' =>
      obtain ⟨hl, rfl⟩ | ⟨hl, rfl⟩ := hP.lock l o ho
      · obtain ⟨-, rfl⟩ | ⟨hl', -⟩ := hQ.lock l o' ho'
        · exact absurd ⟨l, ho, ho'⟩ hboth
        · cases hl.symm.trans hl'
      · obtain ⟨hl', -⟩ | ⟨hl', -⟩ := hQ.lock l o' ho'
        · cases hl.symm.trans hl'
        · exact absurd (Option.some.inj (hl.symm.trans hl')) hne

/-- Steps of two CPUs can be taken in either order, unless both take the same lock. -/
theorem steps_commute {b : C} (hr : (kernel n nofile b).Reachable s) (hne : c ≠ c')
    (h₁ : s.step nofile (c, x) = some s₁) (h₂ : s.step nofile (c', y) = some s₂) :
    (∃ t, s₁.step nofile (c', y) = some t ∧ s₂.step nofile (c, x) = some t) ∨
      ∃ l, s.holder l = none ∧ s₁.holder l = some c ∧ s₂.holder l = some c' := by
  have h := Sound.of_reachable hr
  obtain ⟨f, hf, P, W, hP, hW⟩ := h.local_step h₁
  obtain ⟨g, hg, Q, V, hQ, hV⟩ := h.local_step h₂
  by_cases hlock : ∃ l, P.lock l = some (some c) ∧ Q.lock l = some (some c')
  · obtain ⟨l, hl, hl'⟩ := hlock
    refine .inr ⟨l, hP.fits.free hl, ?_, ?_⟩
    · rw [hP.eq]
      exact State.patch_holder hl
    · rw [hQ.eq]
      exact State.patch_holder hl'
  obtain ⟨t, ht, heq, hquiet, hsame⟩ := hQ.again s₁ (hP.alike h hne)
    (fun l hl => hP.free (hQ.fits.free hl) fun hl' => hlock ⟨l, hl', hl⟩)
    fun hy _ htop => reads_same hr hne h₂ hy hf hP hW htop
  obtain ⟨t', ht', heq', hquiet', hsame'⟩ := hP.again s₂ (hQ.alike h hne.symm)
    (fun l hl => hQ.free (hP.fits.free hl) fun hl' => hlock ⟨l, hl, hl'⟩)
    fun hx _ htop => reads_same hr hne.symm h₁ hx hg hQ hV htop
  have hshared : t'.shared = t.shared := by
    refine Place.same_ext fun l => ?_
    by_cases hlW : l ∈ W
    · have hlV : l ∉ V := fun hlV => (race_free hr hne hf hg (hW l hlW).1).1 (hV l hlV).1
      exact (hsame' l hlW).symm.trans (hquiet l hlV)
    · by_cases hlV : l ∈ V
      · exact (hquiet' l hlW).symm.trans (hsame l hlV)
      · exact (hquiet' l hlW).symm.trans
          ((hQ.quiet l hlV).symm.trans ((hP.quiet l hlW).trans (hquiet l hlV)))
  refine .inl ⟨t, ht, ht'.trans (congrArg some ?_)⟩
  calc t' = s₂.patch c P t'.shared := heq'
    _ = (s.patch c' Q s₂.shared).patch c P t.shared := by rw [hshared, ← hQ.eq]
    _ = (s.patch c P s₁.shared).patch c' Q t.shared :=
      State.patch_comm hne.symm (fun l => (hP.fits.lock_disjoint hQ.fits hne hlock l).symm) (hQ.fits.stack_disjoint hP.fits h hne.symm)
    _ = t := by rw [← hP.eq, ← heq]

theorem steps_commute_boot : ∃ s s₁ s₂ : State 1 (Fin 2), (kernel 1 0 0).Reachable s ∧
    s.step 0 (0, .run) = some s₁ ∧ s.step 0 (1, .interrupt) = some s₂ ∧
    ((∃ t, s₁.step 0 (1, .interrupt) = some t ∧ s₂.step 0 (0, .run) = some t) ∨
      ∃ l, s.holder l = none ∧ s₁.holder l = some 0 ∧ s₂.holder l = some 1) := by
  have hrun : ∃ s s₁ s₂ : State 1 (Fin 2), (kernel 1 0 0).run (kernel 1 0 0).init (bootstrap 0) = some s ∧
      s.step 0 (0, .run) = some s₁ ∧ s.step 0 (1, .interrupt) = some s₂ := ⟨_, _, _, rfl, rfl, rfl⟩
  obtain ⟨s, s₁, s₂, hs, h₁, h₂⟩ := hrun
  have hr := System.reachable_of_run _ hs
  exact ⟨s, s₁, s₂, hr, h₁, h₂, steps_commute hr (by decide) h₁ h₂⟩

end Diamond

end MultithreadMayhem.Kernel
