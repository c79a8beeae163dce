import MultithreadMayhem.Kernel.Deeds
import MultithreadMayhem.Kernel.Switch

/-!
# The boot of the kernel

One CPU creates the first process, and the others wait until it has done so. So no
process runs before `initproc` is set, and `initproc` does not change afterwards.
-/

namespace MultithreadMayhem.Kernel

open Foundation

variable {n nofile : ℕ} {C : Type} {c c' : C} {f g : Frame n} {rest : List (Frame n)}

namespace Frame

def boots : Frame n → Bool
  | main .userinit | main .initializing | main .start => true
  | _ => false

inductive Onward (sh sh' : Shared n) : Frame n → Frame n → Prop
  | stay {f : Frame n} : Onward sh sh' f f
  | boot {f g : Frame n} (hf : f.boots = true) (hg : g.boots = true) : Onward sh sh' f g
  | start {pc : SchedulerPc n} (hsh : sh'.started = true) :
      Onward sh sh' (main .start) (scheduler pc)
  | join {pc : SchedulerPc n} (hsh : sh.started = true) :
      Onward sh sh' (main .waiting) (scheduler pc)
  | scheduler {pc pc' : SchedulerPc n} : Onward sh sh' (scheduler pc) (scheduler pc')

end Frame

def State.base (s : State n C) (c : C) : Option (Frame n) := (s.stack (.cpu c)).getLast?

structure Booted (s : State n C) : Prop where
  one : ∀ c c' f f', s.base c = some f → s.base c' = some f' → f.boots = true → f'.boots = true →
    c = c'
  started : ∀ c f, s.base c = some f → f.boots = true → s.shared.started = false
  scheduling : ∀ c pc, s.base c = some (.scheduler pc) → s.shared.started = true

def Act.next : Act n → Option (Frame n)
  | .acquire _ g | .release _ g | .exec _ g | .call _ g | .setProc _ g | .setContext _ g
  | .swtchTo _ g | .swtchBack g => some g
  | _ => none

def Act.shared (sh : Shared n) : Act n → Shared n
  | .exec sh' _ => sh'
  | _ => sh

theorem onward_of_idle {x : Ctx n} {a : Act n} (ha : code x f = a) (hf : f.fn = .idle)
    (hg : a.next = some g) : f.Onward x.shared (a.shared x.shared) g := by
  cases f with
  | main pc =>
    cases pc with
    | waiting =>
      simp only [code, main] at ha
      split at ha
      · subst ha
        cases hg
        exact .join ‹_›
      · subst ha
        cases hg
    | initializing =>
      subst ha
      cases hg
    | _ =>
      subst ha
      cases hg
      first | exact .boot rfl rfl | exact .start rfl
  | scheduler pc =>
    have hnext : ∃ pc', g = .scheduler pc' := by
      cases pc with
      | loop i best =>
        simp only [code, scheduler] at ha
        repeat' split at ha
        all_goals
          subst ha
          cases hg
          exact ⟨_, rfl⟩
      | test p best =>
        simp only [code, scheduler] at ha
        repeat' split at ha
        all_goals
          subst ha
          cases hg
          exact ⟨_, rfl⟩
      | _ =>
        subst ha
        cases hg
        exact ⟨_, rfl⟩
    obtain ⟨pc', rfl⟩ := hnext
    exact .scheduler
  | ext kind => cases kind <;> cases hf
  | _ => cases hf

theorem Deed.started {sh sh' : Shared n} (h : Deed sh sh' f g) : sh'.started = sh.started ∨
    f = .main .start ∧ g = .scheduler .start ∧ sh'.started = true := by
  cases h with
  | quiet h => exact .inl h.started
  | start h =>
    rw [h]
    exact .inr ⟨rfl, rfl, rfl⟩
  | _ h =>
    rw [h]
    exact .inl rfl

theorem Deed.initproc_eq {sh sh' : Shared n} (h : Deed sh sh' f g) :
    sh'.initproc = sh.initproc ∨ ∃ p, f = .userinit (.setInitproc p) := by
  cases h with
  | quiet h => exact .inl h.initproc
  | initproc h => exact .inr ⟨_, rfl⟩
  | _ h =>
    rw [h]
    exact .inl rfl

theorem Frame.Awaits.idle {fn : Fn n} (h : g.Awaits fn) (hg : g.fn = .idle) :
    g = .main .initializing := by
  cases h.calls with
  | userinit => rfl
  | @extWakeup kind | @extKilled kind | @extYield kind | @extSleep kind => cases kind <;> cases hg
  | _ => cases hg

theorem Frame.Awaits.of_userinit (h : g.Awaits .userinit) : g = .main .initializing := by
  cases h.calls
  rfl

theorem StackOk.rest_of_userinit {t : Thread n C} {pc : UserinitPc n}
    (h : StackOk t (.userinit pc :: rest)) : rest = [.main .initializing] := by
  cases rest with
  | nil => obtain hf | ⟨p, hf⟩ := h.1 <;> cases hf
  | cons g rest =>
    obtain hi | hp | hawaits := h.1
    · cases hi
    · cases hp
    · obtain rfl := hawaits.of_userinit
      rw [h.tail.rest_eq_nil (.inl rfl)]

variable [DecidableEq C] {s s' : State n C} {x : Choice}

structure BaseStep (c : C) (s s' : State n C) : Prop where
  other : ∀ c', c' ≠ c → s'.base c' = s.base c'
  onward : ∀ g, s'.base c = some g → ∃ f, s.base c = some f ∧ f.Onward s.shared s'.shared g
  started : s'.shared.started = s.shared.started ∨ s.base c = some (.main .start) ∧
    s'.base c = some (.scheduler .start) ∧ s'.shared.started = true

omit [DecidableEq C] in
theorem BaseStep.same (hbase : ∀ c, s'.base c = s.base c) (hsh : s'.shared = s.shared) :
    BaseStep c s s' :=
  ⟨fun c' _ => hbase c', fun g hg => ⟨g, (hbase c) ▸ hg, .stay⟩, .inl (by rw [hsh])⟩

theorem State.base_update {t : Thread n C} {fs : List (Frame n)}
    (hstack : ∀ c, s'.stack (.cpu c) = Function.update s.stack t fs (.cpu c))
    (hfs : ∀ c, t = .cpu c → fs.getLast? = (s.stack t).getLast?) (c : C) :
    s'.base c = s.base c := by
  rw [State.base, hstack, State.base]
  by_cases ht : .cpu c = t
  · rw [← ht, Function.update_self, hfs c ht.symm, ← ht]
  · rw [Function.update_of_ne ht]

namespace Sound

omit [DecidableEq C] in
theorem idle_of_base (h : Sound s) (hs : s.stack (.cpu c) = [f]) : f.fn = .idle := by
  have hok := h.stack (.cpu c)
  rw [hs] at hok
  obtain hf | ⟨p, hf⟩ := hok.1
  · exact hf
  · have hon := hok.on
    rw [hf] at hon
    cases hon

theorem started_eq (h : Sound s) {a : Act n} (hs : s.stack (s.running c) = f :: rest)
    (ha : code (s.ctx nofile c x) f = a) : (a.shared s.shared).started = s.shared.started ∨
      (s.running c = .cpu c ∧ rest = [] ∧ f = .main .start) ∧ a.next = some (.scheduler .start) ∧
        (a.shared s.shared).started = true := by
  cases a with
  | exec sh g =>
    obtain hsame | ⟨rfl, rfl, hstarted⟩ := (code_deed ha).started
    · exact .inl hsame
    · have hok := h.stack (s.running c)
      rw [hs] at hok
      exact .inr ⟨⟨h.running_cpu hs rfl, hok.rest_eq_nil (.inl rfl), rfl⟩, rfl, hstarted⟩
  | _ => exact .inl rfl

theorem base_next (h : Sound s) {a : Act n} (pre : List (Frame n))
    (hs : s.stack (s.running c) = f :: rest) (ha : code (s.ctx nofile c x) f = a)
    (hg : a.next = some g)
    (hstack : ∀ c', s'.stack (.cpu c') =
      Function.update s.stack (s.running c) (pre ++ g :: rest) (.cpu c'))
    (hsh : s'.shared = a.shared s.shared) : BaseStep c s s' := by
  have hstarted := h.started_eq hs ha
  rw [← hsh, hg] at hstarted
  cases rest with
  | cons r rest =>
    have hbase : ∀ c, s'.base c = s.base c := by
      refine State.base_update hstack fun c' _ => ?_
      rw [hs, List.getLast?_append, List.getLast?_cons_cons, List.getLast?_cons_cons,
        List.getLast?_cons, Option.some_or]
    refine ⟨fun c' _ => hbase c', fun g' hg' => ⟨g', hbase c ▸ hg', .stay⟩, .inl ?_⟩
    obtain hsame | ⟨⟨_, hnil, _⟩, _⟩ := hstarted
    · exact hsame
    · cases hnil
  | nil =>
    obtain hr | ⟨q, hr, hq⟩ := h.mode c
    · rw [hr] at hs hstack
      have hidle := h.idle_of_base hs
      have hf : s.base c = some f := by
        rw [State.base, hs]
        rfl
      have hg' : s'.base c = some g := by
        rw [State.base, hstack, Function.update_self, List.getLast?_concat]
      refine ⟨fun c' hc => ?_, fun g' hg'' => ?_, ?_⟩
      · have hne : (Thread.cpu c' : Thread n C) ≠ .cpu c := fun heq => hc (Thread.cpu.inj heq)
        rw [State.base, hstack, Function.update_of_ne hne, State.base]
      · cases hg'.symm.trans hg''
        refine ⟨f, hf, ?_⟩
        rw [hsh]
        exact onward_of_idle ha hidle hg
      · obtain hsame | ⟨⟨_, _, rfl⟩, hnext, hstarted⟩ := hstarted
        · exact .inl hsame
        · exact .inr ⟨hf, hg'.trans hnext, hstarted⟩
    · have hbase : ∀ c, s'.base c = s.base c := by
        refine State.base_update hstack fun c' ht => ?_
        rw [hr] at ht
        cases ht
      refine ⟨fun c' _ => hbase c', fun g' hg' => ⟨g', hbase c ▸ hg', .stay⟩, .inl ?_⟩
      obtain hsame | ⟨⟨hcpu, _⟩, _⟩ := hstarted
      · exact hsame
      · rw [hr] at hcpu
        cases hcpu

theorem base_transition (h : Sound s) (ht : Transition nofile s c s') : BaseStep c s s' := by
  have pushed {f m : Frame n} {rest : List (Frame n)} (hs : s.stack (s.running c) = f :: rest) :
      BaseStep c s (s.setStack (s.running c) (m :: f :: rest)) := by
    refine .same (State.base_update (fun _ => rfl) fun c' _ => ?_) rfl
    rw [hs, List.getLast?_cons_cons]
  cases ht with
  | acquireAgain hs ha => exact pushed hs
  | releaseOther hs ha => exact pushed hs
  | panic hs ha => exact pushed hs
  | interrupt hs hf hn => exact pushed hs
  | acquire hs ha hl => exact h.base_next [] hs ha rfl (fun _ => rfl) rfl
  | release hs ha hl => exact h.base_next [] hs ha rfl (fun _ => rfl) rfl
  | exec hs ha => exact h.base_next [] hs ha rfl (fun _ => rfl) rfl
  | @call x f callee g rest hs ha => exact h.base_next [callee] hs ha rfl (fun _ => rfl) rfl
  | setProc hs ha => exact h.base_next [] hs ha rfl (fun _ => rfl) rfl
  | swtchTo hs ha => exact h.base_next [] hs ha rfl (fun _ => rfl) rfl
  | swtchBack hs ha => exact h.base_next [] hs ha rfl (fun _ => rfl) rfl
  | @setContext x f g rest p hs ha =>
    have hne (c' : C) : (Thread.cpu c' : Thread n C) ≠ .proc p := nofun
    refine h.base_next [] hs ha rfl (fun c' => ?_) rfl
    rw [State.setStack_stack, Function.update_of_ne (hne c')]
    rfl
  | @ret x f g rest v hs ha =>
    cases rest with
    | cons r rest =>
      refine .same (State.base_update (fun _ => rfl) fun c' _ => ?_) rfl
      rw [hs, List.getLast?_cons_cons, List.getLast?_cons_cons, List.getLast?_cons_cons]
    | nil =>
      have hd := h.disciplined hs ha
      have hok := h.stack (s.running c)
      rw [hs] at hok
      obtain hisr | hpanic | hawaits := hok.1
      · exact absurd hisr hd.2.1
      · exact absurd hpanic hd.2.2
      obtain hr | ⟨q, hr, _⟩ := h.mode c
      · rw [hr] at hs
        have hg : g.fn = .idle := by
          obtain hg | ⟨p, hg⟩ := hok.tail.1
          · exact hg
          · have hon := hok.tail.on
            rw [hg, hr] at hon
            cases hon
        obtain rfl := hawaits.idle hg
        refine ⟨fun c' hc => ?_, fun g' hg' => ?_, .inl rfl⟩
        · have hne : Thread.cpu c' ≠ s.running c := by
            rw [hr]
            exact fun heq => hc (Thread.cpu.inj heq)
          rw [State.base, State.setStack_stack, Function.update_of_ne hne, State.base]
        · rw [State.base, State.setStack_stack, hr, Function.update_self] at hg'
          cases hg'
          refine ⟨.main .initializing, by rw [State.base, hs]; rfl, .boot rfl rfl⟩
      · refine .same (State.base_update (fun _ => rfl) fun c' ht => ?_) rfl
        rw [hr] at ht
        cases ht
  | @iret x f g rest hs ha =>
    refine .same (State.base_update (fun _ => rfl) fun c' _ => ?_) rfl
    rw [hs, List.getLast?_cons_cons]

end Sound

namespace Booted

omit [DecidableEq C] in
theorem step (h : Booted s) (hb : BaseStep c s s') : Booted s' := by
  -- A base frame that boots did so before, and `started` is still false then.
  have boots {c' : C} {g : Frame n} (hg : s'.base c' = some g) (hboots : g.boots = true) :
      ∃ f, s.base c' = some f ∧ f.boots = true := by
    by_cases hc : c' = c
    · subst c'
      obtain ⟨f, hf, honward⟩ := hb.onward g hg
      refine ⟨f, hf, ?_⟩
      cases honward with
      | stay => exact hboots
      | boot hf => exact hf
      | _ => cases hboots
    · exact ⟨g, (hb.other c' hc).symm.trans hg, hboots⟩
  constructor
  · intro c₁ c₂ g₁ g₂ h₁ h₂ hb₁ hb₂
    obtain ⟨f₁, h₁, hb₁⟩ := boots h₁ hb₁
    obtain ⟨f₂, h₂, hb₂⟩ := boots h₂ hb₂
    exact h.one c₁ c₂ f₁ f₂ h₁ h₂ hb₁ hb₂
  · intro c' g hg hboots
    obtain ⟨f, hf, hfb⟩ := boots hg hboots
    obtain hsame | ⟨hstart, hgone, hstarted⟩ := hb.started
    · exact hsame.trans (h.started c' f hf hfb)
    · obtain rfl := h.one c' c f _ hf hstart hfb rfl
      cases hg.symm.trans hgone
      cases hboots
  · intro c' pc hg
    have keep (hstarted : s.shared.started = true) : s'.shared.started = true := by
      obtain hsame | ⟨_, _, hstarted⟩ := hb.started
      · rw [hsame, hstarted]
      · exact hstarted
    by_cases hc : c' = c
    · subst c'
      obtain ⟨f, hf, honward⟩ := hb.onward _ hg
      cases honward with
      | stay => exact keep (h.scheduling c pc hf)
      | boot _ hgb => cases hgb
      | start hsh => exact hsh
      | join hsh => exact keep hsh
      | scheduler => exact keep (h.scheduling c _ hf)
    · exact keep (h.scheduling c' pc ((hb.other c' hc).symm.trans hg))

theorem boot (b : C) : Booted (State.boot b : State n C) := by
  have base (c : C) : (State.boot b : State n C).base c =
      if c = b then some (.main .userinit) else some (.main .waiting) := by
    change (if c = b then [Frame.main .userinit] else [Frame.main .waiting]).getLast? = _
    split <;> rfl
  have first {c : C} {f : Frame n} (hf : (State.boot b : State n C).base c = some f)
      (hfb : f.boots = true) : c = b := by
    rw [base] at hf
    split at hf
    · assumption
    · cases hf
      cases hfb
  refine ⟨fun c c' f f' h h' hb hb' => (first h hb).trans (first h' hb').symm, fun _ _ _ _ => rfl, ?_⟩
  intro c pc hf
  rw [base] at hf
  split at hf <;> cases hf

theorem of_reachable {b : C} (hs : (kernel n nofile b).Reachable s) : Booted s :=
  hs.invariant Booted (boot b) fun _ _ _ hr h ht =>
    h.step ((Sound.of_reachable hr).base_transition (State.step_transition ht))

omit [DecidableEq C] in
theorem not_started (h : Booted s) (hsound : Sound s) {t : Thread n C} {pc : UserinitPc n}
    {pre : List (Frame n)} (hs : s.stack t = pre ++ .userinit pc :: rest) :
    ∃ c, t = .cpu c ∧ rest = [.main .initializing] ∧ s.base c = some (.main .initializing) ∧
      s.shared.started = false := by
  have hok := hsound.stack t
  rw [hs] at hok
  obtain ⟨c, rfl⟩ : ∃ c, t = .cpu c := hok.drop.on
  have hrest := hok.drop.rest_of_userinit
  have hbase : s.base c = some (.main .initializing) := by
    rw [State.base, hs, hrest, List.getLast?_append]
    rfl
  exact ⟨c, rfl, hrest, hbase, h.started c _ hbase rfl⟩

omit [DecidableEq C] in
theorem started_of_running (h : Booted s) (hsound : Sound s) {q : Fin n} (hr : s.running c = .proc q) :
    s.shared.started = true := by
  obtain hr' | ⟨q', hr', hstack⟩ := hsound.mode c
  · rw [hr] at hr'
    cases hr'
  · refine h.scheduling c (.clearProc q') ?_
    rw [State.base, hstack]
    rfl

omit [DecidableEq C] in
theorem not_userinit (h : Booted s) (hsound : Sound s) {pc : UserinitPc n}
    (hs : s.stack (s.running c) = .userinit pc :: rest) (c' : C) (q : Fin n) :
    s.running c' ≠ .proc q := by
  intro hr
  have hs' : s.stack (s.running c) = [] ++ .userinit pc :: rest := hs
  obtain ⟨-, -, -, -, hfalse⟩ := h.not_started hsound hs'
  have htrue := h.started_of_running hsound hr
  rw [hfalse] at htrue
  cases htrue

end Booted

end MultithreadMayhem.Kernel
