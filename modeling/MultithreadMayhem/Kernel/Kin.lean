import MultithreadMayhem.Kernel.Parents
import MultithreadMayhem.Kernel.Remains
import MultithreadMayhem.Kernel.Tidy

/-!
# The tree of processes

Every process but the first has a parent, and the parent is alive. `kfork` gives a new
process its parent before it can run, and `kexit` gives the children to the first
process before it makes a zombie; the first process never exits.
-/

namespace MultithreadMayhem.Kernel

open Foundation

variable {n nofile : ℕ} {C : Type} {x : Ctx n} {a : Act n} {f g r : Frame n} {i j p q : Fin n}
  {rest : List (Frame n)} {sh sh' : Shared n} {e : Option (Event n)} {t : Thread n C}

def Shared.Rooted (sh : Shared n) : Prop := ∃ i, sh.initproc = some i ∧ sh.Alive i

def KexitPc.childless : KexitPc → Bool
  | .wakeup | .waking | .acquire | .setXstate | .setState | .releaseWait | .sched | .scheduling
  | .zombieExit => true
  | _ => false

def ReparentPc.seen : ReparentPc n → ℕ
  | .loop i => i
  | .setParent pp => pp
  | .wakeup pp | .waking pp => pp + 1
  | .done => n

def KforkPc.Kin (sh : Shared n) : KforkPc n → Prop
  | .release np pid | .acquireWait np pid | .setParent np pid =>
    sh.parent np = none ∧ (sh.proc np).pid = pid
  | .releaseWait np _ | .reacquire np _ | .setState np _ => sh.parent np ≠ none
  | _ => True

def UserinitPc.Kin (sh : Shared n) : UserinitPc n → Prop
  | .setCwd (some p) | .setState p => sh.initproc = some p
  | .setCwd none => True
  | .release _ | .done => sh.Rooted
  | _ => sh.initproc = none

/-- What the frame has established about the tree of processes. -/
def Frame.Kin (sh : Shared n) : Frame n → Prop
  | kexit p _ pc => pc = .testInit ∨ sh.started = true ∧ sh.initproc ≠ some p ∧
      (pc.childless = true → ∀ j, sh.parent j ≠ some p)
  | reparent p pc => sh.started = true ∧ sh.initproc ≠ some p ∧
      ∀ j : Fin n, j < pc.seen → sh.parent j ≠ some p
  | kfork p pc => sh.Alive p ∧ pc.Kin sh
  | kwait p _ _ => sh.Alive p
  | userinit pc => pc.Kin sh
  | main .userinit => sh.initproc = none
  | main .start => sh.Rooted
  | _ => True

namespace Frame

def kinless (f : Frame n) : Bool :=
  match f.fn with
  | .idle | .userinit | .kfork _ | .reparent _ | .kexit _ | .kwait _ => false
  | _ => true

theorem kin_of_kinless (h : f.kinless = true) : f.Kin sh := by
  cases f with
  | main | userinit | kfork | reparent | kexit | kwait => cases h
  | _ => trivial

theorem kinless_congr (h : g.fn = f.fn) : g.kinless = f.kinless := by
  unfold kinless
  rw [h]

end Frame

section Goes

theorem kexit_kin {status : Int} {pc : KexitPc} (ha : code x (.kexit p status pc) = a)
    (hnext : a.next = some g) (hstarted : x.shared.started = true)
    (hk : (Frame.kexit p status pc).Kin x.shared) : g.Kin (a.shared x.shared) := by
  obtain ⟨pc', rfl, hgoes⟩ := kexit_goes ha hnext
  generalize a.shared x.shared = sh at hgoes ⊢
  cases hgoes with
  | start hp => exact .inr ⟨hstarted, hp, by rintro ⟨⟩⟩
  | _ =>
    obtain hk | ⟨-, hinit, hnone⟩ := hk
    · cases hk
    · exact .inr ⟨hstarted, hinit, hnone⟩

theorem reparent_kin {pc : ReparentPc n} (ha : code x (.reparent p pc) = a)
    (hnext : a.next = some g) (hk : (Frame.reparent p pc).Kin x.shared) :
    g.Kin (a.shared x.shared) := by
  obtain ⟨hstarted, hinit, hseen⟩ := hk
  cases pc with
  | loop i =>
    simp only [code, reparent] at ha
    split at ha
    · split at ha
      · subst ha
        cases hnext
        exact ⟨hstarted, hinit, hseen⟩
      · rename_i hi hne
        subst ha
        cases hnext
        refine ⟨hstarted, hinit, fun j hj => ?_⟩
        obtain hj | hj := Nat.lt_succ_iff_lt_or_eq.mp hj
        · exact hseen j hj
        · obtain rfl : j = ⟨i, hi⟩ := Fin.ext hj
          exact hne
    · rename_i hi
      subst ha
      cases hnext
      exact ⟨hstarted, hinit, fun j _ => hseen j (j.isLt.trans_le (not_lt.mp hi))⟩
  | setParent pp =>
    subst ha
    cases hnext
    refine ⟨hstarted, hinit, fun j hj => ?_⟩
    change Function.update x.shared.parent pp x.shared.initproc j ≠ some p
    obtain rfl | hne := eq_or_ne j pp
    · rwa [Function.update_self]
    · rw [Function.update_of_ne hne]
      exact hseen j (lt_of_le_of_ne (Nat.le_of_lt_succ hj) (Fin.val_ne_of_ne hne))
  | wakeup pp =>
    subst ha
    cases hnext
    exact ⟨hstarted, hinit, hseen⟩
  | _ =>
    subst ha
    cases hnext

theorem kfork_kin {pc : KforkPc n} (ha : code x (.kfork p pc) = a) (hnext : a.next = some g)
    (hp : (a.shared x.shared).Alive p) (hmade : ∀ np, pc = .readPid np → x.shared.parent np = none)
    (hk : pc.Kin x.shared) : g.Kin (a.shared x.shared) := by
  cases pc with
  | uvmcopy np | filedup np i =>
    simp only [code, kfork] at ha
    repeat' split at ha
    all_goals
      subst ha
      cases hnext
      exact ⟨hp, trivial⟩
  | readPid np =>
    subst ha
    cases hnext
    exact ⟨hp, hmade np rfl, rfl⟩
  | setParent np pid =>
    subst ha
    cases hnext
    refine ⟨hp, ?_⟩
    change Function.update x.shared.parent np (some p) np ≠ none
    rw [Function.update_self]
    rintro ⟨⟩
  | setState np pid =>
    subst ha
    cases hnext
    exact ⟨hp, trivial⟩
  | _ =>
    subst ha
    cases hnext <;> exact ⟨hp, hk⟩

theorem userinit_kin {pc : UserinitPc n} (ha : code x (.userinit pc) = a) (hnext : a.next = some g)
    (hk : pc.Kin x.shared) : g.Kin (a.shared x.shared) := by
  cases pc with
  | setInitproc p =>
    subst ha
    cases hnext
    cases p with
    | none => trivial
    | some p => exact rfl
  | setCwd p =>
    cases p with
    | none =>
      subst ha
      cases hnext
    | some p =>
      subst ha
      cases hnext
      exact hk
  | setState p =>
    subst ha
    cases hnext
    refine ⟨p, hk, ?_⟩
    change ((x.shared.setState p .runnable).states p).alive = true
    rw [Shared.states_setState, Function.update_self]
    rfl
  | _ =>
    subst ha
    cases hnext <;> exact hk

theorem next_kin (ha : code x f = a) (hnext : a.next = some g) (hfn : g.fn = f.fn)
    (hstarted : ∀ p, f.fn = .kexit p → x.shared.started = true)
    (halive : ∀ p, f.InFamily p → (∀ status pc, f ≠ .kexit p status pc) → (a.shared x.shared).Alive p)
    (hmade : ∀ p np, f = .kfork p (.readPid np) → x.shared.parent np = none)
    (hk : f.Kin x.shared) : g.Kin (a.shared x.shared) := by
  cases f with
  | kexit p status pc => exact kexit_kin ha hnext (hstarted p rfl) hk
  | reparent p pc => exact reparent_kin ha hnext hk
  | kfork p pc =>
    refine kfork_kin ha hnext (halive p (.inl rfl) fun _ _ => nofun) (fun np hpc => ?_) hk.2
    exact hmade p np (by rw [hpc])
  | userinit pc => exact userinit_kin ha hnext hk
  | kwait p addr pc =>
    obtain ⟨addr', pc', rfl⟩ := Frame.eq_kwait_of_fn hfn
    exact halive p (.inr (.inr rfl)) fun _ _ => nofun
  | main pc =>
    cases pc with
    | waiting =>
      simp only [code, main] at ha
      split at ha <;> subst ha <;> cases hnext
      trivial
    | initializing =>
      subst ha
      cases hnext
    | _ =>
      subst ha
      cases hnext
      trivial
  | scheduler pc =>
    cases onward_of_idle ha rfl hnext with
    | stay | scheduler => trivial
    | boot hf => cases hf
  | ext kind pc =>
    refine Frame.kin_of_kinless ?_
    rw [Frame.kinless_congr hfn]
    cases kind <;> rfl
  | _ => exact Frame.kin_of_kinless (Frame.kinless_congr hfn)

theorem call_kin {callee : Frame n} (ha : code x f = .call callee g) (hfn : g.fn = f.fn)
    (hawaits : g.Awaits callee.fn) (halive : ∀ p, callee.InFamily p → x.shared.Alive p)
    (hk : f.Kin x.shared) : callee.Kin x.shared := by
  have hstarts := code_starts ha
  cases callee with
  | kexit p status pc =>
    cases pc with
    | testInit => exact .inl rfl
    | _ => cases hstarts
  | reparent p pc =>
    obtain ⟨status, rfl⟩ := hawaits.of_reparent
    obtain ⟨status', pc', rfl⟩ := Frame.eq_kexit_of_fn hfn.symm
    cases pc' with
    | reparent =>
      cases ha
      obtain hk | ⟨hstarted, hinit, -⟩ := hk
      · cases hk
      · exact ⟨hstarted, hinit, fun j hj => absurd hj (Nat.not_lt_zero _)⟩
    | testInit | testFile fd | sched =>
      simp only [code, kexit, Ctx.withProc] at ha
      repeat' split at ha
      all_goals cases ha
    | _ => cases ha
  | kfork p pc =>
    cases pc with
    | allocproc => exact ⟨halive p (.inl rfl), trivial⟩
    | _ => cases hstarts
  | kwait p addr pc => exact halive p (.inr (.inr rfl))
  | userinit pc =>
    obtain rfl := hawaits.of_userinit
    cases onward_of_idle ha hfn.symm rfl with
    | stay =>
      cases ha
    | boot hf =>
      cases f with
      | main pc' =>
        cases pc' with
        | userinit =>
          cases ha
          exact hk
        | _ => first | cases ha | cases hf
      | _ => cases hf
  | main pc => cases hstarts
  | _ => trivial

theorem resume_kin {v : Val n} (ha : code x f = .ret v) (hawaits : r.Awaits f.fn)
    (hf : f.Kin x.shared) (hr : r.Kin x.shared) : (r.resume v).Kin x.shared := by
  generalize hfn : f.fn = fn at hawaits
  cases hawaits.calls with
  | userinit =>
    cases f with
    | userinit pc =>
      cases pc with
      | done => exact hf
      | setCwd p => cases p <;> cases ha
      | _ => cases ha
    | ext kind => cases kind <;> cases hfn
    | _ => cases hfn
  | initAllocproc =>
    cases v with
    | int v => exact hr
    | proc p => exact hr
  | allocpid => cases v <;> trivial
  | forkAllocproc =>
    obtain _ | _ | np := v
    · exact hr
    · exact hr
    · exact hr
  | reparentWakeup => exact hr
  | fileclose | beginOp | iput | endOp | exitWakeup | exitSched =>
    obtain hr | ⟨hstarted, hinit, hnone⟩ := hr
    · cases hr
    · exact .inr ⟨hstarted, hinit, hnone⟩
  | reparent =>
    obtain hr | ⟨hstarted, hinit, -⟩ := hr
    · cases hr
    obtain ⟨pc, rfl⟩ := Frame.eq_reparent_of_fn hfn
    cases pc with
    | done => exact .inr ⟨hstarted, hinit, fun _ j => hf.2.2 j j.isLt⟩
    | loop i =>
      simp only [code, reparent] at ha
      repeat' split at ha
      all_goals cases ha
    | _ => cases ha
  | waitKilled => cases v <;> exact hr
  | waitSleep => exact hr
  | kexec | sysFork | sysExit | sysWait | sysPid | sysOther => cases v <;> trivial
  | _ => trivial

end Goes

section Writes

variable {t : Thread n C}

theorem Write.alive (hw : Write x t sh f g e) (hrel : f.Relies x t) (ha : code x f = .exec sh g)
    (hj : x.shared.Alive j) : sh.Alive j ∨ ∃ status, f = .kexit j status .setState := by
  cases hw.state_write hrel ha j with
  | same hst =>
    rw [Shared.Alive, hst]
    exact .inl hj
  | move hold hnew => exact .inl hnew
  | init hf =>
    subst hf
    rw [Shared.Alive, hrel.knows (j, .unused) (List.mem_singleton_self _)] at hj
    cases hj
  | publish hf hnew => exact .inl hnew
  | exit hf => exact .inr ⟨_, hf⟩
  | free hf =>
    obtain hst | hst := hf.ends hrel
    · rw [Shared.Alive, hst] at hj
      cases hj
    · rw [Shared.Alive, hst] at hj
      cases hj

theorem started_mono (ha : code x f = .exec sh g) (h : x.shared.started = true) :
    sh.started = true := by
  obtain hsame | ⟨-, -, hstarted⟩ := (code_deed ha).started
  · exact hsame.trans h
  · exact hstarted

theorem ParentWrite.not_child (hw : ParentWrite x sh f g j) (hj : x.shared.parent j ≠ some p)
    (hinit : x.shared.initproc ≠ some p) (hf : ¬f.InFamily p) : sh.parent j ≠ some p := by
  cases hw with
  | same hparent => rwa [hparent]
  | fork hfork hparent =>
    subst hfork
    rw [hparent]
    rintro ⟨⟩
    exact hf (.inl rfl)
  | reparent hf hparent => rwa [hparent]
  | free hf hparent =>
    rw [hparent]
    exact nofun

theorem ParentWrite.raised (hw : ParentWrite x sh f g j) (hj : x.shared.parent j ≠ none)
    (hroot : ∀ p, f = .reparent p (.setParent j) → x.shared.initproc ≠ none)
    (hfree : ∀ e, ¬f.Frees x.shared j g e) : sh.parent j ≠ none := by
  cases hw with
  | same hparent => rwa [hparent]
  | fork hf hparent =>
    rw [hparent]
    exact nofun
  | reparent hf hparent =>
    rw [hparent]
    exact hroot _ hf
  | free hf => exact absurd hf (hfree _)

theorem mem_built {fs : List (Frame n)} (hf : f ∈ fs) (hj : j ∈ f.builds) : j ∈ built fs := by
  induction fs with
  | nil => cases hf
  | cons r fs ih =>
    obtain rfl | hf := List.mem_cons.mp hf
    · exact Multiset.mem_add.mpr (.inl hj)
    · exact Multiset.mem_add.mpr (.inr (ih hf))

end Writes

variable [DecidableEq C] {s s' : State n C} {c : C} {y : Choice}

namespace Sound

omit [DecidableEq C] in
theorem not_builds (h : Sound s) (hs : s.stack (s.running c) = f :: rest) (hmem : r ∈ s.stack t)
    (hrest : t = s.running c → r ∈ rest) (hr : j ∈ r.builds) : j ∉ f.builds := by
  intro hf
  have hmine : j ∈ built (s.stack (s.running c)) := by
    rw [hs]
    exact Multiset.mem_add.mpr (.inl hf)
  have hbelow := mem_built (hrest (h.builtBy _ _ j (mem_built hmem hr) hmine)) hr
  have honce := h.builtOnce (s.running c)
  rw [hs, built_cons] at honce
  exact Multiset.disjoint_left.mp (Multiset.nodup_add.mp honce).2.2 hf hbelow

theorem not_frees (h : Sound s) (hs : s.stack (s.running c) = f :: rest)
    (hused : s.shared.states j = .used) (hf : j ∉ f.builds) (e : Event n) :
    ¬f.Frees s.shared j g e := by
  intro hfrees
  cases hfrees with
  | alloc | fork => exact hf (Multiset.mem_singleton_self j)
  | @reap p addr pid =>
    have hrel : (Frame.kwait p addr (.freeproc j pid)).Relies (s.ctx 0 c .run) (s.running c) :=
      h.relies hs .run
    cases hused.symm.trans (hrel.knows (j, .zombie) (List.mem_singleton_self _))

theorem callee_alive (h : Sound s) (hs : s.stack (s.running c) = f :: rest)
    (ha : code (s.ctx nofile c y) f = .call r g) (hp : r.InFamily p) : s.shared.Alive p := by
  have hon : s.running c = .proc p := hp.on (h.disciplined hs ha).2.2.2.2.2.2
  have hl : r.leaving = f.leaving := (h.plays hs ha).2.2.2.2.2.2.2
  have hcallee : r.leaving = false := by
    have hstarts := code_starts ha
    obtain hp | hp | hp := hp
    · obtain ⟨pc, rfl⟩ := Frame.eq_kfork_of_fn hp
      rfl
    · obtain ⟨status, pc, rfl⟩ := Frame.eq_kexit_of_fn hp
      cases pc with
      | testInit => rfl
      | _ => cases hstarts
    · obtain ⟨addr, pc, rfl⟩ := Frame.eq_kwait_of_fn hp
      rfl
  have hrun : s.shared.states p = .running :=
    h.not_leaving hon (by rw [← hon, hs, leavingTop_cons, ← hl, hcallee])
  rw [Shared.Alive, hrun]
  rfl

omit [DecidableEq C] in
theorem base_of_main (h : Sound s) {pc : MainPc} (hmem : .main pc ∈ s.stack t) :
    ∃ c, t = .cpu c ∧ s.base c = some (.main pc) := by
  obtain ⟨pre, below, hstack⟩ := List.append_of_mem hmem
  have hok := h.stack t
  rw [hstack] at hok
  obtain ⟨c, rfl⟩ : ∃ c, t = .cpu c := hok.drop.on
  refine ⟨c, rfl, ?_⟩
  rw [State.base, hstack, hok.drop.rest_eq_nil (.inl rfl), List.getLast?_concat]

end Sound

namespace Booted

theorem initproc_eq (hb : Booted s) (h : Sound s) (hs : s.stack (s.running c) = f :: rest)
    (ha : code (s.ctx nofile c y) f = .exec sh g) (hstarted : s.shared.started = true) :
    sh.initproc = s.shared.initproc := by
  obtain hsame | ⟨p, rfl⟩ := (code_deed ha).initproc_eq
  · exact hsame
  · have hs' : s.stack (s.running c) = [] ++ .userinit (.setInitproc p) :: rest := hs
    obtain ⟨-, -, -, -, hfalse⟩ := hb.not_started h hs'
    rw [hfalse] at hstarted
    cases hstarted

theorem initproc_boot (hb : Booted s) (h : Sound s) (hs : s.stack (s.running c) = f :: rest)
    (ha : code (s.ctx nofile c y) f = .exec sh g) (hmem : r ∈ s.stack t)
    (hrest : t = s.running c → r ∈ rest)
    (hr : (∃ pc, r = .userinit pc) ∨ r = .main .start ∨ r = .main .userinit) :
    sh.initproc = s.shared.initproc := by
  obtain hsame | ⟨p, rfl⟩ := (code_deed ha).initproc_eq
  · exact hsame
  exfalso
  have hs' : s.stack (s.running c) = [] ++ .userinit (.setInitproc p) :: rest := hs
  obtain ⟨c₀, hc₀, hrest₀, hbase₀, -⟩ := hb.not_started h hs'
  have main {pc : MainPc} (hr : r = .main pc) (hpc : (Frame.main pc : Frame n).boots = true)
      (hne : pc ≠ .initializing) : False := by
    subst hr
    obtain ⟨c₁, rfl, hbase₁⟩ := h.base_of_main hmem
    obtain rfl := hb.one c₀ c₁ _ _ hbase₀ hbase₁ rfl hpc
    cases hbase₀.symm.trans hbase₁
    exact hne rfl
  obtain ⟨pc, rfl⟩ | hr | hr := hr
  · obtain ⟨pre, below, hstack⟩ := List.append_of_mem hmem
    obtain ⟨c₁, hc₁, -, hbase₁, -⟩ := hb.not_started h hstack
    obtain rfl := hb.one c₀ c₁ _ _ hbase₀ hbase₁ rfl rfl
    have hin := hrest (hc₁.trans hc₀.symm)
    rw [hrest₀] at hin
    cases List.mem_singleton.mp hin
  · exact main hr rfl nofun
  · exact main hr rfl nofun

end Booted

/-- The tree of processes, and what the frames have established about it. -/
structure Kin (s : State n C) : Prop where
  frames : ∀ t, ∀ f ∈ s.stack t, f.Kin s.shared
  rooted : s.shared.started = true → s.shared.Rooted
  parents : ∀ j q, s.shared.parent j = some q → s.shared.started = true ∧ s.shared.Alive q
  raised : ∀ j, s.shared.Alive j ∨ s.shared.states j = .zombie → s.shared.initproc ≠ some j →
    s.shared.parent j ≠ none

namespace Kin

theorem rooted_keep (h : Sound s) (hs : s.stack (s.running c) = f :: rest)
    (ha : code (s.ctx nofile c y) f = .exec sh g) (hf : f.Kin s.shared)
    (hinit : sh.initproc = s.shared.initproc) (hroot : s.shared.Rooted) : sh.Rooted := by
  obtain ⟨i, hi, halive⟩ := hroot
  refine ⟨i, hinit.trans hi, ?_⟩
  obtain halive | ⟨status, rfl⟩ := (h.write hs ha).alive (h.relies hs y) ha halive
  · exact halive
  · obtain hf | ⟨-, hne, -⟩ := hf
    · cases hf
    · exact absurd hi hne

theorem stable (hk : Kin s) (h : Sound s) (hb : Booted s) (ht : Tidy nofile s)
    (hs : s.stack (s.running c) = f :: rest) (ha : code (s.ctx nofile c y) f = .exec sh g)
    (hmem : r ∈ s.stack t) (hrest : t = s.running c → r ∈ rest) : r.Kin sh := by
  have hold := hk.frames t r hmem
  have hon := (h.stack t).of_mem hmem
  have hrel : f.Relies (s.ctx nofile c y) (s.running c) := h.relies hs y
  have hw := h.write hs ha
  have hf : f.Kin s.shared := hk.frames (s.running c) f (by rw [hs]; exact List.mem_cons_self)
  -- The process of this frame is in no other call.
  have apart {p : Fin n} (htp : t = .proc p) (hr : (∀ q, r.fn ≠ .process q) ∧ ∀ q, r.fn ≠ .syscall q) :
      ¬f.InFamily p := by
    intro hfamily
    have hok := h.stack (s.running c)
    rw [hs] at hok
    have hmine := hrest (htp.trans (hfamily.on hok.on).symm)
    obtain ⟨q, hq⟩ | ⟨q, hq⟩ := hok.rest_of_family hfamily r hmine
    · exact hr.1 q hq
    · exact hr.2 q hq
  have alive {p : Fin n} (hapart : ¬f.InFamily p) (hp : s.shared.Alive p) : sh.Alive p := by
    obtain hp | ⟨status, rfl⟩ := hw.alive hrel ha hp
    · exact hp
    · exact absurd (.inr (.inl rfl)) hapart
  cases r with
  | kexit p status pc =>
    obtain hpc | ⟨hstarted, hinit, hnone⟩ := hold
    · exact .inl hpc
    refine .inr ⟨started_mono ha hstarted, ?_, fun hpc j => ?_⟩
    · rwa [hb.initproc_eq h hs ha hstarted]
    · exact (hw.parent j).not_child (hnone hpc j) hinit (apart hon ⟨nofun, nofun⟩)
  | reparent p pc =>
    obtain ⟨hstarted, hinit, hseen⟩ := hold
    refine ⟨started_mono ha hstarted, ?_, fun j hj => ?_⟩
    · rwa [hb.initproc_eq h hs ha hstarted]
    · exact (hw.parent j).not_child (hseen j hj) hinit (apart hon ⟨nofun, nofun⟩)
  | kwait p addr pc => exact alive (apart hon ⟨nofun, nofun⟩) hold
  | kfork p pc =>
    obtain ⟨hp, hpc⟩ := hold
    refine ⟨alive (apart hon ⟨nofun, nofun⟩) hp, ?_⟩
    have made {np : Fin n} (hnp : np ∈ (Frame.kfork p pc).builds) :
        np ∉ f.builds ∧ s.shared.states np = .used :=
      ⟨h.not_builds hs hmem hrest hnp, h.built t np (mem_built hmem hnp)⟩
    cases pc with
    | release np pid | acquireWait np pid | setParent np pid =>
      obtain ⟨hnot, hused⟩ := made (Multiset.mem_singleton_self np)
      obtain ⟨hnone, hpid⟩ := hpc
      refine ⟨?_, ?_⟩
      · cases hw.parent np with
        | same hparent => exact hparent.trans hnone
        | fork hf =>
          subst hf
          exact absurd (Multiset.mem_singleton_self np) hnot
        | reparent hf =>
          subst hf
          cases (ht.moving c _ np ⟨rest, hs⟩).symm.trans hnone
        | free hf hparent => exact hparent
      · cases hw.ids np with
        | same hpid' => exact hpid'.trans hpid
        | setPid hf =>
          subst hf
          cases hused.symm.trans (hrel.knows (np, .unused) (List.mem_singleton_self _))
        | setXstate hf hpid' => exact hpid'.trans hpid
        | free hf => exact absurd hf (h.not_frees hs hused hnot _)
    | releaseWait np pid | reacquire np pid | setState np pid =>
      obtain ⟨hnot, hused⟩ := made (Multiset.mem_singleton_self np)
      refine (hw.parent np).raised hpc (fun q hq => ?_) (h.not_frees hs hused hnot)
      subst hq
      obtain ⟨i, hi, -⟩ := hk.rooted hf.1
      change s.shared.initproc ≠ none
      rw [hi]
      exact nofun
    | _ => trivial
  | userinit pc =>
    have hinit := hb.initproc_boot h hs ha hmem hrest (.inl ⟨pc, rfl⟩)
    cases pc with
    | setCwd p =>
      cases p with
      | none => trivial
      | some p => exact hinit.trans hold
    | setState p => exact hinit.trans hold
    | release p | done => exact rooted_keep h hs ha hf hinit hold
    | _ => exact hinit.trans hold
  | main pc =>
    cases pc with
    | userinit => exact (hb.initproc_boot h hs ha hmem hrest (.inr (.inr rfl))).trans hold
    | start =>
      exact rooted_keep h hs ha hf (hb.initproc_boot h hs ha hmem hrest (.inr (.inl rfl))) hold
    | _ => trivial
  | _ => trivial

theorem frames_step (hk : Kin s) (h : Sound s) (hb : Booted s) (ht : Tidy nofile s)
    (hs : s.stack (s.running c) = f :: rest) (hturn : Turn nofile s c f rest s' e)
    (hmem : r ∈ s'.stack t) : r.Kin s'.shared := by
  have hf : f.Kin s.shared := hk.frames (s.running c) f (by rw [hs]; exact List.mem_cons_self)
  have hok := h.stack (s.running c)
  rw [hs] at hok
  -- A process that calls `fork` or `wait` runs.
  have running {p : Fin n} (hon : s.running c = .proc p) (hl : f.leaving = false) :
      s.shared.Alive p := by
    have hrun : s.shared.states p = .running :=
      h.not_leaving hon (by rw [← hon, hs, leavingTop_cons, hl])
    rw [Shared.Alive, hrun]
    rfl
  obtain ⟨pre, below, hstack⟩ := List.append_of_mem hmem
  cases hturn.comes hs hstack with
  | @old above hold hquiet =>
    have hin : r ∈ s.stack t := by
      rw [hold]
      exact List.mem_append_right _ List.mem_cons_self
    obtain ⟨hsh, -⟩ | ⟨y, g, ha, -⟩ := hturn.written
    · rw [hsh]
      exact hk.frames t r hin
    · obtain hne | heq := ne_or_eq t (s.running c)
      · exact hk.stable h hb ht hs ha hin fun heq => absurd heq hne
      · obtain ⟨-, hsh⟩ | hpre := hquiet heq
        · rw [hsh]
          exact hk.frames t r hin
        · refine hk.stable h hb ht hs ha hin fun _ => ?_
          rw [heq, hs] at hold
          obtain _ | ⟨f', above⟩ := above
          · exact absurd rfl hpre
          · rw [(List.cons.inj hold).2]
            exact List.mem_append_right _ List.mem_cons_self
  | @next y a htr ha hnext hsh =>
    rw [hsh]
    have hd := h.disciplined hs ha
    refine next_kin ha hnext (hd.next_fn hnext) (fun p hp => ?_) (fun p hp hne => ?_) ?_ hf
    · refine hb.started_of_running h (c := c) (q := p) ?_
      have hon := hok.on
      rwa [hp] at hon
    · have hon : s.running c = .proc p := hp.on hok.on
      have hl : f.leaving = false := by
        obtain hp | hp | hp := hp
        · obtain ⟨pc, rfl⟩ := Frame.eq_kfork_of_fn hp
          rfl
        · obtain ⟨status, pc, rfl⟩ := Frame.eq_kexit_of_fn hp
          exact absurd rfl (hne status pc)
        · obtain ⟨addr, pc, rfl⟩ := Frame.eq_kwait_of_fn hp
          rfl
      have halive := running hon hl
      cases a with
      | exec sh g =>
        obtain halive | ⟨status, hexit⟩ := (h.write hs ha).alive (h.relies hs y) ha halive
        · exact halive
        · exact absurd hexit (hne status _)
      | _ => exact halive
    · rintro p np rfl
      exact (ht.made c _ np ⟨rest, hs⟩ rfl).newborn.parent
  | @call y g htr ha hbelow hsh =>
    rw [hsh]
    have hd := h.disciplined hs ha
    exact call_kin ha hd.2.1 hd.2.2.2.1 (fun p hp => h.callee_alive hs ha hp) hf
  | @resume y v r' htr ha hrest hawaits hsh hh =>
    rw [hsh, hh]
    refine resume_kin ha hawaits hf (hk.frames (s.running c) r' ?_)
    rw [hs, hrest]
    exact List.mem_cons_of_mem _ List.mem_cons_self
  | other hh =>
    obtain rfl | ⟨msg, rfl⟩ | ⟨pc, rfl⟩ | ⟨q, rfl⟩ | ⟨q, rfl⟩ := hh <;> trivial

theorem parents_step (hk : Kin s) (h : Sound s) (hb : Booted s)
    (hs : s.stack (s.running c) = f :: rest) (ha : code (s.ctx nofile c y) f = .exec sh g)
    (hj : sh.parent j = some q) : sh.started = true ∧ sh.Alive q := by
  have hrel : f.Relies (s.ctx nofile c y) (s.running c) := h.relies hs y
  have hw := h.write hs ha
  have hf : f.Kin s.shared := hk.frames (s.running c) f (by rw [hs]; exact List.mem_cons_self)
  have alive (hstarted : s.shared.started = true) (hq : s.shared.Alive q)
      (hne : ∀ status, f ≠ .kexit q status .setState) : sh.started = true ∧ sh.Alive q := by
    refine ⟨started_mono ha hstarted, ?_⟩
    obtain hq | ⟨status, hexit⟩ := hw.alive hrel ha hq
    · exact hq
    · exact absurd hexit (hne status)
  cases hw.parent j with
  | same hparent =>
    have hold : s.shared.parent j = some q := hparent.symm.trans hj
    obtain ⟨hstarted, hq⟩ := hk.parents j q hold
    refine alive hstarted hq ?_
    rintro status rfl
    obtain hf | ⟨-, -, hnone⟩ := hf
    · cases hf
    · exact hnone rfl j hold
  | @fork p pid hfork hparent =>
    obtain rfl := Option.some.inj (hparent.symm.trans hj)
    subst hfork
    have hon : s.running c = .proc p := hrel.on
    refine alive (hb.started_of_running h hon) ?_ fun _ => by rintro ⟨⟩
    rw [Shared.Alive, show s.shared.states p = .running from hrel.self hon rfl]
    rfl
  | reparent hf' hparent =>
    subst hf'
    obtain ⟨i, hi, halive⟩ := hk.rooted hf.1
    obtain rfl : i = q := Option.some.inj (hi.symm.trans (hparent.symm.trans hj))
    exact alive hf.1 halive fun _ => by rintro ⟨⟩
  | free hf' hparent => cases hparent.symm.trans hj

theorem raised_step (hk : Kin s) (h : Sound s)
    (hs : s.stack (s.running c) = f :: rest) (ha : code (s.ctx nofile c y) f = .exec sh g)
    (hj : sh.Alive j ∨ sh.states j = .zombie) (hinit : sh.initproc ≠ some j) :
    sh.parent j ≠ none := by
  have hrel : f.Relies (s.ctx nofile c y) (s.running c) := h.relies hs y
  have hw := h.write hs ha
  have hf : f.Kin s.shared := hk.frames (s.running c) f (by rw [hs]; exact List.mem_cons_self)
  have keep (hold : s.shared.parent j ≠ none) : sh.parent j ≠ none := by
    refine (hw.parent j).raised hold (fun p hp => ?_) fun e hfrees => ?_
    · subst hp
      obtain ⟨i, hi, -⟩ := hk.rooted hf.1
      change s.shared.initproc ≠ none
      rw [hi]
      rintro ⟨⟩
    · have hst : sh.states j = .unused := by
        rw [hfrees.exec ha, Shared.states_freeproc, Function.update_self]
      rw [Shared.Alive, hst] at hj
      obtain hj | hj := hj <;> cases hj
  have hinit' : s.shared.initproc ≠ some j := by
    obtain hsame | ⟨p, rfl⟩ := (code_deed ha).initproc_eq
    · exact fun heq => hinit (hsame.trans heq)
    · rw [show s.shared.initproc = none from hf]
      rintro ⟨⟩
  have old (hold : s.shared.Alive j ∨ s.shared.states j = .zombie) : sh.parent j ≠ none :=
    keep (hk.raised j hold hinit')
  cases hw.state_write hrel ha j with
  | same hst =>
    rw [Shared.Alive, hst] at hj
    exact old hj
  | move hold => exact old (.inl hold)
  | exit hf' hold =>
    refine old (.inl ?_)
    rw [Shared.Alive, show s.shared.states j = .running from hold]
    rfl
  | init hf' hnew | free hf' hnew =>
    rw [Shared.Alive, hnew] at hj
    obtain hj | hj := hj <;> cases hj
  | publish hf' =>
    obtain rfl | ⟨p, pid, rfl⟩ := hf'
    · exact absurd hf hinit'
    · exact keep hf.2

theorem step (hk : Kin s) (h : Sound s) (hb : Booted s) (ht : Tidy nofile s)
    (hs : s.stack (s.running c) = f :: rest) (hturn : Turn nofile s c f rest s' e) : Kin s' := by
  have hframes : ∀ t, ∀ r ∈ s'.stack t, r.Kin s'.shared :=
    fun _ _ hmem => hk.frames_step h hb ht hs hturn hmem
  have hf : f.Kin s.shared := hk.frames (s.running c) f (by rw [hs]; exact List.mem_cons_self)
  obtain ⟨hsh, -⟩ | ⟨y, g, ha, -⟩ := hturn.written
  · refine ⟨hframes, ?_, ?_, ?_⟩
    · rw [hsh]
      exact hk.rooted
    · rw [hsh]
      exact hk.parents
    · rw [hsh]
      exact hk.raised
  · refine ⟨hframes, fun hstarted => ?_, fun _ _ => hk.parents_step h hb hs ha,
      fun _ => hk.raised_step h hs ha⟩
    obtain hold | hold := Bool.eq_false_or_eq_true s.shared.started
    · exact rooted_keep h hs ha hf (hb.initproc_eq h hs ha hold) (hk.rooted hold)
    · obtain hsame | ⟨rfl, -, -⟩ := (code_deed ha).started
      · cases hold.symm.trans (hsame.symm.trans hstarted)
      · refine rooted_keep h hs ha hf ?_ hf
        rw [← (Act.exec.inj ha).1]
        rfl

theorem boot (b : C) : Kin (State.boot b : State n C) where
  frames t f hf := by
    cases t with
    | cpu c =>
      change f ∈ (if c = b then [Frame.main .userinit] else [.main .waiting]) at hf
      split at hf
      · obtain rfl := List.mem_singleton.mp hf
        exact rfl
      · obtain rfl := List.mem_singleton.mp hf
        trivial
    | proc q => cases hf
  rooted hstarted := nomatch hstarted
  parents _ _ hj := nomatch hj
  raised _ hj := by
    obtain hj | hj := hj <;> cases hj

theorem of_reachable {b : C} (hs : (kernel n nofile b).Reachable s) : Kin s := by
  refine hs.invariant Kin (boot b) ?_
  intro s l s' hr hk hstep
  have h := Sound.of_reachable hr
  obtain ⟨f, rest, e, hs, hturn, -⟩ := h.turn hstep
  exact hk.step h (.of_reachable hr) (.of_reachable hr) hs hturn

end Kin

end MultithreadMayhem.Kernel
