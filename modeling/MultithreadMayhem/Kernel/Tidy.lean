import MultithreadMayhem.Kernel.Edges
import MultithreadMayhem.Kernel.Pids
import MultithreadMayhem.Kernel.Slots

/-!
# Unused slots are clean

`freeproc` leaves the open files and the directory alone, and so does `allocproc`. That an
unused slot has none follows from where its last process went: through `kexit`, which
closes all files before it makes a zombie, or back to `freeproc` while it was being made.
-/

namespace MultithreadMayhem.Kernel

open Foundation

variable {n nofile : ℕ} {C : Type} {x : Ctx n} {a : Act n} {f g : Frame n} {i j p : Fin n}
  {rest : List (Frame n)} {sh : Shared n} {m m' : Image} {e : Option (Event n)}

def Image.NoFiles (nofile : ℕ) (m : Image) : Prop :=
  (∀ fd < nofile, m.ofile fd = none) ∧ m.cwd = none

theorem Image.SameFiles.noFiles (h : m.SameFiles m') (hm : m.NoFiles nofile) : m'.NoFiles nofile := by
  rw [NoFiles, h.1, h.2]
  exact hm

/-- Nothing of an earlier process is left in the slot, except what `allocproc` sets. -/
structure Shared.Clean (nofile : ℕ) (sh : Shared n) (j : Fin n) : Prop where
  trapframe : (sh.image j).trapframe = none
  pagetable : (sh.image j).pagetable = none
  sz : (sh.image j).sz = 0
  parent : sh.parent j = none
  chan : (sh.proc j).chan = none
  xstate : (sh.proc j).xstate = 0
  noFiles : (sh.image j).NoFiles nofile

structure Shared.Newborn (sh : Shared n) (j : Fin n) : Prop where
  chan : (sh.proc j).chan = none
  xstate : (sh.proc j).xstate = 0
  syscalls : (sh.image j).syscalls = 0
  priority : (sh.proc j).priority = 31
  isThread : (sh.proc j).isThread = 0
  tgid : (sh.proc j).tgid = (sh.proc j).pid
  parent : sh.parent j = none

def KexitPc.Closed (nofile : ℕ) (m : Image) : KexitPc → Prop
  | .testInit => True
  | .testFile fd | .fileclose fd | .closing fd | .clearFile fd => ∀ i < fd, m.ofile i = none
  | .beginOp | .beginning | .iput | .putting | .endOp | .ending | .clearCwd =>
    ∀ i < nofile, m.ofile i = none
  | _ => m.NoFiles nofile

def KforkPc.Copied (nofile : ℕ) (m mp : Image) : KforkPc n → Prop
  | .copyTrapframe _ | .setA0 _ => m.sz = mp.sz ∧ m.NoFiles nofile
  | .filedup _ i => m.sz = mp.sz ∧ ∀ fd < nofile, m.ofile fd = if fd < i then mp.ofile fd else none
  | .idup _ => m.sz = mp.sz ∧ ∀ fd < nofile, m.ofile fd = mp.ofile fd
  | .copyName _ => m.sz = mp.sz ∧ (∀ fd < nofile, m.ofile fd = mp.ofile fd) ∧ m.cwd = mp.cwd
  | .readPid _ | .release _ _ =>
    m.sz = mp.sz ∧ (∀ fd < nofile, m.ofile fd = mp.ofile fd) ∧ m.cwd = mp.cwd ∧ m.name = mp.name
  | _ => m.sz = 0 ∧ m.NoFiles nofile

namespace Frame

def making : Frame n → Option (Fin n)
  | allocproc (.trapframe j) | allocproc (.pagetable j) | allocproc (.context j)
  | allocproc (.freeproc j) | allocproc (.done (some j)) | kfork _ (.uvmcopy j)
  | kfork _ (.freeproc j) | kfork _ (.setSz j) | kfork _ (.copyTrapframe j) | kfork _ (.setA0 j)
  | kfork _ (.filedup j _) | kfork _ (.idup j) | kfork _ (.copyName j) | kfork _ (.readPid j)
  | kfork _ (.release j _) => some j
  | _ => none

def Copied (nofile : ℕ) (sh : Shared n) (j : Fin n) : Frame n → Prop
  | kfork p pc => pc.Copied nofile (sh.image j) (sh.image p)
  | _ => (sh.image j).sz = 0 ∧ (sh.image j).NoFiles nofile

/-- The state of the process that the frame makes. -/
structure Made (nofile : ℕ) (sh : Shared n) (j : Fin n) (f : Frame n) : Prop where
  newborn : sh.Newborn j
  copied : f.Copied nofile sh j

theorem making_held (h : f.making = some j) : Lock.proc j ∈ f.locks ∧ f.builds = {j} := by
  unfold making at h
  split at h <;> cases h <;> exact ⟨Multiset.mem_singleton_self _, rfl⟩

theorem making_fn (h : f.making = some j) : f.fn = .allocproc ∨ ∃ p pc, f = kfork p pc := by
  unfold making at h
  split at h <;> first | exact .inl rfl | exact .inr ⟨_, _, rfl⟩ | cases h

theorem making_not_leaving (h : f.making = some j) : f.leaving = false := by
  unfold making at h
  split at h <;> first | rfl | cases h

theorem not_starts_of_making (h : f.making = some j) : f.starts = false := by
  unfold making at h
  split at h <;> first | rfl | cases h

theorem Made.congr {sh' : Shared n} (h : f.Made nofile sh j) (hproc : sh'.proc j = sh.proc j)
    (hparent : sh'.parent j = sh.parent j) (himage : sh'.image j = sh.image j)
    (hp : ∀ p pc, f = kfork p pc → sh'.image p = sh.image p) : f.Made nofile sh' j := by
  obtain ⟨⟨hchan, hxstate, hsyscalls, hpriority, hthread, htgid, hnone⟩, hcopied⟩ := h
  refine ⟨⟨?_, ?_, ?_, ?_, ?_, ?_, ?_⟩, ?_⟩
  · rwa [hproc]
  · rwa [hproc]
  · rwa [himage]
  · rwa [hproc]
  · rwa [hproc]
  · rwa [hproc]
  · rwa [hparent]
  · cases f with
    | kfork p pc =>
      rw [Copied, himage, hp p pc rfl]
      exact hcopied
    | _ =>
      change (sh'.image j).sz = 0 ∧ (sh'.image j).NoFiles nofile
      rw [himage]
      exact hcopied

end Frame

section Making

theorem setImage_self : (sh.setImage j m).image j = m := Function.update_self ..

theorem setImage_of_ne (h : p ≠ j) : (sh.setImage j m).image p = sh.image p :=
  Function.update_of_ne h ..

theorem Shared.Newborn.setImage (h : sh.Newborn j) (hm : m.syscalls = (sh.image j).syscalls) :
    (sh.setImage j m).Newborn j := by
  refine ⟨h.chan, h.xstate, ?_, h.priority, h.isThread, h.tgid, h.parent⟩
  rw [setImage_self, hm]
  exact h.syscalls

theorem allocproc_made {pc : AllocprocPc n} (ha : code x (.allocproc pc) = a) (hnext : a.next = some g)
    (hg : g.making = some j) (hclean : pc = .init j → x.shared.Clean nofile j)
    (hmade : (Frame.allocproc pc).making = some j →
      (Frame.allocproc pc).Made nofile x.shared j) : g.Made nofile (a.shared x.shared) j := by
  cases pc with
  | loop i | test p =>
    simp only [code, allocproc] at ha
    split at ha <;> subst ha <;> cases hnext <;> cases hg
  | init p =>
    subst ha
    cases hnext
    cases hg
    have hc := hclean rfl
    let sh' := (x.shared.setProc j (x.proc j).initialized).setImage j { x.image j with syscalls := 0 }
    have hproc : sh'.proc j = (x.proc j).initialized := Function.update_self ..
    have himage : sh'.image j = { x.image j with syscalls := 0 } := setImage_self
    change Frame.Made nofile sh' j _
    refine ⟨⟨?_, ?_, ?_, ?_, ?_, ?_, hc.parent⟩, ?_⟩
    · rw [hproc]
      exact hc.chan
    · rw [hproc]
      exact hc.xstate
    · rw [himage]
    · rw [hproc]
      rfl
    · rw [hproc]
      rfl
    · rw [hproc]
      rfl
    · change (sh'.image j).sz = 0 ∧ (sh'.image j).NoFiles nofile
      rw [himage]
      exact ⟨hc.sz, hc.noFiles⟩
  | trapframe p | pagetable p =>
    simp only [code, allocproc] at ha
    split at ha
    all_goals
      subst ha
      cases hnext
      cases hg
      obtain ⟨hnewborn, hcopied⟩ := hmade rfl
      refine ⟨hnewborn.setImage rfl, ?_⟩
      change ((Shared.setImage _ j _).image j).sz = 0 ∧ ((Shared.setImage _ j _).image j).NoFiles nofile
      rw [setImage_self]
      exact hcopied
  | context p =>
    subst ha
    cases hnext
    cases hg
    exact ⟨(hmade rfl).newborn, (hmade rfl).copied⟩
  | _ =>
    subst ha
    cases hnext <;> cases hg

theorem kfork_made {pc : KforkPc n} (ha : code x (.kfork p pc) = a) (hnext : a.next = some g)
    (hg : g.making = some j) (hp : p ≠ j) (hnofile : x.nofile = nofile)
    (hmade : (Frame.kfork p pc).making = some j →
      (Frame.kfork p pc).Made nofile x.shared j) : g.Made nofile (a.shared x.shared) j := by
  -- The statement writes the image `m` of the new process, and the parent keeps its own.
  have wrote {m : Image} {pc' : KforkPc n} (hnewborn : x.shared.Newborn j)
      (hm : m.syscalls = (x.image j).syscalls) (hcopied : pc'.Copied nofile m (x.image p)) :
      (Frame.kfork p pc').Made nofile (x.shared.setImage j m) j := by
    refine ⟨hnewborn.setImage hm, ?_⟩
    change pc'.Copied nofile ((x.shared.setImage j m).image j) ((x.shared.setImage j m).image p)
    rw [setImage_self, setImage_of_ne hp]
    exact hcopied
  have next {file : Option ℕ} {fd i : ℕ} (hne : fd ≠ i) :
      (if fd < i + 1 then file else none) = if fd < i then file else none :=
    if_congr ⟨fun h => lt_of_le_of_ne (Nat.le_of_lt_succ h) hne, Nat.lt_succ_of_lt⟩ rfl rfl
  cases pc with
  | uvmcopy np =>
    simp only [code, kfork] at ha
    split at ha <;> subst ha <;> cases hnext <;> cases hg <;>
      exact ⟨(hmade rfl).newborn, (hmade rfl).copied⟩
  | setSz np =>
    subst ha
    cases hnext
    cases hg
    obtain ⟨hnewborn, -, hfiles⟩ := hmade rfl
    exact wrote hnewborn rfl ⟨rfl, hfiles⟩
  | copyTrapframe np | setA0 np =>
    subst ha
    cases hnext
    cases hg
    obtain ⟨hnewborn, hsz, hfiles⟩ := hmade rfl
    first
    | exact wrote hnewborn rfl ⟨hsz, hfiles⟩
    | exact wrote hnewborn rfl ⟨hsz, fun fd hfd => hfiles.1 fd hfd⟩
  | filedup np i =>
    simp only [code, kfork] at ha
    split at ha
    · rename_i hi
      split at ha
      · rename_i file hfile
        subst ha
        cases hnext
        cases hg
        obtain ⟨hnewborn, hsz, hfiles⟩ := hmade rfl
        refine wrote hnewborn rfl ⟨hsz, fun fd hfd => ?_⟩
        change Function.update (x.image j).ofile i (some file) fd = _
        obtain rfl | hne := eq_or_ne fd i
        · rw [Function.update_self, if_pos (Nat.lt_succ_self fd), hfile]
        · rw [Function.update_of_ne hne, next hne]
          exact hfiles fd hfd
      · rename_i hfile
        subst ha
        cases hnext
        cases hg
        obtain ⟨hnewborn, hsz, hfiles⟩ := hmade rfl
        refine ⟨hnewborn, hsz, fun fd hfd => ?_⟩
        refine (hfiles fd hfd).trans ?_
        obtain rfl | hne := eq_or_ne fd i
        · rw [if_neg (lt_irrefl fd), if_pos (Nat.lt_succ_self fd)]
          exact hfile.symm
        · exact (next hne).symm
    · subst ha
      cases hnext
      cases hg
      obtain ⟨hnewborn, hsz, hfiles⟩ := hmade rfl
      refine ⟨hnewborn, hsz, fun fd hfd => (hfiles fd hfd).trans (if_pos ?_)⟩
      exact hfd.trans_le (hnofile ▸ not_lt.mp ‹_›)
  | idup np =>
    subst ha
    cases hnext
    cases hg
    obtain ⟨hnewborn, hsz, hfiles⟩ := hmade rfl
    exact wrote hnewborn rfl ⟨hsz, hfiles, rfl⟩
  | copyName np =>
    subst ha
    cases hnext
    cases hg
    obtain ⟨hnewborn, hsz, hfiles, hcwd⟩ := hmade rfl
    exact wrote hnewborn rfl ⟨hsz, hfiles, hcwd, rfl⟩
  | readPid np =>
    subst ha
    cases hnext
    cases hg
    exact ⟨(hmade rfl).newborn, (hmade rfl).copied⟩
  | _ =>
    subst ha
    cases hnext <;> cases hg

end Making

section Closing

theorem Frame.eq_reparent_of_fn (h : f.fn = .reparent p) : ∃ pc, f = .reparent p pc := by
  cases f with
  | reparent q pc =>
    cases h
    exact ⟨pc, rfl⟩
  | ext kind => cases kind <;> cases h
  | _ => cases h

theorem StackOk.held_of_reparent {t : Thread n C} {pc : ReparentPc n}
    (h : StackOk t (.reparent p pc :: rest)) : Lock.waitLock ∈ held rest := by
  cases rest with
  | nil => obtain hf | ⟨p, hf⟩ := h.1 <;> cases hf
  | cons g rest =>
    obtain hi | hp | hawaits := h.1
    · cases hi
    · cases hp
    · cases hawaits.calls
      exact Multiset.mem_add.mpr (.inl (Multiset.mem_singleton_self _))

theorem Frame.eq_kfork_of_fn (h : f.fn = .kfork p) : ∃ pc, f = .kfork p pc := by
  cases f with
  | kfork q pc =>
    cases h
    exact ⟨pc, rfl⟩
  | ext kind => cases kind <;> cases h
  | _ => cases h

theorem Frame.eq_kexit_of_fn (h : f.fn = .kexit p) : ∃ status pc, f = .kexit p status pc := by
  cases f with
  | kexit q status pc =>
    cases h
    exact ⟨status, pc, rfl⟩
  | ext kind => cases kind <;> cases h
  | _ => cases h

variable {status : Int} {pc : KexitPc}

theorem kexit_closed (ha : code x (.kexit p status pc) = a) (hnext : a.next = some g)
    (hclosed : pc.Closed nofile (x.image p)) (hnofile : x.nofile = nofile) :
    ∃ pc', g = .kexit p status pc' ∧ pc'.Closed nofile ((a.shared x.shared).image p) := by
  obtain ⟨pc', rfl, hgoes⟩ := kexit_goes ha hnext
  refine ⟨pc', rfl, ?_⟩
  generalize a.shared x.shared = sh at hgoes ⊢
  cases hgoes with
  | start => exact fun i hi => absurd hi (Nat.not_lt_zero i)
  | noFile hfd =>
    intro i hi
    obtain hi | rfl := Nat.lt_succ_iff_lt_or_eq.mp hi
    · exact hclosed i hi
    · exact hfd
  | beginOp hfd => exact fun i hi => hclosed i (hi.trans_le (hnofile ▸ hfd))
  | @clearFile fd =>
    intro i hi
    rw [setImage_self]
    change Function.update (x.image p).ofile fd none i = none
    obtain rfl | hne := eq_or_ne i fd
    · exact Function.update_self ..
    · rw [Function.update_of_ne hne]
      exact hclosed i (lt_of_le_of_ne (Nat.le_of_lt_succ hi) hne)
  | clearCwd =>
    change ((x.shared.setImage p _).image p).NoFiles nofile
    rw [setImage_self]
    exact ⟨hclosed, rfl⟩
  | _ => exact hclosed

theorem resume_closed (v : Val n) (hclosed : pc.Closed nofile m) :
    ∃ pc', (Frame.kexit p status pc).resume v = .kexit p status pc' ∧ pc'.Closed nofile m := by
  cases pc <;> exact ⟨_, rfl, hclosed⟩

end Closing

variable [DecidableEq C] {s s' : State n C} {c : C} {t : Thread n C} {pre below : List (Frame n)}

/-- Unused slots are clean, a zombie has closed its files, and so has a process on its way there. -/
structure Tidy (nofile : ℕ) (s : State n C) : Prop where
  unused : ∀ j, s.shared.states j = .unused → s.shared.Clean nofile j
  zombie : ∀ j, s.shared.states j = .zombie → (s.shared.image j).NoFiles nofile
  closed : ∀ t pre p status pc below, s.stack t = pre ++ .kexit p status pc :: below →
    pc.Closed nofile (s.shared.image p)
  made : ∀ c f j, s.Top c f → f.making = some j → f.Made nofile s.shared j
  moving : ∀ c p pp, s.Top c (.reparent p (.setParent pp)) → s.shared.parent pp = some p

namespace Tidy

omit [DecidableEq C] in
theorem frees_noFiles {e : Event n} (ht : Tidy nofile s) (h : Sound s) (hs : s.Top c f)
    (hf : f.Frees s.shared j g e) : (s.shared.image j).NoFiles nofile := by
  cases hf with
  | alloc => exact (ht.made c _ j hs rfl).copied.2
  | fork => exact (ht.made c _ j hs rfl).copied.2
  | reap =>
    obtain ⟨rest, hs⟩ := hs
    refine ht.zombie j (h.known c (j, .zombie) ?_)
    rw [hs]
    exact List.mem_cons_self

theorem unused_step (ht : Tidy nofile s) (h : Sound s) (hs : s.stack (s.running c) = f :: rest)
    (hturn : Turn nofile s c f rest s' e) (hj : s'.shared.states j = .unused) :
    s'.shared.Clean nofile j := by
  have htop : s.Top c f := ⟨rest, hs⟩
  obtain ⟨hsh, -⟩ | ⟨y, g, ha, -, -, hw⟩ := hturn.written
  · rw [hsh] at hj ⊢
    exact ht.unused j hj
  generalize s'.shared = sh' at hj hw ha
  have hrel : f.Relies (s.ctx nofile c y) (s.running c) := h.relies hs y
  obtain ⟨hold, hchan, hxstate⟩ | ⟨e', hf, rfl⟩ := hw.unused hj
  · have hc := ht.unused j hold
    have himage : sh'.image j = s.shared.image j := by
      cases hw.image hrel j with
      | same himage => exact himage
      | init hf himage hst => cases hj.symm.trans hst
      | free hf => exact absurd hold (hf.live hrel)
      | make hused => cases hold.symm.trans hused
      | own ht hrun => cases hold.symm.trans hrun
    have hparent : sh'.parent j = none := by
      cases hw.parent j with
      | same hparent => exact hparent.trans hc.parent
      | @fork p pid hf =>
        subst hf
        cases hold.symm.trans (hrel.builds j (Multiset.mem_singleton_self j))
      | reparent hf =>
        subst hf
        cases (ht.moving c _ j htop).symm.trans hc.parent
      | free hf hparent => exact hparent
    refine ⟨?_, ?_, ?_, hparent, hchan.trans hc.chan, hxstate.trans hc.xstate, ?_⟩
    · rw [himage]
      exact hc.trapframe
    · rw [himage]
      exact hc.pagetable
    · rw [himage]
      exact hc.sz
    · rw [himage]
      exact hc.noFiles
  · have hproc : (s.shared.freeproc j).proc j = (s.shared.proc j).freed := Function.update_self ..
    have himage : (s.shared.freeproc j).image j = (s.shared.image j).freed := Function.update_self ..
    have hfiles := ht.frees_noFiles h htop hf
    change (s.shared.freeproc j).Clean nofile j
    refine ⟨?_, ?_, ?_, Function.update_self .., ?_, ?_, ?_⟩
    · rw [himage]
      rfl
    · rw [himage]
      rfl
    · rw [himage]
      rfl
    · rw [hproc]
      rfl
    · rw [hproc]
      rfl
    · rw [himage]
      exact hfiles

theorem zombie_step (ht : Tidy nofile s) (h : Sound s) (hs : s.stack (s.running c) = f :: rest)
    (hturn : Turn nofile s c f rest s' e) (hj : s'.shared.states j = .zombie) :
    (s'.shared.image j).NoFiles nofile := by
  obtain ⟨hsh, -⟩ | ⟨y, g, ha, -, -, hw⟩ := hturn.written
  · rw [hsh] at hj ⊢
    exact ht.zombie j hj
  generalize s'.shared = sh' at hj hw ha
  have hrel : f.Relies (s.ctx nofile c y) (s.running c) := h.relies hs y
  have hold : (s.shared.image j).NoFiles nofile := by
    obtain hold | ⟨status, rfl⟩ := hw.zombie hj
    · exact ht.zombie j hold
    · exact ht.closed (s.running c) [] j status .setState rest hs
  cases hw.image hrel j with
  | same himage =>
    rw [himage]
    exact hold
  | init hf himage hst => cases hj.symm.trans hst
  | free hf himage =>
    rw [himage]
    exact hold
  | make hused hst => cases hj.symm.trans hst
  | own ht hrun hst => cases hj.symm.trans hst

theorem closed_old (ht : Tidy nofile s) (h : Sound s) (hs : s.stack (s.running c) = f :: rest)
    (hturn : Turn nofile s c f rest s' e) {status : Int} {pc : KexitPc}
    (hold : s.stack t = pre ++ .kexit p status pc :: below)
    (hquiet : t = s.running c → (e = none ∧ s'.shared = s.shared) ∨ pre ≠ []) :
    pc.Closed nofile (s'.shared.image p) := by
  have hclosed := ht.closed t pre p status pc below hold
  have hok := h.stack t
  rw [hold] at hok
  have hon : t = .proc p := hok.drop.on
  have files {m : Image} (hm : (s.shared.image p).SameFiles m) : pc.Closed nofile m := by
    obtain ⟨hofile, hcwd⟩ := hm
    cases pc with
    | testInit => trivial
    | testFile | fileclose | closing | clearFile | beginOp | beginning | iput | putting | endOp
    | ending | clearCwd =>
      intro i hi
      rw [hofile]
      exact hclosed i hi
    | _ => exact Image.SameFiles.noFiles ⟨hofile, hcwd⟩ hclosed
  obtain ⟨hsh, -⟩ | ⟨y, g, ha, -, -, hw⟩ := hturn.written
  · rw [hsh]
    exact hclosed
  have hrel : f.Relies (s.ctx nofile c y) (s.running c) := h.relies hs y
  cases hw.image hrel p with
  | same himage =>
    rw [himage]
    exact hclosed
  | init hf himage =>
    rw [himage]
    exact files ⟨rfl, rfl⟩
  | free hf himage =>
    rw [himage]
    exact files ⟨rfl, rfl⟩
  | make hused hst hbuilds hlock hready =>
    obtain hready | hsame := hready
    · have hstack : s.stack (.proc p) = [.forkret p .release] := by
        refine h.readied (s.running c) p ?_
        rw [hs, readied_cons, hready]
        exact Multiset.mem_add.mpr (.inl (Multiset.mem_singleton_self p))
      rw [hon, hstack] at hold
      obtain ⟨hf, -⟩ | ⟨pre', hf⟩ := cons_eq_append hold
      · cases hf
      · cases pre' <;> cases hf
    · exact files hsame
  | own htp hrun hst hfn =>
    -- The process itself is in `kexit` and calls no code that changes its files.
    obtain ⟨-, hsh⟩ | hpre := hquiet (hon.trans htp.symm)
    · rw [hsh]
      exact hclosed
    · obtain _ | ⟨f', pre⟩ := pre
      · exact absurd rfl hpre
      · rw [hon, ← htp, hs] at hold
        obtain ⟨rfl, hrest⟩ := List.cons.inj hold
        have hstack := h.stack (s.running c)
        rw [hs] at hstack
        have hmem : Frame.kexit p status pc ∈ rest := by
          rw [hrest]
          exact List.mem_append_right _ List.mem_cons_self
        obtain ⟨q, hq⟩ | ⟨q, hq⟩ := hstack.rest_of_entry hfn _ hmem <;> cases hq

theorem closed_step (ht : Tidy nofile s) (h : Sound s) (hs : s.stack (s.running c) = f :: rest)
    (hturn : Turn nofile s c f rest s' e) {status : Int} {pc : KexitPc}
    (hh : s'.stack t = pre ++ .kexit p status pc :: below) : pc.Closed nofile (s'.shared.image p) := by
  cases hturn.comes hs hh with
  | old hold hquiet => exact ht.closed_old h hs hturn hold hquiet
  | @next y a htr ha hnext hsh hbelow he =>
    have hfn : f.fn = .kexit p := ((h.disciplined hs ha).next_fn hnext).symm
    obtain ⟨status', pc', rfl⟩ := Frame.eq_kexit_of_fn hfn
    obtain ⟨pc₁, hpc, hclosed⟩ := kexit_closed ha hnext
      (ht.closed (s.running c) [] p status' pc' rest hs) rfl
    cases hpc
    rw [hsh]
    exact hclosed
  | call htr ha hbelow hsh he =>
    have hstarts := code_starts ha
    cases pc with
    | testInit => trivial
    | _ => cases hstarts
  | @resume y v r htr ha hrest hawaits hsh hh =>
    have hfn : r.fn = .kexit p := by
      rw [← Frame.resume_fn v, ← hh]
      rfl
    obtain ⟨status', pc', rfl⟩ := Frame.eq_kexit_of_fn hfn
    have hclosed := ht.closed (s.running c) [f] p status' pc' below (by rw [hs, hrest]; rfl)
    obtain ⟨pc₁, hpc, hclosed⟩ := resume_closed v hclosed
    cases hh.trans hpc
    rw [hsh]
    exact hclosed
  | other hh => obtain hh | ⟨msg, hh⟩ | ⟨pc, hh⟩ | ⟨q, hh⟩ | ⟨q, hh⟩ := hh <;> cases hh

theorem made_other (ht : Tidy nofile s) (h : Sound s) (hstep : Transition nofile s c s')
    (hs : s.stack (s.running c) = f :: rest) (hturn : Turn nofile s c f rest s' e) {c' : C}
    (hc : c' ≠ c) (hg : s.Top c' g) (hj : g.making = some j) : g.Made nofile s'.shared j := by
  have hmade := ht.made c' g j hg hj
  obtain ⟨hlock, hbuilds⟩ := Frame.making_held hj
  obtain ⟨rest', hstack⟩ := id hg
  have hrel' : g.Relies (s.ctx nofile c' .run) (s.running c') := h.relies hstack .run
  have hused : s.shared.states j = .used := hrel'.builds j (hbuilds ▸ Multiset.mem_singleton_self j)
  have hheld : Lock.proc j ∈ held (s.stack (s.running c')) := by
    rw [hstack]
    exact Multiset.mem_add.mpr (.inl hlock)
  have hmine : Lock.proc j ∉ f.locks := fun hf =>
    hc (h.eq_of_locked hg ⟨rest, hs⟩ hlock hf)
  have hproc := (h.others hstep hc).2.2.2 j (h.holder_of_mem hheld)
  obtain ⟨hsh, -⟩ | ⟨y, g', ha, -, -, hw⟩ := hturn.written
  · rw [hsh]
    exact hmade
  have hrel : f.Relies (s.ctx nofile c y) (s.running c) := h.relies hs y
  have himage : s'.shared.image j = s.shared.image j := by
    cases hw.image hrel j with
    | same himage => exact himage
    | init hf =>
      subst hf
      exact absurd (Multiset.mem_singleton_self _) hmine
    | free hf => exact absurd hf.plain.1 hmine
    | make hused hst hbuilds hlock => exact absurd hlock hmine
    | own htp hrun => cases hused.symm.trans hrun
  have hparent : s'.shared.parent j = s.shared.parent j := by
    cases hw.parent j with
    | same hparent => exact hparent
    | @fork p pid hf =>
      subst hf
      refine absurd (h.one c' c (h.builtBy _ _ j ?_ ?_)) hc
      · rw [hstack]
        exact Multiset.mem_add.mpr (.inl (hbuilds ▸ Multiset.mem_singleton_self j))
      · rw [hs]
        exact Multiset.mem_add.mpr (.inl (Multiset.mem_singleton_self j))
    | reparent hf =>
      subst hf
      cases (ht.moving c _ j ⟨rest, hs⟩).symm.trans hmade.newborn.parent
    | free hf => exact absurd hf.plain.1 hmine
  refine hmade.congr hproc hparent himage fun p pc hf => ?_
  -- The parent runs, and only on the CPU that makes its child.
  subst hf
  have hon : s.running c' = .proc p := hrel'.on
  have hrun : s.shared.states p = .running := hrel'.self hon rfl
  cases hw.image hrel p with
  | same himage => exact himage
  | init hf =>
    subst hf
    cases hrun.symm.trans (hrel.knows (p, .unused) (List.mem_singleton_self _))
  | free hf =>
    obtain hst | hst := hf.ends hrel
    · cases hrun.symm.trans hst
    · cases hrun.symm.trans hst
  | make hst => cases hrun.symm.trans hst
  | own htp => exact absurd (h.one c' c (hon.trans htp.symm)) hc

theorem made_step (ht : Tidy nofile s) (h : Sound s) (h' : Sound s') (hstep : Transition nofile s c s')
    (hs : s.stack (s.running c) = f :: rest) (hturn : Turn nofile s c f rest s' e) {c' : C}
    (hg : s'.Top c' g) (hj : g.making = some j) : g.Made nofile s'.shared j := by
  have htop : s.Top c f := ⟨rest, hs⟩
  obtain hc | rfl := ne_or_eq c' c
  · exact ht.made_other h hstep hs hturn hc ((h.top_other hstep hc).mp hg) hj
  obtain ⟨rest', hg⟩ := hg
  obtain ⟨hlock, hbuilds⟩ := Frame.making_held hj
  cases hturn.newTop hg with
  | @next y a ha hnext hcall hsh =>
    have hfn : g.fn = f.fn := (h.disciplined hs ha).next_fn hnext
    rw [hsh]
    obtain hproc | ⟨p, pc, rfl⟩ := Frame.making_fn hj
    · obtain ⟨pc, rfl⟩ := Frame.eq_allocproc_of_fn (hfn.symm.trans hproc)
      refine allocproc_made ha hnext hj (fun hpc => ?_) (ht.made c' _ j htop)
      subst hpc
      refine ht.unused j (h.known c' (j, .unused) ?_)
      rw [hs]
      exact List.mem_cons_self
    · obtain ⟨pc', rfl⟩ := Frame.eq_kfork_of_fn hfn.symm
      refine kfork_made ha hnext hj ?_ rfl (ht.made c' _ j htop)
      -- The parent runs, and its child does not yet.
      rintro rfl
      have hrel : (Frame.kfork p pc).Relies (s'.ctx nofile c' y) (s'.running c') := h'.relies hg y
      have hrun := hrel.self hrel.on (Frame.making_not_leaving hj)
      have hused := hrel.builds p (hbuilds ▸ Multiset.mem_singleton_self p)
      cases hrun.symm.trans hused
  | start hstart =>
    rw [Frame.not_starts_of_making hj] at hstart
    cases hstart
  | @ret y v r ha hrest hawaits hg' hsh =>
    subst hg'
    rw [hsh]
    generalize hfn : f.fn = fn at hawaits
    cases hawaits.calls with
    | @forkAllocproc p =>
      obtain ⟨pc, rfl⟩ := Frame.eq_allocproc_of_fn hfn
      obtain _ | _ | np := v
      · cases hj
      · cases hj
      · cases hj
        cases pc with
        | done q =>
          cases ha
          obtain ⟨hnewborn, hcopied⟩ := ht.made c' _ j htop rfl
          exact ⟨hnewborn, hcopied⟩
        | loop i | test q | trapframe q | pagetable q =>
          simp only [code, allocproc] at ha
          split at ha <;> cases ha
        | _ => cases ha
    | initAllocproc => obtain _ | _ | _ := v <;> cases hj
    | allocpid | kexec | waitKilled | sysFork | sysExit | sysWait | sysPid | sysOther =>
      cases v <;> cases hj
    | _ => cases hj
  | panic hg' =>
    subst hg'
    cases hj
  | free hheld =>
    rw [locks_eq_zero hheld] at hlock
    cases hlock
  | switch hsw => obtain ⟨pc, rfl⟩ | ⟨q, rfl | rfl⟩ := hsw <;> cases hj

theorem parent_locked (ht : Tidy nofile s) (h : Sound s) (hs : s.stack (s.running c) = f :: rest)
    (hturn : Turn nofile s c f rest s' e) {c' : C} {pp : Fin n} (hc : c' ≠ c)
    (hheld : Lock.waitLock ∈ held (s.stack (s.running c')))
    (hparent : s.shared.parent pp = some p) : s'.shared.parent pp = some p := by
  have mine (hmine : Lock.waitLock ∈ held (f :: rest)) : False := by
    refine hc (h.cpu_eq hheld ?_)
    rwa [hs]
  obtain ⟨hsh, -⟩ | ⟨y, g', ha, -, -, hw⟩ := hturn.written
  · rw [hsh]
    exact hparent
  cases hw.parent pp with
  | same hsame => exact hsame.trans hparent
  | fork hf =>
    subst hf
    exact (mine (Multiset.mem_add.mpr (.inl (Multiset.mem_singleton_self _)))).elim
  | reparent hf =>
    subst hf
    have hok := h.stack (s.running c)
    rw [hs] at hok
    exact (mine (Multiset.mem_add.mpr (.inr hok.held_of_reparent))).elim
  | free hf =>
    cases hf with
    | alloc | fork => cases hparent.symm.trans (ht.made c _ pp ⟨rest, hs⟩ rfl).newborn.parent
    | reap =>
      refine (mine (Multiset.mem_add.mpr (.inl ?_))).elim
      exact Multiset.mem_cons_of_mem (Multiset.mem_singleton_self _)

theorem moving_step (ht : Tidy nofile s) (h : Sound s) (h' : Sound s')
    (hstep : Transition nofile s c s') (hs : s.stack (s.running c) = f :: rest)
    (hturn : Turn nofile s c f rest s' e) {c' : C} {pp : Fin n}
    (hg : s'.Top c' (.reparent p (.setParent pp))) : s'.shared.parent pp = some p := by
  obtain rfl | hc := eq_or_ne c' c
  · obtain ⟨rest', hg⟩ := hg
    cases hturn.newTop hg with
    | @next y a ha hnext hcall hsh =>
      rw [hsh]
      have hfn : Fn.reparent p = f.fn := (h.disciplined hs ha).next_fn hnext
      obtain ⟨pc, rfl⟩ := Frame.eq_reparent_of_fn hfn.symm
      cases pc with
      | loop i =>
        simp only [code, reparent] at ha
        repeat' split at ha
        all_goals
          subst ha
          cases hnext
        assumption
      | _ =>
        subst ha
        cases hnext
    | start hstart => cases hstart
    | @ret y v r ha hrest hawaits hg' =>
      have hr : r.fn = .reparent p := by
        rw [← Frame.resume_fn v, ← hg']
        rfl
      obtain ⟨pc, rfl⟩ := Frame.eq_reparent_of_fn hr
      cases pc with
      | setParent => exact hawaits.elim
      | _ => cases hg'
    | panic hg' => cases hg'
    | free hheld =>
      have hok := h'.stack (s'.running c')
      rw [hg] at hok
      have hmem : Lock.waitLock ∈ held (.reparent p (.setParent pp) :: rest') :=
        Multiset.mem_add.mpr (.inr hok.held_of_reparent)
      rw [hheld] at hmem
      cases hmem
    | switch hsw => obtain ⟨pc, hsw⟩ | ⟨q, hsw | hsw⟩ := hsw <;> cases hsw
  · have hold := (h.top_other hstep hc).mp hg
    have hparent := ht.moving c' p pp hold
    obtain ⟨rest', hstack⟩ := hold
    refine ht.parent_locked h hs hturn hc ?_ hparent
    have hok := h.stack (s.running c')
    rw [hstack] at hok ⊢
    exact Multiset.mem_add.mpr (.inr hok.held_of_reparent)

theorem step (ht : Tidy nofile s) (h : Sound s) (h' : Sound s') (hstep : Transition nofile s c s')
    (hs : s.stack (s.running c) = f :: rest) (hturn : Turn nofile s c f rest s' e) :
    Tidy nofile s' where
  unused _ hj := ht.unused_step h hs hturn hj
  zombie _ hj := ht.zombie_step h hs hturn hj
  closed _ _ _ _ _ _ hh := ht.closed_step h hs hturn hh
  made _ _ _ hg hj := ht.made_step h h' hstep hs hturn hg hj
  moving _ _ _ hg := ht.moving_step h h' hstep hs hturn hg

theorem boot (b : C) : Tidy nofile (State.boot b : State n C) where
  unused _ _ := ⟨rfl, rfl, rfl, rfl, rfl, rfl, fun _ _ => rfl, rfl⟩
  zombie _ hj := nomatch hj
  closed t pre p status pc below hh := by
    have hmem : .kexit p status pc ∈ (State.boot b).stack t := by
      rw [hh]
      exact List.mem_append_right _ List.mem_cons_self
    obtain ⟨pc', hpc⟩ := State.boot_main hmem
    cases hpc
  made c f j hf hj := by
    obtain ⟨rest, hf⟩ := hf
    obtain ⟨pc, rfl⟩ := State.boot_main (hf ▸ List.mem_cons_self)
    cases hj
  moving c p pp hf := by
    obtain ⟨rest, hf⟩ := hf
    obtain ⟨pc, hpc⟩ := State.boot_main (hf ▸ List.mem_cons_self)
    cases hpc

theorem of_reachable {b : C} (hs : (kernel n nofile b).Reachable s) : Tidy nofile s := by
  refine hs.invariant (Tidy nofile) (boot b) ?_
  intro s l s' hr ht hstep
  have h := Sound.of_reachable hr
  obtain ⟨f, rest, e, hs, hturn, -⟩ := h.turn hstep
  exact ht.step h (h.step hstep) (State.step_transition hstep) hs hturn

end Tidy

end MultithreadMayhem.Kernel
