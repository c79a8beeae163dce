import MultithreadMayhem.Kernel.Priorities

/-!
# The calls that look for a pid

`kkill`, `set_priority` and `get_priority` go through the table one slot after the other,
and let go of each lock before they take the next one. A call that returns has hit one
slot, or it has hit none and at some moment of the call there was no process with the pid.
-/

namespace MultithreadMayhem.Kernel

open Foundation

variable {n nofile : ℕ} {C : Type} {f g h : Frame n} {rest pre below : List (Frame n)}
  {sh : Shared n} {op : PidOp} {pc : PidScanPc n} {e : Option (Event n)} {v : Int}
  {t u : Thread n C} {log mid base : Log n C}

def PidOp.pid : PidOp → Int
  | kkill pid | setPriority pid _ | getPriority pid => pid

theorem PidOp.hit_of_has {j : Fin n} (hj : sh.Has j op.pid) : ∃ q v, op.hit (sh.proc j) = some (q, v) := by
  obtain ⟨hlive, hpid⟩ := hj
  cases op with
  | kkill pid => exact ⟨_, _, if_pos hpid⟩
  | setPriority pid prio => exact ⟨_, _, if_pos ⟨hpid, hlive⟩⟩
  | getPriority pid => exact ⟨_, _, if_pos ⟨hpid, hlive⟩⟩

def Event.ofLookup : Event n → Bool
  | scan _ | hit _ _ _ | scanReturns _ _ => true
  | _ => false

def PidOp.Answers (op : PidOp) (es : List (Event n)) (v : Int) : Prop :=
  (∃ j p q, es = [.hit op j p] ∧ op.hit p = some (q, v)) ∨ es = [] ∧ v = -1

namespace PidScanPc

def Did (op : PidOp) (es : List (Event n)) : PidScanPc n → Prop
  | .releaseFound j v => ∃ p q, es = [.hit op j p] ∧ op.hit p = some (q, v)
  | .done v => op.Answers es v
  | _ => es = []

def Ahead (j : Fin n) : PidScanPc n → Prop
  | .loop i => i ≤ j
  | .acquire p | .test p => p ≤ j
  | .release p => p < j
  | _ => False

end PidScanPc

namespace Log

variable [DecidableEq C]

def lookups (log : Log n C) (t : Thread n C) : List (Event n) :=
  log.filterMap fun e => if e.1 = t ∧ e.2.ofLookup = true then some e.2 else none

omit [DecidableEq C] in
/-- At some time since `base` there was no process with the pid. -/
def Absent (mid base : Log n C) (pid : Int) : Prop :=
  ∃ later earlier, mid = later ++ earlier ∧ Log.store (earlier ++ base) pid = none

omit [DecidableEq C] in
theorem Absent.add {pid : Int} (h : mid.Absent base pid) (u : Thread n C) (e : Option (Event n)) :
    (mid.add u e).Absent base pid := by
  obtain ⟨later, earlier, rfl, hnone⟩ := h
  cases e with
  | none => exact ⟨later, earlier, rfl, hnone⟩
  | some e => exact ⟨(u, e) :: later, earlier, rfl, hnone⟩

omit [DecidableEq C] in
theorem absent_add {pid : Int} {e' : Event n} (hnone : ∀ m, e'.store m pid = none) :
    Absent (mid.add u (some e')) base pid :=
  ⟨[], _, rfl, hnone _⟩

theorem lookups_add_of_ne (h : t ≠ u) : (log.add u e).lookups t = log.lookups t := by
  cases e with
  | none => rfl
  | some e =>
    rw [add, lookups, List.filterMap_cons_none]
    · rfl
    · exact if_neg fun hu => h hu.1.symm

theorem lookups_add_of_other (h : ∀ e' ∈ e, e'.ofLookup = false) :
    (log.add u e).lookups t = log.lookups t := by
  cases e with
  | none => rfl
  | some e =>
    rw [add, lookups, List.filterMap_cons_none]
    · rfl
    · refine if_neg fun hu => ?_
      rw [h e rfl] at hu
      cases hu.2

theorem lookups_cons {e : Event n} (h : e.ofLookup = true) :
    lookups ((t, e) :: log) t = e :: log.lookups t := by
  rw [lookups, List.filterMap_cons_some]
  · rfl
  · exact if_pos ⟨rfl, h⟩

omit [DecidableEq C] in
theorem add_append (mid base : Log n C) (u : Thread n C) (e : Option (Event n)) :
    Log.add (mid ++ base) u e = mid.add u e ++ base := by
  cases e <;> rfl

end Log

/-- What the call of the thread has found out by the time it is at `pc`. -/
def PidScanPc.Missed [DecidableEq C] (sh : Shared n) (t : Thread n C) (mid base : Log n C) (op : PidOp) :
    PidScanPc n → Prop
  | .releaseFound _ _ => True
  | .done _ => mid.lookups t = [] → mid.Absent base op.pid
  | pc => mid.Absent base op.pid ∨ ∃ j, sh.Has j op.pid ∧ pc.Ahead j

section Stacks

theorem StackOk.rest_of_pidScan (h : StackOk t (.pidScan op pc :: rest)) :
    ∃ p, rest = [.syscall p .calling, .user p .trapping] := by
  cases rest with
  | nil => obtain hf | ⟨p, hf⟩ := h.1 <;> cases hf
  | cons g rest =>
    obtain hi | hp | hawaits := h.1
    · cases hi
    · cases hp
    · cases hawaits.calls
      rw [h.tail.rest_of_syscall]
      exact ⟨_, rfl⟩

theorem event_ofLookup {sh : Shared n} {e : Event n} (he : f.event sh g = some e)
    (hl : e.ofLookup = true) : (∃ p pc, f = .syscall p pc) ∨ ∃ op pc, f = .pidScan op pc := by
  unfold Frame.event at he
  split at he
  case h_8 =>
    split at he
    · split at he <;> cases he
      cases hl
    · cases he
  case h_11 => exact .inl ⟨_, _, rfl⟩
  case h_12 | h_13 => exact .inr ⟨_, _, rfl⟩
  case h_14 => cases he
  all_goals
    cases he
    cases hl

theorem not_ofLookup_of_below {e : Event n} (hok : StackOk t (f :: rest))
    (hrest : rest = pre ++ .pidScan op pc :: below) (he : f.event sh g = some e) :
    e.ofLookup = false := by
  refine Bool.eq_false_iff.mpr fun hl => ?_
  have hmem : .pidScan op pc ∈ rest := by
    rw [hrest]
    exact List.mem_append_right _ List.mem_cons_self
  obtain ⟨p, pc, rfl⟩ | ⟨op, pc, rfl⟩ := event_ofLookup he hl
  · rw [hok.rest_of_syscall] at hmem
    cases hmem with
    | tail _ hmem => cases hmem
  · obtain ⟨p, hrest⟩ := hok.rest_of_pidScan
    rw [hrest] at hmem
    cases hmem with
    | tail _ hmem =>
      cases hmem with
      | tail _ hmem => cases hmem

end Stacks

inductive PidScanPc.Goes (op : PidOp) (sh : Shared n) : PidScanPc n → PidScanPc n → Shared n →
    Option (Event n) → Prop
  | loop {i : ℕ} (hi : i < n) : Goes op sh (.loop i) (.acquire ⟨i, hi⟩) sh none
  | miss {i : ℕ} (hi : n ≤ i) : Goes op sh (.loop i) (.done (-1)) sh none
  | acquire {p : Fin n} : Goes op sh (.acquire p) (.test p) sh none
  | hit {p : Fin n} {q : Proc n} {v : Int} (hq : op.hit (sh.proc p) = some (q, v)) :
      Goes op sh (.test p) (.releaseFound p v) (sh.setProc p q) (some (.hit op p (sh.proc p)))
  | pass {p : Fin n} (hp : op.hit (sh.proc p) = none) : Goes op sh (.test p) (.release p) sh none
  | release {p : Fin n} : Goes op sh (.release p) (.loop (p + 1)) sh none
  | found {p : Fin n} {v : Int} : Goes op sh (.releaseFound p v) (.done v) sh none

theorem pidScan_goes {x : Ctx n} {a : Act n} {pc' : PidScanPc n} (ha : code x (.pidScan op pc') = a)
    (hnext : a.next = some g) : ∃ pc, g = .pidScan op pc ∧
      pc'.Goes op x.shared pc (a.shared x.shared) ((Frame.pidScan op pc').event x.shared g) := by
  subst ha
  cases pc' with
  | loop i =>
    simp only [code, pidScan] at hnext ⊢
    split at hnext <;> cases hnext
    · rw [dif_pos ‹_›]
      exact ⟨_, rfl, .loop ‹_›⟩
    · rw [dif_neg ‹_›]
      exact ⟨_, rfl, .miss (not_lt.mp ‹_›)⟩
  | acquire p =>
    cases hnext
    exact ⟨_, rfl, .acquire⟩
  | test p =>
    simp only [code, pidScan] at hnext ⊢
    split at hnext
    · rename_i q v hq
      cases hnext
      exact ⟨_, rfl, .hit hq⟩
    · rename_i hq
      cases hnext
      exact ⟨_, rfl, .pass hq⟩
  | release p =>
    cases hnext
    exact ⟨_, rfl, .release⟩
  | releaseFound p v =>
    cases hnext
    exact ⟨_, rfl, .found⟩
  | done v => cases hnext

theorem Frame.eq_pidScan_of_fn (h : f.fn = .pidScan) : ∃ op pc, f = .pidScan op pc := by
  cases f with
  | pidScan op pc => exact ⟨op, pc, rfl⟩
  | ext kind => cases kind <;> cases h
  | _ => cases h

theorem Frame.Awaits.not_pidScan {fn : Fn n} (h : g.Awaits fn) : g.fn ≠ .pidScan := by
  cases h.calls with
  | @extWakeup kind | @extKilled kind | @extYield kind | @extSleep kind => cases kind <;> exact nofun
  | _ => exact nofun

theorem call_pidScan {x : Ctx n} (hd : (code x f).Disciplined t (held rest) f)
    (ha : code x f = .call (.pidScan op pc) g) :
    (∃ p, f = .syscall p .dispatch) ∧ pc = .loop 0 := by
  have hstarts := code_starts ha
  rw [ha] at hd
  obtain ⟨-, hfn, -, hawaits, -⟩ := hd
  constructor
  · cases hawaits.calls
    cases f with
    | syscall p pc =>
      cases pc with
      | dispatch => exact ⟨p, rfl⟩
      | _ => cases ha
    | ext kind => cases kind <;> cases hfn
    | _ => cases hfn
  · cases pc with
    | loop i =>
      cases i with
      | zero => rfl
      | succ i => cases hstarts
    | _ => cases hstarts

section Goes

variable [DecidableEq C] {pc' : PidScanPc n} {sh' : Shared n}

theorem PidScanPc.Goes.did (hg : pc'.Goes op sh pc sh' e) (h : pc'.Did op (mid.lookups t)) :
    pc.Did op ((mid.add t e).lookups t) := by
  cases hg with
  | @hit p q v hq =>
    have hnone : mid.lookups t = [] := h
    rw [Log.add, Log.lookups_cons rfl, hnone]
    exact ⟨sh.proc p, q, rfl, hq⟩
  | loop | acquire | pass | release => exact h
  | miss => exact .inr ⟨h, rfl⟩
  | @found p v =>
    obtain ⟨p', q, hes, hq⟩ := h
    exact .inl ⟨p, p', q, hes, hq⟩

theorem PidScanPc.Goes.missed (hg : pc'.Goes op sh pc sh' e) (hd : pc'.Did op (mid.lookups t))
    (h : pc'.Missed sh t mid base op) : pc.Missed sh' t (mid.add t e) base op := by
  cases hg with
  | loop | acquire => exact h
  | @miss i hi =>
    intro _
    obtain habsent | ⟨j, -, hj⟩ := h
    · exact habsent
    · exact absurd (hi.trans hj) (Nat.not_le.mpr j.isLt)
  | hit => trivial
  | @pass p hp =>
    refine h.imp_right ?_
    rintro ⟨j, hj, hle⟩
    refine ⟨j, hj, lt_of_le_of_ne hle ?_⟩
    rintro rfl
    obtain ⟨q, v, hq⟩ := op.hit_of_has hj
    rw [hp] at hq
    cases hq
  | release => exact h
  | @found p v =>
    obtain ⟨p', q, hes, -⟩ := hd
    intro hnone
    change mid.lookups t = [] at hnone
    rw [hes] at hnone
    cases hnone

theorem PidScanPc.Missed.other (h : pc.Missed sh t mid base op) (hp : Priced sh sh' e)
    (hsame : (mid.add u e).lookups t = mid.lookups t) : pc.Missed sh' t (mid.add u e) base op := by
  have ahead (h : mid.Absent base op.pid ∨ ∃ j, sh.Has j op.pid ∧ pc.Ahead j) :
      (mid.add u e).Absent base op.pid ∨ ∃ j, sh'.Has j op.pid ∧ pc.Ahead j := by
    obtain habsent | ⟨j, hj, hahead⟩ := h
    · exact .inl (habsent.add u e)
    · obtain hj | ⟨e', rfl, hnone⟩ := hp.has hj
      · exact .inr ⟨j, hj, hahead⟩
      · exact .inl (Log.absent_add hnone)
  cases pc with
  | releaseFound => trivial
  | done v =>
    intro hnone
    rw [hsame] at hnone
    exact (h hnone).add u e
  | _ => exact ahead h

end Goes

variable [DecidableEq C] {s s' : State n C} {c : C}

/-- Every call in progress and every call that has returned has done what it should. -/
structure Lookups (s : State n C) (log : Log n C) : Prop where
  calls : ∀ t pre op pc below, s.stack t = pre ++ .pidScan op pc :: below →
    ∃ mid earlier : Log n C, log = mid ++ (t, .scan op) :: earlier ∧ pc.Did op (mid.lookups t) ∧
      (log.Few → pc.Missed s.shared t mid ((t, .scan op) :: earlier) op)
  returns : ∀ (later before : Log n C) t op v, log = later ++ (t, .scanReturns op v) :: before →
    ∃ mid earlier : Log n C, before = mid ++ (t, .scan op) :: earlier ∧ op.Answers (mid.lookups t) v ∧
      (before.Few → mid.lookups t = [] → mid.Absent ((t, .scan op) :: earlier) op.pid)

namespace Lookups

theorem event_scanReturns {sh : Shared n} (he : f.event sh g = some (.scanReturns op v)) :
    f = .pidScan op (.done v) := by
  unfold Frame.event at he
  split at he
  case h_8 =>
    split at he
    · split at he <;> cases he
    · cases he
  case h_11 =>
    split at he
    · cases he
    · split at he <;> cases he
    · cases he
  case h_12 => split at he <;> cases he
  case h_13 =>
    cases he
    rfl
  all_goals cases he

omit [DecidableEq C] in
theorem few_of_add (h : (log.add t e).Few) : log.Few := by
  rw [← Log.add_eq] at h
  exact Log.few_of_append h

theorem step_calls (hl : Lookups s log) (h : Sound s) (hs : s.stack (s.running c) = f :: rest)
    (ht : Turn nofile s c f rest s' e)
    (hst : (log.add (s.running c) e).Few → s'.shared.Stores (log.add (s.running c) e).store)
    (hh : s'.stack t = pre ++ .pidScan op pc :: below) :
    ∃ mid earlier : Log n C, log.add (s.running c) e = mid ++ (t, .scan op) :: earlier ∧
      pc.Did op (mid.lookups t) ∧ ((log.add (s.running c) e).Few →
        pc.Missed s'.shared t mid ((t, .scan op) :: earlier) op) := by
  have hok := h.stack (s.running c)
  rw [hs] at hok
  have few : (log.add (s.running c) e).Few → log.Few := few_of_add
  cases ht.comes hs hh with
  | @old pre hold hquiet =>
    obtain ⟨mid, earlier, rfl, hdid, hmissed⟩ := hl.calls t pre op pc below hold
    -- The event of the step is not one of this call.
    have hsame : (mid.add (s.running c) e).lookups t = mid.lookups t := by
      obtain hne | rfl := ne_or_eq t (s.running c)
      · exact Log.lookups_add_of_ne hne
      · refine Log.lookups_add_of_other fun e' he' => ?_
        obtain ⟨rfl, -⟩ | hpre := hquiet rfl
        · cases he'
        · obtain _ | ⟨f', pre⟩ := pre
          · exact absurd rfl hpre
          · obtain ⟨rfl, hrest⟩ := List.cons.inj (hs.symm.trans hold)
            obtain ⟨g, hg⟩ := ht.eq_event e' he'
            exact not_ofLookup_of_below hok hrest hg
    refine ⟨_, earlier, Log.add_append .., ?_, fun hfew => ?_⟩
    · rw [hsame]
      exact hdid
    · exact (hmissed (few hfew)).other (h.priced hs ht) hsame
  | @next x a htr ha hnext hsh hbelow he =>
    obtain ⟨op', pc', rfl⟩ := Frame.eq_pidScan_of_fn ((h.disciplined hs ha).next_fn hnext).symm
    obtain ⟨pc₁, hpc, hgoes⟩ := pidScan_goes ha hnext
    cases hpc
    obtain ⟨mid, earlier, rfl, hdid, hmissed⟩ := hl.calls t [] op pc' rest (htr ▸ hs)
    subst htr
    obtain he | ⟨callee, rfl⟩ := he
    swap
    · cases pc' with
      | loop i | test p =>
        simp only [code, pidScan] at ha
        split at ha <;> cases ha
      | _ => cases ha
    refine ⟨_, earlier, Log.add_append .., ?_, fun hfew => ?_⟩
    · rw [he]
      exact hgoes.did hdid
    · rw [hsh, he]
      exact hgoes.missed hdid (hmissed (few hfew))
  | @call x g htr ha hbelow hsh he =>
    have hd : (code (s.ctx nofile c x) f).Disciplined (s.running c) (held rest) f := h.disciplined hs rfl
    obtain ⟨⟨p, rfl⟩, rfl⟩ := call_pidScan hd ha
    subst htr he
    refine ⟨[], log, rfl, rfl, fun hfew => ?_⟩
    cases hnone : log.store op.pid with
    | none => exact .inl ⟨[], [], rfl, hnone⟩
    | some v =>
      obtain ⟨j, hj, -⟩ := (hst hfew op.pid v).mp hnone
      exact .inr ⟨j, hj, Nat.zero_le _⟩
  | @resume x v r htr ha hrest hawaits hsh hh =>
    have hfn : r.fn = .pidScan := by
      rw [← Frame.resume_fn v, ← hh]
      rfl
    exact absurd hfn hawaits.not_pidScan
  | other hh =>
    obtain hh | ⟨msg, hh⟩ | ⟨pc, hh⟩ | ⟨q, hh⟩ | ⟨q, hh⟩ := hh <;> cases hh

theorem step (hl : Lookups s log) (h : Sound s) (hs : s.stack (s.running c) = f :: rest)
    (ht : Turn nofile s c f rest s' e)
    (hst : (log.add (s.running c) e).Few → s'.shared.Stores (log.add (s.running c) e).store) :
    Lookups s' (log.add (s.running c) e) := by
  refine ⟨fun t pre op pc below hh => hl.step_calls h hs ht hst hh, ?_⟩
  intro later before t op v hlog
  cases e with
  | none => exact hl.returns later before t op v hlog
  | some e =>
    obtain _ | ⟨x, later⟩ := later
    · obtain ⟨hx, rfl⟩ := List.cons.inj hlog
      cases hx
      obtain ⟨g, hg⟩ := ht.eq_event _ rfl
      obtain rfl := event_scanReturns hg
      obtain ⟨mid, earlier, rfl, hdid, hmissed⟩ := hl.calls (s.running c) [] op (.done v) rest hs
      exact ⟨mid, earlier, rfl, hdid, hmissed⟩
    · exact hl.returns later before t op v (List.cons.inj hlog).2

theorem of_reachable {b : C} {y : State n C × Log n C} (hy : (history n nofile b).Reachable y) :
    Lookups y.1 y.2 := by
  refine hy.invariant (fun y => Lookups y.1 y.2) ⟨?_, ?_⟩ ?_
  · intro t pre op pc below hh
    have hmem : .pidScan op pc ∈ (State.boot b).stack t := by
      rw [show (State.boot b).stack t = _ from hh]
      exact List.mem_append_right _ List.mem_cons_self
    obtain ⟨pc', hpc'⟩ := State.boot_main hmem
    cases hpc'
  · intro later before t op v hlog
    cases later <;> cases hlog
  intro y l z hr ih hstep
  have hst := stores_of_history (hr.step hstep)
  obtain ⟨hstep, hlog⟩ := System.step_recorded hstep
  have h := Sound.of_reachable hr.fst
  obtain ⟨f, rest, e, hs, hturn, he⟩ := h.turn hstep
  rw [he, Log.add_eq] at hlog
  rw [hlog] at hst ⊢
  exact ih.step h hs hturn hst

end Lookups

end MultithreadMayhem.Kernel
