import MultithreadMayhem.BoundedBuffer.Fifo
import MultithreadMayhem.Foundation.ThreadCount

/-!
# No wakeup is lost in the bounded buffer

While a getter is parked, the items in the buffer are covered by threads which
will take an item or send a signal: woken getters, the getter at work, and the
putter about to signal. Dually for parked putters and free slots. A signalled
thread that is overtaken parks again only when nothing is left for it to do.
-/

namespace MultithreadMayhem.BoundedBuffer

open Foundation Pthread Buffer

variable {T D K : Type}

/-- The thread is going to take an item or to signal a getter. -/
def getCredit : Status Cv (Pc K) → Bool
  | .woken (.getTest ..) => true
  | .running (.getTest ..) | .running (.getRead ..) | .running (.getAdvance ..)
  | .running (.getCount ..) | .running (.putSignal ..) => true
  | _ => false

/-- The thread is going to fill a slot or to signal a putter. -/
def putCredit : Status Cv (Pc K) → Bool
  | .woken (.putTest ..) => true
  | .running (.putTest ..) | .running (.putStore ..) | .running (.putAdvance ..)
  | .running (.putCount ..) | .running (.getSignal ..) => true
  | _ => false

@[simp]
theorem getCredit_parked (cv : Cv) (pc : Pc K) : getCredit (.parked cv pc) = false := rfl

@[simp]
theorem putCredit_parked (cv : Cv) (pc : Pc K) : putCredit (.parked cv pc) = false := rfl

structure Covered [Fintype T] (s : State T (Shared T D) Cv (Pc K)) : Prop where
  getters : 0 < countThreads (Status.waitsOn .canGet) s.status →
    s.shared.count ≤ countThreads getCredit s.status
  putters : 0 < countThreads (Status.waitsOn .canPut) s.status →
    s.shared.capacity - s.shared.count ≤ countThreads putCredit s.status

/-- A step of one thread that pays for its effect on `count` by its own credit, as far as getters or
putters are parked. -/
structure Pays (s : State T (Shared T D) Cv (Pc K)) [Fintype T] (count' : Int)
    (st st' : Status Cv (Pc K)) : Prop where
  park_get : st'.waitsOn .canGet = true → count' ≤ 0
  get : st'.waitsOn .canGet = false → 0 < countThreads (Status.waitsOn .canGet) s.status →
    count' + (getCredit st).toNat ≤ s.shared.count + (getCredit st').toNat
  park_put : st'.waitsOn .canPut = true → s.shared.capacity ≤ count'
  put : st'.waitsOn .canPut = false → 0 < countThreads (Status.waitsOn .canPut) s.status →
    s.shared.count + (putCredit st).toNat ≤ count' + (putCredit st').toNat

variable [Fintype T] [DecidableEq T]

theorem Covered.move {s : State T (Shared T D) Cv (Pc K)} (h : Covered s) (t : T)
    {st' : Status Cv (Pc K)} {x : Shared T D} {m : Option T}
    (hp : Pays s x.count (s.status t) st')
    (hcap : x.capacity = s.shared.capacity) :
    Covered { shared := x, mutex := m, status := Function.update s.status t st' } := by
  have hwg := countThreads_update (Status.waitsOn .canGet) s.status t st'
  have hwp := countThreads_update (Status.waitsOn .canPut) s.status t st'
  have hcg := countThreads_update getCredit s.status t st'
  have hcp := countThreads_update putCredit s.status t st'
  constructor
  · intro hpos
    change 0 < countThreads (Status.waitsOn .canGet) (Function.update s.status t st') at hpos
    change x.count ≤ countThreads getCredit (Function.update s.status t st')
    cases hw : st'.waitsOn .canGet with
    | true =>
      have := hp.park_get hw
      omega
    | false =>
      rw [hw, Bool.toNat_false] at hwg
      have hparked : 0 < countThreads (Status.waitsOn .canGet) s.status := by omega
      have hpay := hp.get hw hparked
      have := h.getters hparked
      omega
  · intro hpos
    change 0 < countThreads (Status.waitsOn .canPut) (Function.update s.status t st') at hpos
    change (x.capacity : Int) - x.count ≤ countThreads putCredit (Function.update s.status t st')
    rw [hcap]
    cases hw : st'.waitsOn .canPut with
    | true =>
      have := hp.park_put hw
      omega
    | false =>
      rw [hw, Bool.toNat_false] at hwp
      have hparked : 0 < countThreads (Status.waitsOn .canPut) s.status := by omega
      have hpay := hp.put hw hparked
      have := h.putters hparked
      omega

/-- A signal hands the credit of the signalling thread to the woken one. -/
theorem Covered.handOver {s : State T (Shared T D) Cv (Pc K)} (h : Covered s) {t w : T}
    {pc next pc' : Pc K} {cv : Cv} (hs : s.status t = .running pc)
    (hw : s.status w = .parked cv pc')
    (hget : (getCredit (.running pc)).toNat ≤
      (getCredit (.running next)).toNat + (getCredit (.woken pc')).toNat)
    (hput : (putCredit (.running pc)).toNat ≤
      (putCredit (.running next)).toNat + (putCredit (.woken pc')).toNat) :
    Covered ({ s with status := Function.update s.status w (.woken pc') }.goto t next) := by
  have hne : t ≠ w := by
    rintro rfl
    rw [hs] at hw
    cases hw
  have ht : Function.update s.status w (.woken pc') t = .running pc := by
    rw [Function.update_of_ne hne, hs]
  have move (P : Status Cv (Pc K) → Bool) :
      countThreads P (Function.update (Function.update s.status w (.woken pc')) t
          (.running next)) + (P (.running pc)).toNat + (P (.parked cv pc')).toNat =
        countThreads P s.status + (P (.woken pc')).toNat + (P (.running next)).toNat := by
    have hw' := countThreads_update P s.status w (.woken pc')
    have ht' := countThreads_update P (Function.update s.status w (.woken pc')) t (.running next)
    rw [ht] at ht'
    rw [hw] at hw'
    omega
  have hcg := move getCredit
  have hcp := move putCredit
  have hwg := move (Status.waitsOn .canGet)
  have hwp := move (Status.waitsOn .canPut)
  simp only [Status.waitsOn, Bool.toNat_false] at hwg hwp
  rw [getCredit_parked, Bool.toNat_false] at hcg
  rw [putCredit_parked, Bool.toNat_false] at hcp
  constructor
  · intro hpos
    have := h.getters (by simp only [State.goto_status] at hpos; omega)
    simp only [State.goto_status, State.goto_shared]
    omega
  · intro hpos
    have := h.putters (by simp only [State.goto_status] at hpos; omega)
    simp only [State.goto_status, State.goto_shared]
    omega

section Inversion

variable {client : Client T D K} {t : T} {pc next : Pc K} {x y : Shared T D} {cv : Cv}

omit [Fintype T] [DecidableEq T]

theorem lock_eq (hc : code client t pc x = .lock next) :
    (∃ item k, pc = .putLock item k ∧ next = .putTest item k) ∨
      ∃ k, pc = .getLock k ∧ next = .getTest k := by
  cases pc <;> simp only [code, bufferPut, bufferGet] at hc
  case putLock item k =>
    cases hc
    exact .inl ⟨item, k, rfl, rfl⟩
  case getLock k =>
    cases hc
    exact .inr ⟨k, rfl, rfl⟩
  all_goals first | cases hc | (split at hc <;> cases hc)

theorem unlock_eq (hc : code client t pc x = .unlock next) :
    (∃ k, pc = .putUnlock k ∧ next = .client k) ∨
      ∃ item k, pc = .getUnlock item k ∧ next = .client (k item) := by
  cases pc <;> simp only [code, bufferPut, bufferGet] at hc
  case putUnlock k =>
    cases hc
    exact .inl ⟨k, rfl, rfl⟩
  case getUnlock item k =>
    cases hc
    exact .inr ⟨item, k, rfl, rfl⟩
  all_goals first | cases hc | (split at hc <;> cases hc)

theorem wait_eq (hc : code client t pc x = .wait cv next) :
    (cv = .canPut ∧ (∃ item k, pc = .putTest item k ∧ next = pc) ∧ x.count = x.capacity) ∨
      (cv = .canGet ∧ (∃ k, pc = .getTest k ∧ next = pc) ∧ x.count = 0) := by
  cases pc <;> simp only [code, bufferPut, bufferGet] at hc
  case putTest item k =>
    split at hc <;> cases hc
    exact .inl ⟨rfl, ⟨item, k, rfl, rfl⟩, ‹_›⟩
  case getTest k =>
    split at hc <;> cases hc
    exact .inr ⟨rfl, ⟨k, rfl, rfl⟩, ‹_›⟩
  all_goals first | cases hc | (split at hc <;> cases hc)

theorem signal_eq (hc : code client t pc x = .signal cv next) :
    (cv = .canGet ∧ ∃ k, pc = .putSignal k ∧ next = .putUnlock k) ∨
      (cv = .canPut ∧ ∃ item k, pc = .getSignal item k ∧ next = .getUnlock item k) := by
  cases pc <;> simp only [code, bufferPut, bufferGet] at hc
  case putSignal k =>
    cases hc
    exact .inl ⟨rfl, k, rfl, rfl⟩
  case getSignal item k =>
    cases hc
    exact .inr ⟨rfl, item, k, rfl, rfl⟩
  all_goals first | cases hc | (split at hc <;> cases hc)

theorem broadcast_ne : code client t pc x ≠ .broadcast cv next := by
  intro hc
  cases pc <;> simp only [code, bufferPut, bufferGet] at hc
  all_goals first | cases hc | (split at hc <;> cases hc)

theorem exec_eq (hc : code client t pc x = .exec y next) :
    y.capacity = x.capacity ∧
      ((∃ k, pc = .putCount k ∧ next = .putSignal k ∧ y.count = x.count + 1) ∨
        (∃ item k, pc = .getCount item k ∧ next = .getSignal item k ∧ y.count = x.count - 1) ∨
        (y.count = x.count ∧ getCredit (.running next) = getCredit (.running pc) ∧
          putCredit (.running next) = putCredit (.running pc))) := by
  cases pc <;> simp only [code, bufferPut, bufferGet] at hc
  case putCount k =>
    cases hc
    exact ⟨rfl, .inl ⟨k, rfl, rfl, rfl⟩⟩
  case getCount item k =>
    cases hc
    exact ⟨rfl, .inr (.inl ⟨item, k, rfl, rfl, rfl⟩)⟩
  all_goals first | cases hc | (split at hc <;> cases hc)
  all_goals exact ⟨rfl, .inr (.inr ⟨rfl, rfl, rfl⟩)⟩

end Inversion

omit [DecidableEq T] in
theorem Pays.of_credit {s : State T (Shared T D) Cv (Pc K)} {st : Status Cv (Pc K)} {next : Pc K}
    (hget : (getCredit st).toNat ≤ (getCredit (.running next)).toNat)
    (hput : (putCredit st).toNat ≤ (putCredit (.running next)).toNat) :
    Pays s s.shared.count st (.running next) :=
  ⟨nofun, fun _ _ => by omega, nofun, fun _ _ => by omega⟩

omit [DecidableEq T] in
theorem Pays.of_exec {client : Client T D K} {s : State T (Shared T D) Cv (Pc K)} {t : T}
    {pc next : Pc K} {y : Shared T D} (hc : code client t pc s.shared = .exec y next) :
    Pays s y.count (.running pc) (.running next) := by
  obtain ⟨_, ⟨k, rfl, rfl, hcount⟩ | ⟨item, k, rfl, rfl, hcount⟩ | ⟨hcount, hget, hput⟩⟩ := exec_eq hc
  · refine ⟨nofun, fun _ _ => ?_, nofun, fun _ _ => ?_⟩ <;> simp [hcount, getCredit, putCredit]
  · refine ⟨nofun, fun _ _ => ?_, nofun, fun _ _ => ?_⟩ <;> simp [hcount, getCredit, putCredit]
  · exact ⟨nofun, fun _ _ => by rw [hcount, hget], nofun, fun _ _ => by rw [hcount, hput]⟩

theorem Covered.transition {client : Client T D K} {s s' : State T (Shared T D) Cv (Pc K)}
    {l : Label T} (hg : Guarded (code client) Pc.inside s) (h : Covered s)
    (ht : Transition (code client) s l s') : Covered s' := by
  cases ht with
  | @lock t pc next hs hc hm =>
    refine h.move t (x := s.shared) ?_ rfl
    rw [hs]
    obtain ⟨item, k, rfl, rfl⟩ | ⟨k, rfl, rfl⟩ := lock_eq hc
    · exact Pays.of_credit le_rfl (Nat.zero_le _)
    · exact Pays.of_credit (Nat.zero_le _) le_rfl
  | @unlock t pc next hs hc hm =>
    refine h.move t (x := s.shared) ?_ rfl
    rw [hs]
    obtain ⟨k, rfl, rfl⟩ | ⟨item, k, rfl, rfl⟩ := unlock_eq hc
    · exact Pays.of_credit le_rfl le_rfl
    · exact Pays.of_credit le_rfl le_rfl
  | @wait t pc next cv hs hc hm =>
    refine h.move t (x := s.shared) ?_ rfl
    rw [hs]
    obtain ⟨rfl, ⟨item, k, rfl, rfl⟩, hfull⟩ | ⟨rfl, ⟨k, rfl, rfl⟩, hempty⟩ := wait_eq hc
    · exact ⟨nofun, fun _ _ => le_rfl, fun _ => hfull.ge, nofun⟩
    · exact ⟨fun _ => hempty.le, nofun, nofun, fun _ _ => le_rfl⟩
  | @signalNone t pc next cv hs hc hn =>
    have none : countThreads (Status.waitsOn cv) s.status = 0 := countThreads_eq_zero_iff.mpr hn
    refine h.move t (x := s.shared) ?_ rfl
    rw [hs]
    obtain ⟨rfl, k, rfl, rfl⟩ | ⟨rfl, item, k, rfl, rfl⟩ := signal_eq hc
    · exact ⟨nofun, fun _ hpos => by omega, nofun, fun _ _ => le_rfl⟩
    · exact ⟨nofun, fun _ _ => le_rfl, nofun, fun _ hpos => by omega⟩
  | @signalWake t w pc next pc' cv hs hc hw =>
    obtain ⟨t', q, x, hwait⟩ := hg.parked_resumes hw
    obtain ⟨rfl, k, rfl, rfl⟩ | ⟨rfl, item, k, rfl, rfl⟩ := signal_eq hc
    · obtain ⟨hcv, _⟩ | ⟨_, ⟨k', rfl, rfl⟩, _⟩ := wait_eq hwait
      · cases hcv
      · exact h.handOver hs hw le_rfl le_rfl
    · obtain ⟨_, ⟨item', k', rfl, rfl⟩, _⟩ | ⟨hcv, _⟩ := wait_eq hwait
      · exact h.handOver hs hw le_rfl le_rfl
      · cases hcv
  | @broadcast t pc next cv hs hc => exact absurd hc broadcast_ne
  | @exec t pc next y hs hc =>
    exact h.move t (hs ▸ Pays.of_exec hc) (exec_eq hc).1
  | @relock t pc hs hm =>
    refine h.move t (x := s.shared) ?_ rfl
    rw [hs]
    obtain ⟨t', q, x, cv, hwait⟩ := hg.woken_resumes hs
    obtain ⟨_, ⟨item, k, rfl, rfl⟩, _⟩ | ⟨_, ⟨k, rfl, rfl⟩, _⟩ := wait_eq hwait
    · exact Pays.of_credit le_rfl le_rfl
    · exact Pays.of_credit le_rfl le_rfl
  | @spurious t cv pc hs =>
    refine h.move t (x := s.shared) ?_ rfl
    rw [hs]
    exact ⟨nofun, fun _ _ => by simp, nofun, fun _ _ => by simp⟩

theorem reachable_covered {client : Client T D K} {cap : ℕ} {mem : ℕ → Int} {d : D}
    {start : T → K} {s : State T (Shared T D) Cv (Pc K)}
    (h : (bufferSystem client cap mem d start).Reachable s) : Covered s := by
  refine h.invariant Covered ⟨fun hpos => ?_, fun hpos => ?_⟩ ?_
  · obtain ⟨t, ht⟩ := countThreads_pos_iff.mp hpos
    cases ht
  · obtain ⟨t, ht⟩ := countThreads_pos_iff.mp hpos
    cases ht
  · intro s l s' hreach hc hs
    exact hc.transition (reachable_guarded (code_disciplined client) (fun _ => rfl) hreach)
      (step_iff.mp hs)

def Finished (st : Status Cv (Pc Caller)) : Prop := ∃ items, st = .running (.client ⟨[], items⟩)

def InPut (st : Status Cv (Pc K)) : Prop :=
  ∃ pc, pc.isPut = true ∧ (st = .running pc ∨ (∃ cv, st = .parked cv pc) ∨ st = .woken pc)

def InGet (st : Status Cv (Pc K)) : Prop :=
  ∃ pc, pc.isGet = true ∧ (st = .running pc ∨ (∃ cv, st = .parked cv pc) ∨ st = .woken pc)

/-- When no thread can go on, a thread parked in `buffer_put` sees a full buffer and a thread parked
in `buffer_get` sees an empty one. -/
theorem stuck_parked {client : Client T D K} {cap : ℕ} {mem : ℕ → Int} {d : D} {start : T → K}
    {s : State T (Shared T D) Cv (Pc K)} (h : (bufferSystem client cap mem d start).Reachable s)
    (hstuck : ¬ CanStep (code client) s) {t : T} {cv : Cv} {pc : Pc K}
    (hp : s.status t = .parked cv pc) :
    (cv = .canPut ∧ pc.isPut = true ∧ s.shared.capacity ≤ s.shared.count) ∨
      (cv = .canGet ∧ pc.isGet = true ∧ s.shared.count ≤ 0) := by
  have hg : Guarded (code client) Pc.inside s :=
    reachable_guarded (code_disciplined client) (fun _ => rfl) h
  obtain ⟨hfree, hall⟩ := hg.stuck (code_disciplined client) hstuck
  have hcov := reachable_covered h
  -- A stopped or parked thread has no credit.
  have broke (P : Status Cv (Pc K) → Bool) (hpark : ∀ cv pc, P (.parked cv pc) = false)
      (hrun : ∀ pc, pc.inside = false → P (.running pc) = false) :
      countThreads P s.status = 0 := by
    refine countThreads_eq_zero_iff.mpr fun u => ?_
    obtain ⟨q, hq, hstop⟩ | hpk := hall u
    · rw [hq]
      apply hrun
      obtain hstop | hstop := hstop
      · exact (code_disciplined client).act hstop
      · exact (code_disciplined client).act hstop
    · obtain ⟨cv, pc, hst⟩ := Status.isParked_iff.mp hpk
      rw [hst]
      exact hpark cv pc
  have hget : countThreads getCredit s.status = 0 :=
    broke getCredit (fun _ _ => rfl) fun pc hi => by cases pc <;> first | rfl | cases hi
  have hput : countThreads putCredit s.status = 0 :=
    broke putCredit (fun _ _ => rfl) fun pc hi => by cases pc <;> first | rfl | cases hi
  obtain ⟨t', q, x, hwait⟩ := hg.parked_resumes hp
  obtain ⟨rfl, ⟨item, k, rfl, rfl⟩, _⟩ | ⟨rfl, ⟨k, rfl, rfl⟩, _⟩ := wait_eq hwait
  · have := hcov.putters (countThreads_pos_iff.mpr ⟨t, Status.waitsOn_iff.mpr ⟨_, hp⟩⟩)
    exact .inl ⟨rfl, rfl, by omega⟩
  · have := hcov.getters (countThreads_pos_iff.mpr ⟨t, Status.waitsOn_iff.mpr ⟨_, hp⟩⟩)
    exact .inr ⟨rfl, rfl, by omega⟩

theorem stuck_place {client : Client T D K} {cap : ℕ} {mem : ℕ → Int} {d : D} {start : T → K}
    {s : State T (Shared T D) Cv (Pc K)} (h : (bufferSystem client cap mem d start).Reachable s)
    (hstuck : ¬ CanStep (code client) s) (t : T) :
    (∃ k, s.status t = .running (.client k) ∧
      (client t k s.shared.data = .block ∨ client t k s.shared.data = .finish)) ∨
      (∃ item k, s.status t = .parked .canPut (.putTest item k) ∧
        s.shared.capacity ≤ s.shared.count) ∨
      ∃ k, s.status t = .parked .canGet (.getTest k) ∧ s.shared.count ≤ 0 := by
  have hg : Guarded (code client) Pc.inside s :=
    reachable_guarded (code_disciplined client) (fun _ => rfl) h
  obtain ⟨pc, hs, hstop⟩ | hpark := (hg.stuck (code_disciplined client) hstuck).2 t
  · obtain ⟨k, rfl, hcall⟩ := code_stopped hstop
    exact .inl ⟨k, hs, hcall⟩
  · obtain ⟨cv, pc, hs⟩ := Status.isParked_iff.mp hpark
    obtain ⟨t', q, x, hwait⟩ := hg.parked_resumes hs
    right
    obtain ⟨rfl, ⟨item, k, rfl, rfl⟩, _⟩ | ⟨rfl, ⟨k, rfl, rfl⟩, _⟩ := wait_eq hwait
    · obtain ⟨_, _, hfull⟩ | ⟨hcv, _⟩ := stuck_parked h hstuck hs
      · exact .inl ⟨item, k, hs, hfull⟩
      · cases hcv
    · obtain ⟨hcv, _⟩ | ⟨_, _, hempty⟩ := stuck_parked h hstuck hs
      · cases hcv
      · exact .inr ⟨k, hs, hempty⟩

omit [Fintype T] [DecidableEq T] in
theorem stopped_finished {t : T} {pc : Pc Caller} {x : Shared T Unit}
    (hc : code (programs T) t pc x = .block ∨ code (programs T) t pc x = .exit) :
    ∃ items, pc = .client ⟨[], items⟩ := by
  obtain ⟨p, rfl, hstop⟩ := code_stopped hc
  match p with
  | ⟨[], items⟩ => exact ⟨items, rfl⟩
  | ⟨.put item :: ops, items⟩ => obtain hstop | hstop := hstop <;> cases hstop
  | ⟨.get :: ops, items⟩ => obtain hstop | hstop := hstop <;> cases hstop

/-- Only spurious wakeups are left in three situations: all threads have finished, the unfinished
ones all want to put into a full buffer, or they all want to get from an empty one. -/
theorem buffer_stuck_cases {cap : ℕ} (hcap : 0 < cap) {mem : ℕ → Int} {ops : T → List Op}
    {s : State T (Shared T Unit) Cv (Pc Caller)}
    (h : (bufferSystem (programs T) cap mem () (callers ops)).Reachable s)
    (hstuck : ¬ CanStep (code (programs T)) s) :
    ((∀ t, Finished (s.status t)) ∨
      (s.shared.count = cap ∧ ∀ t, ¬ Finished (s.status t) → InPut (s.status t)) ∨
      (s.shared.count = 0 ∧ ∀ t, ¬ Finished (s.status t) → InGet (s.status t))) ∧
    ¬ ((∃ t, (s.status t).waitsOn .canPut = true) ∧ ∃ t, (s.status t).waitsOn .canGet = true) := by
  have hg : Guarded (code (programs T)) Pc.inside s :=
    reachable_guarded (code_disciplined _) (fun _ => rfl) h
  obtain ⟨hfree, hall⟩ := hg.stuck (code_disciplined _) hstuck
  obtain ⟨hlow, hhigh⟩ := count_bounds_of_free hcap h hfree
  have hcapacity : s.shared.capacity = cap := ((reachable_refines hcap h).free hfree).1
  have parked (t : T) (ht : ¬ Finished (s.status t)) : ∃ cv pc, s.status t = .parked cv pc := by
    obtain ⟨pc, hs, hstop⟩ | hpark := hall t
    · obtain ⟨items, rfl⟩ := stopped_finished hstop
      exact absurd ⟨items, hs⟩ ht
    · exact Status.isParked_iff.mp hpark
  constructor
  · by_cases hfin : ∀ t, Finished (s.status t)
    · exact .inl hfin
    · right
      obtain ⟨t, ht⟩ := not_forall.mp hfin
      obtain ⟨cv, pc, hs⟩ := parked t ht
      obtain ⟨_, _, hfull⟩ | ⟨_, _, hempty⟩ := stuck_parked h hstuck hs
      · refine .inl ⟨by omega, fun u hu => ?_⟩
        obtain ⟨cv', pc', hs'⟩ := parked u hu
        obtain ⟨_, hput, _⟩ | ⟨_, _, hempty⟩ := stuck_parked h hstuck hs'
        · exact ⟨pc', hput, .inr (.inl ⟨cv', hs'⟩)⟩
        · omega
      · refine .inr ⟨by omega, fun u hu => ?_⟩
        obtain ⟨cv', pc', hs'⟩ := parked u hu
        obtain ⟨_, _, hfull⟩ | ⟨_, hget, _⟩ := stuck_parked h hstuck hs'
        · omega
        · exact ⟨pc', hget, .inr (.inl ⟨cv', hs'⟩)⟩
  · rintro ⟨⟨t, ht⟩, u, hu⟩
    obtain ⟨pc, hs⟩ := Status.waitsOn_iff.mp ht
    obtain ⟨pc', hs'⟩ := Status.waitsOn_iff.mp hu
    obtain ⟨_, _, hfull⟩ | ⟨hcv, _⟩ := stuck_parked h hstuck hs
    · obtain ⟨hcv, _⟩ | ⟨_, _, hempty⟩ := stuck_parked h hstuck hs'
      · cases hcv
      · omega
    · cases hcv

theorem buffer_stuck_cases_two_getters :
    let ops : Fin 2 → List Op := fun _ => [.get]
    ∃ s, (bufferSystem (programs (Fin 2)) 3 (fun _ => 0) () (callers ops)).Reachable s ∧
      ¬ CanStep (code (programs (Fin 2))) s ∧
      ¬ ((∃ t, (s.status t).waitsOn .canPut = true) ∧
        ∃ t, (s.status t).waitsOn .canGet = true) := by
  intro ops
  have hreach := System.reachable_of_run
    (M := bufferSystem (programs (Fin 2)) 3 (fun _ => 0) () (callers ops))
    (List.replicate 3 (Label.run 0) ++ List.replicate 3 (Label.run 1)) rfl
  refine ⟨_, hreach, ?_, (buffer_stuck_cases (by decide) hreach ?_).2⟩
  all_goals
    rintro ⟨l, s', hl, hs⟩
    match l with
    | .run 0 => cases hs
    | .run 1 => cases hs
    | .wake 0 0 => cases hs
    | .wake 0 1 => cases hs
    | .wake 1 0 => cases hs
    | .wake 1 1 => cases hs
    | .spurious t => exact hl trivial

end MultithreadMayhem.BoundedBuffer
