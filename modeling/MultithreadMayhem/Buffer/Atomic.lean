import MultithreadMayhem.Buffer.Client
import MultithreadMayhem.Foundation.ByThread
import MultithreadMayhem.Foundation.System

/-!
# The atomic buffer

The buffer as its users see it: a bounded queue on which each thread performs the
calls of its program one after the other. A history is legal when the queue can
perform it and when each thread performs its own program in it.
-/

namespace MultithreadMayhem.Buffer

open Foundation BoundedQueue

variable {T : Type}

/-- The calls left of the program `ops` after the accesses `h`, if these are its first calls. -/
def rest : List Op → List (Access T Int) → Option (List Op)
  | ops, [] => some ops
  | .put item :: ops, .put _ x :: h => if item = x then rest ops h else none
  | .get :: ops, .get _ _ :: h => rest ops h
  | _, _ => none

@[simp]
theorem rest_nil (ops : List Op) : rest ops ([] : List (Access T Int)) = some ops := by simp [rest]

theorem rest_append (ops : List Op) (h k : List (Access T Int)) :
    rest ops (h ++ k) = (rest ops h).bind fun l => rest l k := by
  induction h generalizing ops with
  | nil => simp
  | cons e h ih =>
    match ops, e with
    | [], e => simp [rest]
    | .put item :: ops, .put t x =>
      simp only [List.cons_append, rest]
      split
      · exact ih ops
      · rfl
    | .put item :: ops, .get t x => simp [rest]
    | .get :: ops, .put t x => simp [rest]
    | .get :: ops, .get t x =>
      simp only [List.cons_append, rest]
      exact ih ops

theorem rest_put {ops l : List Op} {h : List (Access T Int)} {item : Int}
    (hrest : rest ops h = some (.put item :: l)) (t : T) :
    rest ops (h ++ [.put t item]) = some l := by
  rw [rest_append, hrest]
  simp [rest]

theorem rest_get {ops l : List Op} {h : List (Access T Int)} (hrest : rest ops h = some (.get :: l))
    (t : T) (x : Int) : rest ops (h ++ [.get t x]) = some l := by
  rw [rest_append, hrest]
  simp [rest]

theorem rest_concat {ops l : List Op} {h : List (Access T Int)} {e : Access T Int}
    (hrest : rest ops (h ++ [e]) = some l) :
    (∃ t item, e = .put t item ∧ rest ops h = some (.put item :: l)) ∨
      ∃ t x, e = .get t x ∧ rest ops h = some (.get :: l) := by
  rw [rest_append] at hrest
  obtain ⟨m, hm, hlast⟩ := Option.bind_eq_some_iff.mp hrest
  match m, e with
  | [], e => simp [rest] at hlast
  | .put item :: m, .put t x =>
    simp only [rest] at hlast
    split at hlast
    · rename_i heq
      cases hlast
      exact .inl ⟨t, x, rfl, heq ▸ hm⟩
    · cases hlast
  | .put item :: m, .get t x => simp [rest] at hlast
  | .get :: m, .put t x => simp [rest] at hlast
  | .get :: m, .get t x =>
    simp only [rest] at hlast
    cases hlast
    exact .inr ⟨t, x, rfl, hm⟩

variable [DecidableEq T]

/-- The accesses of the thread `t` in `h` have brought it from the calls `ops` to `p`, with the items
that it has taken out. -/
structure Caller.After (ops : List Op) (t : T) (h : List (Access T Int)) (p : Caller) : Prop where
  left : rest ops (accessesOf t h) = some p.ops
  items : takenBy t h = p.returned

namespace Caller.After

variable {ops l : List Op} {t u : T} {h k : List (Access T Int)} {p : Caller} {items : List Int}

theorem nil (ops : List Op) (t : T) : After ops t [] ⟨ops, []⟩ := ⟨rest_nil ops, rfl⟩

theorem put {item : Int} (hp : After ops t h ⟨.put item :: l, items⟩) :
    After ops t (h ++ [.put t item]) ⟨l, items⟩ where
  left := by
    have hself := accessesOf_concat_self h (.put t item)
    simp only [Access.thread] at hself
    rw [hself]
    exact rest_put hp.left t
  items := (takenBy_put t h item).trans hp.items

theorem get (hp : After ops t h ⟨.get :: l, items⟩) (x : Int) :
    After ops t (h ++ [.get t x]) ⟨l, items ++ [x]⟩ where
  left := by
    have hself := accessesOf_concat_self h (.get t x)
    simp only [Access.thread] at hself
    rw [hself]
    exact rest_get hp.left t x
  items := by rw [takenBy_get, hp.items]

theorem others (hp : After ops t h p) (hext : ExtendsBy u h k) (hne : u ≠ t) : After ops t k p where
  left := by rw [hext.accessesOf_eq hne, hp.left]
  items := by rw [takenBy, hext.accessesOf_eq hne, ← takenBy, hp.items]

end Caller.After

/-- The accesses `h` of the programs `ops` leave `q` in the queue and each thread `t` with the calls
`left t`. -/
structure Legal (cap : ℕ) (ops : T → List Op) (h : List (Access T Int)) (q : List Int)
    (left : T → List Op) : Prop where
  queue : BoundedQueue.run cap [] h = some q
  calls : ∀ t, rest (ops t) (accessesOf t h) = some (left t)

def Blocked (cap : ℕ) (q : List Int) : List Op → Prop
  | [] => True
  | .put _ :: _ => q.length = cap
  | .get :: _ => q = []

namespace Legal

variable {cap : ℕ} {ops : T → List Op} {h : List (Access T Int)} {q : List Int}
variable {left : T → List Op}

/-- The step before a legal history: one thread performs its next call on the queue. -/
theorem concat {e : Access T Int} (hl : Legal cap ops (h ++ [e]) q left) :
    ∃ q' op, Legal cap ops h q' (Function.update left e.thread (op :: left e.thread)) ∧
      ((∃ item, e = .put e.thread item ∧ op = .put item ∧ q'.length < cap ∧ q = q' ++ [item]) ∨
        ∃ x, e = .get e.thread x ∧ op = .get ∧ q' = x :: q) := by
  obtain ⟨hqueue, hcalls⟩ := hl
  rw [run_concat] at hqueue
  obtain ⟨q', hq', hstep⟩ := Option.bind_eq_some_iff.mp hqueue
  have hothers (u : T) (hne : u ≠ e.thread) : rest (ops u) (accessesOf u h) = some (left u) := by
    rw [← hcalls u, accessesOf_concat_of_ne (Ne.symm hne)]
  have hself := hcalls e.thread
  rw [accessesOf_concat_self] at hself
  have legal {op : Op} (hop : rest (ops e.thread) (accessesOf e.thread h) =
      some (op :: left e.thread)) :
      Legal cap ops h q' (Function.update left e.thread (op :: left e.thread)) := by
    refine ⟨hq', fun u => ?_⟩
    obtain rfl | hne := eq_or_ne u e.thread
    · rwa [Function.update_self]
    · rw [Function.update_of_ne hne]
      exact hothers u hne
  obtain ⟨t, item, rfl, hop⟩ | ⟨t, x, rfl, hop⟩ := rest_concat hself
  · simp only [BoundedQueue.step] at hstep
    split at hstep
    · rename_i hlt
      cases hstep
      exact ⟨q', .put item, legal hop, .inl ⟨item, rfl, rfl, hlt, rfl⟩⟩
    · cases hstep
  · refine ⟨q', .get, legal hop, .inr ⟨x, rfl, rfl, ?_⟩⟩
    cases q' with
    | nil => cases hstep
    | cons y q' =>
      simp only [BoundedQueue.step] at hstep
      split at hstep
      · rename_i heq
        cases hstep
        rw [heq]
      · cases hstep

end Legal

/-- A machine with the accesses `history` that follows the atomic buffer, and that may stop where the
atomic buffer has no call left to perform. -/
structure Implements {S L : Type} (M : System S L) (history : S → List (Access T Int))
    (stuck : S → Prop) (cap : ℕ) (ops : T → List Op) : Prop where
  legal : ∀ s, M.Reachable s → ∃ q left, Legal cap ops (history s) q left
  performs : ∀ h q left, Legal cap ops h q left → ∃ s, M.Reachable s ∧ history s = h
  blocked : ∀ s, M.Reachable s → stuck s →
    ∃ q left, Legal cap ops (history s) q left ∧ ∀ t, Blocked cap q (left t)
  stops : ∀ h q left, Legal cap ops h q left → (∀ t, Blocked cap q (left t)) →
    ∃ s, M.Reachable s ∧ history s = h ∧ stuck s
  begins : history M.init = []
  grows : ∀ s l s', M.step s l = some s' → ∃ t, ExtendsBy t (history s) (history s')

namespace Implements

variable {S L : Type} {M : System S L} {history : S → List (Access T Int)} {stuck : S → Prop}
variable {cap : ℕ} {ops : T → List Op}

theorem history_iff (hM : Implements M history stuck cap ops) (h : List (Access T Int)) :
    (∃ s, M.Reachable s ∧ history s = h) ↔ ∃ q left, Legal cap ops h q left := by
  constructor
  · rintro ⟨s, hs, rfl⟩
    exact hM.legal s hs
  · rintro ⟨q, left, hl⟩
    exact hM.performs h q left hl

theorem stuck_iff (hM : Implements M history stuck cap ops) (h : List (Access T Int)) :
    (∃ s, M.Reachable s ∧ history s = h ∧ stuck s) ↔
      ∃ q left, Legal cap ops h q left ∧ ∀ t, Blocked cap q (left t) := by
  constructor
  · rintro ⟨s, hs, rfl, hstuck⟩
    exact hM.blocked s hs hstuck
  · rintro ⟨q, left, hl, hb⟩
    exact hM.stops h q left hl hb

theorem exists_path (hM : Implements M history stuck cap ops) {h : List (Access T Int)} {s' : S}
    (hs' : M.Reachable s') (hpre : h <+: history s') :
    ∃ s, M.Reachable s ∧ history s = h ∧ M.Path (fun _ => True) s s' := by
  induction hs' with
  | init =>
    rw [hM.begins, List.prefix_nil] at hpre
    exact ⟨_, .init, hM.begins.trans hpre.symm, .refl trivial⟩
  | @step s s' l hs hstep ih =>
    obtain ⟨t, heq | ⟨e, _, heq⟩⟩ := hM.grows s l s' hstep
    · obtain ⟨r, hr, hhist, hpath⟩ := ih (heq ▸ hpre)
      exact ⟨r, hr, hhist, hpath.step hstep trivial⟩
    · rw [heq] at hpre
      obtain hall | hpre := List.prefix_concat_iff.mp hpre
      · exact ⟨s', hs.step hstep, heq.trans hall.symm, .refl trivial⟩
      · obtain ⟨r, hr, hhist, hpath⟩ := ih hpre
        exact ⟨r, hr, hhist, hpath.step hstep trivial⟩

theorem history_of_path (hM : Implements M history stuck cap ops) {s s' : S}
    (h : M.Path (fun _ => True) s s') : history s <+: history s' := by
  induction h with
  | refl => exact List.prefix_rfl
  | step _ hstep _ ih =>
    obtain ⟨t, heq | ⟨e, _, heq⟩⟩ := hM.grows _ _ _ hstep
    · rwa [heq]
    · rw [heq]
      exact ih.trans (List.prefix_append _ _)

theorem continues_iff (hM : Implements M history stuck cap ops) (h : List (Access T Int)) :
    (∃ s s', M.Reachable s ∧ history s = h ∧ M.Path (fun _ => True) s s' ∧ stuck s') ↔
      ∃ h' q left, h <+: h' ∧ Legal cap ops h' q left ∧ ∀ t, Blocked cap q (left t) := by
  constructor
  · rintro ⟨s, s', hs, rfl, hpath, hstuck⟩
    obtain ⟨q, left, hl, hb⟩ := hM.blocked s' (hpath.reachable hs) hstuck
    exact ⟨_, q, left, hM.history_of_path hpath, hl, hb⟩
  · rintro ⟨h', q, left, hpre, hl, hb⟩
    obtain ⟨s', hs', rfl, hstuck⟩ := hM.stops h' q left hl hb
    obtain ⟨s, hs, hhist, hpath⟩ := hM.exists_path hs' hpre
    exact ⟨s, s', hs, hhist, hpath, hstuck⟩

end Implements

end MultithreadMayhem.Buffer
