import MultithreadMayhem.SafeList.Ownership

/-!
# The sections of the threads

The sections of each thread are its calls in their order, and a call of `list_contains`
returns what its section has found.
-/

namespace MultithreadMayhem.SafeList

open Foundation Pthread

variable {T : Type} {x y : Shared T} {malloc : Malloc}

def Section.op : Section → Option Op
  | insert val => some (.insert val)
  | contains val _ => some (.contains val)
  | remove val => some (.remove val)
  | destroy => none

def Pc.pending : Pc → List Op
  | .join ops | .client ops => ops
  | .insert val pc ops => if pc = .unlock then ops else .insert val :: ops
  | .contains val pc ops =>
    match pc with
    | .unlock _ | .done _ => ops
    | _ => .contains val :: ops
  | .remove val pc ops => if pc = .unlock then ops else .remove val :: ops
  | .destroy _ | .finished => []
  | .fault pc => pc.pending

/-- The thread adds to the log the section that takes effect with its statement. -/
inductive Logged (x y : Shared T) (t : Thread T) (pc next : Pc) : Prop
  | same (hlog : y.log = x.log) (hpending : next.pending = pc.pending)
  | effect (sec : Section) (hlog : y.log = (t, sec) :: x.log)
      (hpending : pc.pending = sec.op.toList ++ next.pending)

section Calls

variable [DecidableEq T]

def doneBy (log : Log T) (t : Thread T) : List Op :=
  (log.filter fun e => e.1 = t).reverse.filterMap fun e => e.2.op

theorem doneBy_self {log : Log T} {t : Thread T} {sec : Section} :
    doneBy ((t, sec) :: log) t = doneBy log t ++ sec.op.toList := by
  simp only [doneBy, decide_true, List.filter_cons_of_pos, List.reverse_cons, List.filterMap_append]
  cases sec <;> rfl

theorem doneBy_other {log : Log T} {t u : Thread T} {sec : Section} (hne : u ≠ t) :
    doneBy ((u, sec) :: log) t = doneBy log t := by
  simp only [doneBy, List.filter_cons, hne, decide_false, Bool.false_eq_true, ↓reduceIte]

variable [Fintype T]

theorem code_logged (t : Thread T) (pc : Pc) (x : Shared T) :
    (code malloc t pc x).Leads (fun y st => Logged x y t pc st.pc) x := by
  have deref {a : ℕ} {k : Node Int32 → Act (Shared T) PEmpty Pc}
      (hk : ∀ node, (k node).Leads (fun y st => Logged x y t pc st.pc) x) :
      ((x.deref a k).getD (.exec x (.fault pc))).Leads (fun y st => Logged x y t pc st.pc) x := by
    rw [Shared.deref]
    cases x.heap.node a with
    | none => exact .same rfl rfl
    | some node => exact hk node
  cases pc with
  | join ops =>
    simp only [code, statement, Option.getD_some]
    split
    · exact .same rfl rfl
    · trivial
  | client ops =>
    cases ops with
    | nil => cases t <;> exact .same rfl rfl
    | cons op ops => cases op <;> exact .same rfl rfl
  | insert val pc ops =>
    cases pc with
    | setValue a | setNext a => exact deref fun _ => .same rfl rfl
    | setHead a => exact .effect (.insert val) rfl rfl
    | _ => exact .same rfl rfl
  | contains val pc ops =>
    cases pc with
    | loop curr =>
      cases curr with
      | none => exact .effect (.contains val false) rfl rfl
      | some a =>
        refine deref fun node => ?_
        split
        · exact .effect (.contains val true) rfl rfl
        · exact .same rfl rfl
    | advance a => exact deref fun _ => .same rfl rfl
    | _ => exact .same rfl rfl
  | remove val pc ops =>
    cases pc with
    | loop curr prev =>
      cases curr with
      | none => exact .effect (.remove val) rfl rfl
      | some a =>
        refine deref fun node => ?_
        split <;> exact .same rfl rfl
    | unlink a prev => cases prev <;> exact deref fun _ => .same rfl rfl
    | advance a => exact deref fun _ => .same rfl rfl
    | setNext curr prev next => exact deref fun _ => .same rfl rfl
    | free a => exact deref fun _ => .effect (.remove val) rfl rfl
    | _ => exact .same rfl rfl
  | destroy pc =>
    cases pc with
    | loop curr => cases curr <;> exact .same rfl rfl
    | advance a => exact deref fun _ => .same rfl rfl
    | free a curr => exact deref fun _ => .same rfl rfl
    | setHead => exact .effect .destroy rfl rfl
    | _ => exact .same rfl rfl
  | finished => trivial
  | fault pc => exact .same rfl rfl

/-- What the section of the call has found, when the call is about to return it. -/
def Found (t : Thread T) (x : Shared T) : Pc → Prop
  | .contains val (.unlock found) _ | .contains val (.done found) _ =>
    x.log.find? (fun e => e.1 = t) = some (t, .contains val found)
  | _ => True

omit [Fintype T] in
theorem Found.other {t u : Thread T} {pc q next : Pc} (hne : u ≠ t) (h : Found t x pc)
    (hl : Logged x y u q next) : Found t y pc := by
  have hfind : y.log.find? (fun e => e.1 = t) = x.log.find? fun e => e.1 = t := by
    cases hl with
    | same hlog => rw [hlog]
    | effect sec hlog =>
      rw [hlog, List.find?_cons]
      simp only [hne, decide_false]
  cases pc with
  | contains val pc ops =>
    cases pc with
    | unlock | done => exact hfind.trans h
    | _ => trivial
  | _ => trivial

theorem found_own (t : Thread T) (pc : Pc) (x : Shared T) (h : Found t x pc) :
    (code malloc t pc x).Leads (fun y st => Found t y st.pc) x := by
  have deref {a : ℕ} {k : Node Int32 → Act (Shared T) PEmpty Pc}
      (hk : ∀ node, (k node).Leads (fun y st => Found t y st.pc) x) :
      ((x.deref a k).getD (.exec x (.fault pc))).Leads (fun y st => Found t y st.pc) x := by
    rw [Shared.deref]
    cases x.heap.node a with
    | none => trivial
    | some node => exact hk node
  have latest {sec : Section} : ((t, sec) :: x.log).find? (fun e => e.1 = t) = some (t, sec) := by
    rw [List.find?_cons]
    simp only [decide_true]
  cases pc with
  | join ops =>
    simp only [code, statement, Option.getD_some]
    split <;> trivial
  | client ops =>
    cases ops with
    | nil => cases t <;> trivial
    | cons op ops => cases op <;> trivial
  | insert val pc ops =>
    cases pc with
    | setValue a | setNext a => exact deref fun _ => trivial
    | _ => trivial
  | contains val pc ops =>
    cases pc with
    | loop curr =>
      cases curr with
      | none => exact latest
      | some a =>
        refine deref fun node => ?_
        split
        · exact latest
        · trivial
    | advance a => exact deref fun _ => trivial
    | unlock found => exact h
    | _ => trivial
  | remove val pc ops =>
    cases pc with
    | loop curr prev =>
      cases curr with
      | none => trivial
      | some a =>
        refine deref fun node => ?_
        split <;> trivial
    | unlink a prev => cases prev <;> exact deref fun _ => trivial
    | advance a => exact deref fun _ => trivial
    | setNext curr prev next => exact deref fun _ => trivial
    | free a => exact deref fun _ => trivial
    | _ => trivial
  | destroy pc =>
    cases pc with
    | loop curr => cases curr <;> trivial
    | advance a => exact deref fun _ => trivial
    | free a curr => exact deref fun _ => trivial
    | _ => trivial
  | _ => trivial

theorem calls_rule (ops : Thread T → List Op) : LocalRule (code malloc)
    (fun t (x : Shared T) pc => ops t = doneBy x.log t ++ pc.pending ∧ Found t x pc) where
  own t pc x h := by
    refine (code_logged t pc x).imp₂ (found_own t pc x h.2) fun y st hl hfound => ⟨?_, hfound⟩
    cases hl with
    | same hlog hpending => rw [hlog, hpending, h.1]
    | effect sec hlog hpending => rw [hlog, doneBy_self, List.append_assoc, ← hpending, h.1]
  others t u pc q x hne h _ := by
    refine (code_logged u q x).imp fun y st hl => ⟨?_, h.2.other hne hl⟩
    cases hl with
    | same hlog => rw [hlog, h.1]
    | effect sec hlog => rw [hlog, doneBy_other hne, h.1]

theorem reachable_calls {ops : Thread T → List Op} {s : State (Thread T) (Shared T) PEmpty Pc}
    (h : (listSystem malloc ops).Reachable s) (t : Thread T) :
    ops t = doneBy s.shared.log t ++ (s.status t).pc.pending ∧ Found t s.shared (s.status t).pc := by
  refine (calls_rule ops).reachable (fun t => ?_) h t
  cases t <;> exact ⟨rfl, trivial⟩

end Calls

end MultithreadMayhem.SafeList
