import MultithreadMayhem.SafeList.Linearizable

/-!
# Every node is freed once

No statement touches a node that is not allocated. With the lock free the allocated
nodes are those of the list and those that inserts have not linked yet; when
`list_destroy` has returned there are none.
-/

namespace MultithreadMayhem.SafeList

open Foundation Pthread

variable {T : Type} {x y : Shared T} {malloc : Malloc}

def Pc.unlinked : Pc → Option ℕ
  | .insert _ pc _ =>
    match pc with
    | .setValue a | .lock a | .setNext a | .setHead a => some a
    | _ => none
  | _ => none

theorem Pc.inHand_of_outside {pc : Pc} (h : pc.inside = false) : pc.inHand = pc.unlinked := by
  cases pc with
  | remove val pc ops =>
    cases pc with
    | lock => rfl
    | _ => cases h
  | destroy pc =>
    cases pc with
    | lock => rfl
    | _ => cases h
  | _ => rfl

def Pc.joined : Pc → Bool
  | .join _ => false
  | _ => true

/-- What a statement does to the end of its thread and to the end of the list. -/
structure Ends (x y : Shared T) (t : Thread T) (pc next : Pc) [DecidableEq T] : Prop where
  finished : y.finished = x.finished ∨
    ∃ w, t = some w ∧ y.finished = Function.update x.finished w true ∧ next = .finished
  joined : t = none → next.joined = true → pc.joined = true ∨ ∀ w, y.finished w = true
  destroyed : next = .destroy .unlock → contents y.log = []
  returned : t = none → next = .finished → pc = .destroy .unlock ∧ y.log = x.log

def AtEnd (x : Shared T) (pc : Pc) : Thread T → Prop
  | some w => x.finished w = true → pc = .finished
  | none => (pc.joined = true → ∀ w, x.finished w = true) ∧
      (pc = .destroy .unlock ∨ pc = .finished → contents x.log = [])

section Rules

variable [DecidableEq T] {t : Thread T} {pc next : Pc}

theorem Ends.within (hfinished : y.finished = x.finished) (hpc : pc.joined = true)
    (hdestroy : next = .destroy .unlock → contents y.log = []) (hnext : next ≠ .finished) :
    Ends x y t pc next :=
  ⟨.inl hfinished, fun _ _ => .inl hpc, hdestroy, fun _ heq => absurd heq hnext⟩

variable [Fintype T]

theorem code_ends (t : Thread T) (pc : Pc) (x : Shared T) :
    (code malloc t pc x).Leads (fun y st => Ends x y t pc st.pc) x := by
  have deref {a : ℕ} {k : Node Int32 → Act (Shared T) PEmpty Pc} (hpc : pc.joined = true)
      (hk : ∀ node, (k node).Leads (fun y st => Ends x y t pc st.pc) x) :
      ((x.deref a k).getD (.exec x (.fault pc))).Leads (fun y st => Ends x y t pc st.pc) x := by
    rw [Shared.deref]
    cases x.heap.node a with
    | none => exact .within rfl hpc (by rintro ⟨⟩) (by rintro ⟨⟩)
    | some node => exact hk node
  cases pc with
  | join ops =>
    simp only [code, statement, Option.getD_some]
    split
    · exact ⟨.inl rfl, fun _ _ => .inr ‹_›, by rintro ⟨⟩, by rintro _ ⟨⟩⟩
    · trivial
  | client ops =>
    cases ops with
    | nil =>
      cases t with
      | none => exact .within rfl rfl (by rintro ⟨⟩) (by rintro ⟨⟩)
      | some w => exact ⟨.inr ⟨w, rfl, rfl, rfl⟩, by rintro ⟨⟩, by rintro ⟨⟩, by rintro ⟨⟩⟩
    | cons op ops => cases op <;> exact .within rfl rfl (by rintro ⟨⟩) (by rintro ⟨⟩)
  | insert val pc ops =>
    cases pc with
    | setValue a | setNext a => exact deref rfl fun _ => .within rfl rfl (by rintro ⟨⟩) (by rintro ⟨⟩)
    | _ => exact .within rfl rfl (by rintro ⟨⟩) (by rintro ⟨⟩)
  | contains val pc ops =>
    cases pc with
    | loop curr =>
      cases curr with
      | none => exact .within rfl rfl (by rintro ⟨⟩) (by rintro ⟨⟩)
      | some a =>
        refine deref rfl fun node => ?_
        split <;> exact .within rfl rfl (by rintro ⟨⟩) (by rintro ⟨⟩)
    | advance a => exact deref rfl fun _ => .within rfl rfl (by rintro ⟨⟩) (by rintro ⟨⟩)
    | _ => exact .within rfl rfl (by rintro ⟨⟩) (by rintro ⟨⟩)
  | remove val pc ops =>
    cases pc with
    | loop curr prev =>
      cases curr with
      | none => exact .within rfl rfl (by rintro ⟨⟩) (by rintro ⟨⟩)
      | some a =>
        refine deref rfl fun node => ?_
        split <;> exact .within rfl rfl (by rintro ⟨⟩) (by rintro ⟨⟩)
    | unlink a prev => cases prev <;> exact deref rfl fun _ => .within rfl rfl (by rintro ⟨⟩) (by rintro ⟨⟩)
    | advance a => exact deref rfl fun _ => .within rfl rfl (by rintro ⟨⟩) (by rintro ⟨⟩)
    | setNext curr prev next => exact deref rfl fun _ => .within rfl rfl (by rintro ⟨⟩) (by rintro ⟨⟩)
    | free a => exact deref rfl fun _ => .within rfl rfl (by rintro ⟨⟩) (by rintro ⟨⟩)
    | _ => exact .within rfl rfl (by rintro ⟨⟩) (by rintro ⟨⟩)
  | destroy pc =>
    cases pc with
    | loop curr => cases curr <;> exact .within rfl rfl (by rintro ⟨⟩) (by rintro ⟨⟩)
    | advance a => exact deref rfl fun _ => .within rfl rfl (by rintro ⟨⟩) (by rintro ⟨⟩)
    | free a curr => exact deref rfl fun _ => .within rfl rfl (by rintro ⟨⟩) (by rintro ⟨⟩)
    | setHead => exact .within rfl rfl (fun _ => rfl) (by rintro ⟨⟩)
    | unlock => exact ⟨.inl rfl, fun _ _ => .inl rfl, by rintro ⟨⟩, fun _ _ => ⟨rfl, rfl⟩⟩
    | _ => exact .within rfl rfl (by rintro ⟨⟩) (by rintro ⟨⟩)
  | finished => trivial
  | fault pc => exact .within rfl rfl (by rintro ⟨⟩) (by rintro ⟨⟩)

theorem atEnd_rule : LocalRule (code malloc) (fun t (x : Shared T) pc => AtEnd x pc t) where
  own t pc x h := by
    cases hpc : decide (pc = .finished) with
    | true =>
      obtain rfl := of_decide_eq_true hpc
      trivial
    | false =>
      have hne := of_decide_eq_false hpc
      refine (code_ends t pc x).imp fun y st he => ?_
      cases t with
      | some w =>
        intro hfin
        obtain hsame | ⟨w', -, -, hnext⟩ := he.finished
        · exact absurd (h ((congrFun hsame w).symm.trans hfin)) hne
        · exact hnext
      | none =>
        have hsame : y.finished = x.finished := by
          obtain hsame | ⟨w, hw, -⟩ := he.finished
          · exact hsame
          · cases hw
        refine ⟨fun hjoined => ?_, ?_⟩
        · obtain hold | hnew := he.joined rfl hjoined
          · rw [hsame]
            exact h.1 hold
          · exact hnew
        · rintro (hnext | hnext)
          · exact he.destroyed hnext
          · obtain ⟨hunlock, hlog⟩ := he.returned rfl hnext
            rw [hlog]
            exact h.2 (.inl hunlock)
  others t u pc q x hne h hu := by
    cases t with
    | some w =>
      refine (code_ends u q x).imp fun y st he hfin => ?_
      obtain hsame | ⟨w', rfl, hsame, -⟩ := he.finished
      · exact h ((congrFun hsame w).symm.trans hfin)
      · have hww : w ≠ w' := fun heq => hne (by rw [heq])
        rw [hsame, Function.update_of_ne hww] at hfin
        exact h hfin
    | none =>
      cases u with
      | none => exact absurd rfl hne
      | some w =>
        cases hjoined : pc.joined with
        | true =>
          obtain rfl := hu (h.1 hjoined w)
          trivial
        | false =>
          refine (code_ends (some w) q x).imp fun y st he => ⟨fun hj => ?_, ?_⟩
          · cases hjoined.symm.trans hj
          · rintro (rfl | rfl) <;> cases hjoined

theorem reachable_atEnd {ops : Thread T → List Op} {s : State (Thread T) (Shared T) PEmpty Pc}
    (h : (listSystem malloc ops).Reachable s) (t : Thread T) :
    AtEnd s.shared (s.status t).pc t := by
  refine atEnd_rule.reachable (fun t => ?_) h t
  cases t with
  | some w => exact nofun
  | none => exact ⟨nofun, nofun⟩

end Rules

/-- The nodes on the way to the end of the list are those of its cells. -/
theorem mem_addresses_iff {node : ℕ → Option (Node Int32)} {p : Option ℕ} {l : List (Cell Int32)}
    {a : ℕ} (h : Segment node p none l) :
    a ∈ addresses l ↔ ∃ pre, Segment node p (some a) pre := by
  constructor
  · intro ha
    obtain ⟨⟨b, v⟩, hmem, rfl⟩ := List.mem_map.mp ha
    obtain ⟨pre, rest, rfl⟩ := List.append_of_mem hmem
    obtain ⟨q, hpre, hrest⟩ := h.split
    obtain ⟨rfl, -⟩ := hrest.head
    exact ⟨pre, hpre⟩
  · rintro ⟨pre, hpre⟩
    induction pre generalizing p l with
    | nil =>
      cases hpre
      obtain ⟨v, next, rest, rfl, -⟩ := h.of_some
      exact List.mem_cons_self
    | cons c pre ih =>
      cases hpre with
      | cons ha hl =>
        obtain ⟨v, next, rest, rfl, hnode, hrest⟩ := h.of_some
        rw [ha] at hnode
        cases hnode
        exact List.mem_cons_of_mem _ (ih hrest hl)

section Runs

variable [DecidableEq T] [Fintype T] {ops : Thread T → List Op}
  {s : State (Thread T) (Shared T) PEmpty Pc}

/-- No statement touches a node that is not allocated, and no node leaks: with the lock free the
allocated nodes are those reachable from `list.head` and those of inserts that have not linked them
yet, and after `list_destroy` there are none. -/
theorem nodes_freed_once (hfresh : Fresh malloc) (hr : (listSystem malloc ops).Reachable s) :
    (∀ t pc, (s.status t).pc ≠ .fault pc) ∧
    (s.mutex = none → ∀ a, s.shared.heap.node a ≠ none ↔
      (∃ pre, Segment s.shared.heap.node s.shared.head (some a) pre) ∨
        ∃ t, (s.status t).pc.unlinked = some a) ∧
    ((s.status none).pc = .finished →
      (∀ a, s.shared.heap.node a = none) ∧ s.shared.head = none) := by
  obtain ⟨l, hinv⟩ := reachable_inv hfresh hr
  have hg : Guarded (code malloc) Pc.inside s :=
    reachable_guarded (code_disciplined malloc) (programStart_outside ops) hr
  refine ⟨fun t pc hpc => ?_, fun hfree a => ?_, fun hmain => ?_⟩
  · have hown := hinv.own t
    rw [hpc] at hown
    exact hown
  · have houtside := hg.outside_of_free hfree
    rw [hinv.owned.allocated, mem_addresses_iff (hinv.whole houtside).1]
    simp only [Pc.inHand_of_outside (houtside _)]
  · obtain ⟨hjoined, hlog⟩ := reachable_atEnd hr none
    rw [hmain] at hjoined hlog
    have hfinished (t : Thread T) : (s.status t).pc = .finished := by
      cases t with
      | none => exact hmain
      | some w => exact reachable_atEnd hr (some w) (hjoined rfl w)
    have hwhole : Whole s.shared l := hinv.whole fun t => by rw [hfinished]; rfl
    have hnil : l = [] := by
      have hvalues := hwhole.2.trans (hlog (.inr rfl))
      exact List.map_eq_nil_iff.mp hvalues
    subst hnil
    refine ⟨fun a => ?_, ?_⟩
    · by_contra hne
      obtain ha | ⟨t, ht⟩ := (hinv.owned.allocated a).mp hne
      · cases ha
      · rw [hfinished] at ht
        cases ht
    · have hsegment := hwhole.1
      generalize s.shared.head = head at hsegment
      cases hsegment
      rfl

end Runs

def insertTwice : Thread (Fin 2) → List Op
  | some 0 => [.insert 5, .remove 5, .insert 6]
  | some 1 => [.insert 7]
  | none => [.contains 6]

theorem nodes_freed_once_reused : ∃ s, (listSystem twoSlots insertTwice).Reachable s ∧
    (∀ a, s.shared.heap.node a = none) ∧ s.shared.head = none := by
  let M := listSystem twoSlots insertTwice
  let labels : List (Label (Thread (Fin 2))) := List.replicate 7 (.run (some 0)) ++
    List.replicate 8 (.run (some 1)) ++ List.replicate 18 (.run (some 0)) ++
    List.replicate 19 (.run none)
  have hrun : (M.run M.init labels).any fun s => decide ((s.status none).pc = .finished) := by
    decide +kernel
  obtain ⟨s, hs, hmain⟩ := (Option.any_eq_true _ _).mp hrun
  have hreach : M.Reachable s := System.reachable_of_run labels hs
  exact ⟨s, hreach, (nodes_freed_once twoSlots_fresh hreach).2.2 (of_decide_eq_true hmain)⟩

end MultithreadMayhem.SafeList
