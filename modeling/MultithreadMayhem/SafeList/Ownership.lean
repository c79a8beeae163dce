import MultithreadMayhem.SafeList.Code

/-!
# Who has the nodes

Every allocated node is in the list, or one thread has it: an insert that has not
linked it yet, or a section that has taken it out and is about to free it. What the
list looks like while a thread is inside is a matter of the control point.
-/

namespace MultithreadMayhem.SafeList

open Foundation Pthread

variable {T : Type} {x y : Shared T} {l l' : List (Cell Int32)} {val : Int32} {a : ℕ}

def Pc.inHand : Pc → Option ℕ
  | .insert _ pc _ =>
    match pc with
    | .setValue a | .lock a | .setNext a | .setHead a => some a
    | _ => none
  | .remove _ (.free a) _ => some a
  | .destroy (.free a _) => some a
  | _ => none

def Whole (x : Shared T) (l : List (Cell Int32)) : Prop :=
  Segment x.heap.node x.head none l ∧ values l = contents x.log

/-- The loop has come to `curr` without finding the value; `prev` is the last node before. -/
def Scanned (x : Shared T) (l : List (Cell Int32)) (val : Int32) (curr prev : Option ℕ) : Prop :=
  ∃ pre rest, l = pre ++ rest ∧ Segment x.heap.node curr none rest ∧ val ∉ values pre ∧
    prev = pre.getLast?.map Prod.fst

def Compared (l : List (Cell Int32)) (val : Int32) (curr : ℕ) : Prop :=
  ∃ pre w rest, l = pre ++ (curr, w) :: rest ∧ val ≠ w ∧ val ∉ values pre

/-- What the thread inside the mutex makes of the list `l`. -/
def Shape (x : Shared T) (l : List (Cell Int32)) : Pc → Prop
  | .insert val (.setHead a) _ => Whole x l ∧ x.heap.node a = some ⟨val, x.head⟩
  | .contains val (.loop curr) _ => Whole x l ∧ ∃ prev, Scanned x l val curr prev
  | .contains val (.advance curr) _ => Whole x l ∧ Compared l val curr
  | .remove val (.loop curr prev) _ => Whole x l ∧ Scanned x l val curr prev
  | .remove val (.advance curr) _ => Whole x l ∧ Compared l val curr
  | .remove val (.unlink curr prev) _ => Whole x l ∧ ∃ pre rest, l = pre ++ (curr, val) :: rest ∧
      val ∉ values pre ∧ prev = pre.getLast?.map Prod.fst
  | .remove val (.setHead curr next) _ => Whole x l ∧ ∃ rest, l = (curr, val) :: rest ∧
      Segment x.heap.node next none rest
  | .remove val (.setNext curr prev next) _ => Whole x l ∧ ∃ pre w rest,
      l = pre ++ (prev, w) :: (curr, val) :: rest ∧ val ∉ values (pre ++ [(prev, w)]) ∧
      Segment x.heap.node next none rest
  | .remove val (.free _) _ => Segment x.heap.node x.head none l ∧
      values l = (contents x.log).erase val
  | .destroy (.loop curr) | .destroy (.free _ curr) => Segment x.heap.node curr none l
  | .destroy (.advance temp) => Segment x.heap.node (some temp) none l
  | .destroy .setHead => l = []
  | _ => Whole x l

def Own (x : Shared T) : Pc → Prop
  | .insert val (.lock a) _ | .insert val (.setNext a) _ => ∃ next, x.heap.node a = some ⟨val, next⟩
  | .fault _ => False
  | _ => True

def Truthful (log : Log T) : Prop :=
  ∀ later t val found earlier, log = later ++ (t, .contains val found) :: earlier →
    (found = true ↔ val ∈ contents earlier)

structure Inv (x : Shared T) (pcs : Thread T → Pc) (l : List (Cell Int32)) : Prop where
  own : ∀ t, Own x (pcs t)
  owned : Owned x.heap.node (fun t => (pcs t).inHand) l
  whole : (∀ t, (pcs t).inside = false) → Whole x l
  shape : ∀ t, (pcs t).inside = true → Shape x l (pcs t)
  truthful : Truthful x.log

section Frame

theorem Shape.congr {pc : Pc} (h : Shape x l pc) (hhead : y.head = x.head) (hlog : y.log = x.log)
    (hlist : ∀ a ∈ addresses l, y.heap.node a = x.heap.node a)
    (hown : ∀ a, pc.inHand = some a → y.heap.node a = x.heap.node a) : Shape y l pc := by
  have segment {p : Option ℕ} {rest : List (Cell Int32)} (hs : Segment x.heap.node p none rest)
      (hsub : ∀ a ∈ addresses rest, a ∈ addresses l) : Segment y.heap.node p none rest :=
    hs.congr fun a ha => hlist a (hsub a ha)
  have whole (hw : Whole x l) : Whole y l := by
    refine ⟨?_, hw.2.trans (by rw [hlog])⟩
    rw [hhead]
    exact segment hw.1 fun _ => id
  have scanned {val : Int32} {curr prev : Option ℕ} (hs : Scanned x l val curr prev) :
      Scanned y l val curr prev := by
    obtain ⟨pre, rest, rfl, hrest, hval, hprev⟩ := hs
    refine ⟨pre, rest, rfl, segment hrest fun a ha => ?_, hval, hprev⟩
    rw [addresses_append]
    exact List.mem_append_right _ ha
  cases pc with
  | insert val pc ops =>
    cases pc with
    | setHead a => exact ⟨whole h.1, by rw [hown a rfl, hhead]; exact h.2⟩
    | _ => exact whole h
  | contains val pc ops =>
    cases pc with
    | loop curr =>
      obtain ⟨hw, prev, hs⟩ := h
      exact ⟨whole hw, prev, scanned hs⟩
    | advance curr => exact ⟨whole h.1, h.2⟩
    | _ => exact whole h
  | remove val pc ops =>
    cases pc with
    | loop curr prev => exact ⟨whole h.1, scanned h.2⟩
    | advance curr => exact ⟨whole h.1, h.2⟩
    | unlink curr prev => exact ⟨whole h.1, h.2⟩
    | setHead curr next =>
      obtain ⟨hw, rest, rfl, hrest⟩ := h
      exact ⟨whole hw, rest, rfl, segment hrest fun a ha => List.mem_cons_of_mem _ ha⟩
    | setNext curr prev next =>
      obtain ⟨hw, pre, w, rest, rfl, hval, hrest⟩ := h
      refine ⟨whole hw, pre, w, rest, rfl, hval, segment hrest fun a ha => ?_⟩
      rw [addresses_append]
      exact List.mem_append_right _ (List.mem_cons_of_mem _ (List.mem_cons_of_mem _ ha))
    | free a => exact ⟨by rw [hhead]; exact segment h.1 fun _ => id, by rw [hlog]; exact h.2⟩
    | _ => exact whole h
  | destroy pc =>
    cases pc with
    | loop curr => exact segment h fun _ => id
    | advance temp => exact segment h fun _ => id
    | free temp curr => exact segment h fun _ => id
    | setHead => exact h
    | _ => exact whole h
  | _ => exact whole h

theorem Own.congr {pc : Pc} (h : Own x pc)
    (hown : ∀ a, pc.inHand = some a → y.heap.node a = x.heap.node a) : Own y pc := by
  cases pc with
  | insert val pc ops =>
    cases pc with
    | lock a | setNext a =>
      obtain ⟨next, hnode⟩ := h
      exact ⟨next, (hown a rfl).trans hnode⟩
    | _ => trivial
  | fault pc => exact h
  | _ => trivial

theorem Truthful.cons {log : Log T} {e : Thread T × Section} (h : Truthful log)
    (he : ∀ val found, e.2 = .contains val found → (found = true ↔ val ∈ contents log)) :
    Truthful (e :: log) := by
  intro later t val found earlier hlog
  cases later with
  | nil =>
    obtain ⟨rfl, rfl⟩ := List.cons.inj hlog
    exact he val found rfl
  | cons e' later => exact h later t val found earlier (List.cons.inj hlog).2

end Frame

section Steps

def Defined (o : Option (Act (Shared T) PEmpty Pc)) (x : Shared T) (R : Shared T → Pc → Prop) :
    Prop :=
  ∃ a, o = some a ∧ a.Leads (fun y st => R y st.pc) x

theorem defined_deref {node : Node Int32} {k : Node Int32 → Act (Shared T) PEmpty Pc}
    {R : Shared T → Pc → Prop} (hnode : x.heap.node a = some node)
    (h : (k node).Leads (fun y st => R y st.pc) x) : Defined (x.deref a k) x R :=
  ⟨k node, by rw [Shared.deref, hnode]; rfl, h⟩

structure Reached (x y : Shared T) (hands : Thread T → Option ℕ) (t : Thread T)
    (l : List (Cell Int32)) (next : Pc) [DecidableEq T] : Prop where
  own : Own y next
  owned : Owned y.heap.node (Function.update hands t next.inHand) l
  others : ∀ u a, u ≠ t → hands u = some a → y.heap.node a = x.heap.node a
  truthful : Truthful y.log
  shape : next.inside = true → Shape y l next
  whole : next.inside = false → Whole y l

variable [DecidableEq T] {hands : Thread T → Option ℕ} {t : Thread T} {ops : List Op}
  {malloc : Malloc}

theorem Reached.quiet {next : Pc} (ho : Owned x.heap.node hands l) (htr : Truthful y.log)
    (hhand : hands t = none) (hnext : next.inHand = none) (hheap : y.heap = x.heap)
    (hown : Own y next) (hshape : next.inside = true → Shape y l next)
    (hwhole : next.inside = false → Whole y l) : Reached x y hands t l next := by
  refine ⟨hown, ?_, fun _ _ _ _ => by rw [hheap], htr, hshape, hwhole⟩
  rwa [hnext, ← hhand, Function.update_eq_self, hheap]

omit [DecidableEq T] in
theorem store_others (ho : Owned x.heap.node hands l) (hhand : hands t = some a) {n : Node Int32}
    {u : Thread T} {b : ℕ} (hne : u ≠ t) (hb : hands u = some b) :
    (x.heap.store a n).node b = x.heap.node b := by
  refine Heap.store_of_ne ?_
  rintro rfl
  exact hne (ho.once u t b hb hhand)

theorem insert_inside {pc : InsertPc} (hinside : (Pc.insert val pc ops).inside = true)
    (ho : Owned x.heap.node hands l) (htr : Truthful x.log)
    (hhand : hands t = (Pc.insert val pc ops).inHand) (hown : Own x (.insert val pc ops))
    (h : Shape x l (.insert val pc ops)) :
    Defined (listInsert malloc t val ops x pc) x fun y next => ∃ l', Reached x y hands t l' next := by
  cases pc with
  | setNext a =>
    obtain ⟨next, hnode⟩ := hown
    have ha : a ∉ addresses l := ho.apart t a hhand
    have hlist : ∀ b ∈ addresses l, (x.heap.store a ⟨val, x.head⟩).node b = x.heap.node b := by
      intro b hb
      refine Heap.store_of_ne ?_
      rintro rfl
      exact ha hb
    refine defined_deref hnode ⟨l, trivial, ?_, fun u b => store_others ho hhand, htr,
      fun _ => ⟨⟨h.1.congr hlist, h.2⟩, Heap.store_self⟩, nofun⟩
    have hsame : Function.update hands t (some a) = hands := by
      rw [← show hands t = some a from hhand, Function.update_eq_self]
    rw [Status.running_pc, Pc.inHand, hsame]
    exact ho.store (by rw [hnode]; exact nofun)
  | setHead a =>
    refine ⟨_, rfl, (a, val) :: l, trivial, ho.link hhand, fun _ _ _ _ => rfl,
      htr.cons nofun, fun _ => ⟨.cons h.2 h.1.1, ?_⟩, nofun⟩
    exact congrArg (val :: ·) h.1.2
  | unlock => exact ⟨_, rfl, l, .quiet ho htr hhand rfl rfl trivial nofun fun _ => h⟩
  | _ => cases hinside

omit [DecidableEq T] in
theorem Whole.split {pre rest : List (Cell Int32)} {w : Int32} (h : Whole x (pre ++ (a, w) :: rest)) :
    ∃ next, x.heap.node a = some ⟨w, next⟩ ∧ Segment x.heap.node next none rest := by
  obtain ⟨q, -, hrest⟩ := h.1.split
  obtain ⟨-, next, hnode, hnext⟩ := hrest.head
  exact ⟨next, hnode, hnext⟩

omit [DecidableEq T] in
theorem Compared.scanned (hw : Whole x l) (h : Compared l val a) :
    ∃ w next, x.heap.node a = some ⟨w, next⟩ ∧ Scanned x l val next (some a) := by
  obtain ⟨pre, w, rest, rfl, hne, hval⟩ := h
  obtain ⟨next, hnode, hnext⟩ := hw.split
  refine ⟨w, next, hnode, pre ++ [(a, w)], rest, ?_, hnext, ?_, ?_⟩
  · rw [List.append_assoc]
    rfl
  · rw [values_append, List.mem_append, not_or]
    exact ⟨hval, fun hmem => hne (List.mem_singleton.mp hmem)⟩
  · rw [List.getLast?_concat]
    rfl

omit [DecidableEq T] in
theorem Scanned.node {prev : Option ℕ} (h : Scanned x l val (some a) prev) :
    ∃ pre w next rest, l = pre ++ (a, w) :: rest ∧ x.heap.node a = some ⟨w, next⟩ ∧
      val ∉ values pre ∧ prev = pre.getLast?.map Prod.fst := by
  obtain ⟨pre, rest, rfl, hrest, hval, hprev⟩ := h
  obtain ⟨w, next, rest, rfl, hnode, -⟩ := hrest.of_some
  exact ⟨pre, w, next, rest, rfl, hnode, hval, hprev⟩

omit [DecidableEq T] in
theorem Scanned.not_mem {prev : Option ℕ} (h : Scanned x l val none prev) : val ∉ values l := by
  obtain ⟨pre, rest, rfl, hrest, hval, -⟩ := h
  rwa [hrest.of_none, List.append_nil]

theorem contains_inside {pc : ContainsPc} (hinside : (Pc.contains val pc ops).inside = true)
    (ho : Owned x.heap.node hands l) (htr : Truthful x.log)
    (hhand : hands t = none) (h : Shape x l (.contains val pc ops)) :
    Defined (listContains t val ops x pc) x fun y next => ∃ l', Reached x y hands t l' next := by
  cases pc with
  | start =>
    refine ⟨_, rfl, l, .quiet ho htr hhand rfl rfl trivial (fun _ => ⟨h, none, ?_⟩) nofun⟩
    exact ⟨[], l, rfl, h.1, List.not_mem_nil, rfl⟩
  | loop curr =>
    obtain ⟨hw, prev, hs⟩ := h
    cases curr with
    | none =>
      have hmem : val ∉ contents x.log := hw.2 ▸ hs.not_mem
      refine ⟨_, rfl, l, .quiet ho (htr.cons ?_) hhand rfl rfl trivial (fun _ => hw) nofun⟩
      rintro _ _ ⟨⟩
      exact iff_of_false nofun hmem
    | some a =>
      obtain ⟨pre, w, next, rest, rfl, hnode, hval, -⟩ := hs.node
      refine defined_deref hnode ?_
      by_cases heq : w = val
      · have hmem : val ∈ contents x.log := by
          rw [← hw.2, values_append, values_cons, heq]
          exact List.mem_append_right _ List.mem_cons_self
        rw [if_pos heq]
        refine ⟨_, .quiet ho (htr.cons ?_) hhand rfl rfl trivial (fun _ => hw) nofun⟩
        rintro _ _ ⟨⟩
        exact iff_of_true rfl hmem
      · rw [if_neg heq]
        refine ⟨_, .quiet ho htr hhand rfl rfl trivial (fun _ => ⟨hw, ?_⟩) nofun⟩
        exact ⟨pre, w, rest, rfl, Ne.symm heq, hval⟩
  | advance a =>
    obtain ⟨hw, hc⟩ := h
    obtain ⟨w, next, hnode, hs⟩ := hc.scanned hw
    exact defined_deref hnode
      ⟨l, .quiet ho htr hhand rfl rfl trivial (fun _ => ⟨hw, some a, hs⟩) nofun⟩
  | unlock found => exact ⟨_, rfl, l, .quiet ho htr hhand rfl rfl trivial nofun fun _ => h⟩
  | _ => cases hinside

theorem erase_values {pre rest : List (Cell Int32)} (hval : val ∉ values pre) :
    (values (pre ++ (a, val) :: rest)).erase val = values (pre ++ rest) := by
  rw [values_append, values_cons, List.erase_append_right _ hval, List.erase_cons_head, values_append]

omit [DecidableEq T] in
theorem free_others (ho : Owned x.heap.node hands l) (hhand : hands t = some a) {u : Thread T}
    {b : ℕ} (hne : u ≠ t) (hb : hands u = some b) : (x.heap.free a).node b = x.heap.node b := by
  refine Heap.free_of_ne ?_
  rintro rfl
  exact hne (ho.once u t b hb hhand)

omit [DecidableEq T] in
theorem free_list (ho : Owned x.heap.node hands l) (hhand : hands t = some a) :
    ∀ b ∈ addresses l, (x.heap.free a).node b = x.heap.node b := by
  intro b hb
  refine Heap.free_of_ne ?_
  rintro rfl
  exact ho.apart t b hhand hb

theorem remove_inside {pc : RemovePc} (hinside : (Pc.remove val pc ops).inside = true)
    (ho : Owned x.heap.node hands l) (htr : Truthful x.log)
    (hhand : hands t = (Pc.remove val pc ops).inHand) (h : Shape x l (.remove val pc ops)) :
    Defined (listRemove t val ops x pc) x fun y next => ∃ l', Reached x y hands t l' next := by
  cases pc with
  | lock => cases hinside
  | start =>
    refine ⟨_, rfl, l, .quiet ho htr hhand rfl rfl trivial (fun _ => ⟨h, ?_⟩) nofun⟩
    exact ⟨[], l, rfl, h.1, List.not_mem_nil, rfl⟩
  | loop curr prev =>
    obtain ⟨hw, hs⟩ := h
    cases curr with
    | none =>
      refine ⟨_, rfl, l, .quiet ho (htr.cons nofun) hhand rfl rfl trivial (fun _ => ⟨hw.1, ?_⟩) nofun⟩
      have hmem : val ∉ contents x.log := hw.2 ▸ hs.not_mem
      exact hw.2.trans (List.erase_of_not_mem hmem).symm
    | some a =>
      obtain ⟨pre, w, next, rest, rfl, hnode, hval, hprev⟩ := hs.node
      refine defined_deref hnode ?_
      by_cases heq : w = val
      · subst heq
        rw [if_pos rfl]
        exact ⟨_, .quiet ho htr hhand rfl rfl trivial
          (fun _ => ⟨hw, pre, rest, rfl, hval, hprev⟩) nofun⟩
      · rw [if_neg heq]
        refine ⟨_, .quiet ho htr hhand rfl rfl trivial (fun _ => ⟨hw, ?_⟩) nofun⟩
        exact ⟨pre, w, rest, rfl, Ne.symm heq, hval⟩
  | advance a =>
    obtain ⟨hw, hc⟩ := h
    obtain ⟨w, next, hnode, hs⟩ := hc.scanned hw
    exact defined_deref hnode ⟨l, .quiet ho htr hhand rfl rfl trivial (fun _ => ⟨hw, hs⟩) nofun⟩
  | unlink a prev =>
    obtain ⟨hw, pre, rest, rfl, hval, hprev⟩ := h
    obtain ⟨next, hnode, hnext⟩ := hw.split
    obtain rfl | ⟨pre, ⟨p, w⟩, rfl⟩ := pre.eq_nil_or_concat'
    · subst hprev
      exact defined_deref hnode ⟨_, .quiet ho htr hhand rfl rfl trivial
        (fun _ => ⟨hw, rest, rfl, hnext⟩) nofun⟩
    · rw [List.getLast?_concat] at hprev
      subst hprev
      refine defined_deref hnode ⟨_, .quiet ho htr hhand rfl rfl trivial
        (fun _ => ⟨hw, pre, w, rest, ?_, hval, hnext⟩) nofun⟩
      rw [List.append_assoc]
      rfl
  | setHead a next =>
    obtain ⟨hw, rest, rfl, hnext⟩ := h
    have hfirst : Owned x.heap.node hands ([] ++ (a, val) :: rest) := ho
    refine ⟨_, rfl, rest, trivial, hfirst.unlink hhand, fun _ _ _ _ => rfl, htr, fun _ => ⟨hnext, ?_⟩, nofun⟩
    change values rest = (contents x.log).erase val
    rw [← hw.2, values_cons, List.erase_cons_head]
  | setNext a p next =>
    obtain ⟨hw, pre, w, rest, rfl, hval, hnext⟩ := h
    obtain ⟨next', hnode, -⟩ := hw.split
    have hp : x.heap.node p ≠ none := by
      rw [hnode]
      exact nofun
    have hsplit : pre ++ (p, w) :: (a, val) :: rest = (pre ++ [(p, w)]) ++ (a, val) :: rest := by
      rw [List.append_assoc]
      rfl
    have hstore := ho.store (n := ⟨w, next⟩) hp
    rw [hsplit] at hstore
    refine defined_deref hnode ⟨pre ++ [(p, w)] ++ rest, trivial, hstore.unlink hhand, ?_, htr,
      fun _ => ⟨?_, ?_⟩, nofun⟩
    · intro u b hne hb
      refine Heap.store_of_ne ?_
      rintro rfl
      refine ho.apart u b hb ?_
      rw [addresses_append]
      exact List.mem_append_right _ List.mem_cons_self
    · rw [List.append_assoc]
      exact hw.1.bypass hnext ho.nodup
    · change _ = (contents x.log).erase val
      rw [← hw.2, hsplit, erase_values hval]
  | free a =>
    obtain ⟨node, hnode⟩ := Option.ne_none_iff_exists'.mp (ho.hand_allocated hhand)
    refine defined_deref hnode ⟨l, trivial, ho.free hhand, fun u b => free_others ho hhand,
      htr.cons nofun, fun _ => ⟨h.1.congr (free_list ho hhand), h.2⟩, nofun⟩
  | unlock => exact ⟨_, rfl, l, .quiet ho htr hhand rfl rfl trivial nofun fun _ => h⟩

theorem destroy_inside {pc : DestroyPc} (hinside : (Pc.destroy pc).inside = true)
    (ho : Owned x.heap.node hands l) (htr : Truthful x.log)
    (hhand : hands t = (Pc.destroy pc).inHand) (h : Shape x l (.destroy pc)) :
    Defined (listDestroy t x pc) x fun y next => ∃ l', Reached x y hands t l' next := by
  cases pc with
  | lock => cases hinside
  | start => exact ⟨_, rfl, l, .quiet ho htr hhand rfl rfl trivial (fun _ => h.1) nofun⟩
  | loop curr =>
    cases curr with
    | none =>
      exact ⟨_, rfl, l, .quiet ho htr hhand rfl rfl trivial (fun _ => Segment.of_none h) nofun⟩
    | some a => exact ⟨_, rfl, l, .quiet ho htr hhand rfl rfl trivial (fun _ => h) nofun⟩
  | advance a =>
    obtain ⟨v, next, rest, rfl, hnode, hnext⟩ := Segment.of_some h
    have hfirst : Owned x.heap.node hands ([] ++ (a, v) :: rest) := ho
    exact defined_deref hnode
      ⟨rest, trivial, hfirst.unlink hhand, fun _ _ _ _ => rfl, htr, fun _ => hnext, nofun⟩
  | free a curr =>
    obtain ⟨node, hnode⟩ := Option.ne_none_iff_exists'.mp (ho.hand_allocated hhand)
    exact defined_deref hnode ⟨l, trivial, ho.free hhand, fun u b => free_others ho hhand, htr,
      fun _ => Segment.congr h (free_list ho hhand), nofun⟩
  | setHead =>
    subst h
    exact ⟨_, rfl, [], .quiet ho (htr.cons nofun) hhand rfl rfl trivial (fun _ => ⟨.nil, rfl⟩) nofun⟩
  | unlock => exact ⟨_, rfl, l, .quiet ho htr hhand rfl rfl trivial nofun fun _ => h⟩

/-- What a thread outside the mutex does not touch. -/
structure Untouched (x y : Shared T) (l : List (Cell Int32)) : Prop where
  head : y.head = x.head
  log : y.log = x.log
  list : ∀ a ∈ addresses l, y.heap.node a = x.heap.node a

omit [DecidableEq T] in
theorem Untouched.whole (h : Untouched x y l) (hw : Whole x l) : Whole y l := by
  refine ⟨?_, hw.2.trans (by rw [h.log])⟩
  rw [h.head]
  exact hw.1.congr h.list

structure Outside (x y : Shared T) (hands : Thread T → Option ℕ) (t : Thread T)
    (l : List (Cell Int32)) (next : Pc) : Prop extends Untouched x y l where
  own : Own y next
  owned : Owned y.heap.node (Function.update hands t next.inHand) l
  others : ∀ u a, u ≠ t → hands u = some a → y.heap.node a = x.heap.node a
  shape : next.inside = true → Whole x l → Shape y l next

theorem Outside.quiet {next : Pc} (ho : Owned x.heap.node hands l) (hhand : hands t = next.inHand)
    (hheap : y.heap = x.heap) (hhead : y.head = x.head) (hlog : y.log = x.log) (hown : Own y next)
    (hshape : next.inside = true → Whole x l → Shape y l next) : Outside x y hands t l next := by
  refine ⟨⟨hhead, hlog, fun _ _ => by rw [hheap]⟩, hown, ?_, fun _ _ _ _ => by rw [hheap], hshape⟩
  rwa [← hhand, Function.update_eq_self, hheap]

theorem insert_outside (hfresh : Fresh malloc) {pc : InsertPc}
    (hinside : (Pc.insert val pc ops).inside = false) (ho : Owned x.heap.node hands l)
    (hhand : hands t = (Pc.insert val pc ops).inHand) (hown : Own x (.insert val pc ops)) :
    Defined (listInsert malloc t val ops x pc) x (Outside x · hands t l) := by
  cases pc with
  | malloc =>
    have ha := hfresh x.mallocs x.heap
    refine ⟨_, rfl, ⟨rfl, rfl, fun b hb => ?_⟩, trivial, ho.malloc hhand ha, fun u b _ hb => ?_, nofun⟩
    · refine Heap.store_of_ne ?_
      rintro rfl
      exact (ho.allocated _).mpr (.inl hb) ha
    · refine Heap.store_of_ne ?_
      rintro rfl
      exact ho.hand_allocated hb ha
  | setValue a =>
    obtain ⟨node, hnode⟩ := Option.ne_none_iff_exists'.mp (ho.hand_allocated hhand)
    have hsame : Function.update hands t (some a) = hands := by
      rw [← show hands t = some a from hhand, Function.update_eq_self]
    refine defined_deref hnode ⟨⟨rfl, rfl, fun b hb => ?_⟩, ⟨_, Heap.store_self⟩, ?_,
      fun u b => store_others ho hhand, nofun⟩
    · refine Heap.store_of_ne ?_
      rintro rfl
      exact ho.apart t b hhand hb
    · rw [Status.running_pc, Pc.inHand, hsame]
      exact ho.store (by rw [hnode]; exact nofun)
  | lock a =>
    exact ⟨_, rfl, .quiet ho hhand rfl rfl rfl hown fun _ => id⟩
  | _ => cases hinside

variable [Fintype T]

theorem outside_step (hfresh : Fresh malloc) {pc : Pc} (hinside : pc.inside = false)
    (ho : Owned x.heap.node hands l) (hhand : hands t = pc.inHand) (hown : Own x pc) :
    Defined (statement malloc t x pc) x (Outside x · hands t l) := by
  cases pc with
  | join ops =>
    refine ⟨_, rfl, ?_⟩
    split
    · exact .quiet ho hhand rfl rfl rfl trivial nofun
    · trivial
  | client ops =>
    refine ⟨_, rfl, ?_⟩
    cases ops with
    | nil => cases t <;> exact .quiet ho hhand rfl rfl rfl trivial nofun
    | cons op ops => cases op <;> exact .quiet ho hhand rfl rfl rfl trivial nofun
  | insert val pc ops => exact insert_outside hfresh hinside ho hhand hown
  | contains val pc ops =>
    cases pc with
    | lock => exact ⟨_, rfl, .quiet ho hhand rfl rfl rfl trivial fun _ => id⟩
    | done found => exact ⟨_, rfl, .quiet ho hhand rfl rfl rfl trivial nofun⟩
    | _ => cases hinside
  | remove val pc ops =>
    cases pc with
    | lock => exact ⟨_, rfl, .quiet ho hhand rfl rfl rfl trivial fun _ => id⟩
    | _ => cases hinside
  | destroy pc =>
    cases pc with
    | lock => exact ⟨_, rfl, .quiet ho hhand rfl rfl rfl trivial fun _ => id⟩
    | _ => cases hinside
  | finished => exact ⟨_, rfl, trivial⟩
  | fault pc => exact hown.elim

theorem inside_step {pc : Pc} (hinside : pc.inside = true) (ho : Owned x.heap.node hands l)
    (htr : Truthful x.log) (hhand : hands t = pc.inHand) (hown : Own x pc) (h : Shape x l pc) :
    Defined (statement malloc t x pc) x fun y next => ∃ l', Reached x y hands t l' next := by
  cases pc with
  | insert val pc ops => exact insert_inside hinside ho htr hhand hown h
  | contains val pc ops =>
    refine contains_inside hinside ho htr ?_ h
    cases pc <;> exact hhand
  | remove val pc ops => exact remove_inside hinside ho htr hhand h
  | destroy pc => exact destroy_inside hinside ho htr hhand h
  | fault pc => exact hown.elim
  | _ => cases hinside

theorem Defined.leads {pc : Pc} {R : Shared T → Pc → Prop}
    (h : Defined (statement malloc t x pc) x R) :
    (code malloc t pc x).Leads (fun y st => R y st.pc) x := by
  obtain ⟨a, ha, hlead⟩ := h
  rwa [code, ha, Option.getD_some]

theorem inv_rule (hfresh : Fresh malloc) :
    MutexRule (code malloc) Pc.inside fun (x : Shared T) pcs => ∃ l, Inv x pcs l := by
  rintro x pcs t ⟨l, hinv⟩ hone hlock
  have hands (next : Pc) : (fun u => (Function.update pcs t next u).inHand) =
      Function.update (fun u => (pcs u).inHand) t next.inHand := by
    funext u
    simp only [Function.update_apply]
    split <;> rfl
  have pcs_self (next : Pc) : Function.update pcs t next t = next := Function.update_self ..
  have pcs_other {next : Pc} {u : Thread T} (hne : u ≠ t) : Function.update pcs t next u = pcs u :=
    Function.update_of_ne hne ..
  cases hinside : (pcs t).inside with
  | true =>
    have houtside {u : Thread T} (hne : u ≠ t) : (pcs u).inside = false := hone u hne hinside
    refine (inside_step hinside hinv.owned hinv.truthful rfl (hinv.own t)
      (hinv.shape t hinside)).leads.imp fun y st hst => ?_
    obtain ⟨l', hr⟩ := hst
    refine ⟨l', fun u => ?_, by rw [hands]; exact hr.owned, fun hnone => ?_, fun u hu => ?_,
      hr.truthful⟩
    · obtain rfl | hne := eq_or_ne u t
      · rw [pcs_self]
        exact hr.own
      · rw [pcs_other hne]
        exact (hinv.own u).congr fun a ha => hr.others u a hne ha
    · exact hr.whole (by have := hnone t; rwa [pcs_self] at this)
    · obtain rfl | hne := eq_or_ne u t
      · rw [pcs_self] at hu ⊢
        exact hr.shape hu
      · rw [pcs_other hne, houtside hne] at hu
        cases hu
  | false =>
    have hdef := (outside_step hfresh hinside hinv.owned rfl (hinv.own t)).leads
    have hleads : (code malloc t (pcs t) x).Leads
        (fun _ st => st.pc.inside = true → ∀ u, (pcs u).inside = false) x := by
      have hd := code_disciplined malloc t (pcs t) x
      rw [hinside] at hd
      cases hc : code malloc t (pcs t) x with
      | lock next => exact fun _ => hlock next hc
      | exec y next =>
        rw [hc] at hd
        intro hin
        cases hin.symm.trans hd
      | unlock next =>
        rw [hc] at hd
        cases hd.1
      | wait cv | signal cv | broadcast cv => exact cv.elim
      | block | exit => trivial
    refine hdef.imp₂ hleads fun y st hr hfree => ?_
    refine ⟨l, fun u => ?_, by rw [hands]; exact hr.owned, fun hnone => ?_, fun u hu => ?_,
      by rw [hr.log]; exact hinv.truthful⟩
    · obtain rfl | hne := eq_or_ne u t
      · rw [pcs_self]
        exact hr.own
      · rw [pcs_other hne]
        exact (hinv.own u).congr fun a ha => hr.others u a hne ha
    · refine hr.whole (hinv.whole fun u => ?_)
      obtain rfl | hne := eq_or_ne u t
      · exact hinside
      · rw [← pcs_other hne]
        exact hnone u
    · obtain rfl | hne := eq_or_ne u t
      · rw [pcs_self] at hu ⊢
        exact hr.shape hu (hinv.whole (hfree hu))
      · rw [pcs_other hne] at hu ⊢
        exact (hinv.shape u hu).congr hr.head hr.log hr.list fun a ha => hr.others u a hne ha

omit [DecidableEq T] [Fintype T] in
theorem inv_start (ops : Thread T → List Op) :
    Inv ⟨.empty, none, 0, fun _ => false, []⟩ (programStart ops) [] where
  own t := by cases t <;> trivial
  owned := by
    have hnone (t : Thread T) : (programStart ops t).inHand = none := by cases t <;> rfl
    refine ⟨List.nodup_nil, fun _ _ _ => List.not_mem_nil, fun t u a ht => ?_, fun a => ?_⟩
    · rw [hnone] at ht
      cases ht
    · refine iff_of_false (fun h => h rfl) ?_
      rintro (ha | ⟨t, ht⟩)
      · exact List.not_mem_nil ha
      · rw [hnone] at ht
        cases ht
  whole _ := ⟨.nil, rfl⟩
  shape t ht := by cases t <;> cases ht
  truthful later t val found earlier hlog :=
    absurd hlog.symm (List.append_ne_nil_of_right_ne_nil _ (List.cons_ne_nil _ _))

omit [DecidableEq T] [Fintype T] in
theorem programStart_outside (ops : Thread T → List Op) (t : Thread T) :
    (programStart ops t).inside = false := by
  cases t <;> rfl

theorem reachable_inv (hfresh : Fresh malloc) {ops : Thread T → List Op}
    {s : State (Thread T) (Shared T) PEmpty Pc} (h : (listSystem malloc ops).Reachable s) :
    ∃ l, Inv s.shared (fun t => (s.status t).pc) l :=
  (inv_rule hfresh).reachable (code_disciplined malloc) (programStart_outside ops)
    ⟨[], inv_start ops⟩ h

end Steps

end MultithreadMayhem.SafeList
