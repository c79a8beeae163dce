import Mathlib.Data.Finset.Insert
import Mathlib.Data.List.Basic
import Mathlib.Data.List.Nodup
import Mathlib.Logic.Function.Basic

/-!
# Singly linked cells in a heap

A heap is a finite map from addresses to nodes. A segment is a path through the
next fields from one pointer to another, with the cells on it. `Owned` says who has
the allocated cells: the list, or one of several holders with one cell each.
-/

namespace MultithreadMayhem.Foundation

universe u v

structure Node (V : Type u) where
  value : V
  next : Option ℕ

structure Heap (V : Type u) where
  node : ℕ → Option (Node V)
  bounded : ∃ b, ∀ a, b ≤ a → node a = none

variable {V : Type u} {T : Type v}

namespace Heap

def empty : Heap V := ⟨fun _ => none, 0, fun _ _ => rfl⟩

def store (h : Heap V) (a : ℕ) (node : Node V) : Heap V where
  node := Function.update h.node a (some node)
  bounded := by
    obtain ⟨b, hb⟩ := h.bounded
    refine ⟨max b (a + 1), fun i hi => ?_⟩
    obtain ⟨hb', ha⟩ := max_le_iff.mp hi
    rw [Function.update_of_ne (by omega)]
    exact hb i hb'

def free (h : Heap V) (a : ℕ) : Heap V where
  node := Function.update h.node a none
  bounded := by
    obtain ⟨b, hb⟩ := h.bounded
    refine ⟨b, fun i hi => ?_⟩
    rw [Function.update_apply, hb i hi]
    exact ite_self none

variable {h : Heap V} {a b : ℕ} {node : Node V}

@[simp]
theorem store_self : (h.store a node).node a = some node := Function.update_self ..

theorem store_of_ne (hne : b ≠ a) : (h.store a node).node b = h.node b := Function.update_of_ne hne ..

@[simp]
theorem free_self : (h.free a).node a = none := Function.update_self ..

theorem free_of_ne (hne : b ≠ a) : (h.free a).node b = h.node b := Function.update_of_ne hne ..

theorem exists_fresh (h : Heap V) : ∃ a, h.node a = none := by
  obtain ⟨b, hb⟩ := h.bounded
  exact ⟨b, hb b le_rfl⟩

end Heap

abbrev Cell (V : Type u) := ℕ × V

def addresses (l : List (Cell V)) : List ℕ := l.map Prod.fst

def values (l : List (Cell V)) : List V := l.map Prod.snd

section Lists

variable {l l' : List (Cell V)} {a : ℕ} {v : V}

@[simp]
theorem addresses_nil : addresses ([] : List (Cell V)) = [] := rfl

@[simp]
theorem addresses_cons : addresses ((a, v) :: l) = a :: addresses l := rfl

@[simp]
theorem addresses_append : addresses (l ++ l') = addresses l ++ addresses l' := List.map_append ..

@[simp]
theorem values_nil : values ([] : List (Cell V)) = [] := rfl

@[simp]
theorem values_cons : values ((a, v) :: l) = v :: values l := rfl

@[simp]
theorem values_append : values (l ++ l') = values l ++ values l' := List.map_append ..

end Lists

/-- The path from the pointer `p` to the pointer `q` passes the cells `l`. -/
inductive Segment (node : ℕ → Option (Node V)) : Option ℕ → Option ℕ → List (Cell V) → Prop
  | nil {p : Option ℕ} : Segment node p p []
  | cons {a : ℕ} {v : V} {p q : Option ℕ} {l : List (Cell V)} (ha : node a = some ⟨v, p⟩)
      (hl : Segment node p q l) : Segment node (some a) q ((a, v) :: l)

namespace Segment

variable {node node' : ℕ → Option (Node V)} {p q r : Option ℕ} {l l' : List (Cell V)} {a : ℕ} {v : V}

theorem append (h : Segment node p q l) (h' : Segment node q r l') :
    Segment node p r (l ++ l') := by
  induction h with
  | nil => exact h'
  | cons ha _ ih => exact .cons ha (ih h')

theorem split (h : Segment node p r (l ++ l')) :
    ∃ q, Segment node p q l ∧ Segment node q r l' := by
  induction l generalizing p with
  | nil => exact ⟨p, .nil, h⟩
  | cons c l ih =>
    cases h with
    | cons ha hl =>
      obtain ⟨q, hq, hr⟩ := ih hl
      exact ⟨q, .cons ha hq, hr⟩

theorem congr (h : Segment node p q l) (hsame : ∀ a ∈ addresses l, node' a = node a) :
    Segment node' p q l := by
  induction h with
  | nil => exact .nil
  | cons ha _ ih =>
    refine .cons ((hsame _ List.mem_cons_self).trans ha) (ih fun a ha => hsame a ?_)
    exact List.mem_cons_of_mem _ ha

theorem head (h : Segment node p q ((a, v) :: l)) :
    p = some a ∧ ∃ next, node a = some ⟨v, next⟩ ∧ Segment node next q l := by
  cases h with
  | cons ha hl => exact ⟨rfl, _, ha, hl⟩

theorem of_none (h : Segment node none none l) : l = [] := by
  cases h with
  | nil => rfl

theorem of_some (h : Segment node (some a) none l) :
    ∃ v next rest, l = (a, v) :: rest ∧ node a = some ⟨v, next⟩ ∧ Segment node next none rest := by
  cases h with
  | cons ha hl => exact ⟨_, _, _, rfl, ha, hl⟩

theorem unique (h : Segment node p none l) (h' : Segment node p none l') : l = l' := by
  induction l generalizing p l' with
  | nil =>
    cases h
    exact h'.of_none.symm
  | cons c l ih =>
    cases h with
    | cons ha hl =>
      obtain ⟨v, next, rest, rfl, ha', hl'⟩ := h'.of_some
      rw [ha] at ha'
      cases ha'
      rw [ih hl hl']

/-- The cell after `pre` is taken out by a store to the last cell of `pre`. -/
theorem bypass {pre rest : List (Cell V)} {b : ℕ} {w : V} {next : Option ℕ}
    (h : Segment node p none (pre ++ (b, w) :: (a, v) :: rest))
    (hnext : Segment node next none rest)
    (hnodup : (addresses (pre ++ (b, w) :: (a, v) :: rest)).Nodup) :
    Segment (Function.update node b (some ⟨w, next⟩)) p none (pre ++ (b, w) :: rest) := by
  obtain ⟨q, hpre, hrest⟩ := h.split
  obtain ⟨rfl, -⟩ := hrest.head
  rw [addresses_append, addresses_cons, addresses_cons] at hnodup
  obtain ⟨-, hnodup', hapart⟩ := List.nodup_append.mp hnodup
  have hb : b ∉ addresses rest := fun hmem =>
    (List.nodup_cons.mp hnodup').1 (List.mem_cons_of_mem _ hmem)
  refine (hpre.congr fun i hi => ?_).append (.cons (Function.update_self ..) (hnext.congr fun i hi => ?_))
  · exact Function.update_of_ne (hapart i hi b List.mem_cons_self) ..
  · refine Function.update_of_ne ?_ ..
    rintro rfl
    exact hb hi

end Segment

/-- The allocated cells are those of the list `l`, and one for each holder that has one. -/
structure Owned (node : ℕ → Option (Node V)) (hands : T → Option ℕ) (l : List (Cell V)) : Prop where
  nodup : (addresses l).Nodup
  apart : ∀ t a, hands t = some a → a ∉ addresses l
  once : ∀ t u a, hands t = some a → hands u = some a → t = u
  allocated : ∀ a, node a ≠ none ↔ a ∈ addresses l ∨ ∃ t, hands t = some a

namespace Owned

variable [DecidableEq T] {h : Heap V} {hands : T → Option ℕ} {l : List (Cell V)} {t : T} {a : ℕ}
  {v : V} {n : Node V}

omit [DecidableEq T] in
theorem hand_allocated (ho : Owned h.node hands l) (ht : hands t = some a) : h.node a ≠ none :=
  (ho.allocated a).mpr (.inr ⟨t, ht⟩)

omit [DecidableEq T] in
theorem store (ho : Owned h.node hands l) (ha : h.node a ≠ none) :
    Owned (h.store a n).node hands l := by
  refine ⟨ho.nodup, ho.apart, ho.once, fun b => ?_⟩
  rw [← ho.allocated b]
  obtain rfl | hne := eq_or_ne b a
  · rw [Heap.store_self]
    exact iff_of_true nofun ha
  · rw [Heap.store_of_ne hne]

theorem hands_update {p : Option ℕ} {b : ℕ} :
    (∃ u, Function.update hands t p u = some b) ↔ p = some b ∨ ∃ u, u ≠ t ∧ hands u = some b := by
  constructor
  · rintro ⟨u, hu⟩
    obtain rfl | hne := eq_or_ne u t
    · rw [Function.update_self] at hu
      exact .inl hu
    · rw [Function.update_of_ne hne] at hu
      exact .inr ⟨u, hne, hu⟩
  · rintro (hp | ⟨u, hne, hu⟩)
    · exact ⟨t, by rw [Function.update_self, hp]⟩
    · exact ⟨u, by rw [Function.update_of_ne hne, hu]⟩

omit [DecidableEq T] in
theorem hands_of_none {b : ℕ} (ht : hands t = none) :
    (∃ u, u ≠ t ∧ hands u = some b) ↔ ∃ u, hands u = some b := by
  constructor
  · rintro ⟨u, -, hu⟩
    exact ⟨u, hu⟩
  · rintro ⟨u, hu⟩
    refine ⟨u, ?_, hu⟩
    rintro rfl
    cases ht.symm.trans hu

theorem hand (ho : Owned h.node hands l) (ht : hands t = none) {node : ℕ → Option (Node V)}
    {l' : List (Cell V)} (hnodup : (addresses l').Nodup)
    (hl : ∀ b ∈ addresses l', b ∈ addresses l) (ha : a ∉ addresses l')
    (hnew : ∀ u, hands u ≠ some a)
    (hall : ∀ b, node b ≠ none ↔ b = a ∨ b ∈ addresses l' ∨ ∃ u, hands u = some b) :
    Owned node (Function.update hands t (some a)) l' := by
  refine ⟨hnodup, fun u b hu hb => ?_, fun u w b hu hw => ?_, fun b => ?_⟩
  · obtain rfl | hne := eq_or_ne u t
    · rw [Function.update_self] at hu
      cases hu
      exact ha hb
    · rw [Function.update_of_ne hne] at hu
      exact ho.apart u b hu (hl b hb)
  · obtain rfl | hne := eq_or_ne u t <;> obtain rfl | hne' := eq_or_ne w u
    · rfl
    · rw [Function.update_self] at hu
      rw [Function.update_of_ne hne'] at hw
      cases hu
      exact absurd hw (hnew w)
    · rfl
    · rw [Function.update_of_ne hne] at hu
      obtain rfl | hne'' := eq_or_ne w t
      · rw [Function.update_self] at hw
        cases hw
        exact absurd hu (hnew u)
      · rw [Function.update_of_ne hne''] at hw
        exact ho.once u w b hu hw
  · rw [hall, hands_update, hands_of_none ht, Option.some_inj, eq_comm (a := a)]
    exact or_left_comm

theorem malloc (ho : Owned h.node hands l) (ht : hands t = none) (ha : h.node a = none) :
    Owned (h.store a n).node (Function.update hands t (some a)) l := by
  have hfree : ¬(a ∈ addresses l ∨ ∃ u, hands u = some a) := fun hmem =>
    absurd ha ((ho.allocated a).mpr hmem)
  rw [not_or, not_exists] at hfree
  refine ho.hand ht ho.nodup (fun _ => id) hfree.1 hfree.2 fun b => ?_
  obtain rfl | hne := eq_or_ne b a
  · rw [Heap.store_self]
    exact iff_of_true nofun (.inl rfl)
  · rw [Heap.store_of_ne hne, ho.allocated b, or_iff_right hne]

theorem unlink {pre rest : List (Cell V)} (ho : Owned h.node hands (pre ++ (a, v) :: rest))
    (ht : hands t = none) : Owned h.node (Function.update hands t (some a)) (pre ++ rest) := by
  have hnodup := ho.nodup
  rw [addresses_append, addresses_cons, List.nodup_middle, List.nodup_cons, ← addresses_append]
    at hnodup
  have hperm (b : ℕ) : b ∈ addresses (pre ++ (a, v) :: rest) ↔ b = a ∨ b ∈ addresses (pre ++ rest) := by
    simp only [addresses_append, addresses_cons, List.mem_append, List.mem_cons]
    exact or_left_comm
  refine ho.hand ht hnodup.2 (fun b hb => (hperm b).mpr (.inr hb)) hnodup.1 (fun u hu => ?_) fun b => ?_
  · exact ho.apart u a hu ((hperm a).mpr (.inl rfl))
  · rw [ho.allocated b, hperm, or_assoc]

theorem give (ho : Owned h.node hands l) (ht : hands t = some a) {node : ℕ → Option (Node V)}
    {l' : List (Cell V)} (hnodup : (addresses l').Nodup)
    (hl : ∀ b ∈ addresses l', b = a ∨ b ∈ addresses l)
    (hall : ∀ b, node b ≠ none ↔ b ∈ addresses l' ∨ ∃ u, u ≠ t ∧ hands u = some b) :
    Owned node (Function.update hands t none) l' := by
  have old {u : T} {b : ℕ} (hu : Function.update hands t none u = some b) : u ≠ t ∧ hands u = some b := by
    obtain rfl | hne := eq_or_ne u t
    · rw [Function.update_self] at hu
      cases hu
    · rw [Function.update_of_ne hne] at hu
      exact ⟨hne, hu⟩
  refine ⟨hnodup, fun u b hu hb => ?_, fun u w b hu hw => ho.once u w b (old hu).2 (old hw).2,
    fun b => ?_⟩
  · obtain ⟨hne, hu⟩ := old hu
    obtain rfl | hb := hl b hb
    · exact hne (ho.once u t b hu ht)
    · exact ho.apart u b hu hb
  · rw [hall, hands_update]
    simp only [reduceCtorEq, false_or]

theorem link (ho : Owned h.node hands l) (ht : hands t = some a) :
    Owned h.node (Function.update hands t none) ((a, v) :: l) := by
  refine ho.give ht ?_ (fun b => List.mem_cons.mp) fun b => ?_
  · exact List.nodup_cons.mpr ⟨ho.apart t a ht, ho.nodup⟩
  · rw [ho.allocated b, addresses_cons, List.mem_cons]
    constructor
    · rintro (hb | ⟨u, hu⟩)
      · exact .inl (.inr hb)
      · obtain rfl | hne := eq_or_ne u t
        · exact .inl (.inl (Option.some.inj (hu.symm.trans ht)))
        · exact .inr ⟨u, hne, hu⟩
    · rintro ((rfl | hb) | ⟨u, -, hu⟩)
      · exact .inr ⟨t, ht⟩
      · exact .inl hb
      · exact .inr ⟨u, hu⟩

theorem free (ho : Owned h.node hands l) (ht : hands t = some a) :
    Owned (h.free a).node (Function.update hands t none) l := by
  refine ho.give ht ho.nodup (fun b hb => .inr hb) fun b => ?_
  obtain rfl | hne := eq_or_ne b a
  · rw [Heap.free_self]
    refine iff_of_false (fun hne => hne rfl) ?_
    rintro (hb | ⟨u, hne, hu⟩)
    · exact ho.apart t b ht hb
    · exact hne (ho.once u t b hu ht)
  · rw [Heap.free_of_ne hne, ho.allocated b]
    refine or_congr .rfl ⟨?_, ?_⟩
    · rintro ⟨u, hu⟩
      refine ⟨u, ?_, hu⟩
      rintro rfl
      exact hne (Option.some.inj (hu.symm.trans ht))
    · rintro ⟨u, -, hu⟩
      exact ⟨u, hu⟩

end Owned

end MultithreadMayhem.Foundation
