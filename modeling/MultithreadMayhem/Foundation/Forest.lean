import Mathlib.Logic.Relation
import Mathlib.Order.WellFounded

/-!
# Forests given by a parent function

A partial function on the nodes gives each node at most one parent. It is a forest if
no chain of parents goes on for ever. Setting one parent keeps a forest a forest,
unless the node is an ancestor of its new parent.
-/

namespace MultithreadMayhem.Foundation.Forest

open Relation

variable {α : Type*} {f : α → Option α} {a b : α}

def IsParent (f : α → Option α) (b a : α) : Prop := f a = some b

/-- The first node is the second, or one of those that its chain of parents comes to. -/
abbrev Ancestor (f : α → Option α) : α → α → Prop := ReflTransGen (IsParent f)

def Grounded (f : α → Option α) : Prop := WellFounded (IsParent f)

theorem grounded_none : Grounded fun _ : α => none :=
  ⟨fun a => ⟨a, fun _ h => nomatch (h : none = some _)⟩⟩

theorem Grounded.acyclic (h : Grounded f) (a : α) : ¬TransGen (IsParent f) a a :=
  fun ha => h.transGen.irrefl.irrefl a ha

theorem Grounded.ancestor_of_raised {P : α → Prop} {r : α} (h : Grounded f)
    (hP : ∀ a, P a → a ≠ r → ∃ b, f a = some b ∧ P b) (ha : P a) : Ancestor f r a := by
  induction a using h.induction with
  | _ a ih =>
    obtain rfl | hne := eq_or_ne a r
    · exact .refl
    · obtain ⟨b, hb, hPb⟩ := hP a ha hne
      exact .tail (ih b hb hPb) hb

theorem eq_of_ancestor_leaf (hb : ∀ x, f x ≠ some b) (h : Ancestor f b a) : a = b := by
  obtain rfl | ⟨x, hx, -⟩ := ReflTransGen.cases_head h
  · rfl
  · exact absurd hx (hb x)

theorem eq_of_ancestor_root (ha : f a = none) (h : Ancestor f b a) : a = b := by
  obtain rfl | ⟨x, -, hx⟩ := ReflTransGen.cases_tail h
  · rfl
  · cases ha.symm.trans hx

variable [DecidableEq α] {p : Option α}

theorem isParent_update_of_ne (hab : a ≠ b) (x : α) :
    IsParent (Function.update f b p) x a ↔ IsParent f x a := by
  rw [IsParent, IsParent, Function.update_of_ne hab]

theorem Grounded.acc_update (h : Grounded f) (ha : ¬Ancestor f b a) :
    Acc (IsParent (Function.update f b p)) a := by
  induction a using h.induction with
  | _ a ih =>
    have hab : a ≠ b := by
      rintro rfl
      exact ha .refl
    refine ⟨a, fun x hx => ?_⟩
    have hx : IsParent f x a := (isParent_update_of_ne hab x).mp hx
    exact ih x hx fun hbx => ha (hbx.tail hx)

/-- A node gets a parent that it is not an ancestor of. -/
theorem Grounded.update (h : Grounded f) (hp : ∀ x, p = some x → ¬Ancestor f b x) :
    Grounded (Function.update f b p) := by
  refine ⟨fun a => ?_⟩
  induction a using h.induction with
  | _ a ih =>
    refine ⟨a, fun x hx => ?_⟩
    obtain rfl | hab := eq_or_ne a b
    · rw [IsParent, Function.update_self] at hx
      exact h.acc_update (hp x hx)
    · exact ih x ((isParent_update_of_ne hab x).mp hx)

end MultithreadMayhem.Foundation.Forest
