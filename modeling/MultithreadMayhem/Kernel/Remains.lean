import MultithreadMayhem.Kernel.Turn

/-!
# What becomes of a frame

`Comes` looks back from a frame to the step that has put it on its stack. `Remains` looks
forward: a frame stays where it is until it is on top and goes on, or is returned to.
-/

namespace MultithreadMayhem.Kernel

variable {n nofile : ℕ} {C : Type} {f g h : Frame n} {rest fs : List (Frame n)} {p q : Fin n}
  {t : Thread n C} {e : Option (Event n)}

namespace Frame

def InFamily (p : Fin n) (f : Frame n) : Prop := f.fn = .kfork p ∨ f.fn = .kexit p ∨ f.fn = .kwait p

theorem InFamily.on (hf : f.InFamily p) (hon : f.fn.On t) : t = .proc p := by
  obtain hf | hf | hf := hf
  · rw [hf] at hon
    exact hon
  · rw [hf] at hon
    exact hon
  · rw [hf] at hon
    exact hon

theorem eq_kwait_of_fn (h : f.fn = .kwait p) : ∃ addr pc, f = kwait p addr pc := by
  cases f with
  | kwait q addr pc =>
    cases h
    exact ⟨addr, pc, rfl⟩
  | ext kind => cases kind <;> cases h
  | _ => cases h

end Frame

namespace StackOk

theorem of_mem (hok : StackOk t fs) (hf : f ∈ fs) : f.fn.On t := by
  obtain ⟨pre, rest, rfl⟩ := List.append_of_mem hf
  exact hok.drop.on

theorem rest_of_family (hok : StackOk t (f :: rest)) (hf : f.InFamily p) :
    ∀ g ∈ rest, (∃ q, g.fn = .process q) ∨ ∃ q, g.fn = .syscall q := by
  intro g hg
  cases rest with
  | nil => cases hg
  | cons r rest =>
    obtain hi | hp | hawaits := hok.1
    · obtain hf | hf | hf := hf <;> cases hi.symm.trans hf
    · obtain hf | hf | hf := hf <;> cases hp.symm.trans hf
    have hr : (∃ q, r.fn = .process q) ∨ ∃ q pc, r = .syscall q pc := by
      unfold Frame.InFamily at hf
      generalize f.fn = fn at hf hawaits
      cases hawaits.calls with
      | trapExit => exact .inl ⟨_, rfl⟩
      | sysFork | sysExit | sysWait => exact .inr ⟨_, _, rfl⟩
      | _ => obtain hf | hf | hf := hf <;> cases hf
    obtain ⟨q, hr⟩ | ⟨q, pc, rfl⟩ := hr
    · rw [hok.tail.rest_eq_nil (.inr ⟨q, hr⟩)] at hg
      obtain rfl := List.mem_singleton.mp hg
      exact .inl ⟨q, hr⟩
    · rw [hok.tail.rest_of_syscall] at hg
      obtain rfl | hg := List.mem_cons.mp hg
      · exact .inr ⟨q, rfl⟩
      · obtain rfl := List.mem_singleton.mp hg
        exact .inl ⟨q, rfl⟩

theorem not_family_below (hok : StackOk t (f :: rest)) (hf : f.InFamily p) (hg : g ∈ rest) :
    ¬g.InFamily q := by
  intro hfamily
  obtain ⟨q', hg⟩ | ⟨q', hg⟩ := hok.rest_of_family hf g hg
  · obtain hfamily | hfamily | hfamily := hfamily <;> cases hg.symm.trans hfamily
  · obtain hfamily | hfamily | hfamily := hfamily <;> cases hg.symm.trans hfamily

theorem family_unique (hok : StackOk t fs) (hf : f ∈ fs) (hg : g ∈ fs) (hfp : f.InFamily p)
    (hgq : g.InFamily q) : f = g := by
  induction fs with
  | nil => cases hf
  | cons r fs ih =>
    obtain rfl | hf' := List.mem_cons.mp hf
    · obtain rfl | hg' := List.mem_cons.mp hg
      · rfl
      · exact absurd hgq (hok.not_family_below hfp hg')
    · obtain rfl | hg' := List.mem_cons.mp hg
      · exact absurd hfp (hok.not_family_below hgq hf')
      · exact ih hok.tail hf' hg'

end StackOk

/-- What the step does to a frame `h` of the stack of the thread `t`. -/
inductive Remains [DecidableEq C] (nofile : ℕ) (s : State n C) (c : C) (f : Frame n)
    (rest : List (Frame n)) (s' : State n C) (t : Thread n C) (h : Frame n) : Prop
  | kept (hmem : h ∈ s'.stack t)
  | next {x : Choice} {a : Act n} {g : Frame n} (ht : t = s.running c) (hh : h = f)
      (ha : code (s.ctx nofile c x) f = a) (hnext : a.next = some g) (hmem : g ∈ s'.stack t)
      (hsh : s'.shared = a.shared s.shared)
  | ret {x : Choice} {v : Val n} (ht : t = s.running c) (hh : h = f)
      (ha : code (s.ctx nofile c x) f = .ret v)
  | resume {x : Choice} {v : Val n} {rest' : List (Frame n)} (ht : t = s.running c)
      (ha : code (s.ctx nofile c x) f = .ret v) (hrest : rest = h :: rest')
      (hmem : h.resume v ∈ s'.stack t) (hsh : s'.shared = s.shared)
  | switch (hh : h = f) (hf : f.fn = .isr ∨ f.fn = .idle ∨ ∃ q, f.fn = .sched q)
  | reset {q : Fin n} (ht : t = .proc q) (hf : f = .allocproc (.context q)) (hidle : s.Idle q)

variable [DecidableEq C] {s s' : State n C} {c : C}

theorem Turn.remains (ht : Turn nofile s c f rest s' e) (hs : s.stack (s.running c) = f :: rest)
    (hh : h ∈ s.stack t) : Remains nofile s c f rest s' t h := by
  -- The executed stack is replaced by another, and the others stay.
  have update {fs : List (Frame n)} (hstack : s'.stack t = Function.update s.stack (s.running c) fs t)
      (hmove : t = s.running c → h = f ∨ h ∈ rest → s'.stack t = fs → Remains nofile s c f rest s' t h) :
      Remains nofile s c f rest s' t h := by
    obtain rfl | htr := eq_or_ne t (s.running c)
    · rw [hs] at hh
      rw [Function.update_self] at hstack
      exact hmove rfl (List.mem_cons.mp hh) hstack
    · rw [Function.update_of_ne htr] at hstack
      exact .kept (by rwa [hstack])
  have below {fs : List (Frame n)} (hfs : s'.stack t = fs) (hsub : rest ⊆ fs) (hmem : h ∈ rest) :
      Remains nofile s c f rest s' t h := .kept (by rw [hfs]; exact hsub hmem)
  cases ht with
  | @lock x l g ha hstack hrun hsh =>
    refine update (by rw [hstack]) fun htr hmem hfs => ?_
    obtain rfl | hmem := hmem
    · have hg : g ∈ s'.stack t := hfs ▸ List.mem_cons_self
      obtain ha | ha := ha
      · exact .next htr rfl ha rfl hg hsh
      · exact .next htr rfl ha rfl hg hsh
    · exact below hfs (List.subset_cons_self _ _) hmem
  | exec ha he hw hstack hrun =>
    refine update (by rw [hstack]) fun htr hmem hfs => ?_
    obtain rfl | hmem := hmem
    · exact .next htr rfl ha rfl (hfs ▸ List.mem_cons_self) rfl
    · exact below hfs (List.subset_cons_self _ _) hmem
  | call ha hstack hrun hsh =>
    refine update (by rw [hstack]) fun htr hmem hfs => ?_
    obtain rfl | hmem := hmem
    · exact .next htr rfl ha rfl (hfs ▸ List.mem_cons_of_mem _ List.mem_cons_self) hsh
    · exact below hfs (fun _ hx => List.mem_cons_of_mem _ (List.mem_cons_of_mem _ hx)) hmem
  | ret ha hrest hawaits hstack hrun hsh =>
    refine update (by rw [hstack]) fun htr hmem hfs => ?_
    obtain rfl | hmem := hmem
    · exact .ret htr rfl ha
    · rw [hrest] at hmem
      obtain rfl | hmem := List.mem_cons.mp hmem
      · exact .resume htr ha hrest (hfs ▸ List.mem_cons_self) hsh
      · exact .kept (hfs ▸ List.mem_cons_of_mem _ hmem)
  | interrupt hn hstack hrun hsh =>
    refine update (by rw [hstack]) fun htr hmem hfs => ?_
    refine .kept ?_
    rw [hfs]
    exact List.mem_cons_of_mem _ (List.mem_cons.mpr hmem)
  | panic ha hstack hrun hsh =>
    refine update (by rw [hstack]) fun htr hmem hfs => ?_
    refine .kept ?_
    rw [hfs]
    exact List.mem_cons_of_mem _ (List.mem_cons.mpr hmem)
  | iret hrest hf hheld hstack hrun =>
    refine update (by rw [hstack]) fun htr hmem hfs => ?_
    obtain rfl | hmem := hmem
    · exact .switch rfl (.inl hf)
    · exact below hfs (List.Subset.refl _) hmem
  | @context q hf hidle hstack hrun hsh =>
    obtain rfl | htq := eq_or_ne t (.proc q)
    · exact .reset rfl hf hidle
    · refine update (by rw [hstack, Function.update_of_ne htq]) fun htr hmem hfs => ?_
      obtain rfl | hmem := hmem
      · subst hf
        have ha : code (s.ctx nofile c .run) (.allocproc (.context q)) =
            .setContext q (.allocproc (.done (some q))) := rfl
        exact .next htr rfl ha rfl (hfs ▸ List.mem_cons_self) hsh
      · exact below hfs (List.subset_cons_self _ _) hmem
  | switch hf hg hstack htop hsh =>
    refine update (by rw [hstack]) fun htr hmem hfs => ?_
    obtain rfl | hmem := hmem
    · refine .switch rfl ?_
      obtain ⟨pc, pc', rfl, -⟩ | ⟨q, rfl, -⟩ := hf
      · exact .inr (.inl rfl)
      · exact .inr (.inr ⟨q, rfl⟩)
    · exact below hfs (List.subset_cons_self _ _) hmem

end MultithreadMayhem.Kernel
