import SoKernel.Proc.OpenEffects

/-!
# The process tree

Every process has a doubly linked list of its children. `process_create` puts a process in front
of the children of its parent and `process_destroy` takes it out again. The tree stays consistent
as long as a process that is destroyed has no children left.
-/

namespace SoKernel

open Function (update)
open LinkedRing (Ring)

variable {k k' : Kernel} {p q c : ℕ} {C : List ℕ}

section Model

/-- The children of a process, as the links tell. The list has no pointer to its end. -/
def ChildList (k : Kernel) (p : ℕ) (C : List ℕ) : Prop :=
  ∃ last, Ring (update k.nextSibling 0 (k.firstChild p)) (update k.prevSibling 0 last) 0 C

/-- The lists of children and the parents agree, and nothing refers to a destroyed process. -/
structure Family (k : Kernel) : Prop where
  children : ∀ p, k.allocated p = true → ∃ C, ChildList k p C ∧
    ∀ c, c ∈ C ↔ k.allocated c = true ∧ k.parent c = p
  parent : ∀ c, k.allocated c = true → k.parent c = 0 ∨ k.allocated (k.parent c) = true
  root : ∀ c, k.allocated c = true → k.parent c = 0 → k.nextSibling c = 0 ∧ k.prevSibling c = 0

end Model

section Lists

theorem ChildList.ne_zero (h : ChildList k p C) (hc : c ∈ C) : c ≠ 0 := by
  obtain ⟨last, hring⟩ := h
  rintro rfl
  exact hring.anchor_not_mem hc

theorem ChildList.nodup (h : ChildList k p C) : C.Nodup := by
  obtain ⟨last, hring⟩ := h
  exact hring.nodup

theorem ChildList.firstChild_mem (h : ChildList k p C) : k.firstChild p = 0 ∨ k.firstChild p ∈ C := by
  obtain ⟨last, hring⟩ := h
  have hhead := hring.nx_anchor
  rw [Function.update_self] at hhead
  cases C with
  | nil => exact Or.inl hhead
  | cons x C =>
      right
      rw [hhead]
      exact List.mem_cons_self

theorem ChildList.sibling_mem (h : ChildList k p C) (hc : c ∈ C) :
    (k.nextSibling c = 0 ∨ k.nextSibling c ∈ C) ∧ (k.prevSibling c = 0 ∨ k.prevSibling c ∈ C) := by
  have hc0 := h.ne_zero hc
  obtain ⟨last, hring⟩ := h
  have hnext := hring.nx_mem hc
  have hprev := hring.pv_mem hc
  rw [Function.update_of_ne hc0] at hnext hprev
  exact ⟨List.mem_cons.mp hnext, List.mem_cons.mp hprev⟩

theorem ChildList.empty (h : k.firstChild p = 0) : ChildList k p [] := by
  refine ⟨0, Ring.nil_iff.mpr ⟨?_, Function.update_self ..⟩⟩
  rw [Function.update_self, h]

theorem ChildList.eq_nil (h : ChildList k p C) (hfirst : k.firstChild p = 0) : C = [] := by
  have hne : ∀ c ∈ C, c ≠ 0 := fun c hc => h.ne_zero hc
  obtain ⟨last, hring⟩ := h
  have hhead := hring.nx_anchor
  rw [Function.update_self, hfirst] at hhead
  cases C with
  | nil => rfl
  | cons x C => exact absurd hhead.symm (hne x List.mem_cons_self)

/-- Only the links of the children and the pointer to the first one matter. -/
theorem ChildList.congr (h : ChildList k p C) (hfirst : k'.firstChild p = k.firstChild p)
    (hnext : ∀ c ∈ C, k'.nextSibling c = k.nextSibling c)
    (hprev : ∀ c ∈ C, k'.prevSibling c = k.prevSibling c) : ChildList k' p C := by
  have hne : ∀ c ∈ C, c ≠ 0 := fun c hc => h.ne_zero hc
  obtain ⟨last, hring⟩ := h
  refine ⟨last, hring.congr (fun y hy => ?_) (fun y hy => ?_)⟩
  · cases List.mem_cons.mp hy with
    | inl h0 => rw [h0, Function.update_self, Function.update_self, hfirst]
    | inr hm => rw [Function.update_of_ne (hne y hm), Function.update_of_ne (hne y hm), hnext y hm]
  · cases List.mem_cons.mp hy with
    | inl h0 => rw [h0, Function.update_self, Function.update_self]
    | inr hm => rw [Function.update_of_ne (hne y hm), Function.update_of_ne (hne y hm), hprev y hm]

end Lists

section Destroy

/-- The links after `process_destroy` of a process with a parent. -/
theorem bury_links (hq : k.parent p = q) (hq0 : q ≠ 0) :
    (bury k p).nextSibling = update (if k.prevSibling p = 0 then k.nextSibling
      else update k.nextSibling (k.prevSibling p) (k.nextSibling p)) p 0 ∧
    (bury k p).prevSibling = update (if k.nextSibling p = 0 then k.prevSibling
      else update k.prevSibling (k.nextSibling p) (k.prevSibling p)) p 0 ∧
    (bury k p).firstChild = (if k.prevSibling p = 0 ∧ k.firstChild q = p then
      update k.firstChild q (k.nextSibling p) else k.firstChild) ∧
    (bury k p).parent = update k.parent p 0 := by
  have hnext : ∀ v, update k.nextSibling v (k.nextSibling p) p = k.nextSibling p := by
    intro v
    by_cases hv : p = v
    · rw [hv, Function.update_self]
    · exact Function.update_of_ne hv _ _
  unfold bury unlinkChild
  subst hq
  rw [if_neg hq0]
  by_cases hp : k.prevSibling p = 0
  · by_cases hf : k.firstChild (k.parent p) = p
    · by_cases hn : k.nextSibling p = 0 <;> simp [hp, hf, hn]
    · by_cases hn : k.nextSibling p = 0 <;> simp [hp, hf, hn]
  · by_cases hn : k.nextSibling p = 0
    · have hn' := hnext (k.prevSibling p)
      rw [hn] at hn'
      simp [hp, hn, hn']
    · simp [hp, hn, hnext]

theorem bury_allocated (k : Kernel) (p : ℕ) : (bury k p).allocated = update k.allocated p false := by
  obtain ⟨pa, fc, ns, ps, h⟩ := bury_shape k p
  rw [h]

/-- The destroyed process leaves the list of its siblings. -/
theorem ChildList.bury (h : ChildList k q C) (hp : p ∈ C) (hparent : k.parent p = q) (hq0 : q ≠ 0) :
    ∃ A B, C = A ++ p :: B ∧ ChildList (SoKernel.bury k p) q (A ++ B) := by
  have hp0 := h.ne_zero hp
  obtain ⟨last, hring⟩ := h
  have hnext : k.nextSibling p ≠ p := by
    have hne := hring.nx_ne hp
    rwa [Function.update_of_ne hp0] at hne
  have hprev : k.prevSibling p ≠ p := by
    have hne := hring.pv_ne hp
    rwa [Function.update_of_ne hp0] at hne
  -- without a sibling before it, it is the first child
  have hfirst : k.prevSibling p = 0 → k.firstChild q = p := by
    intro hz
    have hback := hring.nx_pv (List.mem_cons_of_mem _ hp)
    rwa [Function.update_of_ne hp0, hz, Function.update_self] at hback
  obtain ⟨hns, hps, hfc, -⟩ := bury_links hparent hq0
  obtain ⟨A, B, rfl⟩ := List.append_of_mem hp
  refine ⟨A, B, rfl, if k.nextSibling p = 0 then k.prevSibling p else last, ?_⟩
  rw [hns, hps, hfc]
  apply hring.remove
  · rw [Function.update_of_ne hp0, Function.update_of_ne hp0]
    by_cases hz : k.prevSibling p = 0
    · rw [if_pos hz, if_pos ⟨hz, hfirst hz⟩, hz, Function.update_self, Function.update_self]
    · rw [if_neg hz, Function.update_of_ne hz, Function.update_of_ne hprev, Function.update_self]
  · rw [Function.update_of_ne hp0, Function.update_of_ne hp0]
    by_cases hz : k.nextSibling p = 0
    · rw [if_pos hz, if_pos hz, hz, Function.update_self]
    · rw [if_neg hz, Function.update_of_ne hz, Function.update_of_ne hnext, Function.update_self]
  · intro y hyv hyp
    rw [Function.update_of_ne hp0] at hyv
    by_cases hy0 : y = 0
    · have hz : ¬(k.prevSibling p = 0 ∧ k.firstChild q = p) := fun hz => hyv (hy0.trans hz.1.symm)
      rw [hy0, Function.update_self, Function.update_self, if_neg hz]
    · rw [Function.update_of_ne hy0, Function.update_of_ne hy0, Function.update_of_ne hyp]
      split
      · rfl
      · exact Function.update_of_ne hyv _ _
  · intro y hyn hyp
    rw [Function.update_of_ne hp0] at hyn
    by_cases hy0 : y = 0
    · have hz : k.nextSibling p ≠ 0 := fun hz => hyn (hy0.trans hz.symm)
      rw [hy0, Function.update_self, Function.update_self, if_neg hz]
    · rw [Function.update_of_ne hy0, Function.update_of_ne hy0, Function.update_of_ne hyp]
      split
      · rfl
      · exact Function.update_of_ne hyn _ _

/-- The destroyed process was in one list of children only. -/
theorem ChildList.bury_other {t : ℕ} {D : List ℕ} (h : ChildList k q C) (hp : p ∈ C)
    (hparent : k.parent p = q) (hq0 : q ≠ 0) (ht : t ≠ q) (hD : ChildList k t D)
    (hdisjoint : ∀ c ∈ C, c ∉ D) : ChildList (SoKernel.bury k p) t D := by
  obtain ⟨hns, hps, hfc, -⟩ := bury_links hparent hq0
  obtain ⟨hnextC, hprevC⟩ := h.sibling_mem hp
  apply hD.congr
  · rw [hfc]
    split
    · exact Function.update_of_ne ht _ _
    · rfl
  · intro c hc
    have hcp : c ≠ p := fun he => hdisjoint p hp (he ▸ hc)
    rw [hns, Function.update_of_ne hcp]
    split
    · rfl
    · rename_i hz
      have hsib : c ≠ k.prevSibling p := by
        rintro rfl
        exact hdisjoint _ (hprevC.resolve_left hz) hc
      exact Function.update_of_ne hsib _ _
  · intro c hc
    have hcp : c ≠ p := fun he => hdisjoint p hp (he ▸ hc)
    rw [hps, Function.update_of_ne hcp]
    split
    · rfl
    · rename_i hz
      have hsib : c ≠ k.nextSibling p := by
        rintro rfl
        exact hdisjoint _ (hnextC.resolve_left hz) hc
      exact Function.update_of_ne hsib _ _

/-- `process_destroy` of a process without children. -/
theorem Family.bury (h : Family k) (hvalid : ∀ p, k.allocated p = true → p ≠ 0)
    (hp : k.allocated p = true) (hchildless : ∀ c, k.allocated c = true → k.parent c ≠ p) :
    Family (SoKernel.bury k p) := by
  have hbefore : ∀ c, (SoKernel.bury k p).allocated c = true ↔ k.allocated c = true ∧ c ≠ p := by
    intro c
    rw [bury_allocated]
    by_cases hc : c = p
    · rw [hc, Function.update_self]
      simp
    · rw [Function.update_of_ne hc]
      simp [hc]
  by_cases hroot : k.parent p = 0
  · -- no link refers to the process
    have hsame : SoKernel.bury k p = { k with allocated := update k.allocated p false } := by
      rw [SoKernel.bury, unlinkChild, if_pos hroot]
    rw [hsame] at hbefore ⊢
    refine ⟨fun t ht => ?_, fun c hc => ?_, fun c hc => h.root c ((hbefore c).mp hc).1⟩
    · obtain ⟨hal, -⟩ := (hbefore t).mp ht
      obtain ⟨C, hC, hmem⟩ := h.children t hal
      refine ⟨C, hC, fun c => ?_⟩
      rw [hmem, hbefore]
      refine ⟨fun hc => ⟨⟨hc.1, ?_⟩, hc.2⟩, fun hc => ⟨hc.1.1, hc.2⟩⟩
      rintro rfl
      exact hvalid t hal (hc.2.symm.trans hroot)
    · obtain ⟨hal, -⟩ := (hbefore c).mp hc
      exact (h.parent c hal).imp_right fun hq => (hbefore _).mpr ⟨hq, hchildless c hal⟩
  · obtain ⟨hns, hps, -, hpa⟩ := bury_links (k := k) rfl hroot
    have hq := (h.parent p hp).resolve_left hroot
    obtain ⟨C, hC, hmem⟩ := h.children _ hq
    have hpC : p ∈ C := (hmem p).mpr ⟨hp, rfl⟩
    obtain ⟨A, B, hAB, hnew⟩ := hC.bury hpC rfl hroot
    have hkeep : ∀ c, c ≠ p → (SoKernel.bury k p).parent c = k.parent c := fun c hc => by
      rw [hpa, Function.update_of_ne hc]
    obtain ⟨hnextC, hprevC⟩ := hC.sibling_mem hpC
    refine ⟨fun t ht => ?_, fun c hc => ?_, fun c hc hc0 => ?_⟩
    · obtain ⟨hal, htp⟩ := (hbefore t).mp ht
      by_cases htq : t = k.parent p
      · subst htq
        refine ⟨A ++ B, hnew, fun c => ?_⟩
        have hnodup : (A ++ p :: B).Nodup := hAB ▸ hC.nodup
        have hsplit : c ∈ A ++ B ↔ c ∈ C ∧ c ≠ p := by
          rw [hAB]
          have hout : p ∉ A ++ B := (List.nodup_middle.mp hnodup).notMem
          simp only [List.mem_append, List.mem_cons] at hout ⊢
          grind
        rw [hsplit, hmem, hbefore]
        refine ⟨fun hc => ⟨⟨hc.1.1, hc.2⟩, (hkeep c hc.2).trans hc.1.2⟩, fun hc => ⟨⟨hc.1.1, ?_⟩, hc.1.2⟩⟩
        exact (hkeep c hc.1.2).symm.trans hc.2
      · obtain ⟨D, hD, hmemD⟩ := h.children t hal
        refine ⟨D, hC.bury_other hpC rfl hroot htq hD fun c hc hcD => ?_, fun c => ?_⟩
        · exact htq (((hmemD c).mp hcD).2.symm.trans ((hmem c).mp hc).2)
        · rw [hmemD, hbefore]
          refine ⟨fun hc => ?_, fun hc => ⟨hc.1.1, (hkeep c hc.1.2).symm.trans hc.2⟩⟩
          have hcp : c ≠ p := by
            rintro rfl
            exact htq hc.2.symm
          exact ⟨⟨hc.1, hcp⟩, (hkeep c hcp).trans hc.2⟩
    · obtain ⟨hal, hcp⟩ := (hbefore c).mp hc
      rw [hkeep c hcp]
      exact (h.parent c hal).imp_right fun hq => (hbefore _).mpr ⟨hq, hchildless c hal⟩
    · obtain ⟨hal, hcp⟩ := (hbefore c).mp hc
      rw [hkeep c hcp] at hc0
      obtain ⟨hnext0, hprev0⟩ := h.root c hal hc0
      -- a process without a parent is nobody's sibling
      have hsib : ∀ d ∈ C, c ≠ d := by
        rintro d hd rfl
        exact hroot (((hmem c).mp hd).2.symm.trans hc0)
      rw [hns, hps, Function.update_of_ne hcp, Function.update_of_ne hcp]
      refine ⟨?_, ?_⟩
      · split
        · exact hnext0
        · rename_i hz
          rw [Function.update_of_ne (hsib _ (hprevC.resolve_left hz)), hnext0]
      · split
        · exact hprev0
        · rename_i hz
          rw [Function.update_of_ne (hsib _ (hnextC.resolve_left hz)), hprev0]

theorem bury_parent (hc : c ≠ p) : (SoKernel.bury k p).parent c = k.parent c := by
  by_cases hroot : k.parent p = 0
  · rw [SoKernel.bury, unlinkChild, if_pos hroot]
  · rw [(bury_links rfl hroot).2.2.2, Function.update_of_ne hc]

/-- Every process is destroyed behind its children. -/
def ChildrenFirst (k : Kernel) (dead : List ℕ) : Prop :=
  ∀ A p B, dead = A ++ p :: B → ∀ c, k.allocated c = true → k.parent c = p → c ∈ A

/-- The calls of `process_destroy` in `schedule`. -/
theorem Family.buryAll (h : Family k) (hvalid : ∀ p, k.allocated p = true → p ≠ 0) {dead : List ℕ}
    (hdead : ∀ p ∈ dead, k.allocated p = true) (hnodup : dead.Nodup) (hfirst : ChildrenFirst k dead) :
    Family (dead.foldl SoKernel.bury k) := by
  induction dead generalizing k with
  | nil => exact h
  | cons p dead ih =>
      obtain ⟨hout, hrest⟩ := List.nodup_cons.mp hnodup
      have hchildless : ∀ c, k.allocated c = true → k.parent c ≠ p := fun c hc he =>
        absurd (hfirst [] p dead rfl c hc he) List.not_mem_nil
      have hbefore : ∀ c, (SoKernel.bury k p).allocated c = true → c ≠ p ∧ k.allocated c = true := by
        intro c hc
        rw [bury_allocated] at hc
        by_cases hcp : c = p
        · rw [hcp, Function.update_self] at hc
          cases hc
        · exact ⟨hcp, by rwa [Function.update_of_ne hcp] at hc⟩
      rw [List.foldl_cons]
      refine ih (h.bury hvalid (hdead p List.mem_cons_self) hchildless) (fun c hc => ?_)
        (fun q hq => ?_) hrest fun A q B hAB c hc hparent => ?_
      · exact hvalid c (hbefore c hc).2
      · have hqp : q ≠ p := fun he => hout (he ▸ hq)
        rw [bury_allocated, Function.update_of_ne hqp]
        exact hdead q (List.mem_cons_of_mem _ hq)
      · obtain ⟨hcp, hal⟩ := hbefore c hc
        rw [bury_parent hcp] at hparent
        have hmem := hfirst (p :: A) q B (by rw [hAB, List.cons_append]) c hal hparent
        exact (List.mem_cons.mp hmem).resolve_left hcp

end Destroy

section Create

/-- Only the tree and what is allocated matter. -/
theorem Family.congr (h : Family k) (hal : k'.allocated = k.allocated) (hpa : k'.parent = k.parent)
    (hfc : k'.firstChild = k.firstChild) (hns : k'.nextSibling = k.nextSibling)
    (hps : k'.prevSibling = k.prevSibling) : Family k' := by
  refine ⟨fun p hp => ?_, ?_, ?_⟩
  · rw [hal] at hp
    obtain ⟨C, hC, hmem⟩ := h.children p hp
    refine ⟨C, hC.congr (congrFun hfc p) (fun c _ => congrFun hns c) fun c _ => congrFun hps c, ?_⟩
    rw [hal, hpa]
    exact hmem
  · rw [hal, hpa]
    exact h.parent
  · rw [hal, hpa, hns, hps]
    exact h.root

/-- Only the links at an address without a process change. -/
theorem Family.clearFree (h : Family k) {x : ℕ} (hfree : k.allocated x = false)
    (hal : k'.allocated = k.allocated) (hpa : ∀ p, p ≠ x → k'.parent p = k.parent p)
    (hfc : ∀ p, p ≠ x → k'.firstChild p = k.firstChild p)
    (hns : ∀ p, p ≠ x → k'.nextSibling p = k.nextSibling p)
    (hps : ∀ p, p ≠ x → k'.prevSibling p = k.prevSibling p) : Family k' := by
  have hne : ∀ p, k.allocated p = true → p ≠ x := by
    rintro p hp rfl
    rw [hfree] at hp
    cases hp
  refine ⟨fun p hp => ?_, fun c hc => ?_, fun c hc hc0 => ?_⟩
  · rw [hal] at hp
    obtain ⟨C, hC, hmem⟩ := h.children p hp
    have hC' : ∀ c ∈ C, c ≠ x := fun c hc => hne c ((hmem c).mp hc).1
    refine ⟨C, hC.congr (hfc p (hne p hp)) (fun c hc => hns c (hC' c hc)) fun c hc => hps c (hC' c hc),
      fun c => ?_⟩
    rw [hmem, hal]
    exact and_congr_right fun hc => by rw [hpa c (hne c hc)]
  · rw [hal] at hc ⊢
    rw [hpa c (hne c hc)]
    exact h.parent c hc
  · rw [hal] at hc
    have hcx := hne c hc
    rw [hpa c hcx] at hc0
    rw [hns c hcx, hps c hcx]
    exact h.root c hc hc0

/-- Linking a process in front of the children. -/
theorem ChildList.push (h : ChildList k q C) {x : ℕ} (hx0 : x ≠ 0) (hxC : x ∉ C)
    (hfirst : k'.firstChild q = x) (hnext : k'.nextSibling x = k.firstChild q)
    (hprev : k'.prevSibling x = 0) (hback : k.firstChild q ≠ 0 → k'.prevSibling (k.firstChild q) = x)
    (hns : ∀ c, c ≠ x → k'.nextSibling c = k.nextSibling c)
    (hps : ∀ c, c ≠ x → c ≠ k.firstChild q → k'.prevSibling c = k.prevSibling c) :
    ChildList k' q (x :: C) := by
  obtain ⟨last, hring⟩ := h
  refine ⟨if k.firstChild q = 0 then x else last, hring.insertFront ?_ ?_ ?_ ?_ ?_ ?_ ?_⟩
  · simp [hx0, hxC]
  · rw [Function.update_self, hfirst]
  · rw [Function.update_of_ne hx0, hprev]
  · rw [Function.update_of_ne hx0, hnext, Function.update_self]
  · rw [Function.update_self]
    by_cases hz : k.firstChild q = 0
    · rw [hz, Function.update_self, if_pos rfl]
    · rw [Function.update_of_ne hz, hback hz]
  · intro y hy0 hyx
    rw [Function.update_of_ne hy0, Function.update_of_ne hy0, hns y hyx]
  · intro y hyn hyx
    rw [Function.update_self] at hyn
    by_cases hy0 : y = 0
    · have hz : k.firstChild q ≠ 0 := fun hz => hyn (hy0.trans hz.symm)
      rw [hy0, Function.update_self, Function.update_self, if_neg hz]
    · rw [Function.update_of_ne hy0, Function.update_of_ne hy0, hps y hyx hyn]

/-- The new process is the first child of its parent. -/
theorem Family.created (h : Family k) (hvalid : ∀ p, k.allocated p = true → p ≠ 0) {r : SpawnRequest}
    (hpcb : r.pcb ≠ 0) (hfree : k.allocated r.pcb = false) (hparent : k.allocated r.parent = true)
    (pr : Priority) (fdp : ℕ → ℕ → Option ℕ) : Family (createdKernel k r pr fdp) := by
  have hne : ∀ p, k.allocated p = true → p ≠ r.pcb := by
    rintro p hp rfl
    rw [hfree] at hp
    cases hp
  have hq0 : r.parent ≠ 0 := hvalid _ hparent
  obtain ⟨C, hC, hmem⟩ := h.children r.parent hparent
  have hCne : ∀ c ∈ C, c ≠ r.pcb := fun c hc => hne c ((hmem c).mp hc).1
  have hsib : createdSibling k r = k.firstChild r.parent := by
    rw [createdSibling, if_neg hq0, Function.update_of_ne (hne _ hparent)]
  have hfirst : createdSibling k r = 0 ∨ createdSibling k r ∈ C := hsib ▸ hC.firstChild_mem
  have hfc : ∀ p, p ≠ r.pcb → p ≠ r.parent → createdFirstChild k r p = k.firstChild p := by
    intro p hp hpq
    rw [createdFirstChild, if_neg hq0, Function.update_of_ne hpq, Function.update_of_ne hp]
  have hns : ∀ p, p ≠ r.pcb → update k.nextSibling r.pcb (createdSibling k r) p = k.nextSibling p :=
    fun p hp => Function.update_of_ne hp _ _
  have hps : ∀ p, p ≠ r.pcb → p ≠ createdSibling k r → createdPrevSibling k r p = k.prevSibling p := by
    intro p hp hps
    unfold createdPrevSibling
    split
    · exact Function.update_of_ne hp _ _
    · rw [Function.update_of_ne hps, Function.update_of_ne hp]
  have hout : ∀ c, c ≠ 0 → c ∉ C → c ≠ createdSibling k r := by
    rintro c hc0 hcC rfl
    exact hfirst.elim hc0 hcC
  have hsplit : ∀ c, update k.allocated r.pcb true c = true ↔ c = r.pcb ∨ k.allocated c = true := by
    intro c
    by_cases hc : c = r.pcb
    · simp [hc]
    · simp [hc]
  have hpa : ∀ c, k.allocated c = true → update k.parent r.pcb r.parent c = k.parent c := fun c hc =>
    Function.update_of_ne (hne c hc) _ _
  refine ⟨fun p hp => ?_, fun c hc => ?_, fun c hc hc0 => ?_⟩
  · obtain rfl | hal := (hsplit p).mp hp
    · -- the new process has no children
      refine ⟨[], ChildList.empty ?_, fun c => ?_⟩
      · dsimp only
        rw [createdFirstChild, if_neg hq0, Function.update_of_ne (hne _ hparent).symm,
          Function.update_self]
      · refine ⟨fun hc => absurd hc List.not_mem_nil, fun hc => ?_⟩
        obtain ⟨hal, hpc⟩ := hc
        obtain rfl | hal := (hsplit c).mp hal
        · dsimp only at hpc
          rw [Function.update_self] at hpc
          exact absurd hpc (hne _ hparent)
        · dsimp only at hpc
          rw [hpa c hal] at hpc
          obtain h0 | hq := h.parent c hal
          · exact absurd (hpc.symm.trans h0) hpcb
          · exact absurd hpc (hne _ hq)
    · by_cases hpq : p = r.parent
      · subst hpq
        refine ⟨r.pcb :: C, ?_, fun c => ?_⟩
        · refine hC.push hpcb (fun hm => hCne _ hm rfl) ?_ ?_ ?_ (fun hz => ?_) hns fun c hc hcf => ?_
          · dsimp only
            rw [createdFirstChild, if_neg hq0, Function.update_self]
          · dsimp only
            rw [Function.update_self, hsib]
          · dsimp only
            unfold createdPrevSibling
            split
            · exact Function.update_self ..
            · rename_i hz
              rw [Function.update_of_ne (hCne _ (hfirst.resolve_left hz)).symm, Function.update_self]
          · dsimp only
            rw [createdPrevSibling, hsib, if_neg hz, Function.update_self]
          · exact hps c hc (hsib ▸ hcf)
        · rw [List.mem_cons, hmem, hsplit]
          refine ⟨?_, ?_⟩
          · rintro (rfl | ⟨hc, hpc⟩)
            · exact ⟨Or.inl rfl, Function.update_self ..⟩
            · exact ⟨Or.inr hc, (hpa c hc).trans hpc⟩
          · rintro ⟨rfl | hc, hpc⟩
            · exact Or.inl rfl
            · exact Or.inr ⟨hc, (hpa c hc).symm.trans hpc⟩
      · obtain ⟨D, hD, hmemD⟩ := h.children p hal
        have hDout : ∀ c ∈ D, c ≠ createdSibling k r := fun c hc => by
          apply hout c (hD.ne_zero hc)
          exact fun hcC => hpq (((hmemD c).mp hc).2.symm.trans ((hmem c).mp hcC).2)
        have hDne : ∀ c ∈ D, c ≠ r.pcb := fun c hc => hne c ((hmemD c).mp hc).1
        refine ⟨D, hD.congr (hfc p (hne p hal) hpq) (fun c hc => hns c (hDne c hc))
          (fun c hc => hps c (hDne c hc) (hDout c hc)), fun c => ?_⟩
        rw [hmemD, hsplit]
        refine ⟨fun hc => ⟨Or.inr hc.1, (hpa c hc.1).trans hc.2⟩, ?_⟩
        rintro ⟨rfl | hc, hpc⟩
        · dsimp only at hpc
          rw [Function.update_self] at hpc
          exact absurd hpc.symm hpq
        · exact ⟨hc, (hpa c hc).symm.trans hpc⟩
  · obtain rfl | hal := (hsplit c).mp hc
    · right
      dsimp only
      rw [Function.update_self]
      exact (hsplit _).mpr (Or.inr hparent)
    · dsimp only
      rw [hpa c hal]
      exact (h.parent c hal).imp_right fun hq => (hsplit _).mpr (Or.inr hq)
  · obtain rfl | hal := (hsplit c).mp hc
    · dsimp only at hc0
      rw [Function.update_self] at hc0
      exact absurd hc0 hq0
    · dsimp only at hc0 ⊢
      rw [hpa c hal] at hc0
      have hcC : c ∉ C := fun hm => hq0 (((hmem c).mp hm).2.symm.trans hc0)
      rw [hns c (hne c hal), hps c (hne c hal) (hout c (hvalid c hal) hcC)]
      exact h.root c hal hc0

end Create
end SoKernel
