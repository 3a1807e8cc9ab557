import Mathlib.Algebra.BigOperators.Group.Finset.Piecewise
import SoKernel.Syscalls.PipeFds

/-!
# Counting the descriptors of pipes

`FdsCounted` says that the numbers of readers and writers of a pipe are the numbers of
descriptors that point to it. Opening and closing an end together with its descriptor keep
it, and so do the creation, the exit, the death and the destruction of a process.
-/

namespace SoKernel

open Function (update)

variable {k k' : Kernel} {live : Finset ℕ} {p fd i id : ℕ} {t t' : FdType} {x : Option ℕ}

section Counting

/-- The number of descriptors of the processes in `live` that are ends of type `t` of the
pipe in entry `i`. -/
def ends (fdType : ℕ → ℕ → FdType) (fdPipe : ℕ → ℕ → Option ℕ) (live : Finset ℕ) (t : FdType)
    (i : ℕ) : ℕ :=
  ((live ×ˢ Finset.range maxFds).filter fun e =>
    fdType e.1 e.2 = t ∧ fdPipe e.1 e.2 = some i).card

variable {fdType fdType' : ℕ → ℕ → FdType} {fdPipe fdPipe' : ℕ → ℕ → Option ℕ}

/-- Only the descriptors of the processes in `live` matter. -/
theorem ends_congr (h : ∀ p ∈ live, ∀ fd < maxFds,
    fdType' p fd = fdType p fd ∧ fdPipe' p fd = fdPipe p fd) (t : FdType) (i : ℕ) :
    ends fdType' fdPipe' live t i = ends fdType fdPipe live t i := by
  refine congrArg Finset.card (Finset.filter_congr fun e he => ?_)
  obtain ⟨hp, hfd⟩ := Finset.mem_product.mp he
  obtain ⟨ht, hx⟩ := h e.1 hp e.2 (Finset.mem_range.mp hfd)
  rw [ht, hx]

/-- Changing one descriptor. -/
theorem ends_update (fdType : ℕ → ℕ → FdType) (fdPipe : ℕ → ℕ → Option ℕ) (hp : p ∈ live)
    (hfd : fd < maxFds) (s t : FdType) (x : Option ℕ) (i : ℕ) :
    ends (update fdType p (update (fdType p) fd t)) (update fdPipe p (update (fdPipe p) fd x)) live
        s i + (if fdType p fd = s ∧ fdPipe p fd = some i then 1 else 0) =
      ends fdType fdPipe live s i + (if t = s ∧ x = some i then 1 else 0) := by
  have hmem : (p, fd) ∈ live ×ˢ Finset.range maxFds :=
    Finset.mem_product.mpr ⟨hp, Finset.mem_range.mpr hfd⟩
  unfold ends
  rw [Finset.card_filter, Finset.card_filter, ← Finset.add_sum_erase _ _ hmem,
    ← Finset.add_sum_erase _ _ hmem]
  have hrest : ∀ e ∈ (live ×ˢ Finset.range maxFds).erase (p, fd),
      (if update fdType p (update (fdType p) fd t) e.1 e.2 = s ∧
          update fdPipe p (update (fdPipe p) fd x) e.1 e.2 = some i then 1 else 0) =
        if fdType e.1 e.2 = s ∧ fdPipe e.1 e.2 = some i then 1 else 0 := by
    intro e he
    have hne := (Finset.mem_erase.mp he).1
    by_cases hep : e.1 = p
    · have hefd : e.2 ≠ fd := fun h => hne (Prod.ext hep h)
      simp only [hep, Function.update_self, Function.update_of_ne hefd]
    · simp only [Function.update_of_ne hep]
  rw [Finset.sum_congr rfl hrest]
  simp only [Function.update_self]
  omega

theorem ends_pos (hp : p ∈ live) (hfd : fd < maxFds) (ht : fdType p fd = t)
    (hx : fdPipe p fd = some i) : 0 < ends fdType fdPipe live t i :=
  Finset.card_pos.mpr ⟨(p, fd), Finset.mem_filter.mpr
    ⟨Finset.mem_product.mpr ⟨hp, Finset.mem_range.mpr hfd⟩, ht, hx⟩⟩

theorem ends_eq_zero (h : ∀ p ∈ live, ∀ fd < maxFds, fdPipe p fd ≠ some i) (t : FdType) :
    ends fdType fdPipe live t i = 0 := by
  refine Finset.card_eq_zero.mpr (Finset.filter_eq_empty_iff.mpr fun e he hc => ?_)
  obtain ⟨hp, hfd⟩ := Finset.mem_product.mp he
  exact h e.1 hp e.2 (Finset.mem_range.mp hfd) hc.2

/-- A process without descriptors of pipes does not count. -/
theorem ends_insert (fdType : ℕ → ℕ → FdType) (fdPipe : ℕ → ℕ → Option ℕ) (hp : p ∉ live)
    (hnone : ∀ fd < maxFds, fdPipe p fd = none) (t : FdType) (i : ℕ) : ends fdType fdPipe (insert p live) t i = ends fdType fdPipe live t i := by
  refine congrArg Finset.card ?_
  ext e
  simp only [Finset.mem_filter, Finset.mem_product, Finset.mem_insert, Finset.mem_range]
  constructor
  · rintro ⟨⟨rfl | he, hfd⟩, ht, hx⟩
    · rw [hnone _ hfd] at hx
      cases hx
    · exact ⟨⟨he, hfd⟩, ht, hx⟩
  · rintro ⟨⟨he, hfd⟩, ht, hx⟩
    exact ⟨⟨Or.inr he, hfd⟩, ht, hx⟩

end Counting

section Invariant

/-- The ends of a pipe that its table entry should count. -/
abbrev Kernel.ends (k : Kernel) (live : Finset ℕ) (t : FdType) (i : ℕ) : ℕ :=
  SoKernel.ends k.fdType k.fdPipe live t i

/-- The entries of the pipes in use count the descriptors of the existing processes. -/
structure FdsCounted (k : Kernel) (live : Finset ℕ) : Prop where
  tables : Tables k
  mem_live : ∀ p, p ∈ live ↔ k.allocated p = true
  current : k.current = 0 ∨ k.allocated k.current = true
  readers : ∀ i < maxPipes, (k.pipes i).used = true →
    (k.pipes i).readers = k.ends live .pipeRead i
  writers : ∀ i < maxPipes, (k.pipes i).used = true →
    (k.pipes i).writers = k.ends live .pipeWrite i
  points : ∀ p, k.allocated p = true → ∀ fd < maxFds, ∀ i, k.fdPipe p fd = some i →
    i < maxPipes ∧ (k.pipes i).used = true ∧ k.fdType p fd ≠ .terminal

/-- Calls that only close ends: a pipe in use stays, with an end left if it had one, or it
loses its last end and is destroyed. -/
def Closes (k k' : Kernel) : Prop :=
  ∀ i < maxPipes, ((k.pipes i).used = false → (k'.pipes i).used = false) ∧
    ((k.pipes i).used = true →
      (k'.pipes i).used = true ∧ (k'.pipes i).id = (k.pipes i).id ∧
        (k'.pipes i).readers + (k'.pipes i).writers ≤ (k.pipes i).readers + (k.pipes i).writers ∧
        (0 < (k.pipes i).readers + (k.pipes i).writers →
          0 < (k'.pipes i).readers + (k'.pipes i).writers) ∨
      (k'.pipes i).used = false ∧ 0 < (k.pipes i).readers + (k.pipes i).writers)

/-- Calls that only open ends. -/
def Opens (k k' : Kernel) : Prop :=
  ∀ i < maxPipes, (k'.pipes i).used = (k.pipes i).used ∧ (k'.pipes i).id = (k.pipes i).id ∧
    (k.pipes i).readers + (k.pipes i).writers ≤ (k'.pipes i).readers + (k'.pipes i).writers

theorem Closes.of_eq (h : k'.pipes = k.pipes) : Closes k k' := by
  intro i _
  rw [h]
  exact ⟨fun h => h, fun hu => Or.inl ⟨hu, rfl, le_rfl, fun h => h⟩⟩

theorem Closes.trans {k'' : Kernel} (h : Closes k k') (h' : Closes k' k'') : Closes k k'' := by
  intro i hi
  obtain ⟨hfree, hused⟩ := h i hi
  obtain ⟨hfree', hused'⟩ := h' i hi
  refine ⟨fun hu => hfree' (hfree hu), fun hu => ?_⟩
  rcases hused hu with ⟨hu', hid, hle, hpos⟩ | ⟨hu', hpos⟩
  · rcases hused' hu' with ⟨hu'', hid', hle', hpos'⟩ | ⟨hu'', hpos'⟩
    · exact Or.inl ⟨hu'', hid'.trans hid, hle'.trans hle, fun h => hpos' (hpos h)⟩
    · exact Or.inr ⟨hu'', hpos'.trans_le hle⟩
  · exact Or.inr ⟨hfree' hu', hpos⟩

theorem Opens.of_eq (h : k'.pipes = k.pipes) : Opens k k' := by
  intro i _
  rw [h]
  exact ⟨rfl, rfl, le_rfl⟩

theorem Opens.trans {k'' : Kernel} (h : Opens k k') (h' : Opens k' k'') : Opens k k'' := by
  intro i hi
  obtain ⟨hu, hid, hle⟩ := h i hi
  obtain ⟨hu', hid', hle'⟩ := h' i hi
  exact ⟨hu'.trans hu, hid'.trans hid, hle.trans hle'⟩

end Invariant

section Entries

/-- Descriptors outside the existing processes do not matter. -/
theorem FdsCounted.congr (h : FdsCounted k live) (htables : Tables k') (hpipes : k'.pipes = k.pipes)
    (halloc : k'.allocated = k.allocated)
    (hcur : k'.current = 0 ∨ k'.allocated k'.current = true)
    (hfds : ∀ p, k.allocated p = true → ∀ fd < maxFds,
      k'.fdType p fd = k.fdType p fd ∧ k'.fdPipe p fd = k.fdPipe p fd) : FdsCounted k' live := by
  have hends : ∀ t i, k'.ends live t i = k.ends live t i :=
    ends_congr fun p hp => hfds p ((h.mem_live p).mp hp)
  refine ⟨htables, fun p => by rw [halloc, h.mem_live], hcur, ?_, ?_, ?_⟩
  · intro i hi hu
    rw [hpipes] at hu ⊢
    rw [hends, h.readers i hi hu]
  · intro i hi hu
    rw [hpipes] at hu ⊢
    rw [hends, h.writers i hi hu]
  · intro p hp fd hfd i hx
    rw [halloc] at hp
    obtain ⟨ht, hx'⟩ := hfds p hp fd hfd
    rw [hx'] at hx
    rw [ht, hpipes]
    exact h.points p hp fd hfd i hx

/-- Two states with the same pipes, descriptors and processes. -/
theorem FdsCounted.same (h : FdsCounted k live) (htables : Tables k') (hpipes : k'.pipes = k.pipes)
    (hfds : SameFds k k') : FdsCounted k' live :=
  h.congr htables hpipes hfds.allocated (by rw [hfds.current, hfds.allocated]; exact h.current)
    fun p _ fd _ => by rw [hfds.fdType, hfds.fdPipe]; exact ⟨rfl, rfl⟩

/-- Rewriting the type of an entry that points to no pipe. -/
theorem FdsCounted.retype (h : FdsCounted k live) (hp : k.allocated p = true) (hfd : fd < maxFds)
    (hnone : k.fdPipe p fd = none) (t : FdType) : FdsCounted (setFd k p fd t none) live := by
  have hends : ∀ s i, (setFd k p fd t none).ends live s i = k.ends live s i := by
    intro s i
    have hupd := ends_update k.fdType k.fdPipe ((h.mem_live p).mpr hp) hfd
      s t none i
    simp only [hnone, reduceCtorEq, and_false, if_false, Nat.add_zero] at hupd
    exact hupd
  refine ⟨h.tables, h.mem_live, h.current, ?_, ?_, ?_⟩
  · intro i hi hu
    rw [hends]
    exact h.readers i hi hu
  · intro i hi hu
    rw [hends]
    exact h.writers i hi hu
  · intro q hq gd hgd i hx
    by_cases hqp : q = p
    · subst hqp
      by_cases hgf : gd = fd
      · subst hgf
        simp [setFd] at hx
      · simp only [setFd, Function.update_self, Function.update_of_ne hgf] at hx ⊢
        exact h.points q hq gd hgd i hx
    · simp only [setFd, Function.update_of_ne hqp] at hx ⊢
      exact h.points q hq gd hgd i hx

/-- The numbers of ends of a pipe in use are not negative. -/
theorem FdsCounted.nonneg (h : FdsCounted k live) (hi : i < maxPipes) (hu : (k.pipes i).used = true) :
    0 ≤ (k.pipes i).readers ∧ 0 ≤ (k.pipes i).writers := by
  rw [h.readers i hi hu, h.writers i hi hu]
  exact ⟨Int.natCast_nonneg _, Int.natCast_nonneg _⟩

/-- An entry other than the changed one. -/
theorem setFd_other {q gd : ℕ} (h : q ≠ p ∨ gd ≠ fd) (k : Kernel) (t : FdType) (x : Option ℕ) :
    (setFd k p fd t x).fdType q gd = k.fdType q gd ∧
      (setFd k p fd t x).fdPipe q gd = k.fdPipe q gd := by
  by_cases hqp : q = p
  · subst hqp
    have hgf : gd ≠ fd := h.resolve_left (by simp)
    simp only [setFd, Function.update_self, Function.update_of_ne hgf, and_self]
  · simp only [setFd, Function.update_of_ne hqp, and_self]

@[simp] theorem setFd_fdPipe (k : Kernel) (p fd : ℕ) (t : FdType) (x : Option ℕ) :
    (setFd k p fd t x).fdPipe p fd = x := by
  simp [setFd]

@[simp] theorem setFd_fdType (k : Kernel) (p fd : ℕ) (t : FdType) (x : Option ℕ) :
    (setFd k p fd t x).fdType p fd = t := by
  simp [setFd]

/-- Closing an end that is counted. -/
theorem Pipe.closed_counts (q : Pipe) (ht : t ≠ .terminal)
    (hr : t = .pipeRead → 0 < q.readers) (hw : t = .pipeWrite → 0 < q.writers) :
    (q.closed (t = .pipeWrite)).readers = q.readers - (if t = .pipeRead then 1 else 0) ∧
      (q.closed (t = .pipeWrite)).writers = q.writers - (if t = .pipeWrite then 1 else 0) := by
  cases t with
  | terminal => exact absurd rfl ht
  | pipeRead => simp [Pipe.closed, hr rfl]
  | pipeWrite => simp [Pipe.closed, hw rfl]

/-- Closing the pipe of an entry and clearing the entry. -/
theorem FdsCounted.closeEntry (h : FdsCounted k live) (hp : k.allocated p = true)
    (hfd : fd < maxFds) (ht : k.fdType p fd = t) (hx : k.fdPipe p fd = some i) {r : ℕ}
    (hclose : pipeCloseById k (k.pipes i).id (t = .pipeWrite) = some (r, k')) (t' : FdType) :
    FdsCounted (setFd k' p fd t' none) live ∧ Closes k (setFd k' p fd t' none) := by
  obtain ⟨hi, hu, hterm⟩ := h.points p hp fd hfd i hx
  rw [ht] at hterm
  obtain ⟨htables, hfds, hcase⟩ := pipeCloseById_spec h.tables hclose
  rw [pipeGetById_of_used h.tables hi hu] at hcase
  have hpipes : k'.pipes = update k.pipes i ((k.pipes i).afterClose (t = .pipeWrite)) := by
    rcases hcase with ⟨hnone, -⟩ | ⟨j, hj, hpipes⟩
    · cases hnone
    · cases hj
      exact hpipes
  have hreaders := h.readers i hi hu
  have hwriters := h.writers i hi hu
  have hmem := (h.mem_live p).mpr hp
  obtain ⟨hr, hw⟩ := (k.pipes i).closed_counts hterm
    (fun he => by
      have hpos : 0 < k.ends live .pipeRead i := ends_pos hmem hfd (ht.trans he) hx
      omega)
    (fun he => by
      have hpos : 0 < k.ends live .pipeWrite i := ends_pos hmem hfd (ht.trans he) hx
      omega)
  have hends : ∀ s j, (setFd k' p fd t' none).ends live s j +
      (if t = s ∧ i = j then 1 else 0) = k.ends live s j := by
    intro s j
    have hupd := ends_update k.fdType k.fdPipe hmem hfd s t' none j
    simp only [hx, ht, Option.some.injEq, reduceCtorEq, and_false, if_false, Nat.add_zero] at hupd
    simp only [Kernel.ends, setFd, hfds.fdType, hfds.fdPipe]
    exact hupd
  have hread := hends .pipeRead i
  have hwrite := hends .pipeWrite i
  simp only [and_true] at hread hwrite
  have hused' : ∀ j, ((setFd k' p fd t' none).pipes j).used = true →
      (k.pipes j).used = true ∧ (j ≠ i ∧ (setFd k' p fd t' none).pipes j = k.pipes j ∨
        j = i ∧ (setFd k' p fd t' none).pipes j = (k.pipes i).closed (t = .pipeWrite)) := by
    intro j huj
    simp only [setFd, hpipes] at huj ⊢
    by_cases hji : j = i
    · subst hji
      rw [Function.update_self] at huj ⊢
      refine ⟨hu, Or.inr ⟨rfl, ?_⟩⟩
      unfold Pipe.afterClose at huj ⊢
      split at huj
      · cases huj
      · rename_i hlast
        rw [if_neg hlast]
    · rw [Function.update_of_ne hji] at huj ⊢
      exact ⟨huj, Or.inl ⟨hji, rfl⟩⟩
  refine ⟨⟨htables, ?_, ?_, ?_, ?_, ?_⟩, ?_⟩
  · intro q
    rw [h.mem_live]
    simp only [setFd, hfds.allocated]
  · simp only [setFd, hfds.current, hfds.allocated]
    exact h.current
  · intro j hj huj
    obtain ⟨huk, ⟨hji, heq⟩ | ⟨rfl, heq⟩⟩ := hused' j huj
    · have hsame := hends .pipeRead j
      rw [if_neg fun hc => hji hc.2.symm, Nat.add_zero] at hsame
      rw [heq, hsame, h.readers j hj huk]
    · rw [heq, hr]
      split at hread <;> rename_i he <;> simp only [he, if_true, if_false] <;> omega
  · intro j hj huj
    obtain ⟨huk, ⟨hji, heq⟩ | ⟨rfl, heq⟩⟩ := hused' j huj
    · have hsame := hends .pipeWrite j
      rw [if_neg fun hc => hji hc.2.symm, Nat.add_zero] at hsame
      rw [heq, hsame, h.writers j hj huk]
    · rw [heq, hw]
      split at hwrite <;> rename_i he <;> simp only [he, if_true, if_false] <;> omega
  · intro q hq gd hgd j hxj
    have hother : q ≠ p ∨ gd ≠ fd := by
      by_contra hsame
      simp only [not_or, not_not] at hsame
      rw [hsame.1, hsame.2, setFd_fdPipe] at hxj
      cases hxj
    obtain ⟨htype, hpipe⟩ := setFd_other hother k' t' none
    have hqa : k.allocated q = true := by rw [← hfds.allocated]; exact hq
    rw [hpipe, hfds.fdPipe] at hxj
    obtain ⟨hj, huj, htj⟩ := h.points q hqa gd hgd j hxj
    refine ⟨hj, ?_, by rw [htype, hfds.fdType]; exact htj⟩
    simp only [setFd, hpipes]
    by_cases hji : j = i
    · -- the entry still counts as an end, so that the pipe was not destroyed
      subst hji
      rw [Function.update_self]
      have hend : ∀ s, k.fdType q gd = s → 0 < (setFd k' p fd t' none).ends live s j := fun s hs =>
        ends_pos ((h.mem_live q).mpr hqa) hgd (by rw [htype, hfds.fdType, hs])
          (by rw [hpipe, hfds.fdPipe, hxj])
      have hnot : ¬(((k.pipes j).closed (t = .pipeWrite)).readers = 0 ∧
          ((k.pipes j).closed (t = .pipeWrite)).writers = 0) := by
        rw [hr, hw]
        cases hs : k.fdType q gd with
        | terminal => exact absurd hs htj
        | pipeRead =>
            have hpos := hend _ hs
            split at hread <;> rename_i he <;> simp only [he, if_true, if_false] <;> omega
        | pipeWrite =>
            have hpos := hend _ hs
            split at hwrite <;> rename_i he <;> simp only [he, if_true, if_false] <;> omega
      rw [Pipe.afterClose, if_neg hnot, ((k.pipes j).closed_same (t = .pipeWrite)).2.1, hu]
    · rw [Function.update_of_ne hji, huj]
  · intro j hj
    simp only [setFd, hpipes]
    by_cases hji : j = i
    · subst hji
      rw [Function.update_self]
      refine ⟨fun hfree => absurd hu (by rw [hfree]; decide), fun _ => ?_⟩
      obtain ⟨hid, husd, -, -⟩ := (k.pipes j).closed_same (t = .pipeWrite)
      have hnn := h.nonneg hj hu
      by_cases hlast : ((k.pipes j).closed (t = .pipeWrite)).readers = 0 ∧
          ((k.pipes j).closed (t = .pipeWrite)).writers = 0
      · rw [Pipe.afterClose, if_pos hlast]
        refine Or.inr ⟨rfl, ?_⟩
        rw [hr, hw] at hlast
        cases t with
        | terminal => exact absurd rfl hterm
        | pipeRead => simp at hlast; omega
        | pipeWrite => simp at hlast; omega
      · rw [Pipe.afterClose, if_neg hlast]
        refine Or.inl ⟨husd.trans hu, hid, ?_, fun _ => ?_⟩
        · rw [hr, hw]
          split <;> split <;> omega
        · rw [hr, hw] at hlast ⊢
          cases t with
          | terminal => exact absurd rfl hterm
          | pipeRead => simp at hread hlast ⊢; omega
          | pipeWrite => simp at hwrite hlast ⊢; omega
    · rw [Function.update_of_ne hji]
      exact ⟨fun h => h, fun huj => Or.inl ⟨huj, rfl, le_rfl, fun h => h⟩⟩

/-- Opening an end for an entry that points to no pipe. -/
theorem FdsCounted.openEntry (h : FdsCounted k live) (hp : k.allocated p = true)
    (hfd : fd < maxFds) (hnone : k.fdPipe p fd = none) {isWriter : Bool}
    (hfind : pipeGetById k id = some i) (htables : Tables k') (hfds : SameFds k k')
    (hpipes : k'.pipes = update k.pipes i ((k.pipes i).opened isWriter)) :
    FdsCounted (setFd k' p fd (if isWriter then .pipeWrite else .pipeRead) (some i)) live ∧
      Opens k (setFd k' p fd (if isWriter then .pipeWrite else .pipeRead) (some i)) := by
  obtain ⟨hi, hu, -⟩ := pipeGetById_mem hfind
  obtain ⟨hid, husd, -, -⟩ := (k.pipes i).opened_same isWriter
  have hmem := (h.mem_live p).mpr hp
  generalize ht : (if isWriter then .pipeWrite else .pipeRead : FdType) = t
  have hcounts : ((k.pipes i).opened isWriter).readers =
        (k.pipes i).readers + (if t = .pipeRead then 1 else 0) ∧
      ((k.pipes i).opened isWriter).writers =
        (k.pipes i).writers + (if t = .pipeWrite then 1 else 0) ∧ t ≠ .terminal := by
    subst ht
    cases isWriter <;> simp [Pipe.opened]
  obtain ⟨hr, hw, hterm⟩ := hcounts
  have hends : ∀ s j, (setFd k' p fd t (some i)).ends live s j =
      k.ends live s j + (if t = s ∧ i = j then 1 else 0) := by
    intro s j
    have hupd := ends_update k.fdType k.fdPipe hmem hfd s t (some i) j
    simp only [hnone, Option.some.injEq, reduceCtorEq, and_false, if_false, Nat.add_zero] at hupd
    simp only [Kernel.ends, setFd, hfds.fdType, hfds.fdPipe]
    exact hupd
  have hpipe : ∀ j, (setFd k' p fd t (some i)).pipes j =
      if j = i then (k.pipes i).opened isWriter else k.pipes j := by
    intro j
    simp only [setFd, hpipes, Function.update_apply]
  have hused : ∀ j, ((setFd k' p fd t (some i)).pipes j).used = (k.pipes j).used := by
    intro j
    rw [hpipe]
    split
    · rename_i hji
      rw [husd, hji]
    · rfl
  refine ⟨⟨htables, ?_, ?_, ?_, ?_, ?_⟩, ?_⟩
  · intro q
    rw [h.mem_live]
    simp only [setFd, hfds.allocated]
  · simp only [setFd, hfds.current, hfds.allocated]
    exact h.current
  · intro j hj huj
    rw [hused] at huj
    have hold := h.readers j hj huj
    rw [hpipe, hends]
    by_cases hji : j = i
    · subst hji
      simp only [and_true, if_true]
      rw [hr, hold]
      split <;> simp
    · simp only [if_neg hji, if_neg fun hc : t = .pipeRead ∧ i = j => hji hc.2.symm]
      rw [hold, Nat.add_zero]
  · intro j hj huj
    rw [hused] at huj
    have hold := h.writers j hj huj
    rw [hpipe, hends]
    by_cases hji : j = i
    · subst hji
      simp only [and_true, if_true]
      rw [hw, hold]
      split <;> simp
    · simp only [if_neg hji, if_neg fun hc : t = .pipeWrite ∧ i = j => hji hc.2.symm]
      rw [hold, Nat.add_zero]
  · intro q hq gd hgd j hxj
    rw [hused]
    by_cases hsame : q = p ∧ gd = fd
    · obtain ⟨rfl, rfl⟩ := hsame
      rw [setFd_fdPipe, Option.some_inj] at hxj
      subst hxj
      rw [setFd_fdType]
      exact ⟨hi, hu, hterm⟩
    · obtain ⟨htype, hpipe'⟩ := setFd_other (not_and_or.mp hsame) k' t (some i)
      rw [hpipe', hfds.fdPipe] at hxj
      rw [htype, hfds.fdType]
      exact h.points q (by rw [← hfds.allocated]; exact hq) gd hgd j hxj
  · intro j hj
    refine ⟨hused j, ?_, ?_⟩
    · rw [hpipe]
      split
      · rename_i hji
        rw [hid, hji]
      · rfl
    · rw [hpipe]
      split
      · rename_i hji
        rw [hji, hr, hw]
        split <;> split <;> omega
      · exact le_rfl

end Entries

section Calls

/-- What closing entries of the process `p` leaves as it is. -/
structure ClosedFds (k k' : Kernel) (live : Finset ℕ) (p : ℕ) : Prop where
  counted : FdsCounted k' live
  closes : Closes k k'
  allocated : k'.allocated = k.allocated
  current : k'.current = k.current
  keeps : ∀ fd, k.fdPipe p fd = none → k'.fdPipe p fd = none

theorem ClosedFds.refl (h : FdsCounted k live) (p : ℕ) : ClosedFds k k live p :=
  ⟨h, .of_eq rfl, rfl, rfl, fun _ h => h⟩

theorem ClosedFds.trans {k'' : Kernel} (h : ClosedFds k k' live p) (h' : ClosedFds k' k'' live p) :
    ClosedFds k k'' live p :=
  ⟨h'.counted, h.closes.trans h'.closes, h'.allocated.trans h.allocated,
    h'.current.trans h.current, fun fd hfd => h'.keeps fd (h.keeps fd hfd)⟩

theorem setFd_keeps {gd : ℕ} (h : k.fdPipe p gd = none) :
    (setFd k p fd t none).fdPipe p gd = none := by
  by_cases hgd : gd = fd
  · rw [hgd, setFd_fdPipe]
  · rw [(setFd_other (Or.inr hgd) k t none).2, h]

/-- Closing the pipe of an entry, which is then cleared. -/
theorem FdsCounted.closeEntryPipe_spec (h : FdsCounted k live) (hp : k.allocated p = true)
    (hfd : fd < maxFds) (heq : closeEntryPipe k p fd = some k') :
    SameFds k k' ∧ ∀ t', ClosedFds k (setFd k' p fd t' none) live p := by
  -- nothing to close
  have hquiet : k.fdPipe p fd = none → ∀ t', ClosedFds k (setFd k p fd t' none) live p :=
    fun hnone t' => ⟨h.retype hp hfd hnone t', .of_eq rfl, rfl, rfl, fun _ => setFd_keeps⟩
  have hopen : ∀ t i, k.fdType p fd = t → k.fdPipe p fd = some i →
      (if (k.pipes i).id = 0 then some k
        else (pipeCloseById k (k.pipes i).id (t = .pipeWrite)).map Prod.snd) = some k' →
      SameFds k k' ∧ ∀ t', ClosedFds k (setFd k' p fd t' none) live p := by
    intro t i ht hx heq
    obtain ⟨hi, hu, -⟩ := h.points p hp fd hfd i hx
    have hpos := (h.tables.bound i hi hu).1
    rw [if_neg (by omega)] at heq
    obtain ⟨⟨r, k₁⟩, hclose, rfl⟩ := Option.map_eq_some_iff.mp heq
    have hfds := (pipeCloseById_spec h.tables hclose).2.1
    refine ⟨hfds, fun t' => ?_⟩
    obtain ⟨hcounted, hcloses⟩ := h.closeEntry hp hfd ht hx hclose t'
    refine ⟨hcounted, hcloses, hfds.allocated, hfds.current, fun gd hgd => ?_⟩
    refine setFd_keeps ?_
    rw [hfds.fdPipe, hgd]
  unfold closeEntryPipe at heq
  cases hx : k.fdPipe p fd with
  | none =>
      have hk : k' = k := by
        rw [hx] at heq
        cases ht : k.fdType p fd <;> simp only [ht, Option.some.injEq] at heq <;> exact heq.symm
      subst hk
      exact ⟨.refl _, hquiet hx⟩
  | some i =>
      rw [hx] at heq
      cases ht : k.fdType p fd with
      | terminal => exact absurd ht (h.points p hp fd hfd i hx).2.2
      | pipeRead =>
          rw [ht] at heq
          exact hopen _ i ht hx heq
      | pipeWrite =>
          rw [ht] at heq
          exact hopen _ i ht hx heq

theorem closeFd_eq (ht : k.fdType p fd ≠ .terminal) :
    closeFd k p fd = (closeEntryPipe k p fd).map fun k => setFd k p fd .terminal none := by
  unfold closeFd closeEntryPipe
  cases h : k.fdType p fd with
  | terminal => exact absurd h ht
  | pipeRead =>
      rw [Option.map_eq_bind]
      rfl
  | pipeWrite =>
      rw [Option.map_eq_bind]
      rfl

theorem FdsCounted.closeFd_spec (h : FdsCounted k live) (hp : k.allocated p = true)
    (hfd : fd < maxFds) (heq : closeFd k p fd = some k') :
    ClosedFds k k' live p ∧ k'.fdPipe p fd = none := by
  by_cases ht : k.fdType p fd = .terminal
  · unfold closeFd at heq
    simp only [ht, Option.some.injEq] at heq
    subst heq
    refine ⟨.refl h p, ?_⟩
    cases hx : k.fdPipe p fd with
    | none => rfl
    | some i => exact absurd ht (h.points p hp fd hfd i hx).2.2
  · rw [closeFd_eq ht] at heq
    obtain ⟨k₁, hclose, rfl⟩ := Option.map_eq_some_iff.mp heq
    exact ⟨(h.closeEntryPipe_spec hp hfd hclose).2 .terminal, setFd_fdPipe _ _ _ _ _⟩

/-- Closing the listed entries of a process. -/
theorem FdsCounted.closeFds_spec {fds : List ℕ} (h : FdsCounted k live)
    (hp : k.allocated p = true) (hfds : ∀ fd ∈ fds, fd < maxFds)
    (heq : closeFds p fds k = some k') :
    ClosedFds k k' live p ∧ ∀ fd ∈ fds, k'.fdPipe p fd = none := by
  induction fds generalizing k with
  | nil =>
      cases heq
      exact ⟨.refl h p, fun fd hfd => absurd hfd List.not_mem_nil⟩
  | cons fd fds ih =>
      rw [closeFds, Option.bind_eq_bind] at heq
      obtain ⟨k₁, hfirst, heq⟩ := Option.bind_eq_some_iff.mp heq
      obtain ⟨hclosed, hnone⟩ := h.closeFd_spec hp (hfds fd (by simp)) hfirst
      obtain ⟨hrest, hall⟩ := ih hclosed.counted (by rw [hclosed.allocated]; exact hp)
        (fun gd hgd => hfds gd (by simp [hgd])) heq
      refine ⟨hclosed.trans hrest, fun gd hgd => ?_⟩
      rcases List.mem_cons.mp hgd with rfl | hgd
      · exact hrest.keeps gd hnone
      · exact hall gd hgd

/-- A call that changes neither pipes nor descriptors nor semaphores. -/
theorem FdsCounted.quiet (h : FdsCounted k live) (hfds : SameFds k k') (hpipes : SamePipes k k')
    (hsems : k'.semaphores = k.semaphores) : FdsCounted k' live := by
  refine h.same ?_ hpipes.pipes hfds
  have htables := h.tables
  rwa [Tables, hpipes.pipes, hpipes.nextPipeId, hpipes.nextSemId, hsems]

theorem FdsCounted.exit_spec (h : FdsCounted k live) (heq : schedulerFinishCurrent k = some k') :
    FdsCounted k' live ∧ Closes k k' := by
  unfold schedulerFinishCurrent at heq
  split at heq
  · cases heq
    exact ⟨h, .of_eq rfl⟩
  · rename_i hcur
    rw [Option.bind_eq_bind] at heq
    obtain ⟨k₁, hclose, heq⟩ := Option.bind_eq_some_iff.mp heq
    have hc : k.current ≠ 0 := fun h0 => hcur (Or.inl h0)
    unfold processCloseFds at hclose
    rw [if_neg hc] at hclose
    obtain ⟨hclosed, -⟩ := h.closeFds_spec (h.current.resolve_left hc)
      (fun fd hfd => List.mem_range.mp hfd) hclose
    cases heq
    refine ⟨hclosed.counted.quiet ⟨rfl, rfl, rfl, rfl⟩ ⟨rfl, rfl, rfl⟩ rfl,
      hclosed.closes.trans (.of_eq rfl)⟩

/-- Waking waiters changes neither pipes nor descriptors nor semaphores. -/
theorem wakeWaiters_same {n : ℕ} (heq : wakeWaiters p n k = some k') :
    SameFds k k' ∧ SamePipes k k' ∧ k'.semaphores = k.semaphores := by
  induction n generalizing k with
  | zero => cases heq
  | succ n ih =>
      rw [wakeWaiters] at heq
      dsimp only at heq
      split at heq
      · cases heq
        exact ⟨.refl _, .refl _, rfl⟩
      · rw [Option.bind_eq_bind] at heq
        obtain ⟨k₁, hpush, heq⟩ := Option.bind_eq_some_iff.mp heq
        obtain ⟨l, rfl⟩ := readyQueuePush_shape hpush
        obtain ⟨hfds, hpipes, hsems⟩ := ih heq
        exact ⟨⟨hfds.fdType, hfds.fdPipe, hfds.allocated, hfds.current⟩,
          ⟨hpipes.pipes, hpipes.nextPipeId, hpipes.nextSemId⟩, hsems⟩

/-- The part of `scheduler_kill_by_pid` that follows the closing of the descriptors. -/
theorem killProcess_same (heq : killProcess k p = some k') :
    ∃ k₁, processCloseFds k p = some k₁ ∧ SameFds k₁ k' ∧ SamePipes k₁ k' ∧
      k'.semaphores = k₁.semaphores := by
  unfold killProcess at heq
  simp only [Option.bind_eq_bind] at heq
  obtain ⟨k₁, hclose, hrest₁⟩ := Option.bind_eq_some_iff.mp heq
  obtain ⟨k₂, hremove, hrest₂⟩ := Option.bind_eq_some_iff.mp hrest₁
  obtain ⟨k₃, hwake, hrest₃⟩ := Option.bind_eq_some_iff.mp hrest₂
  obtain ⟨k₄, hpush, hrest₄⟩ := Option.bind_eq_some_iff.mp hrest₃
  obtain ⟨l₄, rfl⟩ := processQueuePush_shape hpush
  refine ⟨k₁, hclose, ?_⟩
  -- the foreground moves to the parent, and the process leaves its queue
  have hfront : ∃ fg, (if parentTakesForeground k₁ p = true then
      { k₁ with isForeground := update k₁.isForeground (k₁.parent p) true } else k₁) =
        { k₁ with isForeground := fg } := by
    split
    · exact ⟨_, rfl⟩
    · exact ⟨k₁.isForeground, rfl⟩
  obtain ⟨fg, hfg⟩ := hfront
  rw [hfg] at hremove
  have hk₂ : ∃ l, k₂ = { k₁ with isForeground := fg }.relink l := by
    split at hremove
    · exact detachFromQueue_shape hremove
    · split at hremove
      · exact detachFromQueue_shape hremove
      · cases hremove
        exact ⟨⟨k₁.queueNext, k₁.queuePrev, k₁.queues⟩, rfl⟩
  obtain ⟨l₂, rfl⟩ := hk₂
  obtain ⟨hfds, hpipes, hsems⟩ := wakeWaiters_same hwake
  cases hrest₄
  split
  all_goals
    exact ⟨⟨hfds.fdType, hfds.fdPipe, hfds.allocated, hfds.current⟩,
      ⟨hpipes.pipes, hpipes.nextPipeId, hpipes.nextSemId⟩, hsems⟩

theorem FdsCounted.kill_spec (h : FdsCounted k live) (hp : k.allocated p = true)
    (heq : killProcess k p = some k') : FdsCounted k' live ∧ Closes k k' := by
  obtain ⟨k₁, hclose, hfds, hpipes, hsems⟩ := killProcess_same heq
  unfold processCloseFds at hclose
  split at hclose
  · cases hclose
    exact ⟨h.quiet hfds hpipes hsems, .of_eq hpipes.pipes⟩
  · obtain ⟨hclosed, -⟩ := h.closeFds_spec hp (fun fd hfd => List.mem_range.mp hfd) hclose
    exact ⟨hclosed.counted.quiet hfds hpipes hsems, hclosed.closes.trans (.of_eq hpipes.pipes)⟩

theorem unlinkChild_same (k : Kernel) (p : ℕ) :
    SameFds k (unlinkChild k p) ∧ SamePipes k (unlinkChild k p) ∧
      (unlinkChild k p).semaphores = k.semaphores := by
  unfold unlinkChild
  dsimp only
  split
  · exact ⟨.refl _, .refl _, rfl⟩
  · split
    · split <;> exact ⟨⟨rfl, rfl, rfl, rfl⟩, ⟨rfl, rfl, rfl⟩, rfl⟩
    · split
      · split <;> exact ⟨⟨rfl, rfl, rfl, rfl⟩, ⟨rfl, rfl, rfl⟩, rfl⟩
      · split <;> exact ⟨⟨rfl, rfl, rfl, rfl⟩, ⟨rfl, rfl, rfl⟩, rfl⟩

/-- A process without descriptors of pipes may go. -/
theorem FdsCounted.erase (h : FdsCounted k live) (hp : k.allocated p = true) (hcur : p ≠ k.current)
    (hnone : ∀ fd < maxFds, k.fdPipe p fd = none) :
    FdsCounted { k with allocated := update k.allocated p false } (live.erase p) := by
  have hends : ∀ t i, k.ends (live.erase p) t i = k.ends live t i := by
    intro t i
    have hins := ends_insert k.fdType k.fdPipe
      (Finset.notMem_erase p live) hnone t i
    rw [Finset.insert_erase ((h.mem_live p).mpr hp)] at hins
    exact hins.symm
  have hother : ∀ q, update k.allocated p false q = true ↔ q ≠ p ∧ k.allocated q = true := by
    intro q
    by_cases hqp : q = p
    · simp [hqp]
    · simp [hqp]
  refine ⟨h.tables, fun q => ?_, ?_, fun i hi hu => ?_, fun i hi hu => ?_, fun q hq => ?_⟩
  · rw [Finset.mem_erase, h.mem_live, hother]
  · refine h.current.imp_right fun hc => (hother _).mpr ⟨hcur.symm, hc⟩
  · rw [h.readers i hi hu, ← hends]
  · rw [h.writers i hi hu, ← hends]
  · exact h.points q ((hother q).mp hq).2

theorem FdsCounted.destroy_spec (h : FdsCounted k live) (hp : k.allocated p = true)
    (hcur : p ≠ k.current) (heq : processDestroy k p = some k') :
    (∃ live', FdsCounted k' live') ∧ Closes k k' := by
  unfold processDestroy at heq
  split at heq
  · cases heq
    exact ⟨⟨live, h⟩, .of_eq rfl⟩
  · rw [Option.bind_eq_bind] at heq
    obtain ⟨k₁, hclose, heq⟩ := Option.bind_eq_some_iff.mp heq
    obtain ⟨hclosed, hnone⟩ := h.closeFds_spec hp (fun fd hfd => List.mem_range.mp hfd) hclose
    obtain ⟨hfds, hpipes, hsems⟩ := unlinkChild_same k₁ p
    have hcounted := hclosed.counted.quiet hfds hpipes hsems
    cases heq
    refine ⟨⟨live.erase p, hcounted.erase ?_ ?_ fun fd hfd => ?_⟩,
      hclosed.closes.trans (.of_eq hpipes.pipes)⟩
    · rw [hfds.allocated, hclosed.allocated, hp]
    · rw [hfds.current, hclosed.current]
      exact hcur
    · rw [hfds.fdPipe]
      exact hnone fd (List.mem_range.mpr hfd)

end Calls

section Creation

/-- What taking references for the new process `p` leaves as it is. -/
structure OpenedFds (k k' : Kernel) (live : Finset ℕ) : Prop where
  counted : FdsCounted k' live
  opens : Opens k k'
  allocated : k'.allocated = k.allocated
  current : k'.current = k.current

theorem OpenedFds.refl (h : FdsCounted k live) : OpenedFds k k live := ⟨h, .of_eq rfl, rfl, rfl⟩

theorem OpenedFds.trans {k'' : Kernel} (h : OpenedFds k k' live) (h' : OpenedFds k' k'' live) :
    OpenedFds k k'' live :=
  ⟨h'.counted, h.opens.trans h'.opens, h'.allocated.trans h.allocated, h'.current.trans h.current⟩

/-- Opening an end by its identifier and entering it, if the pipe exists. -/
theorem FdsCounted.open_spec (h : FdsCounted k live) (hp : k.allocated p = true)
    (hfd : fd < maxFds) (hnone : k.fdPipe p fd = none) (id : ℕ) (isWriter : Bool) :
    ∃ r k', pipeOpenById k id isWriter = some (r, k') ∧ SameFds k k' ∧
      (r = 0 ∧ pipeGetById k id = none ∧ k' = k ∨
        r = 1 ∧ ∃ i, pipeGetById k id = some i ∧
          OpenedFds k (setFd k' p fd (if isWriter then .pipeWrite else .pipeRead) (some i)) live) := by
  obtain ⟨r, k', heq, htables, hfds, hcase⟩ := pipeOpenById_spec h.tables id isWriter
  refine ⟨r, k', heq, hfds, hcase.imp_right fun ⟨hr, i, hfind, hpipes⟩ => ⟨hr, i, hfind, ?_⟩⟩
  obtain ⟨hcounted, hopens⟩ := h.openEntry hp hfd hnone hfind htables hfds hpipes
  exact ⟨hcounted, hopens, hfds.allocated, hfds.current⟩

theorem FdsCounted.attach_spec (h : FdsCounted k live) (hp : k.allocated p = true)
    (hfd : fd < maxFds) (hnone : k.fdPipe p fd = none) (id : ℕ) (isWriter : Bool) :
    ∃ k', attachPipe k p fd id isWriter = some k' ∧ OpenedFds k k' live ∧
      (∀ q gd, (q ≠ p ∨ gd ≠ fd) → k'.fdType q gd = k.fdType q gd ∧
        k'.fdPipe q gd = k.fdPipe q gd) ∧ (id = 0 → k' = k) := by
  unfold attachPipe
  split
  · exact ⟨k, rfl, .refl h, fun _ _ _ => ⟨rfl, rfl⟩, fun _ => rfl⟩
  · rename_i hid
    split
    · exact ⟨k, rfl, .refl h, fun _ _ _ => ⟨rfl, rfl⟩, fun _ => rfl⟩
    · rename_i i hfind
      obtain ⟨r, k', heq, hfds, ⟨-, hno, -⟩ | ⟨rfl, j, hj, hopened⟩⟩ :=
        h.open_spec hp hfd hnone id isWriter
      · rw [hfind] at hno
        cases hno
      · rw [hfind, Option.some_inj] at hj
        subst hj
        rw [heq]
        refine ⟨_, by simp only [Option.bind_eq_bind, Option.bind_some, ne_eq, one_ne_zero,
          not_false_eq_true, if_true], hopened, fun q gd hne => ?_, fun h0 => absurd h0 hid⟩
        obtain ⟨htype, hpipe⟩ := setFd_other hne k' (if isWriter then .pipeWrite else .pipeRead)
          (some i)
        rw [htype, hpipe, hfds.fdType, hfds.fdPipe]
        exact ⟨rfl, rfl⟩

/-- An entry of the child is a copy of the entry of the parent, counted as another end. -/
theorem FdsCounted.inheritFd_spec {parent : ℕ} (h : FdsCounted k live) (hp : k.allocated p = true)
    (hfd : fd < maxFds) (hnone : k.fdPipe p fd = none) (hparent : k.allocated parent = true) :
    ∃ k', inheritFd k p parent fd = some k' ∧ OpenedFds k k' live ∧
      ∀ q gd, (q ≠ p ∨ gd ≠ fd) → k'.fdPipe q gd = k.fdPipe q gd := by
  have hterm : OpenedFds k (setFd k p fd .terminal none) live ∧
      ∀ q gd, (q ≠ p ∨ gd ≠ fd) → (setFd k p fd .terminal none).fdPipe q gd = k.fdPipe q gd :=
    ⟨⟨h.retype hp hfd hnone .terminal, .of_eq rfl, rfl, rfl⟩,
      fun q gd hne => (setFd_other hne k _ _).2⟩
  have hcopy : ∀ t pipe, k.fdType parent fd = t → k.fdPipe parent fd = some pipe → ∃ k',
      (if (k.pipes pipe).id = 0 then some (setFd k p fd .terminal none)
        else (pipeOpenById k (k.pipes pipe).id (t = .pipeWrite)).bind fun x =>
          some (if x.1 ≠ 0 then setFd x.2 p fd t (some pipe) else setFd x.2 p fd .terminal none)) =
        some k' ∧ OpenedFds k k' live ∧
          ∀ q gd, (q ≠ p ∨ gd ≠ fd) → k'.fdPipe q gd = k.fdPipe q gd := by
    intro t pipe ht hx
    obtain ⟨hi, hu, hne⟩ := h.points parent hparent fd hfd pipe hx
    rw [ht] at hne
    have hpos := (h.tables.bound pipe hi hu).1
    have hfind := pipeGetById_of_used h.tables hi hu
    rw [if_neg (by omega)]
    obtain ⟨r, k', heq, hfds, ⟨-, hno, -⟩ | ⟨rfl, j, hj, hopened⟩⟩ :=
      h.open_spec hp hfd hnone (k.pipes pipe).id (t = .pipeWrite)
    · rw [hfind] at hno
      cases hno
    · rw [hfind, Option.some_inj] at hj
      subst hj
      have htype : (if decide (t = .pipeWrite) = true then .pipeWrite else .pipeRead : FdType) = t := by
        cases t with
        | terminal => exact absurd rfl hne
        | pipeRead => rfl
        | pipeWrite => rfl
      rw [htype] at hopened
      rw [heq]
      refine ⟨_, by simp only [Option.bind_some, ne_eq, one_ne_zero,
        not_false_eq_true, if_true], hopened, fun q gd hne => ?_⟩
      rw [(setFd_other hne k' t (some pipe)).2, hfds.fdPipe]
  unfold inheritFd
  cases ht : k.fdType parent fd with
  | terminal => exact ⟨_, rfl, hterm⟩
  | pipeRead =>
      cases hx : k.fdPipe parent fd with
      | none => exact ⟨_, rfl, hterm⟩
      | some pipe => exact hcopy _ pipe ht hx
  | pipeWrite =>
      cases hx : k.fdPipe parent fd with
      | none => exact ⟨_, rfl, hterm⟩
      | some pipe => exact hcopy _ pipe ht hx

theorem FdsCounted.inheritFds_spec {r : SpawnRequest} {fds : List ℕ} (h : FdsCounted k live)
    (hp : k.allocated p = true) (hparent : k.allocated r.parent = true) (hnodup : fds.Nodup)
    (hfds : ∀ fd ∈ fds, fd < maxFds)
    (hnone : ∀ fd ∈ fds, ¬((fd = 0 ∧ r.stdinPipeId ≠ 0) ∨ (fd = 1 ∧ r.stdoutPipeId ≠ 0)) →
      k.fdPipe p fd = none) :
    ∃ k', inheritFds k p r fds = some k' ∧ OpenedFds k k' live := by
  induction fds generalizing k with
  | nil => exact ⟨k, rfl, .refl h⟩
  | cons fd fds ih =>
      obtain ⟨hfirst, hrest⟩ := List.nodup_cons.mp hnodup
      rw [inheritFds]
      by_cases hskip : (fd = 0 ∧ r.stdinPipeId ≠ 0) ∨ (fd = 1 ∧ r.stdoutPipeId ≠ 0)
      · obtain ⟨k', heq, hopened⟩ := ih h hp hparent hrest (fun gd hgd => hfds gd (by simp [hgd]))
          fun gd hgd => hnone gd (by simp [hgd])
        exact ⟨k', by rw [if_pos hskip]; exact heq, hopened⟩
      · obtain ⟨k₁, hfd, hopened, hother⟩ := h.inheritFd_spec hp (hfds fd (by simp))
          (hnone fd (by simp) hskip) hparent
        obtain ⟨k', heq, hopened'⟩ := ih hopened.counted (by rw [hopened.allocated]; exact hp)
          (by rw [hopened.allocated]; exact hparent) hrest (fun gd hgd => hfds gd (by simp [hgd]))
          fun gd hgd hns => by
            have hne : gd ≠ fd := fun he => hfirst (he ▸ hgd)
            rw [hother p gd (Or.inr hne)]
            exact hnone gd (by simp [hgd]) hns
        refine ⟨k', ?_, hopened.trans hopened'⟩
        rw [if_neg hskip, hfd, Option.bind_eq_bind, Option.bind_some, heq]

/-- Memory that belongs to no process may be written to. -/
theorem FdsCounted.clearPcb_spec (h : FdsCounted k live) (hfree : k.allocated p = false) :
    FdsCounted (clearPcb k p) live := by
  refine h.congr h.tables rfl rfl h.current fun q hq fd _ => ?_
  have hne : q ≠ p := by
    rintro rfl
    rw [hfree] at hq
    cases hq
  simp only [clearPcb, Function.update_of_ne hne, and_self]

/-- A new process points to no pipe. -/
theorem FdsCounted.initPcb_spec {r : SpawnRequest} (h : FdsCounted k live)
    (hfree : k.allocated r.pcb = false) :
    FdsCounted (initPcb k r) (insert r.pcb live) ∧ Opens k (initPcb k r) ∧
      ∀ fd, (initPcb k r).fdPipe r.pcb fd = none := by
  have hnone : ∀ fd, (initPcb k r).fdPipe r.pcb fd = none := by
    intro fd
    simp [initPcb, clearPcb]
  have hnot : r.pcb ∉ live := by
    rw [h.mem_live, hfree]
    decide
  have hother : ∀ q, k.allocated q = true → ∀ fd, (initPcb k r).fdType q fd = k.fdType q fd ∧
      (initPcb k r).fdPipe q fd = k.fdPipe q fd := by
    intro q hq fd
    have hne : q ≠ r.pcb := by
      rintro rfl
      rw [hfree] at hq
      cases hq
    simp only [initPcb, clearPcb, Function.update_of_ne hne, and_self]
  have hends : ∀ t i, (initPcb k r).ends (insert r.pcb live) t i = k.ends live t i := by
    intro t i
    rw [Kernel.ends, ends_insert _ _ hnot fun fd _ => hnone fd]
    exact ends_congr (fun q hq fd _ => hother q ((h.mem_live q).mp hq) fd) t i
  have halloc : ∀ q, (initPcb k r).allocated q = true ↔ q = r.pcb ∨ k.allocated q = true := by
    intro q
    by_cases hq : q = r.pcb
    · simp [initPcb, hq]
    · simp [initPcb, clearPcb, hq]
  refine ⟨⟨h.tables, fun q => ?_, ?_, fun i hi hu => ?_, fun i hi hu => ?_, fun q hq fd hfd i hx => ?_⟩,
    .of_eq rfl, hnone⟩
  · rw [Finset.mem_insert, h.mem_live, halloc]
  · exact h.current.imp_right fun hc => (halloc _).mpr (Or.inr hc)
  · rw [hends]
    exact h.readers i hi hu
  · rw [hends]
    exact h.writers i hi hu
  · rcases (halloc q).mp hq with rfl | hq
    · rw [hnone] at hx
      cases hx
    · obtain ⟨ht, hx'⟩ := hother q hq fd
      rw [hx'] at hx
      rw [ht]
      exact h.points q hq fd hfd i hx

theorem enterPcb_same (k : Kernel) (r : SpawnRequest) :
    SameFds k (enterPcb k r) ∧ SamePipes k (enterPcb k r) ∧
      (enterPcb k r).semaphores = k.semaphores := by
  unfold enterPcb linkChild
  dsimp only
  split
  · split <;> exact ⟨⟨rfl, rfl, rfl, rfl⟩, ⟨rfl, rfl, rfl⟩, rfl⟩
  · exact ⟨⟨rfl, rfl, rfl, rfl⟩, ⟨rfl, rfl, rfl⟩, rfl⟩

theorem FdsCounted.create_spec {r : SpawnRequest} (h : FdsCounted k live) (hr : ValidRequest k r) :
    ∃ q k', processCreate k r = some (q, k') ∧ (∃ live', FdsCounted k' live') ∧ Opens k k' ∧
      (q ≠ 0 → k'.allocated q = true) := by
  unfold processCreate
  split
  · exact ⟨0, k, rfl, ⟨live, h⟩, .of_eq rfl, fun hq => absurd rfl hq⟩
  split
  · exact ⟨0, k, rfl, ⟨live, h⟩, .of_eq rfl, fun hq => absurd rfl hq⟩
  rename_i hpcb
  have hfree := (hr.1 hpcb).2
  split
  · exact ⟨0, _, rfl, ⟨live, h.clearPcb_spec hfree⟩, .of_eq rfl, fun hq => absurd rfl hq⟩
  obtain ⟨hinit, hopens, hnone⟩ := h.initPcb_spec (r := r) hfree
  have hp : (initPcb k r).allocated r.pcb = true := by simp [initPcb]
  obtain ⟨k₁, hin, hopened₁, hother₁, hskip₁⟩ := hinit.attach_spec hp (show 0 < maxFds by decide)
    (hnone 0) r.stdinPipeId false
  have hp₁ : k₁.allocated r.pcb = true := by rw [hopened₁.allocated, hp]
  obtain ⟨k₂, hout, hopened₂, hother₂, hskip₂⟩ := hopened₁.counted.attach_spec hp₁
    (show 1 < maxFds by decide) (by rw [(hother₁ r.pcb 1 (Or.inr (by decide))).2, hnone]) r.stdoutPipeId true
  have hopened := hopened₁.trans hopened₂
  have hfds : ∃ k₃, (if r.parent ≠ 0 then inheritFds k₂ r.pcb r (List.range maxFds) else some k₂) =
      some k₃ ∧ OpenedFds k₂ k₃ (insert r.pcb live) := by
    split
    · rename_i hpar
      refine hopened₂.counted.inheritFds_spec (by rw [hopened₂.allocated, hp₁]) ?_ List.nodup_range
        (fun fd hfd => List.mem_range.mp hfd) fun fd _ hns => ?_
      · rw [hopened.allocated]
        simp [initPcb, clearPcb, Function.update_apply, hr.2 hpar]
      · simp only [not_or, not_and, not_not] at hns
        have h₁ : k₁.fdPipe r.pcb fd = none := by
          by_cases h0 : fd = 0
          · rw [hskip₁ (hns.1 h0), hnone]
          · rw [(hother₁ r.pcb fd (Or.inr h0)).2, hnone]
        by_cases h1 : fd = 1
        · rw [hskip₂ (hns.2 h1), h₁]
        · rw [(hother₂ r.pcb fd (Or.inr h1)).2, h₁]
    · exact ⟨k₂, rfl, .refl hopened₂.counted⟩
  obtain ⟨k₃, hinherit, hopened₃⟩ := hfds
  obtain ⟨hsame, hpipes, hsems⟩ := enterPcb_same k₃ r
  refine ⟨r.pcb, enterPcb k₃ r, ?_, ⟨_, hopened₃.counted.quiet hsame hpipes hsems⟩,
    (hopens.trans (hopened.trans hopened₃).opens).trans (.of_eq hpipes.pipes), fun _ => ?_⟩
  swap
  · rw [hsame.allocated, hopened₃.allocated, hopened.allocated, hp]
  simp only [hin, hout, hinherit, Option.bind_eq_bind, Option.bind_some]

end Creation

end SoKernel
