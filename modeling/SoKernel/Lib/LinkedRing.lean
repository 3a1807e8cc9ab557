import Mathlib.Data.Finset.Card
import Mathlib.Data.List.Chain
import Mathlib.Logic.Function.Basic

/-!
# Doubly linked rings over a pointer memory

A ring is described by two successor functions `nx` and `pv` on nodes and an
anchor `s`: following `nx` from the anchor visits the represented list and comes
back to the anchor, and `pv` walks the same cycle backwards. A list head with a
`head` and a `tail` field is the same structure with the null pointer as anchor.

The update rules are stated on arbitrary new link functions that agree with the
old ones outside the written nodes, so that a program may perform its writes in
any order and may clear the links of an unlinked node.
-/

namespace LinkedRing

variable {ν : Type*} {nx pv nx' pv' : ν → ν} {s x : ν} {L A B : List ν}

/-- One forward link and the backward link that answers it. -/
def Linked (nx pv : ν → ν) (x y : ν) : Prop := nx x = y ∧ pv y = x

/-- The ring anchored at `s` represents the list `L`. -/
def Ring (nx pv : ν → ν) (s : ν) (L : List ν) : Prop :=
  s ∉ L ∧ (s :: (L ++ [s])).IsChain (Linked nx pv)

namespace Ring

theorem anchor_not_mem (h : Ring nx pv s L) : s ∉ L := h.1

@[simp] theorem nil_iff : Ring nx pv s [] ↔ nx s = s ∧ pv s = s := by
  simp [Ring, Linked]

theorem singleton_iff : Ring nx pv s [x] ↔
    s ≠ x ∧ (nx s = x ∧ pv x = s) ∧ nx x = s ∧ pv s = x := by
  simp [Ring, Linked]

/-- A ring cut at one of its nodes: the links around the node are explicit. -/
theorem split_iff : Ring nx pv s (A ++ x :: B) ↔
    s ∉ A ++ x :: B ∧ (s :: (A ++ [x])).IsChain (Linked nx pv) ∧
      (x :: (B ++ [s])).IsChain (Linked nx pv) := by
  unfold Ring
  rw [List.append_assoc, List.cons_append, List.isChain_cons_split]

/-- Only the links of the anchor and of the listed nodes matter. -/
theorem congr (h : Ring nx pv s L) (hn : ∀ y ∈ s :: L, nx' y = nx y)
    (hp : ∀ y ∈ s :: L, pv' y = pv y) : Ring nx' pv' s L := by
  refine ⟨h.1, h.2.imp_of_mem_imp ?_⟩
  have mem : ∀ y ∈ s :: (L ++ [s]), y ∈ s :: L := by
    intro y hy
    simp only [List.mem_cons, List.mem_append, List.not_mem_nil, or_false] at hy ⊢
    tauto
  rintro a b ha hb ⟨rfl, hab⟩
  exact ⟨hn a (mem a ha), (hp _ (mem _ hb)).trans hab⟩

theorem head (h : Ring nx pv s (x :: L)) : nx s = x ∧ pv x = s :=
  (List.isChain_cons_cons.mp h.2).1

/-- Following the forward link of the anchor gives the first listed node. -/
theorem nx_anchor (h : Ring nx pv s L) : nx s = L.head?.getD s := by
  cases L with
  | nil => exact (nil_iff.mp h).1
  | cons y L => exact h.head.1

/-- Following the backward link of the anchor gives the last listed node. -/
theorem pv_anchor (h : Ring nx pv s L) : pv s = L.getLast?.getD s := by
  cases L using List.reverseRecOn with
  | nil => exact (nil_iff.mp h).2
  | append_singleton L y =>
      have hy := (split_iff.mp h).2.2
      simpa using (List.isChain_cons_cons.mp hy).1.2

/-- The forward link of a node is the node listed after it, or the anchor. -/
theorem nx_node (h : Ring nx pv s (A ++ x :: B)) : nx x = B.head?.getD s := by
  have hx := (split_iff.mp h).2.2
  cases B with
  | nil => exact (List.isChain_cons_cons.mp hx).1.1
  | cons y B => exact (List.isChain_cons_cons.mp hx).1.1

/-- The backward link of a node is the node listed before it, or the anchor. -/
theorem pv_node (h : Ring nx pv s (A ++ x :: B)) : pv x = A.getLast?.getD s := by
  have hx := (split_iff.mp h).2.1
  cases A using List.reverseRecOn with
  | nil => exact (List.isChain_cons_cons.mp hx).1.2
  | append_singleton A y =>
      rw [List.append_assoc, List.singleton_append, List.isChain_cons_append_cons_cons] at hx
      simpa using hx.2.1.2

theorem nx_mem (h : Ring nx pv s L) (hx : x ∈ L) : nx x ∈ s :: L := by
  obtain ⟨A, B, rfl⟩ := List.append_of_mem hx
  rw [h.nx_node]
  cases B <;> simp

theorem pv_mem (h : Ring nx pv s L) (hx : x ∈ L) : pv x ∈ s :: L := by
  obtain ⟨A, B, rfl⟩ := List.append_of_mem hx
  rw [h.pv_node]
  cases A using List.reverseRecOn <;> simp

/-- The list after a node is determined by that node: two occurrences of one
node would be followed by the same nonempty remainder. -/
theorem suffix_unique {B' : List ν} (hB : (x :: (B ++ [s])).IsChain (Linked nx pv))
    (hB' : (x :: (B' ++ [s])).IsChain (Linked nx pv)) (hs : s ∉ B) (hs' : s ∉ B') :
    B = B' := by
  induction B generalizing x B' with
  | nil =>
      cases B' with
      | nil => rfl
      | cons y B' =>
          have h₁ := (List.isChain_cons_cons.mp hB).1.1
          have h₂ := (List.isChain_cons_cons.mp hB').1.1
          exact absurd (h₁.symm.trans h₂) (fun e => hs' (e ▸ List.mem_cons_self))
  | cons y B ih =>
      cases B' with
      | nil =>
          have h₁ := (List.isChain_cons_cons.mp hB).1.1
          have h₂ := (List.isChain_cons_cons.mp hB').1.1
          exact absurd (h₂.symm.trans h₁) (fun e => hs (e ▸ List.mem_cons_self))
      | cons z B' =>
          obtain ⟨h₁, c₁⟩ := List.isChain_cons_cons.mp hB
          obtain ⟨h₂, c₂⟩ := List.isChain_cons_cons.mp hB'
          obtain rfl : y = z := h₁.1.symm.trans h₂.1
          rw [ih c₁ c₂ (fun h => hs (List.mem_cons_of_mem _ h))
            (fun h => hs' (List.mem_cons_of_mem _ h))]

/-- The ring represents at most one list. -/
theorem unique {L' : List ν} (h : Ring nx pv s L) (h' : Ring nx pv s L') : L = L' :=
  suffix_unique h.2 h'.2 h.1 h'.1

theorem nodup_of_chain (hB : (x :: (B ++ [s])).IsChain (Linked nx pv)) (hs : s ∉ B) :
    B.Nodup := by
  induction B generalizing x with
  | nil => exact List.nodup_nil
  | cons y B ih =>
      have hy := (List.isChain_cons_cons.mp hB).2
      have hsB : s ∉ B := fun h => hs (List.mem_cons_of_mem _ h)
      refine List.nodup_cons.mpr ⟨fun hmem => ?_, ih hy hsB⟩
      obtain ⟨C, D, rfl⟩ := List.append_of_mem hmem
      have hD : (y :: (D ++ [s])).IsChain (Linked nx pv) :=
        hy.suffix ⟨y :: C, by simp⟩
      have heq := suffix_unique hy hD hsB (fun h => hsB (by simp [h]))
      have := congrArg List.length heq
      simp at this
      omega

theorem nodup (h : Ring nx pv s L) : L.Nodup := nodup_of_chain h.2 h.1

theorem nx_pv (h : Ring nx pv s L) (hx : x ∈ s :: L) : nx (pv x) = x := by
  rcases List.mem_cons.mp hx with rfl | hx
  · have hchain := h.2
    rw [← List.cons_append, List.isChain_append] at hchain
    have hlast := hchain.2.2 ((x :: L).getLast (by simp)) (by simp [List.getLast?_eq_some_getLast]) x
      (by simp)
    rw [hlast.2]
    exact hlast.1
  · obtain ⟨A, B, rfl⟩ := List.append_of_mem hx
    have hchain := (split_iff.mp h).2.1
    rw [← List.cons_append, List.isChain_append] at hchain
    have hlast := hchain.2.2 ((s :: A).getLast (by simp)) (by simp [List.getLast?_eq_some_getLast]) x
      (by simp)
    rw [hlast.2]
    exact hlast.1

theorem pv_nx (h : Ring nx pv s L) (hx : x ∈ s :: L) : pv (nx x) = x := by
  rcases List.mem_cons.mp hx with rfl | hx
  · cases L with
    | nil => rw [(nil_iff.mp h).1, (nil_iff.mp h).2]
    | cons y L => rw [h.head.1, h.head.2]
  · obtain ⟨A, B, rfl⟩ := List.append_of_mem hx
    have hchain := (split_iff.mp h).2.2
    cases B with
    | nil =>
        have hlink := (List.isChain_cons_cons.mp hchain).1
        rw [hlink.1, hlink.2]
    | cons y B =>
        have hlink := (List.isChain_cons_cons.mp hchain).1
        rw [hlink.1, hlink.2]

theorem nx_ne (h : Ring nx pv s L) (hx : x ∈ L) : nx x ≠ x := by
  obtain ⟨A, B, rfl⟩ := List.append_of_mem hx
  rw [h.nx_node]
  cases B with
  | nil => exact fun e => h.anchor_not_mem (by simp [show s = x from e])
  | cons y B =>
      have hxB := (List.nodup_cons.mp (List.nodup_append.mp h.nodup).2.1).1
      exact fun e => hxB (by simp [show y = x from e])

theorem pv_ne (h : Ring nx pv s L) (hx : x ∈ L) : pv x ≠ x := by
  intro e
  have hnx := h.nx_pv (List.mem_cons_of_mem _ hx)
  rw [e] at hnx
  exact h.nx_ne hx hnx

/-- Unlinking a node: its neighbours point past it, everything else outside the
node is unchanged. The links of the node itself are left arbitrary. -/
theorem remove (h : Ring nx pv s (A ++ x :: B)) (hn : nx' (pv x) = nx x)
    (hp : pv' (nx x) = pv x) (hnf : ∀ y, y ≠ pv x → y ≠ x → nx' y = nx y)
    (hpf : ∀ y, y ≠ nx x → y ≠ x → pv' y = pv y) : Ring nx' pv' s (A ++ B) := by
  have hxs : x ∈ s :: (A ++ x :: B) := by simp
  have hxA : x ∉ A := fun hm => (List.nodup_append.mp h.nodup).2.2 x hm x (by simp) rfl
  have hxB : x ∉ B := (List.nodup_cons.mp (List.nodup_append.mp h.nodup).2.1).1
  have hne : s ≠ x := fun e => h.anchor_not_mem (by simp [e])
  -- A link that does not touch the unlinked node is kept.
  have keep : ∀ u v, u ≠ x → v ≠ x → Linked nx pv u v → Linked nx' pv' u v := by
    rintro u v hu hv ⟨huv, hvu⟩
    have hux : u ≠ pv x := fun e => hv (huv.symm.trans (e ▸ h.nx_pv hxs))
    have hvx : v ≠ nx x := fun e => hu (hvu.symm.trans (e ▸ h.pv_nx hxs))
    exact ⟨(hnf u hux hu).trans huv, (hpf v hvx hv).trans hvu⟩
  have hleft : (s :: A).IsChain (Linked nx pv) := by
    have hfront := (split_iff.mp h).2.1
    rw [← List.cons_append] at hfront
    exact hfront.left_of_append
  have hright : (B ++ [s]).IsChain (Linked nx pv) := (split_iff.mp h).2.2.tail
  refine ⟨fun hm => h.anchor_not_mem (by simp at hm ⊢; tauto), ?_⟩
  rw [List.append_assoc, ← List.cons_append, List.isChain_append]
  refine ⟨hleft.imp_of_mem_imp ?_, hright.imp_of_mem_imp ?_, ?_⟩
  · intro u v hu hv
    exact keep u v (fun e => by subst e; simp [hne.symm, hxA] at hu)
      (fun e => by subst e; simp [hne.symm, hxA] at hv)
  · intro u v hu hv
    exact keep u v (fun e => by subst e; simp [hne.symm, hxB] at hu)
      (fun e => by subst e; simp [hne.symm, hxB] at hv)
  · intro u hu v hv
    have hu' : u = pv x := by
      rw [h.pv_node]
      simpa [List.getLast?_cons, eq_comm] using hu
    have hv' : v = nx x := by
      rw [h.nx_node]
      cases B with
      | nil => simpa [eq_comm] using hv
      | cons y B => simpa [eq_comm] using hv
    subst hu' hv'
    exact ⟨hn, hp⟩

/-- Linking a fresh node after the first part of the list: the two neighbours
point to it and it points to them, everything else is unchanged. -/
theorem insert {u v : ν} (h : Ring nx pv s (A ++ B)) (hx : x ∉ s :: (A ++ B))
    (hu : u = A.getLast?.getD s) (hv : v = B.head?.getD s)
    (hnu : nx' u = x) (hpx : pv' x = u) (hnx : nx' x = v) (hpv : pv' v = x)
    (hnf : ∀ y, y ≠ u → y ≠ x → nx' y = nx y) (hpf : ∀ y, y ≠ v → y ≠ x → pv' y = pv y) :
    Ring nx' pv' s (A ++ x :: B) := by
  simp only [List.mem_cons, List.mem_append, not_or] at hx
  obtain ⟨hxs, hxA, hxB⟩ := hx
  have hsA : s ∉ A := fun hm => h.1 (by simp [hm])
  have hsB : s ∉ B := fun hm => h.1 (by simp [hm])
  have hdis := (List.nodup_append.mp h.nodup).2.2
  have hchain := h.2
  rw [List.append_assoc, ← List.cons_append, List.isChain_append] at hchain
  obtain ⟨hleft, hright, hjoin⟩ := hchain
  have hvB : v ∈ B ++ [s] := by
    subst hv
    cases B <;> simp
  have huA : u ∈ s :: A := by
    subst hu
    cases A using List.reverseRecOn <;> simp
  have huv : Linked nx pv u v := by
    refine hjoin u ?_ v ?_
    · subst hu
      cases A using List.reverseRecOn <;> simp [List.getLast?_cons]
    · subst hv
      cases B <;> simp
  -- Every link inside the two parts avoids the place of insertion.
  have keep : ∀ p q, p ≠ x → q ≠ x → (q ≠ v ∨ p ≠ u) → Linked nx pv p q → Linked nx' pv' p q := by
    rintro p q hp hq hne ⟨hpq, hqp⟩
    have hpu : p ≠ u := by
      rintro rfl
      exact hne.elim (fun h => h (hpq.symm.trans huv.1)) (fun h => h rfl)
    have hqv : q ≠ v := by
      rintro rfl
      exact hpu (hqp.symm.trans huv.2)
    exact ⟨(hnf p hpu hp).trans hpq, (hpf q hqv hq).trans hqp⟩
  refine ⟨by simp [hsA, hsB, Ne.symm hxs], ?_⟩
  rw [List.append_assoc, List.cons_append, List.isChain_cons_split, ← List.cons_append,
    List.isChain_append]
  refine ⟨⟨hleft.imp_of_mem_tail_imp ?_, List.isChain_singleton _, ?_⟩, ?_⟩
  · intro p q hp hq hpq
    simp only [List.mem_cons, List.tail_cons] at hp hq
    refine keep p q ?_ (fun e => hxA (e ▸ hq)) (Or.inl ?_) hpq
    · rintro rfl
      exact hp.elim hxs hxA
    · rintro rfl
      rcases List.mem_append.mp hvB with hb | hb
      · exact hdis q hq q hb rfl
      · exact hsA (List.mem_singleton.mp hb ▸ hq)
  · intro p hp q hq
    obtain rfl : q = x := by simpa [eq_comm] using hq
    have : p = u := by
      subst hu
      simpa [List.getLast?_cons, eq_comm] using hp
    subst this
    exact ⟨hnu, hpx⟩
  · have hright' : (B ++ [s]).IsChain (Linked nx' pv') := by
      refine hright.imp_of_mem_tail_imp ?_
      intro p q hp hq hpq
      have hxBs : ∀ y ∈ B ++ [s], y ≠ x := by
        rintro y hy rfl
        rcases List.mem_append.mp hy with hb | hb
        · exact hxB hb
        · exact hxs (List.mem_singleton.mp hb)
      refine keep p q (hxBs p hp) (hxBs q (List.mem_of_mem_tail hq)) (Or.inl ?_) hpq
      subst hv
      cases B with
      | nil => simp at hq
      | cons y B =>
          have hy := (List.nodup_cons.mp (List.nodup_append.mp h.nodup).2.1).1
          rintro rfl
          rcases List.mem_append.mp hq with hb | hb
          · exact hy hb
          · exact hsB (by simp [← List.mem_singleton.mp hb])
    cases B with
    | nil =>
        subst hv
        simpa [Linked] using ⟨hnx, hpv⟩
    | cons y B =>
        subst hv
        exact List.isChain_cons_cons.mpr ⟨⟨hnx, hpv⟩, hright'⟩

theorem insertFront (h : Ring nx pv s L) (hx : x ∉ s :: L) (hns : nx' s = x)
    (hpx : pv' x = s) (hnx : nx' x = nx s) (hpv : pv' (nx s) = x)
    (hnf : ∀ y, y ≠ s → y ≠ x → nx' y = nx y) (hpf : ∀ y, y ≠ nx s → y ≠ x → pv' y = pv y) :
    Ring nx' pv' s (x :: L) :=
  insert (A := []) (B := L) h hx rfl h.nx_anchor hns hpx hnx hpv hnf hpf

theorem insertBack (h : Ring nx pv s L) (hx : x ∉ s :: L) (hns : nx' (pv s) = x)
    (hpx : pv' x = pv s) (hnx : nx' x = s) (hpv : pv' s = x)
    (hnf : ∀ y, y ≠ pv s → y ≠ x → nx' y = nx y) (hpf : ∀ y, y ≠ s → y ≠ x → pv' y = pv y) :
    Ring nx' pv' s (L ++ [x]) :=
  insert (A := L) (B := []) (by simpa using h) (by simpa using hx) h.pv_anchor rfl
    hns hpx hnx hpv hnf hpf

end Ring

section Walk

variable [DecidableEq ν]

/-- The loop that starts at a node and follows forward links until the anchor, or
a node that satisfies `p`, is met. Without fuel left the loop is reported as not
terminating; otherwise the result is the node found, if any. -/
def walkFind (nx : ν → ν) (s : ν) (p : ν → Bool) : Nat → ν → Option (Option ν)
  | 0, _ => none
  | n + 1, y => if y = s then some none else if p y then some (some y) else walkFind nx s p n (nx y)

theorem walkFind_of_chain {p : ν → Bool} {n : Nat}
    (h : (x :: (B ++ [s])).IsChain (Linked nx pv)) (hs : s ∉ B) (hn : B.length < n) :
    walkFind nx s p n (nx x) = some (B.find? p) := by
  induction B generalizing x n with
  | nil =>
      obtain ⟨n, rfl⟩ := Nat.exists_eq_add_of_lt hn
      simp [walkFind, (List.isChain_cons_cons.mp h).1.1]
  | cons y B ih =>
      obtain ⟨n, rfl⟩ : ∃ m, n = m + 1 := ⟨n - 1, by omega⟩
      obtain ⟨hxy, hy⟩ := List.isChain_cons_cons.mp h
      have hne : y ≠ s := fun e => hs (by simp [e])
      have hrest := ih hy (fun hm => hs (List.mem_cons_of_mem _ hm)) (by simpa using hn)
      rw [hxy.1, walkFind, if_neg hne, List.find?_cons]
      by_cases hp : p y = true
      · simp [hp]
      · simpa [hp] using hrest

/-- With more fuel than nodes, the loop over a ring terminates and finds the first
listed node with the property. -/
theorem Ring.walkFind {p : ν → Bool} {n : Nat} (h : Ring nx pv s L) (hn : L.length < n) :
    walkFind nx s p n (nx s) = some (L.find? p) :=
  walkFind_of_chain h.2 h.1 hn

/-- A walk that finds a node meets none of the nodes of a region that has no way out. So it finds
the node too when the links differ in the region only. -/
theorem walkFind_of_outside {nx nx' : ν → ν} {s : ν} {p : ν → Bool} {S : ν → Prop} {n : Nat} {y x : ν}
    (hS : ∀ a, S a → p a = false) (hclosed : ∀ a, S a → nx' a = s ∨ S (nx' a))
    (hsame : ∀ a, ¬S a → nx' a = nx a) (h : walkFind nx' s p n y = some (some x)) :
    walkFind nx s p n y = some (some x) := by
  have hlost : ∀ m z, S z → walkFind nx' s p m z ≠ some (some x) := by
    intro m
    induction m with
    | zero => simp [walkFind]
    | succ m ih =>
        intro z hz
        rw [walkFind, hS z hz]
        by_cases hzs : z = s
        · simp [hzs]
        · rw [if_neg hzs, if_neg (by simp)]
          rcases hclosed z hz with hend | hin
          · rw [hend]
            cases m <;> simp [walkFind]
          · exact ih _ hin
  induction n generalizing y with
  | zero => cases h
  | succ n ih =>
      have hy : ¬S y := fun hy => hlost _ y hy h
      rw [walkFind] at h ⊢
      rw [hsame y hy] at h
      split
      · rename_i hys
        rw [if_pos hys] at h
        exact h
      · rename_i hys
        rw [if_neg hys] at h
        split
        · rename_i hp
          rw [if_pos hp] at h
          exact h
        · rename_i hp
          rw [if_neg hp] at h
          exact ih h

/-- The loop that updates a value at every node until the anchor is met. -/
def walkFold {α : Type*} (nx : ν → ν) (s : ν) (f : α → ν → α) : Nat → ν → α → Option α
  | 0, _, _ => none
  | n + 1, y, a => if y = s then some a else walkFold nx s f n (nx y) (f a y)

theorem walkFold_of_chain {α : Type*} {f : α → ν → α} {n : Nat} {a : α}
    (h : (x :: (B ++ [s])).IsChain (Linked nx pv)) (hs : s ∉ B) (hn : B.length < n) :
    walkFold nx s f n (nx x) a = some (B.foldl f a) := by
  induction B generalizing x n a with
  | nil =>
      obtain ⟨n, rfl⟩ := Nat.exists_eq_add_of_lt hn
      simp [walkFold, (List.isChain_cons_cons.mp h).1.1]
  | cons y B ih =>
      obtain ⟨n, rfl⟩ : ∃ m, n = m + 1 := ⟨n - 1, by omega⟩
      obtain ⟨hxy, hy⟩ := List.isChain_cons_cons.mp h
      have hne : y ≠ s := fun e => hs (by simp [e])
      rw [hxy.1, walkFold, if_neg hne, List.foldl_cons]
      exact ih hy (fun hm => hs (List.mem_cons_of_mem _ hm)) (by simpa using hn)

/-- With more fuel than nodes, the loop over a ring visits the listed nodes in order. -/
theorem Ring.walkFold {α : Type*} {f : α → ν → α} {n : Nat} {a : α} (h : Ring nx pv s L)
    (hn : L.length < n) : walkFold nx s f n (nx s) a = some (L.foldl f a) :=
  walkFold_of_chain h.2 h.1 hn

/-- The walk never follows the link of the anchor. -/
theorem walkFind_update (nx : ν → ν) (s v : ν) (p : ν → Bool) (n : Nat) (y : ν) :
    walkFind (Function.update nx s v) s p n y = walkFind nx s p n y := by
  induction n generalizing y with
  | zero => rfl
  | succ n ih =>
      rw [LinkedRing.walkFind, LinkedRing.walkFind, ih]
      by_cases hy : y = s
      · rw [if_pos hy, if_pos hy]
      · rw [if_neg hy, if_neg hy, Function.update_of_ne hy]

theorem walkFold_update {α : Type*} (nx : ν → ν) (s v : ν) (f : α → ν → α) (n : Nat) (y : ν) (a : α) :
    walkFold (Function.update nx s v) s f n y a = walkFold nx s f n y a := by
  induction n generalizing y a with
  | zero => rfl
  | succ n ih =>
      rw [LinkedRing.walkFold, LinkedRing.walkFold, ih]
      by_cases hy : y = s
      · rw [if_pos hy, if_pos hy]
      · rw [if_neg hy, if_neg hy, Function.update_of_ne hy]

end Walk

/-- Fewer nonzero numbers than numbers below a bound fit into a list without repetition. -/
theorem length_lt_of_nodup {L : List ℕ} {n : ℕ} (hnodup : L.Nodup) (h0 : 0 ∉ L)
    (hL : ∀ x ∈ L, x < n) (hn : 0 < n) : L.length < n := by
  have hsub : (0 :: L).toFinset ⊆ Finset.range n := by
    intro x hx
    rcases List.mem_cons.mp (List.mem_toFinset.mp hx) with rfl | hx
    · exact Finset.mem_range.mpr hn
    · exact Finset.mem_range.mpr (hL x hx)
  have hcard := Finset.card_le_card hsub
  rw [List.toFinset_card_of_nodup (List.nodup_cons.mpr ⟨h0, hnodup⟩),
    Finset.card_range, List.length_cons] at hcard
  omega

/-- Fewer nodes than numbers below a bound fit into a ring anchored at `0`. -/
theorem Ring.length_lt {nx pv : ℕ → ℕ} {L : List ℕ} {n : ℕ} (h : Ring nx pv 0 L)
    (hL : ∀ x ∈ L, x < n) (hn : 0 < n) : L.length < n :=
  length_lt_of_nodup h.nodup h.anchor_not_mem hL hn

end LinkedRing
