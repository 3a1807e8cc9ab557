import Mathlib.Data.List.Nodup
import Mathlib.Logic.Function.Basic

/-!
# Singly linked lists over a pointer memory

A chain is described by a successor function `nx` and a null node: following `nx` from
the first node visits the represented list and ends at the null node. A queue is a chain
with a second pointer to the last node.
-/

namespace LinkedList

open Function (update)

variable {ν : Type*} {nx nx' : ν → ν} {null h x : ν} {L L' A B : List ν}

/-- Following `nx` from `h` visits the nodes of `L` and then ends. -/
def Chain (nx : ν → ν) (null : ν) : ν → List ν → Prop
  | h, [] => h = null
  | h, x :: L => h = x ∧ x ≠ null ∧ Chain nx null (nx x) L

namespace Chain

@[simp] theorem nil_iff : Chain nx null h [] ↔ h = null := Iff.rfl

@[simp] theorem cons_iff :
    Chain nx null h (x :: L) ↔ h = x ∧ x ≠ null ∧ Chain nx null (nx x) L := Iff.rfl

theorem ne_null (hc : Chain nx null h L) (hx : x ∈ L) : x ≠ null := by
  induction L generalizing h with
  | nil => cases hx
  | cons y L ih =>
      rcases List.mem_cons.mp hx with rfl | hx
      · exact hc.2.1
      · exact ih hc.2.2 hx

/-- Only the links of the listed nodes matter. -/
theorem congr (hc : Chain nx null h L) (hn : ∀ y ∈ L, nx' y = nx y) : Chain nx' null h L := by
  induction L generalizing h with
  | nil => exact hc
  | cons y L ih =>
      obtain ⟨rfl, hy, hrest⟩ := hc
      refine ⟨rfl, hy, ?_⟩
      rw [hn h List.mem_cons_self]
      exact ih hrest fun z hz => hn z (List.mem_cons_of_mem _ hz)

/-- The first node determines the list. -/
theorem unique (hc : Chain nx null h L) (hc' : Chain nx null h L') : L = L' := by
  induction L generalizing h L' with
  | nil =>
      cases L' with
      | nil => rfl
      | cons y L' => exact absurd (hc'.1.symm.trans hc) hc'.2.1
  | cons x L ih =>
      cases L' with
      | nil => exact absurd (hc.1.symm.trans hc') hc.2.1
      | cons y L' =>
          obtain ⟨rfl, -, hrest⟩ := hc
          obtain ⟨rfl, -, hrest'⟩ := hc'
          rw [ih hrest hrest']

theorem head_eq (hc : Chain nx null h L) : h = L.head?.getD null := by
  cases L with
  | nil => exact hc
  | cons x L => exact hc.1

/-- The chain behind a node of the list. -/
theorem after (hc : Chain nx null h (A ++ x :: B)) : Chain nx null (nx x) B := by
  induction A generalizing h with
  | nil => exact hc.2.2
  | cons y A ih => exact ih hc.2.2

theorem next_mem (hc : Chain nx null h L) (hx : x ∈ L) : nx x = null ∨ nx x ∈ L := by
  obtain ⟨A, B, rfl⟩ := List.append_of_mem hx
  have hnext := hc.after.head_eq
  cases B with
  | nil => exact Or.inl hnext
  | cons y B =>
      right
      rw [hnext]
      simp

theorem nodup (hc : Chain nx null h L) : L.Nodup := by
  induction L generalizing h with
  | nil => exact List.nodup_nil
  | cons x L ih =>
      refine List.nodup_cons.mpr ⟨fun hmem => ?_, ih hc.2.2⟩
      obtain ⟨A, B, rfl⟩ := List.append_of_mem hmem
      have heq := hc.2.2.unique (after hc.2.2)
      have := congrArg List.length heq
      simp at this
      omega

/-- No node links back to the first one. -/
theorem next_ne_head (hc : Chain nx null h (x :: L)) {y : ν} (hy : y ∈ x :: L) : nx y ≠ x := by
  intro heq
  obtain ⟨A, B, hAB⟩ := List.append_of_mem hy
  have hafter := (hAB ▸ hc).after
  rw [heq, hc.1.symm] at hafter
  have hlen := congrArg List.length (hc.unique hafter)
  have := congrArg List.length hAB
  simp at hlen this
  omega

end Chain

/-- A chain with a pointer to its last node, which is null for the empty list. -/
structure Queue (nx : ν → ν) (null head tail : ν) (L : List ν) : Prop where
  chain : Chain nx null head L
  tail_eq : tail = L.getLast?.getD null

namespace Queue

variable {head tail : ν}

theorem congr (hq : Queue nx null head tail L) (hn : ∀ y ∈ L, nx' y = nx y) :
    Queue nx' null head tail L :=
  ⟨hq.chain.congr hn, hq.tail_eq⟩

theorem head_eq_null (hq : Queue nx null head tail L) : head = null ↔ L = [] := by
  refine ⟨fun hh => ?_, fun hL => ?_⟩
  · cases L with
    | nil => rfl
    | cons x L => exact absurd (hq.chain.1.symm.trans hh) hq.chain.2.1
  · subst hL
    exact hq.chain

variable [DecidableEq ν]

/-- Taking the first node: the rest of the queue does not depend on its link. -/
theorem dequeue (hq : Queue nx null head tail (x :: L)) :
    Queue (update nx x null) null (nx x) (if nx x = null then null else tail) L := by
  have hnodup := List.nodup_cons.mp hq.chain.nodup
  have hrest : Chain nx null (nx x) L := hq.chain.2.2
  refine ⟨hrest.congr fun y hy => ?_, ?_⟩
  · have hne : y ≠ x := fun e => hnodup.1 (e ▸ hy)
    rw [Function.update_of_ne hne]
  cases L with
  | nil =>
      rw [if_pos (Chain.nil_iff.mp hrest), List.getLast?_nil, Option.getD_none]
  | cons y L =>
      rw [if_neg (hrest.1 ▸ hrest.2.1), hq.tail_eq, List.getLast?_cons_cons]

theorem append_chain (hc : Chain nx null head (A ++ [x])) {y : ν} (hy : y ≠ null)
    (hyA : y ∉ A ++ [x]) (hny : nx y = null) :
    Chain (update nx x y) null head (A ++ [x] ++ [y]) := by
  induction A generalizing head with
  | nil =>
      obtain ⟨rfl, hx, -⟩ := hc
      have hne : y ≠ head := fun e => hyA (by simp [e])
      exact ⟨rfl, hx, by simp, hy, by simpa [hne] using hny⟩
  | cons z A ih =>
      obtain ⟨rfl, hz, hrest⟩ := hc
      have hhx : head ≠ x := by
        rintro rfl
        have hsame := hrest.after
        have := hsame.unique hrest
        simp at this
      refine ⟨rfl, hz, ?_⟩
      rw [Function.update_of_ne hhx]
      exact ih hrest fun hm => hyA (List.mem_cons_of_mem _ hm)

/-- Adding a node behind the last one. -/
theorem enqueue (hq : Queue nx null head tail L) (hx : x ≠ null) (hxL : x ∉ L)
    (hnx : nx x = null) (hL : L ≠ []) :
    Queue (update nx tail x) null head x (L ++ [x]) := by
  obtain ⟨A, z, rfl⟩ := List.eq_nil_or_concat' L |>.resolve_left hL
  have htail : tail = z := by simpa using hq.tail_eq
  subst htail
  refine ⟨append_chain hq.chain hx hxL hnx, by simp⟩

end Queue
end LinkedList
