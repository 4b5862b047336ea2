import Mathlib.Data.List.Basic
import Mathlib.Data.List.Nodup

/-! Sequences whose items carry the label of their writer, and those that are made of whole
blocks, one for each of several labels. -/
namespace Labelled
variable {ι α : Type*}

/-- A block of one writer. -/
def label (i : ι) (xs : List α) : List (ι × α) := xs.map (Prod.mk i)

/-- The blocks of the writers, in this order. -/
def blocks (f : ι → List α) (order : List ι) : List (ι × α) :=
  order.flatMap fun i => label i (f i)

@[simp] theorem label_nil (i : ι) : label i ([] : List α) = [] := rfl

theorem label_append (i : ι) (xs ys : List α) : label i (xs++ys) = label i xs ++ label i ys :=
  List.map_append

@[simp] theorem blocks_nil (f : ι → List α) : blocks f [] = [] := rfl

theorem blocks_snoc (f : ι → List α) (order : List ι) (i : ι) :
    blocks f (order++[i]) = blocks f order ++ label i (f i) := by
  simp [blocks]

/-- Blocks that no listed writer changes. -/
theorem blocks_congr {f g : ι → List α} {order : List ι} (h : ∀ i ∈ order, f i = g i) :
    blocks f order = blocks g order := by
  induction order with
  | nil => rfl
  | cons i order ih =>
    have htail := ih fun j hj => h j (List.mem_cons_of_mem i hj)
    unfold blocks at htail ⊢
    rw [List.flatMap_cons,List.flatMap_cons,htail,h i List.mem_cons_self]

/-- The last item of a sequence that ends with a block is its writer's. -/
theorem eq_of_append_label {i j : ι} {xs ys : List (ι × α)} {us vs : List α} (hus : us ≠ [])
    (hvs : vs ≠ []) (h : xs ++ label i us = ys ++ label j vs) : i = j := by
  obtain ⟨us,u,rfl⟩ := List.eq_nil_or_concat us |>.resolve_left hus
  obtain ⟨vs,v,rfl⟩ := List.eq_nil_or_concat vs |>.resolve_left hvs
  rw [List.concat_eq_append,List.concat_eq_append,label_append,label_append,
    ← List.append_assoc,← List.append_assoc] at h
  have hlast := (List.append_inj' h rfl).2
  exact congrArg Prod.fst (List.cons.inj hlast).1

section Own
variable [DecidableEq ι]

/-- What one writer has written. -/
def own (i : ι) (xs : List (ι × α)) : List α := (xs.filter (·.1 = i)).map Prod.snd

@[simp] theorem own_nil (i : ι) : own i ([] : List (ι × α)) = [] := rfl

theorem own_append (i : ι) (xs ys : List (ι × α)) : own i (xs++ys) = own i xs ++ own i ys := by
  simp [own]

@[simp] theorem own_label (i : ι) (xs : List α) : own i (label i xs) = xs := by
  induction xs with
  | nil => rfl
  | cons x xs ih =>
    have hcons : own i (label i (x::xs)) = x :: own i (label i xs) := by simp [own,label]
    rw [hcons,ih]

theorem own_label_ne {i j : ι} (h : j ≠ i) (xs : List α) : own i (label j xs) = [] := by
  unfold own label
  rw [List.filter_eq_nil_iff.mpr]
  · rfl
  · intro x hx
    obtain ⟨y,-,rfl⟩ := List.mem_map.mp hx
    simpa using h

/-- A writer without a block has written nothing. -/
theorem own_blocks_of_not_mem {f : ι → List α} {order : List ι} {i : ι} (h : i ∉ order) :
    own i (blocks f order) = [] := by
  induction order with
  | nil => rfl
  | cons j order ih =>
    obtain ⟨hne,hmem⟩ := not_or.mp (mt List.mem_cons.mpr h)
    have htail := ih hmem
    unfold blocks at htail ⊢
    rw [List.flatMap_cons,own_append,htail,own_label_ne (Ne.symm hne),List.append_nil]

/-- A writer with one block has written that block. -/
theorem own_blocks_of_mem {f : ι → List α} {order : List ι} (hnodup : order.Nodup) {i : ι}
    (h : i ∈ order) : own i (blocks f order) = f i := by
  induction order with
  | nil => cases h
  | cons j order ih =>
    obtain ⟨hnot,hnodup⟩ := List.nodup_cons.mp hnodup
    have hcons : blocks f (j::order) = label j (f j) ++ blocks f order := by simp [blocks]
    rw [hcons,own_append]
    rcases List.mem_cons.mp h with rfl | hmem
    · rw [own_label,own_blocks_of_not_mem hnot,List.append_nil]
    · have hne : j ≠ i := fun he => hnot (he ▸ hmem)
      rw [own_label_ne hne,ih hnodup hmem,List.nil_append]

end Own
end Labelled
