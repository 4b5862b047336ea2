import Mathlib.Data.List.Basic

/-! Splitting a list at separators: at two kinds of them one after the other, and after other
items have been filtered out; and the last item of a list with a property. -/
namespace Splits
variable {α : Type*} {p q keep : α → Bool} {xs : List α}

theorem splitOnP_congr (h : ∀ x ∈ xs, p x = q x) : xs.splitOnP p = xs.splitOnP q := by
  induction xs with
  | nil => rfl
  | cons x xs ih =>
    obtain ⟨hx,hxs⟩ := List.forall_mem_cons.mp h
    rw [List.splitOnP_cons_eq_if_modifyHead,List.splitOnP_cons_eq_if_modifyHead,hx,ih hxs]

/-- To split at both kinds of separators is to split the pieces of one kind at the other. -/
theorem splitOnP_or (p q : α → Bool) (xs : List α) :
    xs.splitOnP (fun x => p x || q x) = (xs.splitOnP p).flatMap fun ys => ys.splitOnP q := by
  induction xs with
  | nil => rfl
  | cons x xs ih =>
    obtain ⟨y,ys,hys⟩ := List.exists_cons_of_ne_nil (List.splitOnP_ne_nil p xs)
    obtain ⟨z,zs,hzs⟩ := List.exists_cons_of_ne_nil (List.splitOnP_ne_nil q y)
    rw [List.splitOnP_cons_eq_if_modifyHead,List.splitOnP_cons_eq_if_modifyHead,ih,hys]
    cases hp : p x with
    | true => rfl
    | false =>
      simp only [Bool.false_or,Bool.false_eq_true,if_false,List.modifyHead_cons,
        List.flatMap_cons,List.splitOnP_cons_eq_if_modifyHead (p := q) x y,hzs]
      cases q x <;> rfl

/-- What is filtered out is none of the separators. -/
theorem splitOnP_filter (h : ∀ x, p x = true → keep x = true) (xs : List α) :
    (xs.filter keep).splitOnP p = (xs.splitOnP p).map (List.filter keep) := by
  induction xs with
  | nil => rfl
  | cons x xs ih =>
    obtain ⟨y,ys,hys⟩ := List.exists_cons_of_ne_nil (List.splitOnP_ne_nil p xs)
    rw [List.splitOnP_cons_eq_if_modifyHead (p := p) x xs,List.filter_cons]
    cases hkeep : keep x with
    | false =>
      have hp : p x = false := by
        by_contra hp
        rw [h x (eq_true_of_ne_false hp)] at hkeep
        cases hkeep
      simp [hp,ih,hys,hkeep]
    | true =>
      rw [if_pos rfl,List.splitOnP_cons_eq_if_modifyHead,ih,hys]
      cases p x <;> simp [hkeep]

theorem flatten_splitOnP (p : α → Bool) (xs : List α) :
    (xs.splitOnP p).flatten = xs.filter fun x => !p x := by
  induction xs with
  | nil => rfl
  | cons x xs ih =>
    obtain ⟨y,ys,hys⟩ := List.exists_cons_of_ne_nil (List.splitOnP_ne_nil p xs)
    rw [List.splitOnP_cons_eq_if_modifyHead,List.filter_cons]
    rw [hys,List.flatten_cons] at ih
    cases hp : p x <;> simp [hys,← ih]

theorem mem_of_mem_splitOnP {ys : List α} {x : α} (hys : ys ∈ xs.splitOnP p) (hx : x ∈ ys) :
    x ∈ xs := by
  have hflat : x ∈ (xs.splitOnP p).flatten := List.mem_flatten_of_mem hys hx
  rw [flatten_splitOnP] at hflat
  exact List.mem_of_mem_filter hflat

/-- What is not a separator stands in a piece. -/
theorem exists_mem_splitOnP {x : α} (hx : x ∈ xs) (hp : p x = false) :
    ∃ ys ∈ xs.splitOnP p, x ∈ ys := by
  have hflat : x ∈ (xs.splitOnP p).flatten := by
    rw [flatten_splitOnP]
    exact List.mem_filter.mpr ⟨hx,by rw [hp]; rfl⟩
  exact List.mem_flatten.mp hflat

/-- The last item with the property. -/
def lastWith (p : α → Bool) (xs : List α) : Option α := xs.reverse.find? p

theorem lastWith_eq_none : lastWith p xs = none ↔ ∀ x ∈ xs, p x = false := by
  simp [lastWith]

theorem lastWith_eq_some {x : α} : lastWith p xs = some x ↔
    p x = true ∧ ∃ before after, xs = before ++ x :: after ∧ ∀ y ∈ after, p y = false := by
  rw [lastWith,List.find?_eq_some_iff_append]
  refine and_congr_right fun _ => ?_
  constructor
  · rintro ⟨after,before,hxs,hafter⟩
    refine ⟨before.reverse,after.reverse,?_,fun y hy => ?_⟩
    · rw [← List.reverse_reverse xs,hxs]
      simp
    · simpa using hafter y (List.mem_reverse.mp hy)
  · rintro ⟨before,after,rfl,hafter⟩
    refine ⟨after.reverse,before.reverse,by simp,fun y hy => ?_⟩
    simpa using hafter y (List.mem_reverse.mp hy)

theorem lastWith_append (p : α → Bool) (xs ys : List α) :
    lastWith p (xs++ys) = (lastWith p ys).or (lastWith p xs) := by
  rw [lastWith,List.reverse_append,List.find?_append]
  rfl

theorem lastWith_map {β : Type*} (p : β → Bool) (f : α → β) (xs : List α) :
    lastWith p (xs.map f) = (lastWith (fun x => p (f x)) xs).map f := by
  rw [lastWith,← List.map_reverse,List.find?_map]
  rfl

end Splits
