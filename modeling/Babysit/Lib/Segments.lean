import Mathlib.Data.List.Basic

/-! Labelled segments of a line of positions, and the windows that are cut out of them. A window
shows at each of its positions what the whole list has there, so windows that lie side by side
show together what one window over both shows. -/

/-- The start, the length and the label. -/
abbrev Segment (τ : Type*) := ℕ × ℕ × τ

namespace Segment
variable {τ : Type*}

def Covers (s : Segment τ) (i : ℕ) : Prop := s.1 ≤ i ∧ i < s.1+s.2.1

instance (s : Segment τ) (i : ℕ) : Decidable (s.Covers i) := inferInstanceAs (Decidable (_ ∧ _))

/-- The part of a segment in the window `[lo, hi)`, unless it is empty. -/
def clip (lo hi : ℕ) (s : Segment τ) : Option (Segment τ) :=
  if max s.1 lo < min (s.1+s.2.1) hi then
    some (max s.1 lo,min (s.1+s.2.1) hi - max s.1 lo,s.2.2)
  else none

variable {s t : Segment τ} {lo hi i : ℕ}

theorem clip_eq_some (h : s.clip lo hi = some t) :
    0 < t.2.1 ∧ t.1 = max s.1 lo ∧ t.1+t.2.1 = min (s.1+s.2.1) hi ∧ t.2.2 = s.2.2 := by
  rw [clip] at h
  split_ifs at h with hpart
  obtain rfl := Option.some.inj h
  refine ⟨?_,rfl,?_,rfl⟩ <;> dsimp only <;> omega

theorem clip_covers (h : s.clip lo hi = some t) :
    t.Covers i ↔ s.Covers i ∧ lo ≤ i ∧ i < hi := by
  obtain ⟨-,hstart,hstop,-⟩ := clip_eq_some h
  simp only [Covers]
  omega

theorem clip_eq_none (h : s.clip lo hi = none) : ¬(s.Covers i ∧ lo ≤ i ∧ i < hi) := by
  rw [clip] at h
  split_ifs at h
  simp only [Covers]
  omega

end Segment

namespace Segments
open Segment
variable {τ : Type*}

/-- One behind the other: sorted by their starts and without a common position. -/
def Ordered (segments : List (Segment τ)) : Prop :=
  segments.Pairwise fun s t => s.1+s.2.1 ≤ t.1

/-- No segment is empty, and all lie in `[lo, hi)`. -/
def Within (lo hi : ℕ) (segments : List (Segment τ)) : Prop :=
  ∀ s ∈ segments, 0 < s.2.1 ∧ lo ≤ s.1 ∧ s.1+s.2.1 ≤ hi

/-- What stands at a position. -/
def labelAt (segments : List (Segment τ)) (i : ℕ) : Option τ :=
  (segments.find? fun s => s.Covers i).map fun s => s.2.2

def window (lo hi : ℕ) (segments : List (Segment τ)) : List (Segment τ) :=
  segments.filterMap (Segment.clip lo hi)

variable {segments : List (Segment τ)} {lo hi i : ℕ}

theorem labelAt_cons (s : Segment τ) (segments : List (Segment τ)) (i : ℕ) :
    labelAt (s::segments) i = if s.Covers i then some s.2.2 else labelAt segments i := by
  rw [labelAt,List.find?_cons]
  by_cases h : s.Covers i <;> simp [h,labelAt]

/-- In ordered segments a position has the label of whichever segment covers it. -/
theorem labelAt_eq_some_iff (h : Ordered segments) {x : τ} :
    labelAt segments i = some x ↔ ∃ s ∈ segments, s.Covers i ∧ s.2.2 = x := by
  induction segments with
  | nil => simp [labelAt]
  | cons s segments ih =>
    obtain ⟨hfirst,hrest⟩ := List.pairwise_cons.mp h
    rw [labelAt_cons]
    split_ifs with hcovers
    · have hnone : ¬∃ t ∈ segments, t.Covers i ∧ t.2.2 = x := by
        rintro ⟨t,ht,hlater,-⟩
        have := hfirst t ht
        simp only [Covers] at hcovers hlater
        omega
      rw [Option.some.injEq,List.exists_mem_cons_iff,or_iff_left hnone]
      simp [hcovers]
    · rw [ih hrest,List.exists_mem_cons_iff]
      simp [hcovers]

theorem window_ordered (h : Ordered segments) (lo hi : ℕ) : Ordered (window lo hi segments) := by
  refine List.Pairwise.filterMap _ ?_ h
  intro s t hst s' hs t' ht
  obtain ⟨-,-,hs,-⟩ := clip_eq_some hs
  obtain ⟨-,ht,-,-⟩ := clip_eq_some ht
  omega

theorem window_within (lo hi : ℕ) (segments : List (Segment τ)) :
    Within lo hi (window lo hi segments) := by
  intro t ht
  obtain ⟨s,-,hclip⟩ := List.mem_filterMap.mp ht
  obtain ⟨hpos,hstart,hstop,-⟩ := clip_eq_some hclip
  omega

theorem labelAt_window (lo hi : ℕ) (segments : List (Segment τ)) (i : ℕ) :
    labelAt (window lo hi segments) i = if lo ≤ i ∧ i < hi then labelAt segments i else none := by
  induction segments with
  | nil => simp [labelAt,window]
  | cons s segments ih =>
    rw [window] at ih ⊢
    cases hclip : s.clip lo hi with
    | none =>
      have := clip_eq_none (i := i) hclip
      rw [List.filterMap_cons_none hclip,ih,labelAt_cons]
      split_ifs with hin hcovers <;> first | rfl | exact absurd ⟨hcovers,hin⟩ this
    | some t =>
      have hcovers := clip_covers (i := i) hclip
      obtain ⟨-,-,-,hlabel⟩ := clip_eq_some hclip
      rw [List.filterMap_cons_some hclip,labelAt_cons,labelAt_cons,ih,hlabel]
      by_cases hin : lo ≤ i ∧ i < hi <;> simp [hcovers,hin]

/-- Two windows side by side show what one window over both shows, and nothing twice. -/
theorem labelAt_window_union {mid : ℕ} (hlo : lo ≤ mid) (hhi : mid ≤ hi)
    (segments : List (Segment τ)) (i : ℕ) :
    (labelAt (window lo mid segments) i = none ∨ labelAt (window mid hi segments) i = none) ∧
      labelAt (window lo hi segments) i =
        (labelAt (window lo mid segments) i).or (labelAt (window mid hi segments) i) := by
  simp only [labelAt_window]
  rcases Nat.lt_or_ge i mid with h | h
  · rw [if_neg (by omega : ¬(mid ≤ i ∧ i < hi)),Option.or_none]
    refine ⟨.inr rfl,if_congr ?_ rfl rfl⟩
    omega
  · rw [if_neg (by omega : ¬(lo ≤ i ∧ i < mid)),Option.none_or]
    refine ⟨.inl rfl,if_congr ?_ rfl rfl⟩
    omega

end Segments
