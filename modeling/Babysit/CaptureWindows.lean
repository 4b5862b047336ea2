import Babysit.CaptureRows
import Babysit.Lib.Segments

/-! `clip_capture_rows` on a sidecar with anything in it. Which rows are accepted does not depend
on the window, so a reader that polls sees the times that one large read sees. -/
namespace Babysit
open Segments

/-- The rows that are not skipped. -/
def acceptedRows : ℕ → List CaptureRow → List CaptureRow
  | _, [] => []
  | previousEnd, (start,length,time)::rows =>
    if U64_MAX < start+length ∨ length = 0 ∨ start < previousEnd then acceptedRows previousEnd rows
    else (start,length,time) :: acceptedRows (start+length) rows

theorem clipRows_eq_window (lo hi previousEnd : ℕ) (rows : List CaptureRow) :
    clipRows lo hi previousEnd rows = window lo hi (acceptedRows previousEnd rows) := by
  induction rows generalizing previousEnd with
  | nil => rfl
  | cons row rows ih =>
    obtain ⟨start,length,time⟩ := row
    rw [clipRows,acceptedRows]
    by_cases hskip : U64_MAX < start+length ∨ length = 0 ∨ start < previousEnd
    · rw [if_pos hskip,if_pos hskip,ih]
    · rw [if_neg hskip,if_neg hskip,window,List.filterMap_cons,Segment.clip]
      split_ifs with hpart <;> rw [ih] <;> rfl

theorem le_of_mem_acceptedRows {previousEnd : ℕ} {rows : List CaptureRow} {row : CaptureRow}
    (h : row ∈ acceptedRows previousEnd rows) : previousEnd ≤ row.1 := by
  induction rows generalizing previousEnd with
  | nil => cases h
  | cons first rows ih =>
    obtain ⟨start,length,time⟩ := first
    rw [acceptedRows] at h
    split_ifs at h with hskip
    · exact ih h
    · rcases List.mem_cons.mp h with rfl | h
      · dsimp only
        omega
      · have := ih h
        omega

theorem acceptedRows_ordered (previousEnd : ℕ) (rows : List CaptureRow) :
    Ordered (acceptedRows previousEnd rows) := by
  induction rows generalizing previousEnd with
  | nil => exact .nil
  | cons row rows ih =>
    obtain ⟨start,length,time⟩ := row
    rw [acceptedRows]
    split_ifs with hskip
    · exact ih previousEnd
    · exact .cons (fun _ h => le_of_mem_acceptedRows h) (ih (start+length))

theorem clipCaptureRows_eq_window (parse : List Char → Option CaptureRow) (text : List Char)
    (lo hi : ℕ) : clipCaptureRows parse text lo hi =
      window lo hi (acceptedRows 0 ((Lines.lines text).filterMap parse)) := by
  rw [clipCaptureRows,clipLines_eq,clipRows_eq_window]

/-- Whatever is in the sidecar, the rows of a window are sorted, disjoint, not empty and inside
it, a byte has the time of the row that covers it, and two windows side by side have between
them the times that one window over both has. -/
theorem capture_windows_agree (parse : List Char → Option CaptureRow) (text : List Char)
    (a b c : ℕ) (hab : a ≤ b) (hbc : b ≤ c) :
    (Ordered (clipCaptureRows parse text a c) ∧ Within a c (clipCaptureRows parse text a c)) ∧
      (∀ i time, labelAt (clipCaptureRows parse text a c) i = some time ↔
        ∃ row ∈ clipCaptureRows parse text a c, Segment.Covers row i ∧ row.2.2 = time) ∧
      ∀ i, (labelAt (clipCaptureRows parse text a b) i = none ∨
          labelAt (clipCaptureRows parse text b c) i = none) ∧
        labelAt (clipCaptureRows parse text a c) i =
          (labelAt (clipCaptureRows parse text a b) i).or
            (labelAt (clipCaptureRows parse text b c) i) := by
  simp only [clipCaptureRows_eq_window]
  have hordered := window_ordered (acceptedRows_ordered 0 ((Lines.lines text).filterMap parse)) a c
  exact ⟨⟨hordered,window_within a c _⟩,fun i time => labelAt_eq_some_iff hordered,
    labelAt_window_union hab hbc _⟩

/-- Overlapping, torn and plain rows. -/
def junkSidecar : List Char :=
  rowText (5,9,7) ++ '\n' :: rowText (8,4,1) ++ ['\n','[','3','\n'] ++ rowText (15,2,9)

theorem capture_windows_agree_junk :
    (Ordered (clipCaptureRows plainRows.parse junkSidecar 2 20) ∧
        Within 2 20 (clipCaptureRows plainRows.parse junkSidecar 2 20)) ∧
      (∀ i time, labelAt (clipCaptureRows plainRows.parse junkSidecar 2 20) i = some time ↔
        ∃ row ∈ clipCaptureRows plainRows.parse junkSidecar 2 20,
          Segment.Covers row i ∧ row.2.2 = time) ∧
      ∀ i, (labelAt (clipCaptureRows plainRows.parse junkSidecar 2 10) i = none ∨
          labelAt (clipCaptureRows plainRows.parse junkSidecar 10 20) i = none) ∧
        labelAt (clipCaptureRows plainRows.parse junkSidecar 2 20) i =
          (labelAt (clipCaptureRows plainRows.parse junkSidecar 2 10) i).or
            (labelAt (clipCaptureRows plainRows.parse junkSidecar 10 20) i) :=
  capture_windows_agree plainRows.parse junkSidecar 2 10 20 (by decide) (by decide)

end Babysit
