import Mathlib.Data.List.Basic
import Mathlib.Tactic.Common

/-! Append-only sequences read by offset. `HoldsAt log o d` says that `d` stands in the log
at offset `o`; it survives every append. A list of positioned pieces that follow one
another from a start is one contiguous run of the log. -/
namespace AppendLog
variable {α : Type*}

/-- The piece stands in the log at this offset. -/
def HoldsAt (log : List α) (offset : ℕ) (data : List α) : Prop := data <+: log.drop offset

/-- The part of the log from one offset to another. -/
def slice (log : List α) (start stop : ℕ) : List α := (log.drop start).take (stop-start)

theorem HoldsAt.append {log data : List α} {o : ℕ} (h : HoldsAt log o data) (more : List α) :
    HoldsAt (log++more) o data := by
  unfold HoldsAt at h ⊢
  rw [List.drop_append]
  exact h.trans (List.prefix_append _ _)

theorem holdsAt_end (log data : List α) : HoldsAt (log++data) log.length data := by
  simp [HoldsAt]

theorem holdsAt_drop (log : List α) (o : ℕ) : HoldsAt log o (log.drop o) := List.prefix_rfl

theorem holdsAt_slice (log : List α) (start stop : ℕ) :
    HoldsAt log start (slice log start stop) := List.take_prefix _ _

theorem HoldsAt.eq_slice {log data : List α} {o : ℕ} (h : HoldsAt log o data) :
    data = slice log o (o+data.length) := by
  rw [slice,Nat.add_sub_cancel_left]
  exact List.prefix_iff_eq_take.mp h

theorem HoldsAt.le_length {log data : List α} {o : ℕ} (h : HoldsAt log o data)
    (ho : o ≤ log.length) : o+data.length ≤ log.length := by
  have := h.length_le
  rw [List.length_drop] at this
  omega

/-- Two pieces that follow each other are one piece. -/
theorem HoldsAt.concat {log d e : List α} {o : ℕ} (hd : HoldsAt log o d)
    (he : HoldsAt log (o+d.length) e) : HoldsAt log o (d++e) := by
  obtain ⟨r,hr⟩ := hd
  unfold HoldsAt at he
  rw [← List.drop_drop,← hr,List.drop_left] at he
  unfold HoldsAt
  rw [← hr]
  exact (List.prefix_append_right_inj d).mpr he

/-- A piece in two parts stands there part by part. -/
theorem HoldsAt.parts {log d e : List α} {o : ℕ} (h : HoldsAt log o (d++e)) :
    HoldsAt log o d ∧ HoldsAt log (o+d.length) e := by
  obtain ⟨r,hr⟩ := h
  refine ⟨⟨e++r,by rw [← hr,List.append_assoc]⟩,r,?_⟩
  rw [← List.drop_drop,← hr,List.append_assoc,List.drop_left]

/-- A piece that begins inside another and reaches as far begins with the end of that one. -/
theorem HoldsAt.overlap {log d e : List α} {o p : ℕ} (hd : HoldsAt log o d) (he : HoldsAt log p e)
    (hop : o ≤ p) (hp : p ≤ o+d.length) (hend : o+d.length ≤ p+e.length) :
    ∃ before u more, d = before++u ∧ e = u++more ∧ o+before.length = p ∧
      HoldsAt log (o+d.length) more := by
  have hbefore : o+(d.take (p-o)).length = p := by
    rw [List.length_take]
    omega
  have hu : HoldsAt log p (d.drop (p-o)) := by
    rw [← List.take_append_drop (p-o) d] at hd
    have := hd.parts.2
    rwa [hbefore] at this
  have hlen : p+(d.drop (p-o)).length = o+d.length := by
    rw [List.length_drop]
    omega
  obtain ⟨more,hmore⟩ := List.prefix_of_prefix_length_le hu he (by omega)
  refine ⟨_,_,more,(List.take_append_drop (p-o) d).symm,hmore.symm,hbefore,?_⟩
  rw [← hmore] at he
  rw [← hlen]
  exact he.parts.2

/-- Two pieces of one log agree wherever they overlap. -/
theorem HoldsAt.agree {log d e : List α} {o p i j : ℕ} (hd : HoldsAt log o d)
    (he : HoldsAt log p e) (hi : i < d.length) (hj : j < e.length) (h : o+i = p+j) :
    d[i]? = e[j]? := by
  obtain ⟨r,hr⟩ := hd
  obtain ⟨t,ht⟩ := he
  have hdi : log[o+i]? = d[i]? := by
    rw [← List.getElem?_drop,← hr,List.getElem?_append_left hi]
  have hej : log[p+j]? = e[j]? := by
    rw [← List.getElem?_drop,← ht,List.getElem?_append_left hj]
  rw [← hdi,← hej,h]

@[simp] theorem slice_self (log : List α) (o : ℕ) : slice log o o = [] := by simp [slice]

theorem slice_length {log : List α} {start stop : ℕ} (h : stop ≤ log.length) :
    (slice log start stop).length = stop-start := by
  simp only [slice,List.length_take,List.length_drop]
  omega

theorem slice_append_slice (log : List α) {a b c : ℕ} (hab : a ≤ b) (hbc : b ≤ c) :
    slice log a b ++ slice log b c = slice log a c := by
  obtain ⟨m,rfl⟩ := Nat.exists_eq_add_of_le hab
  obtain ⟨n,rfl⟩ := Nat.exists_eq_add_of_le hbc
  have hm : a+m-a = m := by omega
  have hn : a+m+n-(a+m) = n := by omega
  have hmn : a+m+n-a = m+n := by omega
  rw [slice,slice,slice,hm,hn,hmn,← List.drop_drop,List.take_add]

/-- What lies within the log stays where it is when the log grows. -/
theorem slice_append {log : List α} {a b : ℕ} (h : b ≤ log.length) (more : List α) :
    slice (log++more) a b = slice log a b := by
  rcases Nat.le_total a log.length with ha | ha
  · rw [slice,List.drop_append_of_le_length ha,List.take_append_of_le_length (by
      rw [List.length_drop]
      omega),slice]
  · have hnone : b-a = 0 := by omega
    rw [slice,slice,hnone,List.take_zero,List.take_zero]

theorem slice_eq_drop {log : List α} {a b : ℕ} (h : log.length ≤ b) :
    slice log a b = log.drop a := by
  apply List.take_of_length_le
  rw [List.length_drop]
  omega

/-- The pieces, each with its offset, follow one another in the log from the first
offset to the last. -/
def Follows (log : List α) : ℕ → List (ℕ × List α) → ℕ → Prop
  | start, [], stop => start = stop
  | start, piece::pieces, stop => piece.1 = start ∧ HoldsAt log start piece.2 ∧
      Follows log (start+piece.2.length) pieces stop

@[simp] theorem follows_nil {log : List α} {start stop : ℕ} :
    Follows log start [] stop ↔ start = stop := Iff.rfl

@[simp] theorem follows_cons {log : List α} {start stop : ℕ} {piece : ℕ × List α}
    {pieces : List (ℕ × List α)} : Follows log start (piece::pieces) stop ↔ piece.1 = start ∧
      HoldsAt log start piece.2 ∧ Follows log (start+piece.2.length) pieces stop := Iff.rfl

theorem Follows.append {log : List α} {start mid stop : ℕ} {xs ys : List (ℕ × List α)}
    (hx : Follows log start xs mid) (hy : Follows log mid ys stop) :
    Follows log start (xs++ys) stop := by
  induction xs generalizing start with
  | nil =>
    obtain rfl : start = mid := hx
    exact hy
  | cons x xs ih => exact ⟨hx.1,hx.2.1,ih hx.2.2⟩

theorem Follows.split {log : List α} {start stop : ℕ} {xs ys : List (ℕ × List α)}
    (h : Follows log start (xs++ys) stop) :
    ∃ mid, Follows log start xs mid ∧ Follows log mid ys stop := by
  induction xs generalizing start with
  | nil => exact ⟨start,rfl,h⟩
  | cons x xs ih =>
    obtain ⟨mid,hxs,hys⟩ := ih h.2.2
    exact ⟨mid,⟨h.1,h.2.1,hxs⟩,hys⟩

/-- Where a run ends depends on its pieces only. -/
theorem Follows.stop_unique {log : List α} {start stop stop' : ℕ} {xs : List (ℕ × List α)}
    (h : Follows log start xs stop) (h' : Follows log start xs stop') : stop = stop' := by
  induction xs generalizing start with
  | nil => exact Eq.trans (Eq.symm h) h'
  | cons x xs ih => exact ih h.2.2 h'.2.2

theorem Follows.snoc {log : List α} {start stop : ℕ} {xs : List (ℕ × List α)} {data : List α}
    (h : Follows log start xs stop) (hdata : HoldsAt log stop data) :
    Follows log start (xs++[(stop,data)]) (stop+data.length) :=
  h.append ⟨rfl,hdata,rfl⟩

/-- A run of the log stays one when the log grows. -/
theorem Follows.grow {log : List α} {start stop : ℕ} {xs : List (ℕ × List α)}
    (h : Follows log start xs stop) (more : List α) : Follows (log++more) start xs stop := by
  induction xs generalizing start with
  | nil => exact h
  | cons x xs ih => exact ⟨h.1,h.2.1.append more,ih h.2.2⟩

theorem Follows.bounds {log : List α} {start stop : ℕ} {xs : List (ℕ × List α)}
    (h : Follows log start xs stop) (hs : start ≤ log.length) :
    start ≤ stop ∧ stop ≤ log.length := by
  induction xs generalizing start with
  | nil =>
    obtain rfl : start = stop := h
    exact ⟨Nat.le_refl _,hs⟩
  | cons x xs ih =>
    have htail := ih h.2.2 (h.2.1.le_length hs)
    omega

/-- The pieces of a run lie in the log. -/
theorem Follows.offset_le {log : List α} {start stop : ℕ} {xs : List (ℕ × List α)}
    (h : Follows log start xs stop) (hs : start ≤ log.length) {x : ℕ × List α} (hx : x ∈ xs) :
    x.1 ≤ log.length := by
  induction xs generalizing start with
  | nil => cases hx
  | cons y ys ih =>
    rcases List.mem_cons.mp hx with rfl | hx
    · rw [h.1]
      exact hs
    · exact ih h.2.2 (h.2.1.le_length hs) hx

/-- The data of a run is the log between its ends. -/
theorem Follows.data_eq {log : List α} {start stop : ℕ} {xs : List (ℕ × List α)}
    (h : Follows log start xs stop) (hs : start ≤ log.length) :
    xs.flatMap Prod.snd = slice log start stop := by
  induction xs generalizing start with
  | nil =>
    obtain rfl : start = stop := h
    simp
  | cons x xs ih =>
    have hle := h.2.1.le_length hs
    have htail := h.2.2.bounds hle
    rw [List.flatMap_cons,ih h.2.2 hle,h.2.1.eq_slice,slice_length hle,
      Nat.add_sub_cancel_left,slice_append_slice log (by omega) htail.1]

end AppendLog
