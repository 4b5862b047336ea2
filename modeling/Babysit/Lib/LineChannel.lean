import Mathlib.Data.List.TakeWhile

/-! One line over a byte stream. A sender writes a text in pieces and may stop at any point; a
reader takes pieces of other sizes until it has the terminator or the stream ends. What it takes
for the line is then the text, or a first part of it. -/

/-- The text not yet written, what is in flight, and what the reader has of the line. -/
structure LineChannel (α : Type*) where
  pending : List α
  inFlight : List α
  line : List α
  closed : Bool
  deriving DecidableEq, Repr

namespace LineChannel
variable {α : Type*}

/-- A sender that has this to write. -/
def sending (text : List α) : LineChannel α := ⟨text,[],[],false⟩

def push (c : LineChannel α) (n : ℕ) : Option (LineChannel α) :=
  if 0 < n ∧ n ≤ c.pending.length then
    some { c with pending := c.pending.drop n, inFlight := c.inFlight ++ c.pending.take n }
  else none

/-- The sender closes; what it has not written is lost. -/
def close (c : LineChannel α) : LineChannel α := { c with pending := [], closed := true }

/-- A read, and the line if that is its end. What is read behind the terminator is dropped. -/
def pull [DecidableEq α] (terminator : α) (c : LineChannel α) (n : ℕ) :
    Option (LineChannel α × Option (List α)) :=
  if 0 < n ∧ n ≤ c.inFlight.length then
    let chunk := c.inFlight.take n
    if terminator ∈ chunk then
      some ({ c with inFlight := c.inFlight.drop n },
        some (c.line ++ (chunk.takeWhile (· ≠ terminator) ++ [terminator])))
    else some ({ c with inFlight := c.inFlight.drop n, line := c.line ++ chunk },none)
  else none

/-- The stream ends, and what there is is the line. -/
def pullEnd (c : LineChannel α) : Option (List α) :=
  if c.closed = true ∧ c.inFlight = [] then some c.line else none

/-- The channel of a text, with the terminator not yet read. -/
structure Carries (terminator : α) (text : List α) (c : LineChannel α) : Prop where
  part : c.line ++ (c.inFlight ++ c.pending) <+: text
  unterminated : terminator ∉ c.line
  closed : c.closed = true → c.pending = []

/-- Nothing has been lost so far. -/
def Whole (text : List α) (c : LineChannel α) : Prop :=
  c.line ++ (c.inFlight ++ c.pending) = text

variable {terminator : α} {text body line : List α} {c c' : LineChannel α} {n : ℕ}

theorem sending_carries (terminator : α) (text : List α) :
    Carries terminator text (sending text) :=
  ⟨List.prefix_rfl,List.not_mem_nil,by rintro ⟨⟩⟩

theorem sending_whole (text : List α) : Whole text (sending text) := rfl

theorem push_bytes (hpush : c.push n = some c') :
    c'.line ++ (c'.inFlight ++ c'.pending) = c.line ++ (c.inFlight ++ c.pending) := by
  obtain ⟨-,hc⟩ := Option.ite_none_right_eq_some.mp hpush
  obtain rfl := Option.some.inj hc
  dsimp only
  rw [List.append_assoc,List.take_append_drop]

theorem Carries.push (h : Carries terminator text c) (hpush : c.push n = some c') :
    Carries terminator text c' := by
  have hbytes := push_bytes hpush
  obtain ⟨-,hc⟩ := Option.ite_none_right_eq_some.mp hpush
  obtain rfl := Option.some.inj hc
  refine ⟨hbytes ▸ h.part,h.unterminated,fun hclosed => ?_⟩
  dsimp only
  rw [h.closed hclosed,List.drop_nil]

theorem Whole.push (h : Whole text c) (hpush : c.push n = some c') : Whole text c' :=
  (push_bytes hpush).trans h

theorem Carries.close (h : Carries terminator text c) : Carries terminator text c.close := by
  refine ⟨List.IsPrefix.trans ?_ h.part,h.unterminated,fun _ => rfl⟩
  simp only [LineChannel.close,List.append_nil,List.prefix_append_right_inj]
  exact List.prefix_append _ _

/-- Closing behind the last byte loses nothing. -/
theorem Whole.close (h : Whole text c) (hpending : c.pending = []) : Whole text c.close := by
  unfold Whole at h ⊢
  rw [← h,hpending]
  rfl

/-- A line without the terminator is a first part of what stands before it. -/
theorem prefix_body (hline : line <+: body ++ [terminator]) (hmem : terminator ∉ line) :
    line <+: body := by
  rcases List.prefix_concat_iff.mp hline with rfl | hpre
  · exact absurd (by simp) hmem
  · exact hpre

/-- What the reader takes for the line when the stream ends; then something was lost. -/
theorem Carries.pullEnd (h : Carries terminator (body ++ [terminator]) c)
    (hline : c.pullEnd = some line) : line <+: body ∧ ¬Whole (body ++ [terminator]) c := by
  obtain ⟨⟨hclosed,hflight⟩,hline⟩ := Option.ite_none_right_eq_some.mp hline
  obtain rfl := Option.some.inj hline
  refine ⟨prefix_body ((List.prefix_append _ _).trans h.part) h.unterminated,fun hwhole => ?_⟩
  rw [Whole,hflight,h.closed hclosed,List.append_nil,List.append_nil] at hwhole
  exact h.unterminated (by simp [hwhole])

variable [DecidableEq α]

theorem takeWhile_terminator {xs : List α} (hmem : terminator ∈ xs) :
    xs.takeWhile (· ≠ terminator) ++ [terminator] <+: xs := by
  induction xs with
  | nil => cases hmem
  | cons x xs ih =>
    by_cases hx : x = terminator
    · simp [hx]
    · have hrest : terminator ∈ xs := (List.mem_cons.mp hmem).resolve_left (Ne.symm hx)
      simpa [hx] using ih hrest

/-- A read without the terminator goes on. -/
theorem Carries.pull_more (h : Carries terminator text c)
    (hpull : c.pull terminator n = some (c',none)) :
    Carries terminator text c' ∧ (Whole text c → Whole text c') := by
  obtain ⟨-,hpull⟩ := Option.ite_none_right_eq_some.mp hpull
  dsimp only at hpull
  split_ifs at hpull with hmem
  · obtain ⟨-,hnone⟩ := Prod.mk.inj (Option.some.inj hpull)
    cases hnone
  · obtain ⟨rfl,-⟩ := Prod.mk.inj (Option.some.inj hpull)
    have hsame : (c.line ++ c.inFlight.take n) ++ (c.inFlight.drop n ++ c.pending) =
        c.line ++ (c.inFlight ++ c.pending) := by
      rw [List.append_assoc,← List.append_assoc (c.inFlight.take n),List.take_append_drop]
    refine ⟨⟨hsame ▸ h.part,?_,h.closed⟩,hsame.trans⟩
    rw [List.mem_append,not_or]
    exact ⟨h.unterminated,hmem⟩

/-- A read with the terminator gives the whole text. -/
theorem Carries.pull_line (h : Carries terminator (body ++ [terminator]) c)
    (hbody : terminator ∉ body) (hpull : c.pull terminator n = some (c',some line)) :
    line = body ++ [terminator] := by
  obtain ⟨-,hpull⟩ := Option.ite_none_right_eq_some.mp hpull
  have hpart := h.part
  rw [← List.take_append_drop n c.inFlight,List.append_assoc] at hpart
  dsimp only at hpull
  split_ifs at hpull with hmem
  · obtain ⟨-,hline⟩ := Prod.mk.inj (Option.some.inj hpull)
    obtain rfl := Option.some.inj hline
    have hpre : c.line ++ ((c.inFlight.take n).takeWhile (· ≠ terminator) ++ [terminator]) <+:
        body ++ [terminator] := by
      refine List.IsPrefix.trans ?_ hpart
      rw [List.prefix_append_right_inj]
      exact (takeWhile_terminator hmem).trans (List.prefix_append _ _)
    rcases List.prefix_concat_iff.mp hpre with heq | hpre
    · exact heq
    · exact absurd (hpre.subset (by simp)) hbody
  · obtain ⟨-,hnone⟩ := Prod.mk.inj (Option.some.inj hpull)
    cases hnone

end LineChannel
