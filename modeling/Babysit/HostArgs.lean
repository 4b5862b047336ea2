import Mathlib.Data.List.Basic

/-! `strip_host_args`: the arguments that are handed to the remote side, without the selectors
of the host. A selector stands before the first separator that is not itself a selector's
value; what a wrapped command takes is behind it. -/
namespace Babysit

abbrev Arg := List Char

def SEPARATOR : Arg := ['-','-']
def HOST : Arg := ['-','-','h','o','s','t']
def HOST_EQUALS : Arg := ['-','-','h','o','s','t','=']

/-- The loop over the arguments that are left. -/
def stripHostFrom (afterSeparator : Bool) : List Arg → Except String (List Arg)
  | [] => .ok []
  | arg::rest =>
    if afterSeparator then (stripHostFrom true rest).map (arg :: ·)
    else if arg = SEPARATOR then (stripHostFrom true rest).map (arg :: ·)
    else if arg = HOST then
      match rest with
      | [] => .error "--host requires a value"
      | _::rest => stripHostFrom false rest
    else if HOST_EQUALS <+: arg then stripHostFrom false rest
    else (stripHostFrom false rest).map (arg :: ·)

def stripHostArgs (raw : List Arg) : Except String (List Arg) := stripHostFrom false raw

/-- The argument selects a host, alone or with the argument behind it. -/
def SelectsHost (arg : Arg) : Prop := arg = HOST ∨ HOST_EQUALS <+: arg

/-- What stands before the separator: an argument of its own, or a selector with its value,
which may be any argument, or a selector that has its value in it. -/
inductive HostPiece
  | plain (arg : Arg) (other : arg ≠ SEPARATOR) (unselected : ¬SelectsHost arg)
  | pair (value : Arg)
  | joined (arg : Arg) (equals : HOST_EQUALS <+: arg)

namespace HostPiece

def written : HostPiece → List Arg
  | .plain arg _ _ => [arg]
  | .pair value => [HOST,value]
  | .joined arg _ => [arg]

def kept : HostPiece → List Arg
  | .plain arg _ _ => [arg]
  | .pair _ | .joined _ _ => []

end HostPiece

/-- The end of the arguments, or the separator with what is behind it. -/
def Separated (tail : List Arg) : Prop := tail = [] ∨ ∃ rest, tail = SEPARATOR::rest

variable {region : List HostPiece} {tail raw : List Arg}

theorem stripHostFrom_behind (args : List Arg) : stripHostFrom true args = .ok args := by
  induction args with
  | nil => rfl
  | cons arg rest ih =>
    unfold stripHostFrom
    rw [if_pos rfl,ih]
    rfl

theorem stripHostArgs_separated (h : Separated tail) : stripHostArgs tail = .ok tail := by
  rcases h with rfl | ⟨rest,rfl⟩
  · rfl
  · unfold stripHostArgs stripHostFrom
    rw [if_neg Bool.false_ne_true,if_pos rfl,stripHostFrom_behind]
    rfl

theorem stripHostArgs_piece (piece : HostPiece) (rest : List Arg) :
    stripHostArgs (piece.written ++ rest) = (stripHostArgs rest).map (piece.kept ++ ·) := by
  have hid : ∀ r : Except String (List Arg), r.map (([] : List Arg) ++ ·) = r := by
    intro r
    cases r <;> rfl
  cases piece with
  | plain arg other unselected =>
    obtain ⟨hhost,hequals⟩ := not_or.mp unselected
    rw [HostPiece.written,List.singleton_append,stripHostArgs,stripHostFrom.eq_def]
    dsimp only
    rw [if_neg Bool.false_ne_true,if_neg other,if_neg hhost,if_neg hequals]
    rfl
  | pair value => exact (hid _).symm
  | joined arg equals =>
    have hother : arg ≠ SEPARATOR ∧ arg ≠ HOST := by
      have hlen := equals.length_le
      constructor
      · rintro rfl
        exact absurd hlen (by decide)
      · rintro rfl
        exact absurd hlen (by decide)
    rw [HostPiece.written,List.singleton_append,stripHostArgs,stripHostFrom.eq_def]
    dsimp only
    rw [if_neg Bool.false_ne_true,if_neg hother.1,if_neg hother.2,if_pos equals]
    exact (hid _).symm

/-- The pieces are taken one after another. -/
theorem stripHostArgs_region (region : List HostPiece) (tail : List Arg) :
    stripHostArgs (region.flatMap HostPiece.written ++ tail) =
      (stripHostArgs tail).map (region.flatMap HostPiece.kept ++ ·) := by
  induction region with
  | nil => cases h : stripHostArgs tail <;> simp [h,Except.map]
  | cons piece region ih =>
    rw [List.flatMap_cons,List.flatMap_cons,List.append_assoc,stripHostArgs_piece,ih]
    cases stripHostArgs tail with
    | error e => rfl
    | ok result => simp [Except.map]

/-- Any arguments are pieces up to the separator, the end, or a selector without a value. -/
theorem exists_region (raw : List Arg) :
    ∃ (region : List HostPiece) (tail : List Arg),
    raw = region.flatMap HostPiece.written ++ tail ∧ (Separated tail ∨ tail = [HOST]) := by
  induction hn : raw.length using Nat.strongRecOn generalizing raw with
  | ind n ih =>
    cases raw with
    | nil => exact ⟨[],[],rfl,.inl (.inl rfl)⟩
    | cons arg rest =>
      have hnext : ∀ (piece : HostPiece) (more : List Arg), arg::rest = piece.written ++ more →
          more.length < n → ∃ (region : List HostPiece) (tail : List Arg),
            arg::rest = region.flatMap HostPiece.written ++ tail ∧
            (Separated tail ∨ tail = [HOST]) := by
        intro piece more heq hlt
        obtain ⟨region,tail,hmore,htail⟩ := ih _ hlt more rfl
        refine ⟨piece::region,tail,?_,htail⟩
        rw [heq,hmore,List.flatMap_cons,List.append_assoc]
      rw [List.length_cons] at hn
      by_cases hseparator : arg = SEPARATOR
      · exact ⟨[],arg::rest,rfl,.inl (.inr ⟨rest,by rw [hseparator]⟩)⟩
      · by_cases hhost : arg = HOST
        · subst hhost
          cases rest with
          | nil => exact ⟨[],[HOST],rfl,.inr rfl⟩
          | cons value rest =>
            rw [List.length_cons] at hn
            exact hnext (.pair value) rest rfl (by omega)
        · by_cases hequals : HOST_EQUALS <+: arg
          · exact hnext (.joined arg hequals) rest rfl (by omega)
          · exact hnext (.plain arg hseparator (not_or.mpr ⟨hhost,hequals⟩)) rest rfl (by omega)

/-- What is kept is made of plain pieces. -/
theorem kept_mem {arg : Arg} (h : arg ∈ region.flatMap HostPiece.kept) :
    arg ≠ SEPARATOR ∧ ¬SelectsHost arg := by
  obtain ⟨piece,-,harg⟩ := List.mem_flatMap.mp h
  cases piece with
  | plain arg' other unselected =>
    obtain rfl := List.mem_singleton.mp harg
    exact ⟨other,unselected⟩
  | pair value => cases harg
  | joined arg' equals => cases harg

theorem stripHostArgs_kept (region : List HostPiece) (htail : Separated tail) :
    stripHostArgs (region.flatMap HostPiece.kept ++ tail) =
      .ok (region.flatMap HostPiece.kept ++ tail) := by
  induction region with
  | nil => exact stripHostArgs_separated htail
  | cons piece region ih =>
    rw [List.flatMap_cons,List.append_assoc]
    cases piece with
    | plain arg other unselected =>
      exact (stripHostArgs_piece (.plain arg other unselected) _).trans (by rw [ih]; rfl)
    | pair value => exact ih
    | joined arg equals => exact ih

/-- Stripping takes away the pieces that select a host, up to the first separator that is not
a value, and nothing else. It fails exactly when a selector is the last argument and has no
value. What it returns selects no host, and is left as it is when it is stripped again. -/
theorem strip_removes_exactly_the_selector (raw : List Arg) :
    (∀ result, stripHostArgs raw = .ok result ↔ ∃ (region : List HostPiece) (tail : List Arg),
      raw = region.flatMap HostPiece.written ++ tail ∧ Separated tail ∧
        result = region.flatMap HostPiece.kept ++ tail) ∧
    ((∃ error, stripHostArgs raw = .error error) ↔
      ∃ region : List HostPiece, raw = region.flatMap HostPiece.written ++ [HOST]) ∧
    ∀ result, stripHostArgs raw = .ok result →
      (∀ arg ∈ result.takeWhile (· ≠ SEPARATOR), ¬SelectsHost arg) ∧
        stripHostArgs result = .ok result := by
  have hok : ∀ (region : List HostPiece) (tail : List Arg),
      raw = region.flatMap HostPiece.written ++ tail → Separated tail →
        stripHostArgs raw = .ok (region.flatMap HostPiece.kept ++ tail) := by
    rintro region tail rfl htail
    rw [stripHostArgs_region,stripHostArgs_separated htail]
    rfl
  have hfails : ∀ region : List HostPiece, raw = region.flatMap HostPiece.written ++ [HOST] →
      stripHostArgs raw = .error "--host requires a value" := by
    rintro region rfl
    rw [stripHostArgs_region]
    rfl
  obtain ⟨region,tail,hraw,htail⟩ := exists_region raw
  have hresult : ∀ result, stripHostArgs raw = .ok result →
      Separated tail ∧ result = region.flatMap HostPiece.kept ++ tail := by
    intro result h
    rcases htail with htail | rfl
    · exact ⟨htail,Except.ok.inj (h.symm.trans (hok region tail hraw htail))⟩
    · exact nomatch h.symm.trans (hfails region hraw)
  refine ⟨fun result => ⟨fun h => ?_,?_⟩,⟨?_,?_⟩,fun result h => ?_⟩
  · obtain ⟨hseparated,heq⟩ := hresult result h
    exact ⟨region,tail,hraw,hseparated,heq⟩
  · rintro ⟨region,tail,hraw,hseparated,rfl⟩
    exact hok region tail hraw hseparated
  · rintro ⟨error,h⟩
    rcases htail with htail | rfl
    · exact nomatch h.symm.trans (hok region tail hraw htail)
    · exact ⟨region,hraw⟩
  · rintro ⟨region,hraw⟩
    exact ⟨_,hfails region hraw⟩
  · obtain ⟨hseparated,rfl⟩ := hresult result h
    refine ⟨fun arg harg => ?_,stripHostArgs_kept region hseparated⟩
    have hbefore : ∀ arg ∈ region.flatMap HostPiece.kept, decide (arg ≠ SEPARATOR) = true :=
      fun arg h => decide_eq_true (kept_mem h).1
    have hnone : tail.takeWhile (· ≠ SEPARATOR) = [] := by
      rcases hseparated with rfl | ⟨rest,rfl⟩
      · rfl
      · exact List.takeWhile_cons_of_neg (by simp)
    rw [List.takeWhile_append_of_pos hbefore,hnone,List.append_nil] at harg
    exact (kept_mem harg).2

example : stripHostArgs ["--host".toList,"--".toList,"run".toList,"--".toList,"--host".toList] =
    .ok ["run".toList,"--".toList,"--host".toList] := by decide

end Babysit
