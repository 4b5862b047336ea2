import Mathlib.Algebra.Order.Group.Nat
import Mathlib.Data.List.Basic

/-! Decimal numerals over any symbols, and the reader that checks a bound at every digit. It
reads exactly the numerals whose value is within the bound. -/
namespace Decimal
variable {α : Type*} (digit : α → Option ℕ)

/-- The value of the digits behind those that have been read. -/
def valueFrom (v : ℕ) (ds : List ℕ) : ℕ := ds.foldl (fun v d => v*10+d) v

/-- The symbols are digits, at least one, that write the number. -/
def IsNumeral (xs : List α) (n : ℕ) : Prop :=
  ∃ ds, ds ≠ [] ∧ xs.map digit = ds.map some ∧ valueFrom 0 ds = n

/-- Digit by digit, with a check for overflow at each. -/
def readFrom (bound v : ℕ) : List α → Option ℕ
  | [] => some v
  | x::xs => (digit x).bind fun d => if v*10+d ≤ bound then readFrom bound (v*10+d) xs else none

def read (bound : ℕ) (xs : List α) : Option ℕ := if xs = [] then none else readFrom digit bound 0 xs

variable {digit} {bound v n m : ℕ} {xs : List α}

theorem le_valueFrom (v : ℕ) (ds : List ℕ) : v ≤ valueFrom v ds := by
  induction ds generalizing v with
  | nil => exact Nat.le_refl v
  | cons d ds ih =>
    have := ih (v*10+d)
    rw [valueFrom,List.foldl_cons]
    exact Nat.le_trans (by omega) this

theorem readFrom_eq_some_iff (hv : v ≤ bound) : readFrom digit bound v xs = some n ↔
    ∃ ds, xs.map digit = ds.map some ∧ valueFrom v ds = n ∧ n ≤ bound := by
  induction xs generalizing v with
  | nil =>
    constructor
    · rintro ⟨⟩
      exact ⟨[],rfl,rfl,hv⟩
    · rintro ⟨ds,hds,rfl,-⟩
      obtain rfl : ds = [] := List.map_eq_nil_iff.mp hds.symm
      rfl
  | cons x xs ih =>
    rw [readFrom,Option.bind_eq_some_iff]
    constructor
    · rintro ⟨d,hd,h⟩
      split_ifs at h with hle
      obtain ⟨ds,hds,hvalue,hn⟩ := (ih hle).mp h
      exact ⟨d::ds,by rw [List.map_cons,List.map_cons,hd,hds],hvalue,hn⟩
    · rintro ⟨ds,hds,hvalue,hn⟩
      cases ds with
      | nil => cases hds
      | cons d ds =>
        obtain ⟨hd,hds⟩ := List.cons_eq_cons.mp hds
        have hle : v*10+d ≤ bound := by
          have hgrows := le_valueFrom (v*10+d) ds
          rw [valueFrom,List.foldl_cons] at hvalue
          rw [valueFrom,hvalue] at hgrows
          exact hgrows.trans hn
        exact ⟨d,hd,by rw [if_pos hle]; exact (ih hle).mpr ⟨ds,hds,hvalue,hn⟩⟩

theorem read_eq_some_iff : read digit bound xs = some n ↔ IsNumeral digit xs n ∧ n ≤ bound := by
  unfold read
  by_cases hxs : xs = []
  · subst hxs
    rw [if_pos rfl]
    refine iff_of_false (by simp) ?_
    rintro ⟨⟨ds,hne,hds,-⟩,-⟩
    exact hne (List.map_eq_nil_iff.mp hds.symm)
  · rw [if_neg hxs,readFrom_eq_some_iff (Nat.zero_le bound)]
    constructor
    · rintro ⟨ds,hds,hvalue,hn⟩
      refine ⟨⟨ds,?_,hds,hvalue⟩,hn⟩
      rintro rfl
      exact hxs (List.map_eq_nil_iff.mp hds)
    · rintro ⟨⟨ds,-,hds,hvalue⟩,hn⟩
      exact ⟨ds,hds,hvalue,hn⟩

/-- A numeral writes one number. -/
theorem IsNumeral.unique (hn : IsNumeral digit xs n) (hm : IsNumeral digit xs m) : n = m := by
  obtain ⟨ds,-,hds,rfl⟩ := hn
  obtain ⟨es,-,hes,rfl⟩ := hm
  rw [(List.map_inj_right fun _ _ => Option.some.inj).mp (hds.symm.trans hes)]

/-- Every symbol of a numeral is a digit. -/
theorem IsNumeral.isSome (h : IsNumeral digit xs n) : ∀ x ∈ xs, (digit x).isSome = true := by
  obtain ⟨ds,-,hds,-⟩ := h
  intro x hx
  have hmem : digit x ∈ ds.map some := hds ▸ List.mem_map_of_mem hx
  obtain ⟨d,-,hd⟩ := List.mem_map.mp hmem
  rw [← hd]
  rfl

theorem IsNumeral.ne_nil (h : IsNumeral digit xs n) : xs ≠ [] := by
  obtain ⟨ds,hne,hds,-⟩ := h
  rintro rfl
  exact hne (List.map_eq_nil_iff.mp hds.symm)

/-- The value of an ASCII digit. -/
def charDigit (c : Char) : Option ℕ := if c.isDigit then some (c.toNat-48) else none

/-- The digits that a number is printed with are a numeral of it. -/
theorem isNumeral_toDigits (n : ℕ) : IsNumeral charDigit (Nat.toDigits 10 n) n := by
  refine ⟨(Nat.toDigits 10 n).map fun c => c.toNat-48,?_,?_,?_⟩
  · rw [Ne,List.map_eq_nil_iff]
    exact Nat.toDigits_ne_nil
  · rw [List.map_map]
    apply List.map_congr_left
    intro c hc
    exact if_pos (Nat.isDigit_of_mem_toDigits (by decide) (by decide) hc)
  · have hvalue : ∀ (cs : List Char) (v : ℕ),
        valueFrom v (cs.map fun c => c.toNat-48) = Nat.ofDigitChars 10 cs v := by
      intro cs
      induction cs with
      | nil => exact fun v => (Nat.ofDigitChars_nil).symm
      | cons c cs ih =>
        intro v
        rw [List.map_cons,Nat.ofDigitChars_cons,← ih,Nat.mul_comm]
        rfl
    rw [hvalue,Nat.ofDigitChars_toDigits (by decide) (by decide)]

end Decimal
