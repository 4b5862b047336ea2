import Mathlib.Data.List.Basic
import Mathlib.Tactic.Common

/-! JSON values, with objects as lists of fields, and tables that are written as a list of their
entries that are worth it. -/

inductive Json
  | null
  | bool (b : Bool)
  | num (n : ℕ)
  | str (s : List Char)
  | arr (values : List Json)
  | obj (fields : List (String × Json))

namespace Json

def get : Json → String → Option Json
  | .obj fields,key => fields.lookup key
  | _,_ => none

/-- A field that may be left out. -/
def field (key : String) (value : Option Json) : List (String × Json) :=
  (value.map fun v => (key,v)).toList

def asNum : Json → Option ℕ
  | .num n => some n
  | _ => none

def asBool : Json → Option Bool
  | .bool b => some b
  | _ => none

def asStr : Json → Option (List Char)
  | .str s => some s
  | _ => none

def asArr : Json → Option (List Json)
  | .arr values => some values
  | _ => none

@[simp] theorem get_obj (fields : List (String × Json)) (key : String) :
    (obj fields).get key = fields.lookup key := rfl

@[simp] theorem asNum_num (n : ℕ) : (num n).asNum = some n := rfl
@[simp] theorem asBool_bool (b : Bool) : (bool b).asBool = some b := rfl
@[simp] theorem asStr_str (s : List Char) : (str s).asStr = some s := rfl
@[simp] theorem asArr_arr (values : List Json) : (arr values).asArr = some values := rfl

@[simp] theorem lookup_field_self (key : String) (value : Option Json) :
    (field key value).lookup key = value := by
  cases value <;> simp [field]

theorem lookup_field_ne {key key' : String} (h : key' ≠ key) (value : Option Json) :
    (field key value).lookup key' = none := by
  cases value <;> simp [field,h]

end Json

namespace Table
variable {κ α β : Type*}

/-- The entries of a table are found again: a key that was not entered has none. -/
theorem lookup_entries [BEq κ] [LawfulBEq κ] (keys : List κ) (entry : κ → Option α) (k : κ) :
    (keys.filterMap fun k => (entry k).map fun a => (k,a)).lookup k =
      if k ∈ keys then entry k else none := by
  induction keys with
  | nil => rfl
  | cons j keys ih =>
    cases hentry : entry j with
    | none =>
      rw [List.filterMap_cons_none (by simp [hentry]),ih]
      by_cases hj : k = j
      · subst hj
        simp [hentry]
      · simp [hj]
    | some a =>
      rw [List.filterMap_cons_some (by simp [hentry]; rfl)]
      by_cases hj : k = j
      · subst hj
        simp [hentry]
      · have hbeq : (k == j) = false := beq_eq_false_iff_ne.mpr hj
        simp [List.lookup_cons,hbeq,ih,hj]

/-- Reading back each written entry gives the entries. -/
theorem mapM_written {write : κ → α → β} {read : β → Option (κ × α)}
    (hread : ∀ k a, read (write k a) = some (k,a)) (entries : List (κ × α)) :
    (entries.map fun e => write e.1 e.2).mapM read = some entries := by
  induction entries with
  | nil => rfl
  | cons e entries ih => simp [hread,ih]

end Table
