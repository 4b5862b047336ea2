import Babysit.Lib.Mealy
import Mathlib.Data.Char

/-! A VT parser over characters, as far as stripping sees it: what is printed, and the line
feeds executed between. Parameters and final characters do not matter here, so the states
of one kind of sequence that print and end alike are one. -/
namespace Vt

/-- Between sequences, or inside one. `string` is the body of DCS, SOS, PM and APC. -/
inductive State
  | ground
  | escape
  | intermediate
  | csi
  | osc
  | string
  | ss3
  deriving DecidableEq, Repr

def ESC : Char := Char.ofNat 0x1b
def BEL : Char := Char.ofNat 0x07

/-- CAN and SUB abort any sequence. -/
def cancels (c : Char) : Bool := c.toNat = 0x18 ∨ c.toNat = 0x1a

/-- The character is one of the C0 or C1 controls. -/
def isControl (c : Char) : Bool := c.toNat < 0x20 ∨ (0x80 ≤ c.toNat ∧ c.toNat ≤ 0x9f)

def between (low high : ℕ) (c : Char) : Bool := low ≤ c.toNat ∧ c.toNat ≤ high

/-- The state a character behind an escape opens. With `shift` the character behind
`ESC O` belongs to the sequence, otherwise `ESC O` is complete. -/
def opens (shift : Bool) (c : Char) : State :=
  if between 0x20 0x2f c then .intermediate
  else if c = '[' then .csi
  else if c = ']' then .osc
  else if c = 'P' ∨ c = 'X' ∨ c = '^' ∨ c = '_' then .string
  else if c = 'O' ∧ shift then .ss3
  else if between 0x30 0x7e c then .ground
  else .escape

/-- The parser that prints characters and line feeds. -/
def parser (shift : Bool) : Mealy State Char Char where
  next q c :=
    if c = ESC then .escape
    else if cancels c then .ground
    else match q with
      | .ground => .ground
      | .escape => opens shift c
      | .intermediate => if between 0x30 0x7e c then .ground else .intermediate
      | .csi => if between 0x40 0x7e c then .ground else .csi
      | .osc => if c = BEL then .ground else .osc
      | .string => .string
      | .ss3 => if isControl c then .ss3 else .ground
  emit q c :=
    match q with
    | .ground => if c = '\n' ∨ ¬isControl c then [c] else []
    | .escape | .intermediate | .csi | .ss3 => if c = '\n' then [c] else []
    | .osc | .string => []

/-- Text stripped in one pass. -/
def strip (shift : Bool) (cs : List Char) : List Char := (parser shift).out .ground cs

/-- The character ends the sequence the state is in without being part of the text. -/
def resets (q : State) (c : Char) : Bool :=
  q = .ground ∨ c = ESC ∨ cancels c ∨ (q = .osc ∧ c = BEL)

/-- Of the text up to the first reset the state prints as much as the ground state does:
it has no printable character, and no line feed unless the state executes it. -/
def Harmless (shift : Bool) (q : State) (cs : List Char) : Prop :=
  ∀ c ∈ cs.takeWhile fun c => !resets q c,
    (parser shift).emit q c = (parser shift).emit .ground c

instance (shift : Bool) (q : State) (cs : List Char) : Decidable (Harmless shift q cs) :=
  inferInstanceAs (Decidable (∀ c ∈ cs.takeWhile fun c => !resets q c, _))

variable {shift : Bool} {q : State} {c : Char} {cs ds : List Char}

@[simp] theorem harmless_ground : Harmless shift .ground cs := by simp [Harmless]

@[simp] theorem harmless_nil : Harmless shift q [] := by simp [Harmless]

theorem harmless_cons_of_resets (h : resets q c = true) : Harmless shift q (c::cs) := by
  simp [Harmless,h]

theorem harmless_cons (h : resets q c = false) : Harmless shift q (c::cs) ↔
    (parser shift).emit q c = (parser shift).emit .ground c ∧ Harmless shift q cs := by
  simp [Harmless,h]

@[simp] theorem resets_escape : resets q ESC = true := by simp [resets]

/-- What follows an escape does not matter. -/
theorem harmless_append_escape :
    Harmless shift q (cs ++ ESC::ds) ↔ Harmless shift q cs := by
  induction cs with
  | nil => simp [harmless_cons_of_resets]
  | cons c cs ih =>
    rw [List.cons_append]
    cases hc : resets q c with
    | true => simp [harmless_cons_of_resets hc]
    | false => rw [harmless_cons hc,harmless_cons hc,ih]

theorem next_escape (q : State) : (parser shift).next q ESC = .escape := by simp [parser]

/-- Only an escape leaves the ground state. -/
theorem next_ground (h : c ≠ ESC) : (parser shift).next .ground c = .ground := by
  simp [parser,h]

theorem state_ground (h : ESC ∉ cs) : (parser shift).state .ground cs = .ground := by
  refine (parser shift).state_of_forall fun c hc => next_ground ?_
  rintro rfl
  exact h hc

/-- Text behind text without an escape is stripped as if it stood alone. -/
theorem strip_append (h : ESC ∉ cs) (ds : List Char) :
    strip shift (cs++ds) = strip shift cs ++ strip shift ds := by
  rw [strip,Mealy.out_append,state_ground h]
  rfl

theorem strip_flatten {pieces : List (List Char)} (h : ESC ∉ pieces.flatten) :
    strip shift pieces.flatten = pieces.flatMap (strip shift) := by
  induction pieces with
  | nil => rfl
  | cons piece pieces ih =>
    rw [List.flatten_cons,List.mem_append,not_or] at h
    rw [List.flatten_cons,List.flatMap_cons,strip_append h.1,ih h.2]

/-- The ground state prints at least what any other state prints. -/
theorem covers_ground (shift : Bool) (q : State) : (parser shift).Covers .ground q := by
  apply (parser shift).covers_of_simulation (fun s q => s = q ∨ s = .ground)
  · rintro s q c (rfl | rfl)
    · exact ⟨.refl _,.inl rfl⟩
    · constructor
      · cases q <;> simp only [parser] <;> split_ifs <;> simp_all
      · by_cases hc : c = ESC
        · left
          rw [hc,next_escape,next_escape]
        · exact .inr (next_ground hc)
  · exact .inr rfl

/-- After a reset both parsers are in one state and have printed the same. -/
theorem resets_spec (shift : Bool) (h : resets q c = true) :
    (parser shift).next q c = (parser shift).next .ground c ∧
      (parser shift).emit q c = (parser shift).emit .ground c := by
  have hESC : isControl ESC = true ∧ ESC ≠ '\n' := by decide
  have hBEL : isControl BEL = true ∧ BEL ≠ '\n' ∧ BEL ≠ ESC ∧ cancels BEL = false := by decide
  simp only [resets,decide_eq_true_eq] at h
  rcases h with rfl | rfl | hc | ⟨rfl,rfl⟩
  · exact ⟨rfl,rfl⟩
  · cases q <;> simp [parser,hESC]
  · have hcontrol : isControl c = true ∧ c ≠ '\n' ∧ c ≠ ESC := by
      simp only [cancels,decide_eq_true_eq] at hc
      refine ⟨?_,?_,?_⟩
      · simp only [isControl,decide_eq_true_eq]
        omega
      · rintro rfl
        simp at hc
      · rintro rfl
        simp [ESC] at hc
    cases q <;> simp [parser,hc,hcontrol]
  · simp [parser,hBEL]

/-- A control is no final character. -/
theorem not_between_of_isControl (h : isControl c = true) {low high : ℕ} (hlow : 0x20 ≤ low)
    (hhigh : high < 0x80) : between low high c = false := by
  simp only [isControl,decide_eq_true_eq] at h
  simp only [between,decide_eq_false_iff_not]
  omega

/-- A control opens no sequence. -/
theorem opens_of_isControl (h : isControl c = true) : opens shift c = .escape := by
  have hne : ∀ d, isControl d = false → c ≠ d := by
    rintro d hd rfl
    rw [h] at hd
    cases hd
  simp [opens,not_between_of_isControl h,hne '[' rfl,hne ']' rfl,hne 'P' rfl,hne 'X' rfl,
    hne '^' rfl,hne '_' rfl,hne 'O' rfl]

/-- Where nothing is reset and the outputs agree, neither parser moves. -/
theorem stays (hreset : resets q c = false)
    (hemit : (parser shift).emit q c = (parser shift).emit .ground c) :
    (parser shift).next q c = q ∧ (parser shift).next .ground c = .ground := by
  simp only [resets,decide_eq_false_iff_not,not_or,not_and] at hreset
  obtain ⟨hq,hc,hcancel,hbel⟩ := hreset
  refine ⟨?_,next_ground hc⟩
  have hcontrol : isControl c = true := by
    by_contra hprinted
    have hline : c ≠ '\n' := by
      rintro rfl
      exact hprinted rfl
    cases q <;> simp_all [parser]
  cases q with
  | ground => exact absurd rfl hq
  | escape => simp [parser,hc,hcancel,opens_of_isControl hcontrol]
  | intermediate => simp [parser,hc,hcancel,not_between_of_isControl hcontrol]
  | csi => simp [parser,hc,hcancel,not_between_of_isControl hcontrol]
  | osc => simp [parser,hc,hcancel,hbel rfl]
  | string => simp [parser,hc,hcancel]
  | ss3 => simp [parser,hc,hcancel,hcontrol]

theorem emit_ne (h : (parser shift).emit q c ≠ (parser shift).emit .ground c) :
    (parser shift).emit q c = [] ∧ (parser shift).emit .ground c = [c] := by
  cases q <;> simp only [parser] at h ⊢ <;> split_ifs at h ⊢ <;> simp_all

/-- A state prints what the ground state prints exactly on harmless text. -/
theorem out_eq_iff (q : State) (cs : List Char) :
    (parser shift).out q cs = (parser shift).out .ground cs ↔ Harmless shift q cs := by
  induction cs with
  | nil => simp
  | cons c cs ih =>
    rw [Mealy.out_cons,Mealy.out_cons]
    cases hreset : resets q c with
    | true =>
      obtain ⟨hnext,hemit⟩ := resets_spec shift hreset
      rw [hnext,hemit]
      exact iff_of_true rfl (harmless_cons_of_resets hreset)
    | false =>
      rw [harmless_cons hreset]
      by_cases hemit : (parser shift).emit q c = (parser shift).emit .ground c
      · obtain ⟨hq,hground⟩ := stays hreset hemit
        simp [hemit,hq,hground,ih]
      · -- the ground state is one character ahead and is never caught up with
        obtain ⟨hnone,hone⟩ := emit_ne hemit
        have hc : c ≠ ESC := by
          rintro rfl
          simp at hreset
        have hlen := (covers_ground shift ((parser shift).next q c) cs).length_le
        rw [hnone,hone,next_ground hc]
        constructor
        · intro h
          have := congrArg List.length h
          simp only [List.nil_append,List.length_append,List.length_singleton] at this
          omega
        · rintro ⟨h,-⟩
          cases h

/-! Texts that strip alike, wherever they stand between sequences. -/

/-- Both texts end between sequences, and print the same. -/
structure Alike (shift : Bool) (cs ds : List Char) : Prop where
  left : (parser shift).state .ground cs = .ground
  right : (parser shift).state .ground ds = .ground
  out : (parser shift).out .ground cs = (parser shift).out .ground ds

theorem Alike.append {cs' ds' : List Char} (h : Alike shift cs ds) (h' : Alike shift cs' ds') :
    Alike shift (cs++cs') (ds++ds') where
  left := by rw [Mealy.state_append,h.left,h'.left]
  right := by rw [Mealy.state_append,h.right,h'.right]
  out := by rw [Mealy.out_append,Mealy.out_append,h.left,h.right,h.out,h'.out]

theorem Alike.strip_eq (h : Alike shift cs ds) : strip shift cs = strip shift ds := h.out

/-- A text without escapes. -/
theorem alike_self (h : ESC ∉ cs) : Alike shift cs cs := by
  exact ⟨state_ground h,state_ground h,rfl⟩

theorem Alike.cons (h : Alike shift cs ds) (hc : c ≠ ESC) : Alike shift (c::cs) (c::ds) :=
  (alike_self (by simpa using hc.symm) : Alike shift [c] [c]).append h

/-! Sequences that have not ended. -/

/-- One escape sequence that has not ended, or a string with the first half of its terminator. -/
def Unended (cs : List Char) : Prop :=
  ∃ body tail, cs = ESC::(body++tail) ∧ ESC ∉ body ∧ (parser true).state .escape body ≠ .ground ∧
    (tail = [] ∨ (tail = [ESC] ∧ ((parser true).state .escape body = .osc ∨
      (parser true).state .escape body = .string)))

theorem unended_iff (h : ESC ∉ cs) :
    Unended (ESC::cs) ↔ (parser true).state .escape cs ≠ .ground := by
  constructor
  · rintro ⟨body,tail,hcs,-,hopen,htail⟩
    obtain rfl := (List.cons.inj hcs).2
    rcases htail with rfl | ⟨rfl,-⟩
    · rwa [List.append_nil]
    · exact absurd (List.mem_append_right _ (List.mem_singleton_self _)) h
  · exact fun hopen => ⟨cs,[],by rw [List.append_nil],h,hopen,.inl rfl⟩

/-- CAN and SUB end whatever has begun. -/
theorem state_of_cancels (h : ESC ∉ cs) (hc : c ∈ cs) (hcancels : cancels c = true) (q : State) :
    (parser shift).state q cs = .ground := by
  obtain ⟨pre,post,rfl⟩ := List.append_of_mem hc
  have hnext : (parser shift).next ((parser shift).state q pre) c = .ground := by
    have hne : c ≠ ESC := by
      rintro rfl
      exact h hc
    simp [parser,hne,hcancels]
  rw [Mealy.state_append,Mealy.state_cons,hnext]
  exact state_ground fun hpost => h (List.mem_append_right _ (List.mem_cons_of_mem _ hpost))

/-- A control sequence without a final character. -/
theorem state_csi (h : ∀ c ∈ cs,c ≠ ESC ∧ cancels c = false ∧ between 0x40 0x7e c = false) :
    (parser shift).state .csi cs = .csi := by
  refine (parser shift).state_of_forall fun c hc => ?_
  obtain ⟨hesc,hcancels,hfinal⟩ := h c hc
  simp [parser,hesc,hcancels,hfinal]

/-- An operating system command without its terminator. -/
theorem state_osc (h : ∀ c ∈ cs,c ≠ ESC ∧ cancels c = false ∧ c ≠ BEL) :
    (parser shift).state .osc cs = .osc := by
  refine (parser shift).state_of_forall fun c hc => ?_
  obtain ⟨hesc,hcancels,hbell⟩ := h c hc
  simp [parser,hesc,hcancels,hbell]

end Vt
