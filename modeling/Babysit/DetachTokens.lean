import Babysit.DetachFilter
import Mathlib.Algebra.Order.Group.Nat
import Mathlib.Data.List.Induction

/-! What the detach filter does to a whole input: nothing is lost, the chunks do not matter,
and the hotkey is completed exactly by a press behind a withheld press. -/
namespace Babysit
namespace DetachFilter

/-- What is done to the filter of a connection. -/
inductive FilterCall
  | push (chunk : List UInt8)
  | flush

def FilterCall.input : FilterCall → List UInt8
  | .push chunk => chunk
  | .flush => []

def call (f : DetachFilter) : FilterCall → Pushed
  | .push chunk => f.push chunk
  | .flush => f.flushPartialEscape

/-- Go on behind a step, unless it has completed the hotkey. -/
def Pushed.andThen (p : Pushed) (next : DetachFilter → Pushed) : Pushed :=
  if p.detach then p
  else ⟨(next p.filter).filter,p.forward ++ (next p.filter).forward,(next p.filter).detach⟩

/-- The calls one after the other, until one reports detach. -/
def runCalls (f : DetachFilter) : List FilterCall → Pushed
  | [] => ⟨f,[],false⟩
  | c::cs => (f.call c).andThen fun g => g.runCalls cs

/-- The chunks of an input without flushes. -/
def pushChunks (f : DetachFilter) (chunks : List (List UInt8)) : Pushed :=
  f.runCalls (chunks.map .push)

/-- The tokens of an input behind an unfinished sequence, and the sequence unfinished then. -/
def tokenise (escape : List UInt8) : List UInt8 → List (List UInt8) × List UInt8
  | [] => ([],escape)
  | byte::bytes =>
    match nextToken escape byte with
    | (escape,none) => tokenise escape bytes
    | (escape,some token) => (token::(tokenise escape bytes).1,(tokenise escape bytes).2)

def handleTokens (f : DetachFilter) : List (List UInt8) → Pushed
  | [] => ⟨f,[],false⟩
  | token::tokens => (f.handleToken token).andThen fun g => g.handleTokens tokens

/-- The filter holds no more than it may. -/
structure Bounded (f : DetachFilter) : Prop where
  withheld : f.withheld.length ≤ MAX_WITHHELD_INPUT
  escape : f.escape.length ≤ 128

/-- What the token at a position is to the hotkey. -/
def eventAt (tokens : List (List UInt8)) (i : ℕ) : Option DetachEvent := tokens[i]?.bind tokenEvent

/-- A press at i, with only repeats and releases behind it, that fit with it. -/
structure PressAt (tokens : List (List UInt8)) (i : ℕ) : Prop where
  press : eventAt tokens i = some .press
  follow : ∀ k, i < k → k < tokens.length → eventAt tokens k = some .repeatOrRelease
  fits : (tokens.drop i).flatten.length ≤ MAX_WITHHELD_INPUT

/-- A press at j behind one at i, with only repeats and releases between, that fit with it. -/
structure DoublePress (tokens : List (List UInt8)) (i j : ℕ) : Prop where
  lt : i < j
  press : eventAt tokens i = some .press
  again : eventAt tokens j = some .press
  follow : ∀ k, i < k → k < j → eventAt tokens k = some .repeatOrRelease
  fits : ((tokens.take j).drop i).flatten.length ≤ MAX_WITHHELD_INPUT

/-- The first one in the input. -/
def FirstDoublePress (tokens : List (List UInt8)) (i j : ℕ) : Prop :=
  DoublePress tokens i j ∧ ∀ i' j', DoublePress tokens i' j' → j ≤ j'

/-- How many bytes there are up to and with the token. -/
def upTo (bytes : List UInt8) (j : ℕ) : ℕ := ((tokenise [] bytes).1.take (j+1)).flatten.length

/-- Whatever chunks the bytes come in, the filter reports with the last byte of the token. -/
structure ReportsAt (bytes : List UInt8) (j : ℕ) : Prop where
  token : j < (tokenise [] bytes).1.length
  silent : ∀ (chunks : List (List UInt8)) (n : ℕ), n < upTo bytes j →
    chunks.flatten = bytes.take n → (default.pushChunks chunks).detach = false
  reports : ∀ (chunks : List (List UInt8)) (more : List UInt8),
    chunks.flatten = bytes.take (upTo bytes j) ++ more → (default.pushChunks chunks).detach = true

variable {f : DetachFilter}

theorem andThen_of_detach {p : Pushed} (h : p.detach = true) (next : DetachFilter → Pushed) :
    p.andThen next = p := if_pos h

theorem andThen_of_not {p : Pushed} (h : p.detach = false) (next : DetachFilter → Pushed) :
    p.andThen next =
      ⟨(next p.filter).filter,p.forward ++ (next p.filter).forward,(next p.filter).detach⟩ :=
  if_neg (by simp [h])

theorem andThen_assoc (p : Pushed) (next last : DetachFilter → Pushed) :
    (p.andThen next).andThen last = p.andThen fun g => (next g).andThen last := by
  by_cases hp : p.detach = true
  · rw [andThen_of_detach hp,andThen_of_detach hp,andThen_of_detach hp]
  · by_cases hnext : (next p.filter).detach = true
    · simp [Pushed.andThen,hp,hnext]
    · simp [Pushed.andThen,hp,hnext]

theorem andThen_start (f : DetachFilter) (next : DetachFilter → Pushed) :
    Pushed.andThen ⟨f,[],false⟩ next = next f := andThen_of_not rfl next

theorem andThen_nothing (p : Pushed) : p.andThen (fun g => ⟨g,[],false⟩) = p := by
  obtain ⟨g,forward,_ | _⟩ := p <;> simp [Pushed.andThen]

theorem push_cons (f : DetachFilter) (byte : UInt8) (bytes : List UInt8) :
    f.push (byte::bytes) = (f.pushByte byte).andThen fun g => g.push bytes := rfl

/-- A chunk is its parts, pushed one after the other. -/
theorem push_append (f : DetachFilter) (xs ys : List UInt8) :
    f.push (xs++ys) = (f.push xs).andThen fun g => g.push ys := by
  induction xs generalizing f with
  | nil => exact (andThen_start f fun g => g.push ys).symm
  | cons x xs ih =>
    rw [List.cons_append,push_cons,push_cons,andThen_assoc]
    congr 1
    funext g
    exact ih g

theorem runCalls_append (f : DetachFilter) (cs ds : List FilterCall) :
    f.runCalls (cs++ds) = (f.runCalls cs).andThen fun g => g.runCalls ds := by
  induction cs generalizing f with
  | nil => exact (andThen_start f fun g => g.runCalls ds).symm
  | cons c cs ih =>
    rw [List.cons_append,runCalls,runCalls,andThen_assoc]
    congr 1
    funext g
    exact ih g

/-- The chunks an input comes in do not matter. -/
theorem pushChunks_eq (f : DetachFilter) (chunks : List (List UInt8)) :
    f.pushChunks chunks = f.push chunks.flatten := by
  induction chunks generalizing f with
  | nil => rfl
  | cons chunk chunks ih =>
    rw [List.flatten_cons,push_append,pushChunks,List.map_cons,runCalls]
    congr 1
    funext g
    exact ih g

/-- What is held in front of what is still to come. -/
def held (f : DetachFilter) : List UInt8 := f.withheld ++ f.escape

/-- A step that has not completed the hotkey has forwarded or holds all it was given. -/
def Keeps (f : DetachFilter) (input : List UInt8) (p : Pushed) : Prop :=
  p.filter.Bounded ∧ (p.detach = false → p.forward ++ p.filter.held = f.held ++ input)

theorem Keeps.andThen {input more : List UInt8} {p : Pushed} {next : DetachFilter → Pushed}
    (h : f.Keeps input p) (hnext : p.filter.Bounded → p.filter.Keeps more (next p.filter)) :
    f.Keeps (input++more) (p.andThen next) := by
  obtain ⟨hbounded,hkept⟩ := h
  cases hp : p.detach with
  | true =>
    rw [andThen_of_detach hp]
    exact ⟨hbounded,fun hno => absurd (hp.symm.trans hno) (by simp)⟩
  | false =>
    rw [andThen_of_not hp]
    obtain ⟨hafter,hrest⟩ := hnext hbounded
    refine ⟨hafter,fun hno => ?_⟩
    dsimp only at hno ⊢
    rw [List.append_assoc,hrest hno,← List.append_assoc,hkept hp,List.append_assoc]

theorem keeps_handleToken (hf : f.Bounded) (hescape : f.escape = []) {token : List UInt8}
    (htoken : token.length ≤ 129) : f.Keeps token (f.handleToken token) := by
  have hother : f.Keeps token (f.handleOther token) := by
    refine ⟨⟨Nat.zero_le _,hf.escape⟩,fun _ => ?_⟩
    simp [handleOther,held,hescape]
  cases hevent : tokenEvent token with
  | none =>
    rw [handleToken_none f hevent]
    exact hother
  | some event =>
    cases event with
    | press =>
      rw [handleToken_press f hevent]
      split_ifs with hwithheld
      · exact ⟨hf,fun h => absurd h (by simp)⟩
      · rw [not_not] at hwithheld
        refine ⟨⟨?_,hf.escape⟩,fun _ => ?_⟩
        · exact Nat.le_trans htoken (by decide)
        · simp [held,hescape,hwithheld]
    | repeatOrRelease =>
      rw [handleToken_repeatOrRelease f hevent]
      split_ifs with hfits
      · refine ⟨⟨?_,hf.escape⟩,fun _ => ?_⟩
        · rw [List.length_append]
          exact hfits.2
        · simp [held,hescape]
      · exact hother

/-- A byte extends the sequence, which stays short, or completes it. -/
theorem nextToken_cases (escape : List UInt8) (byte : UInt8) :
    (nextToken escape byte = (escape++[byte],none) ∧ (escape++[byte]).length ≤ 128) ∨
      nextToken escape byte = ([],some (escape++[byte])) := by
  unfold nextToken
  by_cases hescape : escape = []
  · subst hescape
    rw [if_neg (by simp)]
    split_ifs with hbyte
    · exact .inl ⟨by rw [hbyte]; rfl,by simp⟩
    · exact .inr rfl
  · rw [if_pos hescape]
    dsimp only
    split_ifs with hdone
    · exact .inr rfl
    · exact .inl ⟨rfl,by omega⟩

theorem keeps_pushByte (hf : f.Bounded) (byte : UInt8) : f.Keeps [byte] (f.pushByte byte) := by
  have hlen := hf.escape
  rw [pushByte_eq]
  rcases nextToken_cases f.escape byte with ⟨hnext,hshort⟩ | hnext
  · rw [hnext]
    refine ⟨⟨hf.withheld,hshort⟩,fun _ => ?_⟩
    simp [held]
  · rw [hnext]
    have hempty : ({ f with escape := [] } : DetachFilter).Bounded := ⟨hf.withheld,Nat.zero_le _⟩
    have hfits : (f.escape++[byte]).length ≤ 129 := by
      rw [List.length_append,List.length_singleton]
      omega
    have hkeeps := keeps_handleToken hempty rfl hfits
    refine ⟨hkeeps.1,fun hno => (hkeeps.2 hno).trans ?_⟩
    simp [held]

theorem keeps_push (hf : f.Bounded) (bytes : List UInt8) : f.Keeps bytes (f.push bytes) := by
  induction bytes generalizing f with
  | nil => exact ⟨hf,fun _ => (List.append_nil _).symm⟩
  | cons byte bytes ih =>
    rw [push_cons]
    change f.Keeps ([byte]++bytes) _
    exact (keeps_pushByte hf byte).andThen fun hg => ih hg

theorem keeps_call (hf : f.Bounded) (c : FilterCall) : f.Keeps c.input (f.call c) := by
  cases c with
  | push chunk => exact keeps_push hf chunk
  | flush =>
    refine ⟨⟨Nat.zero_le _,Nat.zero_le _⟩,fun _ => ?_⟩
    simp [call,flushPartialEscape,handleOther,held,FilterCall.input]

theorem keeps_runCalls (hf : f.Bounded) (cs : List FilterCall) :
    f.Keeps (cs.flatMap FilterCall.input) (f.runCalls cs) := by
  induction cs generalizing f with
  | nil => exact ⟨hf,fun _ => (List.append_nil _).symm⟩
  | cons c cs ih =>
    rw [List.flatMap_cons,runCalls]
    exact (keeps_call hf c).andThen fun hg => ih hg

theorem bounded_default : default.Bounded := ⟨Nat.zero_le _,Nat.zero_le _⟩

/-- The filter is transparent until the hotkey is completed, holds no more than it may, and
does not depend on how the input between two flushes was cut. -/
theorem transparent_and_bounded (cs : List FilterCall) :
    ((default.runCalls cs).detach = false → (default.runCalls cs).forward ++
      ((default.runCalls cs).filter.withheld ++ (default.runCalls cs).filter.escape) =
        cs.flatMap FilterCall.input) ∧
      (default.runCalls cs).filter.Bounded ∧
      ∀ (chunks chunks' : List (List UInt8)) (ds : List FilterCall),
        chunks.flatten = chunks'.flatten →
          default.runCalls (cs ++ chunks.map .push ++ ds) =
            default.runCalls (cs ++ chunks'.map .push ++ ds) := by
  obtain ⟨hbounded,hkept⟩ := keeps_runCalls bounded_default cs
  refine ⟨hkept,hbounded,fun chunks chunks' ds heq => ?_⟩
  have hsame : ∀ g : DetachFilter, g.runCalls (chunks.map .push) = g.runCalls (chunks'.map .push) := by
    intro g
    exact (pushChunks_eq g chunks).trans (heq ▸ (pushChunks_eq g chunks').symm)
  rw [runCalls_append,runCalls_append,runCalls_append,runCalls_append]
  congr 2
  funext g
  exact hsame g

/-- A press that nothing follows is forwarded when another key comes. -/
theorem transparent_and_bounded_lone_press :
    (default.runCalls [.push [0x1c],.push [97],.flush]).forward ++
      ((default.runCalls [.push [0x1c],.push [97],.flush]).filter.withheld ++
        (default.runCalls [.push [0x1c],.push [97],.flush]).filter.escape) = [0x1c,97] :=
  (transparent_and_bounded [.push [0x1c],.push [97],.flush]).1 (by decide)

section tokens
variable {tokens : List (List UInt8)} {token : List UInt8} {i j k : ℕ}

theorem eventAt_lt {event : DetachEvent} (h : eventAt tokens i = some event) : i < tokens.length := by
  obtain ⟨token,htoken,-⟩ := Option.bind_eq_some_iff.mp h
  exact (List.getElem?_eq_some_iff.mp htoken).1

theorem eventAt_append (h : i < tokens.length) (more : List (List UInt8)) :
    eventAt (tokens++more) i = eventAt tokens i := by
  rw [eventAt,eventAt,List.getElem?_append_left h]

theorem eventAt_snoc_of_lt (h : i < tokens.length) :
    eventAt (tokens++[token]) i = eventAt tokens i := eventAt_append h _

theorem eventAt_snoc_self : eventAt (tokens++[token]) tokens.length = tokenEvent token := by
  simp [eventAt]

/-- The press that is withheld is one only. -/
theorem PressAt.unique (hi : PressAt tokens i) (hj : PressAt tokens j) : i = j := by
  rcases Nat.lt_trichotomy i j with hlt | heq | hlt
  · have hevent := hi.follow j hlt (eventAt_lt hj.press)
    rw [hj.press] at hevent
    cases hevent
  · exact heq
  · have hevent := hj.follow i hlt (eventAt_lt hi.press)
    rw [hi.press] at hevent
    cases hevent

theorem pressAt_snoc_iff : PressAt (tokens++[token]) i ↔
    (i = tokens.length ∧ tokenEvent token = some .press ∧ token.length ≤ MAX_WITHHELD_INPUT) ∨
      (PressAt tokens i ∧ tokenEvent token = some .repeatOrRelease ∧
        (tokens.drop i).flatten.length + token.length ≤ MAX_WITHHELD_INPUT) := by
  constructor
  · intro h
    have hlt := eventAt_lt h.press
    rw [List.length_append,List.length_singleton] at hlt
    have hfits := h.fits
    rw [List.drop_append_of_le_length (by omega),List.flatten_append,List.length_append] at hfits
    by_cases hi : i = tokens.length
    · subst hi
      have hpress := h.press
      rw [eventAt_snoc_self] at hpress
      refine .inl ⟨rfl,hpress,?_⟩
      simpa using hfits
    · have hlt : i < tokens.length := by omega
      have hpress := h.press
      rw [eventAt_snoc_of_lt hlt] at hpress
      have hlast := h.follow tokens.length hlt (by simp)
      rw [eventAt_snoc_self] at hlast
      have hsum : (tokens.drop i).flatten.length + token.length ≤ MAX_WITHHELD_INPUT := by
        simpa using hfits
      refine .inr ⟨⟨hpress,fun k hk hlen => ?_,by omega⟩,hlast,hsum⟩
      rw [← eventAt_snoc_of_lt hlen]
      exact h.follow k hk (by simp; omega)
  · rintro (⟨rfl,hpress,hfits⟩ | ⟨h,hevent,hfits⟩)
    · refine ⟨by rw [eventAt_snoc_self,hpress],fun k hk hlen => ?_,by simpa using hfits⟩
      rw [List.length_append,List.length_singleton] at hlen
      omega
    · have hlt := eventAt_lt h.press
      refine ⟨by rw [eventAt_snoc_of_lt hlt,h.press],fun k hk hlen => ?_,?_⟩
      · rw [List.length_append,List.length_singleton] at hlen
        by_cases hlast : k = tokens.length
        · rw [hlast,eventAt_snoc_self,hevent]
        · have hbefore : k < tokens.length := by omega
          rw [eventAt_snoc_of_lt hbefore]
          exact h.follow k hk hbefore
      · rw [List.drop_append_of_le_length (by omega)]
        simpa using hfits

/-- What comes behind the second press does not matter. -/
theorem doublePress_append_iff (hj : j < tokens.length) (more : List (List UInt8)) :
    DoublePress (tokens++more) i j ↔ DoublePress tokens i j := by
  have hevent : ∀ k, k ≤ j → eventAt (tokens++more) k = eventAt tokens k :=
    fun k hk => eventAt_append (Nat.lt_of_le_of_lt hk hj) more
  have htake : (tokens++more).take j = tokens.take j := List.take_append_of_le_length hj.le
  constructor
  · intro h
    refine ⟨h.lt,?_,?_,fun k hik hkj => ?_,htake ▸ h.fits⟩
    · rw [← hevent i h.lt.le,h.press]
    · rw [← hevent j (Nat.le_refl _),h.again]
    · rw [← hevent k hkj.le]
      exact h.follow k hik hkj
  · intro h
    refine ⟨h.lt,?_,?_,fun k hik hkj => ?_,htake ▸ h.fits⟩
    · rw [hevent i h.lt.le,h.press]
    · rw [hevent j (Nat.le_refl _),h.again]
    · rw [hevent k hkj.le]
      exact h.follow k hik hkj

/-- The last token completes a hotkey exactly when it is a press behind a withheld one. -/
theorem doublePress_snoc_iff : DoublePress (tokens++[token]) i j ↔ DoublePress tokens i j ∨
    (j = tokens.length ∧ tokenEvent token = some .press ∧ PressAt tokens i) := by
  by_cases hj : j < tokens.length
  · rw [doublePress_append_iff hj]
    exact ⟨.inl,fun h => h.resolve_right fun hlast => by omega⟩
  constructor
  · intro h
    have hlt := eventAt_lt h.again
    rw [List.length_append,List.length_singleton] at hlt
    obtain rfl : j = tokens.length := by omega
    have hagain := h.again
    have hfits := h.fits
    rw [eventAt_snoc_self] at hagain
    rw [List.take_left] at hfits
    refine .inr ⟨rfl,hagain,?_,fun k hik hkj => ?_,hfits⟩
    · rw [← eventAt_snoc_of_lt h.lt,h.press]
    · rw [← eventAt_snoc_of_lt hkj]
      exact h.follow k hik hkj
  · rintro (h | ⟨rfl,hevent,h⟩)
    · exact absurd (eventAt_lt h.again) hj
    · have hlt := eventAt_lt h.press
      refine ⟨hlt,?_,by rw [eventAt_snoc_self,hevent],fun k hik hkj => ?_,?_⟩
      · rw [eventAt_snoc_of_lt hlt,h.press]
      · rw [eventAt_snoc_of_lt hkj]
        exact h.follow k hik hkj
      · rw [List.take_left]
        exact h.fits

/-- The first of the two presses is the last one before the second. -/
theorem DoublePress.unique (hi : DoublePress tokens i j) (hk : DoublePress tokens k j) : i = k := by
  rcases Nat.lt_trichotomy i k with hlt | heq | hlt
  · have hevent := hi.follow k hlt hk.lt
    rw [hk.press] at hevent
    cases hevent
  · exact heq
  · have hevent := hk.follow i hlt hi.lt
    rw [hi.press] at hevent
    cases hevent

theorem handleTokens_snoc (f : DetachFilter) (tokens : List (List UInt8)) (token : List UInt8) :
    f.handleTokens (tokens++[token]) =
      (f.handleTokens tokens).andThen fun g => g.handleToken token := by
  induction tokens generalizing f with
  | nil =>
    rw [List.nil_append,handleTokens,handleTokens,andThen_start]
    exact andThen_nothing _
  | cons first tokens ih =>
    rw [List.cons_append,handleTokens,handleTokens,andThen_assoc]
    congr 1
    funext g
    exact ih g

/-- Where the filter is behind tokens that have not completed the hotkey: it has forwarded
them all, or all in front of a press it withholds. -/
inductive Stands (tokens : List (List UInt8)) : Pushed → Prop
  | forwarded : (∀ i, ¬PressAt tokens i) → Stands tokens ⟨default,tokens.flatten,false⟩
  | withholds {i : ℕ} : PressAt tokens i → Stands tokens
      ⟨⟨(tokens.drop i).flatten,[]⟩,(tokens.take i).flatten,false⟩

theorem not_pressAt_snoc (hall : ∀ i, ¬PressAt tokens i) (hpress : tokenEvent token ≠ some .press) :
    ∀ i, ¬PressAt (tokens++[token]) i := by
  intro i hi
  rcases pressAt_snoc_iff.mp hi with ⟨-,hevent,-⟩ | ⟨hold,-⟩
  · exact hpress hevent
  · exact hall i hold

/-- A token behind an input that is forwarded. -/
theorem stands_forwarded (hall : ∀ i, ¬PressAt tokens i) (hlen : token.length ≤ MAX_WITHHELD_INPUT) :
    Stands (tokens++[token])
      (Pushed.andThen ⟨default,tokens.flatten,false⟩ fun g => g.handleToken token) := by
  rw [andThen_of_not rfl]
  have hother : tokenEvent token ≠ some .press → Stands (tokens++[token])
      ⟨(default.handleOther token).filter,tokens.flatten ++ (default.handleOther token).forward,
        (default.handleOther token).detach⟩ := by
    intro hpress
    have hforwarded := Stands.forwarded (not_pressAt_snoc hall hpress)
    rw [List.flatten_append,List.flatten_singleton] at hforwarded
    exact hforwarded
  cases hevent : tokenEvent token with
  | none =>
    rw [handleToken_none _ hevent]
    exact hother (by simp [hevent])
  | some event =>
    cases event with
    | press =>
      rw [handleToken_press _ hevent,if_neg (by simp [default])]
      have hpress : PressAt (tokens++[token]) tokens.length :=
        pressAt_snoc_iff.mpr (.inl ⟨rfl,hevent,hlen⟩)
      have hwithholds := Stands.withholds hpress
      rw [List.drop_left,List.take_left,List.flatten_singleton] at hwithholds
      simpa [default] using hwithholds
    | repeatOrRelease =>
      rw [handleToken_repeatOrRelease _ hevent,if_neg (by simp [default])]
      exact hother (by simp [hevent])

/-- A withheld press is not empty. -/
theorem PressAt.withheld_ne_nil (h : PressAt tokens i) : (tokens.drop i).flatten ≠ [] := by
  obtain ⟨token,htoken,hevent⟩ := Option.bind_eq_some_iff.mp h.press
  intro hnil
  obtain ⟨hlt,rfl⟩ := List.getElem?_eq_some_iff.mp htoken
  have hempty := List.flatten_eq_nil_iff.mp hnil tokens[i]
    (List.mem_drop_iff_getElem.mpr ⟨0,by simpa using hlt,by simp⟩)
  rw [hempty] at hevent
  cases hevent

/-- A token that is no press, behind a withheld one. -/
theorem PressAt.stands (h : PressAt tokens i) (hpress : tokenEvent token ≠ some .press) :
    Stands (tokens++[token]) (Pushed.andThen
      ⟨⟨(tokens.drop i).flatten,[]⟩,(tokens.take i).flatten,false⟩ fun g => g.handleToken token) := by
  rw [andThen_of_not rfl]
  have hlt := eventAt_lt h.press
  have hother : ¬PressAt (tokens++[token]) i → Stands (tokens++[token])
      ⟨⟨[],[]⟩,(tokens.take i).flatten ++ ((tokens.drop i).flatten ++ token),false⟩ := by
    intro hno
    have hnone : ∀ k, ¬PressAt (tokens++[token]) k := by
      intro k hk
      rcases pressAt_snoc_iff.mp hk with ⟨-,hevent,-⟩ | ⟨hold,-⟩
      · exact hpress hevent
      · exact hno (h.unique hold ▸ hk)
    have hforwarded := Stands.forwarded hnone
    rw [List.flatten_append,List.flatten_singleton] at hforwarded
    rw [← List.append_assoc,← List.flatten_append,List.take_append_drop]
    exact hforwarded
  cases hevent : tokenEvent token with
  | none =>
    rw [handleToken_none _ hevent]
    refine hother fun hi => ?_
    rcases pressAt_snoc_iff.mp hi with ⟨heq,-⟩ | ⟨-,hrepeat,-⟩
    · omega
    · rw [hevent] at hrepeat
      cases hrepeat
  | some event =>
    cases event with
    | press => exact absurd hevent hpress
    | repeatOrRelease =>
      rw [handleToken_repeatOrRelease _ hevent]
      dsimp only
      by_cases hfits : (tokens.drop i).flatten.length + token.length ≤ MAX_WITHHELD_INPUT
      · rw [if_pos ⟨h.withheld_ne_nil,hfits⟩]
        have hpress : PressAt (tokens++[token]) i := pressAt_snoc_iff.mpr (.inr ⟨h,hevent,hfits⟩)
        have hwithholds := Stands.withholds hpress
        rw [List.drop_append_of_le_length (by omega),List.take_append_of_le_length (by omega),
          List.flatten_append,List.flatten_singleton] at hwithholds
        simpa using hwithholds
      · rw [if_neg fun hboth => hfits hboth.2]
        refine hother fun hi => ?_
        rcases pressAt_snoc_iff.mp hi with ⟨heq,-⟩ | ⟨-,-,hroom⟩
        · omega
        · exact hfits hroom

/-- The filter detaches at the first press behind a withheld one, with what is in front of the
withheld one forwarded. -/
theorem handleTokens_spec (hlen : ∀ token ∈ tokens, token.length ≤ MAX_WITHHELD_INPUT) :
    (Stands tokens (default.handleTokens tokens) ∧ ∀ i j, ¬DoublePress tokens i j) ∨
      ((default.handleTokens tokens).detach = true ∧ ∃ i j, FirstDoublePress tokens i j ∧
        (default.handleTokens tokens).forward = (tokens.take i).flatten) := by
  induction tokens using List.reverseRecOn with
  | nil =>
    refine .inl ⟨.forwarded fun i hi => ?_,fun i j hij => ?_⟩
    · cases hi.press
    · cases hij.press
  | append_singleton tokens token ih =>
    rw [handleTokens_snoc]
    have hbefore : ∀ t ∈ tokens, t.length ≤ MAX_WITHHELD_INPUT :=
      fun t ht => hlen t (List.mem_append_left _ ht)
    have hlast := hlen token (by simp)
    rcases ih hbefore with ⟨hstands,hnone⟩ | ⟨hdetach,i,j,⟨hdouble,hfirst⟩,hforward⟩
    · generalize default.handleTokens tokens = p at hstands
      cases hstands with
      | forwarded hall =>
        refine .inl ⟨stands_forwarded hall hlast,fun i j hij => ?_⟩
        rcases doublePress_snoc_iff.mp hij with hold | ⟨-,-,hpress⟩
        · exact hnone i j hold
        · exact hall i hpress
      | @withholds i hi =>
        by_cases hpress : tokenEvent token = some .press
        · right
          rw [andThen_of_not rfl,handleToken_press _ hpress,if_pos hi.withheld_ne_nil]
          refine ⟨rfl,i,tokens.length,⟨doublePress_snoc_iff.mpr (.inr ⟨rfl,hpress,hi⟩),?_⟩,?_⟩
          · intro i' j' hij
            rcases doublePress_snoc_iff.mp hij with hold | ⟨heq,-⟩
            · exact absurd hold (hnone i' j')
            · exact heq.ge
          · rw [List.take_append_of_le_length (eventAt_lt hi.press).le]
            exact List.append_nil _
        · refine .inl ⟨hi.stands hpress,fun i j hij => ?_⟩
          rcases doublePress_snoc_iff.mp hij with hold | ⟨-,hevent,-⟩
          · exact hnone i j hold
          · exact hpress hevent
    · right
      rw [andThen_of_detach hdetach]
      have hj := eventAt_lt hdouble.again
      refine ⟨hdetach,i,j,⟨doublePress_snoc_iff.mpr (.inl hdouble),?_⟩,?_⟩
      · intro i' j' hij
        rcases doublePress_snoc_iff.mp hij with hold | ⟨heq,-⟩
        · exact hfirst i' j' hold
        · omega
      · rw [List.take_append_of_le_length (eventAt_lt hdouble.press).le]
        exact hforward

theorem handleToken_escape (f : DetachFilter) (token : List UInt8) :
    (f.handleToken token).filter.escape = f.escape := by
  cases hevent : tokenEvent token with
  | none =>
    rw [handleToken_none f hevent]
    rfl
  | some event =>
    cases event with
    | press =>
      rw [handleToken_press f hevent]
      split_ifs <;> rfl
    | repeatOrRelease =>
      rw [handleToken_repeatOrRelease f hevent]
      split_ifs <;> rfl

/-- Pushing bytes is handling their tokens. -/
theorem push_eq_handleTokens (withheld escape bytes : List UInt8) :
    (push ⟨withheld,escape⟩ bytes).detach =
        (handleTokens ⟨withheld,[]⟩ (tokenise escape bytes).1).detach ∧
      (push ⟨withheld,escape⟩ bytes).forward =
        (handleTokens ⟨withheld,[]⟩ (tokenise escape bytes).1).forward := by
  induction bytes generalizing withheld escape with
  | nil => exact ⟨rfl,rfl⟩
  | cons byte bytes ih =>
    rw [push_cons,pushByte_eq,tokenise]
    rcases nextToken_cases escape byte with ⟨hnext,-⟩ | hnext
    · rw [hnext]
      dsimp only
      rw [andThen_start]
      exact ih withheld (escape++[byte])
    · rw [hnext]
      dsimp only
      rw [handleTokens]
      have hescape := handleToken_escape ⟨withheld,[]⟩ (escape++[byte])
      generalize handleToken ⟨withheld,[]⟩ (escape++[byte]) = p at hescape
      obtain ⟨⟨held,rest⟩,forward,detach⟩ := p
      obtain rfl : rest = [] := hescape
      cases detach with
      | true => exact ⟨rfl,rfl⟩
      | false =>
        rw [andThen_of_not rfl,andThen_of_not rfl]
        exact ⟨(ih held []).1,congrArg (forward ++ ·) (ih held []).2⟩

theorem tokenise_append (escape xs ys : List UInt8) : (tokenise escape (xs++ys)).1 =
    (tokenise escape xs).1 ++ (tokenise (tokenise escape xs).2 ys).1 := by
  induction xs generalizing escape with
  | nil => rfl
  | cons x xs ih =>
    rw [List.cons_append,tokenise,tokenise]
    split
    · exact ih _
    · dsimp only
      rw [ih,List.cons_append]

/-- The tokens and the unfinished sequence are the input. -/
theorem tokenise_flatten (escape bytes : List UInt8) :
    (tokenise escape bytes).1.flatten ++ (tokenise escape bytes).2 = escape ++ bytes := by
  induction bytes generalizing escape with
  | nil => exact (List.append_nil _).symm
  | cons byte bytes ih =>
    rw [tokenise]
    rcases nextToken_cases escape byte with ⟨hnext,-⟩ | hnext
    · rw [hnext]
      dsimp only
      rw [ih,List.append_assoc]
      rfl
    · rw [hnext]
      dsimp only
      rw [List.flatten_cons,List.append_assoc,ih,List.append_assoc]
      rfl

/-- A token is not empty, and no longer than the byte past an overlong sequence makes it. -/
theorem tokenise_length {escape : List UInt8} (hescape : escape.length ≤ 128) (bytes : List UInt8) :
    ∀ token ∈ (tokenise escape bytes).1, token ≠ [] ∧ token.length ≤ 129 := by
  induction bytes generalizing escape with
  | nil =>
    intro token htoken
    cases htoken
  | cons byte bytes ih =>
    rw [tokenise]
    rcases nextToken_cases escape byte with ⟨hnext,hshort⟩ | hnext
    · rw [hnext]
      exact ih hshort
    · rw [hnext]
      intro token htoken
      rcases List.mem_cons.mp htoken with rfl | htoken
      · refine ⟨by simp,?_⟩
        rw [List.length_append,List.length_singleton]
        omega
      · exact ih (Nat.zero_le _) token htoken

theorem tokens_length (bytes : List UInt8) :
    ∀ token ∈ (tokenise [] bytes).1, token ≠ [] ∧ token.length ≤ 129 :=
  tokenise_length (Nat.zero_le _) bytes

/-- The bytes of the first tokens are these tokens. -/
theorem tokenise_split {escape bytes : List UInt8} (hj : j < (tokenise escape bytes).1.length) :
    ∃ xs ys, bytes = xs ++ ys ∧ tokenise escape xs = ((tokenise escape bytes).1.take (j+1),[]) := by
  induction bytes generalizing escape j with
  | nil => cases hj
  | cons byte bytes ih =>
    rw [tokenise] at hj ⊢
    rcases nextToken_cases escape byte with ⟨hnext,-⟩ | hnext
    · rw [hnext] at hj ⊢
      obtain ⟨xs,ys,rfl,hxs⟩ := ih hj
      refine ⟨byte::xs,ys,rfl,?_⟩
      rw [tokenise,hnext]
      exact hxs
    · rw [hnext] at hj ⊢
      cases j with
      | zero =>
        refine ⟨[byte],bytes,rfl,?_⟩
        rw [tokenise,hnext]
        rfl
      | succ j =>
        obtain ⟨xs,ys,rfl,hxs⟩ := ih (Nat.lt_of_succ_lt_succ hj)
        refine ⟨byte::xs,ys,rfl,?_⟩
        rw [tokenise,hnext]
        dsimp only
        rw [hxs]
        rfl

theorem Stands.detach_eq {p : Pushed} (h : Stands tokens p) : p.detach = false := by
  cases h <;> rfl

/-- The chunks of an input detach the client at its first double press. -/
theorem pushChunks_spec (chunks : List (List UInt8)) :
    ((default.pushChunks chunks).detach = false ∧
        ∀ i j, ¬DoublePress (tokenise [] chunks.flatten).1 i j) ∨
      ((default.pushChunks chunks).detach = true ∧
        ∃ i j, FirstDoublePress (tokenise [] chunks.flatten).1 i j ∧
          (default.pushChunks chunks).forward =
            ((tokenise [] chunks.flatten).1.take i).flatten) := by
  obtain ⟨hdetach,hforward⟩ := push_eq_handleTokens [] [] chunks.flatten
  rw [pushChunks_eq,show default = ⟨[],[]⟩ from rfl,hdetach,hforward]
  have hlen : ∀ token ∈ (tokenise [] chunks.flatten).1, token.length ≤ MAX_WITHHELD_INPUT := by
    intro token htoken
    exact (tokens_length chunks.flatten token htoken).2.trans (by decide)
  rcases handleTokens_spec hlen with ⟨hstands,hnone⟩ | hdouble
  · exact .inl ⟨hstands.detach_eq,hnone⟩
  · exact .inr hdouble

/-- More tokens have more bytes. -/
theorem flatten_take_lt {bytes : List UInt8} (hjk : j < k)
    (hk : k < (tokenise [] bytes).1.length) : upTo bytes j < upTo bytes k := by
  unfold upTo
  have hne := tokens_length bytes
  generalize (tokenise [] bytes).1 = tokens at hk hne
  have hsplit : tokens.take (k+1) = tokens.take (j+1) ++ (tokens.take (k+1)).drop (j+1) := by
    conv_lhs => rw [← List.take_append_drop (j+1) (tokens.take (k+1))]
    rw [List.take_take,Nat.min_eq_left (by omega)]
  rw [hsplit,List.flatten_append,List.length_append]
  have hmem : tokens[k] ∈ (tokens.take (k+1)).drop (j+1) := by
    refine List.mem_drop_iff_getElem.mpr ⟨k-(j+1),?_,?_⟩
    · rw [List.length_take]
      omega
    · rw [List.getElem_take]
      congr 1
      omega
  have hpos := List.length_pos_iff.mpr (hne tokens[k] (List.getElem_mem hk)).1
  have hle := (List.sublist_flatten_of_mem hmem).length_le
  omega

/-- The bytes up to a token, with what comes behind them. -/
theorem tokenise_upTo {bytes : List UInt8} (hj : j < (tokenise [] bytes).1.length)
    (more : List UInt8) : (tokenise [] (bytes.take (upTo bytes j) ++ more)).1 =
      (tokenise [] bytes).1.take (j+1) ++ (tokenise [] more).1 := by
  obtain ⟨xs,ys,hbytes,hxs⟩ := tokenise_split hj
  have hflatten := tokenise_flatten [] xs
  rw [hxs,List.append_nil,List.nil_append] at hflatten
  have htake : bytes.take (upTo bytes j) = xs := by
    rw [upTo,hflatten,hbytes,List.take_left]
  rw [htake,tokenise_append,hxs]

/-- A shorter input has fewer tokens. -/
theorem tokenise_take {bytes : List UInt8} {n : ℕ} (hn : n < upTo bytes j) :
    ∃ k, k ≤ j ∧ (tokenise [] (bytes.take n)).1 = (tokenise [] bytes).1.take k := by
  have hsplit := tokenise_append [] (bytes.take n) (bytes.drop n)
  rw [List.take_append_drop] at hsplit
  have hshort := congrArg List.length (tokenise_flatten [] (bytes.take n))
  simp only [List.length_append,List.nil_append,List.length_take] at hshort
  have htaken : (tokenise [] (bytes.take n)).1 =
      (tokenise [] bytes).1.take (tokenise [] (bytes.take n)).1.length := by
    rw [hsplit,List.take_left]
  refine ⟨_,?_,htaken⟩
  by_contra hmany
  have hle : upTo bytes j ≤ (tokenise [] (bytes.take n)).1.flatten.length := by
    rw [upTo,hsplit,List.take_append_of_le_length (by omega)]
    conv_rhs => rw [← List.take_append_drop (j+1) (tokenise [] (bytes.take n)).1]
    rw [List.flatten_append,List.length_append]
    exact Nat.le_add_right _ _
  omega

theorem take_succ_append (hj : j < tokens.length) (more : List (List UInt8)) {j' : ℕ}
    (hle : j' ≤ j) : DoublePress (tokens.take (j+1) ++ more) i j' ↔ DoublePress tokens i j' := by
  have hlen : j' < (tokens.take (j+1)).length := by
    rw [List.length_take]
    omega
  rw [doublePress_append_iff hlen]
  conv_rhs => rw [← List.take_append_drop (j+1) tokens]
  exact (doublePress_append_iff hlen _).symm

/-- The first double press of the input is the first one of the bytes up to some token behind
it, whatever comes behind them. -/
theorem first_upTo_iff {bytes : List UInt8} (hk : k < (tokenise [] bytes).1.length) (hjk : j ≤ k)
    (more : List UInt8) :
    FirstDoublePress (tokenise [] (bytes.take (upTo bytes k) ++ more)).1 i j ↔
      FirstDoublePress (tokenise [] bytes).1 i j := by
  rw [tokenise_upTo hk,FirstDoublePress,FirstDoublePress,take_succ_append hk _ hjk]
  refine and_congr_right fun _ => ⟨fun hfirst i' j' h => ?_,fun hfirst i' j' h => ?_⟩
  · by_contra hlt
    exact hlt (hfirst i' j' ((take_succ_append hk _ (by omega)).mpr h))
  · by_contra hlt
    exact hlt (hfirst i' j' ((take_succ_append hk _ (by omega)).mp h))

/-- With the bytes up to the second press the client is detached. -/
theorem FirstDoublePress.detaches {bytes : List UInt8}
    (hi : FirstDoublePress (tokenise [] bytes).1 i j) {chunks : List (List UInt8)}
    {more : List UInt8} (hchunks : chunks.flatten = bytes.take (upTo bytes j) ++ more) :
    (default.pushChunks chunks).detach = true ∧
      (default.pushChunks chunks).forward = ((tokenise [] bytes).1.take i).flatten := by
  have hij := hi.1.lt
  have hj := eventAt_lt hi.1.again
  have hfirst := (first_upTo_iff hj (Nat.le_refl j) more).mpr hi
  rw [← hchunks] at hfirst
  rcases pushChunks_spec chunks with ⟨-,hnone⟩ | ⟨hdetach,i',j',hfirst',hforward⟩
  · exact absurd hfirst.1 (hnone i j)
  · obtain rfl : j' = j := Nat.le_antisymm (hfirst'.2 _ _ hfirst.1) (hfirst.2 _ _ hfirst'.1)
    obtain rfl := hfirst.1.unique hfirst'.1
    refine ⟨hdetach,?_⟩
    rw [hforward,hchunks,tokenise_upTo hj,List.take_append_of_le_length,List.take_take,
      Nat.min_eq_left]
    · omega
    · rw [List.length_take]
      omega

/-- The filter reports detach at a token exactly when it is the first press that comes behind
another press with only repeats and releases between, that fit with it; all in front of that
other press is forwarded then, and nothing else. -/
theorem detaches_at_double_press (bytes : List UInt8) (j : ℕ) :
    (ReportsAt bytes j ↔ ∃ i, FirstDoublePress (tokenise [] bytes).1 i j) ∧
      ∀ i, FirstDoublePress (tokenise [] bytes).1 i j → ∀ (chunks : List (List UInt8))
        (more : List UInt8), chunks.flatten = bytes.take (upTo bytes j) ++ more →
          (default.pushChunks chunks).forward = ((tokenise [] bytes).1.take i).flatten := by
  refine ⟨⟨fun h => ?_,?_⟩,fun i hi chunks more hchunks => (hi.detaches hchunks).2⟩
  · -- the report is due to a double press, which comes no earlier
    have hreports := h.reports [bytes.take (upTo bytes j)] [] (by simp)
    rcases pushChunks_spec [bytes.take (upTo bytes j)] with ⟨hno,-⟩ | ⟨-,i,j',hfirst,-⟩
    · rw [hreports] at hno
      cases hno
    · rw [List.flatten_singleton,← List.append_nil (bytes.take (upTo bytes j))] at hfirst
      have hlt := eventAt_lt hfirst.1.again
      rw [tokenise_upTo h.token] at hlt
      simp only [tokenise,List.append_nil,List.length_take] at hlt
      have hle : j' ≤ j := by omega
      have hwhole := (first_upTo_iff h.token hle []).mp hfirst
      rcases hle.eq_or_lt with rfl | hearlier
      · exact ⟨i,hwhole⟩
      · have hsilent := h.silent [bytes.take (upTo bytes j')] (upTo bytes j')
          (flatten_take_lt hearlier h.token) (by simp)
        rw [(hwhole.detaches (by rw [List.append_nil]; exact List.flatten_singleton)).1] at hsilent
        cases hsilent
  · rintro ⟨i,hi⟩
    refine ⟨eventAt_lt hi.1.again,fun chunks n hn hchunks => ?_,fun chunks more hchunks =>
      (hi.detaches hchunks).1⟩
    rcases pushChunks_spec chunks with ⟨hno,-⟩ | ⟨-,i',j',⟨hdouble,-⟩,-⟩
    · exact hno
    · -- a shorter input has no double press
      obtain ⟨k,hk,htokens⟩ := tokenise_take hn
      rw [hchunks,htokens] at hdouble
      have hlt := eventAt_lt hdouble.again
      have hwhole := (doublePress_append_iff hlt ((tokenise [] bytes).1.drop k)).mpr hdouble
      rw [List.take_append_drop] at hwhole
      have hfirst := hi.2 i' j' hwhole
      rw [List.length_take] at hlt
      omega

theorem detaches_at_double_press_behind_text : ReportsAt [97,0x1c,0x1c] 2 ∧
    (default.pushChunks [[97,0x1c],[0x1c]]).forward = [97] := by
  have hfirst : FirstDoublePress (tokenise [] [97,0x1c,0x1c]).1 1 2 := by
    refine ⟨⟨by decide,by decide,by decide,fun k hk hk' => by omega,by decide⟩,fun i j h => ?_⟩
    by_contra hj
    have hlt := h.lt
    obtain rfl : i = 0 := by omega
    exact absurd h.press (by decide)
  have hspec := detaches_at_double_press [97,0x1c,0x1c] 2
  exact ⟨hspec.1.mpr ⟨1,hfirst⟩,hspec.2 1 hfirst [[97,0x1c],[0x1c]] [] (by decide)⟩

end tokens
end DetachFilter
end Babysit
