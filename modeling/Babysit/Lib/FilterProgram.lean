import Babysit.Lib.Mealy

/-! Filter programs between two bounded pipes. A filter reads its input and prints what it makes
of it, and the rest at the end of the input; it reads and writes in pieces of any size, and what
it has yet to write is held. Whatever the pieces, what leaves the second pipe is what the program
prints on what entered the first, and a filter that cannot move waits for one of its ends. -/

/-- A transducer with its first state and what it prints at the end of its input. -/
structure FilterProgram (σ α β : Type*) extends Mealy σ α β where
  start : σ
  finish : σ → List β

namespace FilterProgram
variable {σ α β : Type*} (F : FilterProgram σ α β)

/-- What is printed for some input, which has ended or not. -/
def printed (xs : List α) (ended : Bool) : List β :=
  F.out F.start xs ++ if ended then F.finish (F.state F.start xs) else []

theorem printed_append (xs ys : List α) : F.printed (xs++ys) false =
    F.printed xs false ++ F.out (F.state F.start xs) ys := by
  simp [printed,F.out_append]

theorem printed_true (xs : List α) :
    F.printed xs true = F.printed xs false ++ F.finish (F.state F.start xs) := by
  simp [printed]

/-- More input leads to more output. -/
theorem printed_prefix {xs ys : List α} (h : xs <+: ys) (ended : Bool) :
    F.printed xs false <+: F.printed ys ended := by
  obtain ⟨zs,rfl⟩ := h
  cases ended with
  | false => exact ⟨_,(F.printed_append xs zs).symm⟩
  | true => exact ⟨F.out (F.state F.start xs) zs ++ F.finish (F.state F.start (xs++zs)),by
      rw [printed_true,printed_append,List.append_assoc]⟩

end FilterProgram

/-- A pipe, whose writer may have closed it. -/
structure Pipe (α : Type*) where
  cap : ℕ
  queue : List α
  closed : Bool

inductive FilterPhase
  | reading
  | flushing
  | exited
  | killed
  deriving DecidableEq, Repr

/-- A filter between two pipes; it holds what it has yet to write. The ghosts are what it has
read and whether it has seen the end of its input. -/
structure PipedFilter (σ α β : Type*) where
  stdin : Pipe α
  phase : FilterPhase
  state : σ
  held : List β
  stdout : Pipe β
  consumed : List α
  sawEnd : Bool

/-- The end of its input and its exit are still to come. -/
def FilterPhase.endings : FilterPhase → ℕ
  | .reading => 2
  | .flushing => 1
  | .exited | .killed => 0

inductive FilterEvent
  | reads (n : ℕ)
  | readsEnd
  | writes (n : ℕ)
  | exits
  | dies
  deriving DecidableEq, Repr

namespace PipedFilter
variable {σ α β : Type*} {F : FilterProgram σ α β} {p p' : PipedFilter σ α β} {fed xs : List α}
  {drained : List β} {n : ℕ} {e : FilterEvent}

def spawned (F : FilterProgram σ α β) (capIn capOut : ℕ) : PipedFilter σ α β :=
  ⟨⟨capIn,[],false⟩,.reading,F.start,[],⟨capOut,[],false⟩,[],false⟩

/-- One thing that the process does, or its death, which loses what it holds. -/
def step (F : FilterProgram σ α β) (p : PipedFilter σ α β) : FilterEvent → Option (PipedFilter σ α β)
  | .reads n =>
    if p.phase = .reading ∧ 0 < n ∧ n ≤ p.stdin.queue.length then
      let xs := p.stdin.queue.take n
      some { p with
        stdin := { p.stdin with queue := p.stdin.queue.drop n }
        state := F.state p.state xs, held := p.held ++ F.out p.state xs
        consumed := p.consumed ++ xs }
    else none
  | .readsEnd =>
    if p.phase = .reading ∧ p.stdin.queue = [] ∧ p.stdin.closed then
      some { p with phase := .flushing, held := p.held ++ F.finish p.state, sawEnd := true }
    else none
  | .writes n =>
    if (p.phase = .reading ∨ p.phase = .flushing) ∧ 0 < n ∧ n ≤ p.held.length ∧
        p.stdout.queue.length + n ≤ p.stdout.cap then
      some { p with
        held := p.held.drop n
        stdout := { p.stdout with queue := p.stdout.queue ++ p.held.take n } }
    else none
  | .exits =>
    if p.phase = .flushing ∧ p.held = [] then
      some { p with phase := .exited, stdout := { p.stdout with closed := true } }
    else none
  | .dies =>
    if p.phase = .exited then none
    else some { p with phase := .killed, held := [], stdout := { p.stdout with closed := true } }

/-- What its neighbours do. -/
def feeds (p : PipedFilter σ α β) (xs : List α) : PipedFilter σ α β :=
  { p with stdin := { p.stdin with queue := p.stdin.queue ++ xs } }

def closesInput (p : PipedFilter σ α β) : PipedFilter σ α β :=
  { p with stdin := { p.stdin with closed := true } }

def drains (p : PipedFilter σ α β) (n : ℕ) : PipedFilter σ α β :=
  { p with stdout := { p.stdout with queue := p.stdout.queue.drop n } }

/-- It runs. -/
def alive (p : PipedFilter σ α β) : Bool := p.phase = .reading ∨ p.phase = .flushing

/-- The invariant, for all that was fed and all that was drained. -/
structure Kept (F : FilterProgram σ α β) (fed : List α) (drained : List β)
    (p : PipedFilter σ α β) : Prop where
  consumed : p.consumed ++ p.stdin.queue = fed
  state : p.state = F.state F.start p.consumed
  sawEnd : p.sawEnd = true → p.stdin.queue = [] ∧ p.stdin.closed = true
  reading : p.phase = .reading → p.sawEnd = false
  flushing : p.phase = .flushing ∨ p.phase = .exited → p.sawEnd = true
  exited : p.phase = .exited → p.held = []
  printed : p.phase ≠ .killed → drained ++ p.stdout.queue ++ p.held = F.printed p.consumed p.sawEnd
  drained : drained ++ p.stdout.queue <+: F.printed p.consumed p.sawEnd
  closed : p.stdout.closed = true ↔ p.alive = false

theorem spawned_kept (F : FilterProgram σ α β) (capIn capOut : ℕ) :
    Kept F [] [] (spawned F capIn capOut) := by
  constructor <;> simp [spawned,FilterProgram.printed,alive]

theorem Kept.consumed_prefix (h : Kept F fed drained p) : p.consumed <+: fed := ⟨_,h.consumed⟩

theorem Kept.step (h : Kept F fed drained p) (hstep : step F p e = some p') :
    Kept F fed drained p' := by
  cases e with
  | reads n =>
    obtain ⟨⟨hreading,-,-⟩,hstep⟩ := Option.ite_none_right_eq_some.mp hstep
    obtain rfl := Option.some.inj hstep
    have hopen := h.reading hreading
    have hprinted := h.printed (by simp [hreading])
    rw [hopen] at hprinted
    have hnew : drained ++ p.stdout.queue ++ (p.held ++ F.out p.state (p.stdin.queue.take n)) =
        F.printed (p.consumed ++ p.stdin.queue.take n) false := by
      rw [← List.append_assoc,hprinted,h.state,F.printed_append]
    refine { h with consumed := ?_, state := ?_, sawEnd := ?_, exited := ?_, printed := ?_,
                    drained := ?_ }
    · rw [List.append_assoc,List.take_append_drop]
      exact h.consumed
    · rw [F.state_append,h.state]
    · exact fun hend => absurd hend (by simp [hopen])
    · exact fun hexited => absurd hexited (by simp [hreading])
    · exact fun _ => by rw [hopen]; exact hnew
    · rw [hopen]
      exact ⟨_,hnew⟩
  | readsEnd =>
    obtain ⟨⟨hreading,hempty,hclosed⟩,hstep⟩ := Option.ite_none_right_eq_some.mp hstep
    obtain rfl := Option.some.inj hstep
    have hprinted := h.printed (by simp [hreading])
    rw [h.reading hreading] at hprinted
    have hnew : drained ++ p.stdout.queue ++ (p.held ++ F.finish p.state) =
        F.printed p.consumed true := by
      rw [← List.append_assoc,hprinted,h.state,F.printed_true]
    refine { h with sawEnd := ?_, reading := ?_, flushing := ?_, exited := ?_, printed := ?_,
                    drained := ⟨_,hnew⟩, closed := ?_ }
    · exact fun _ => ⟨hempty,hclosed⟩
    · rintro ⟨⟩
    · exact fun _ => rfl
    · rintro ⟨⟩
    · exact fun _ => hnew
    · simpa [alive,hreading] using h.closed
  | writes n =>
    obtain ⟨⟨halive,-,-,-⟩,hstep⟩ := Option.ite_none_right_eq_some.mp hstep
    obtain rfl := Option.some.inj hstep
    have hprinted := h.printed (by rcases halive with hp | hp <;> simp [hp])
    have hnew : drained ++ (p.stdout.queue ++ p.held.take n) ++ p.held.drop n =
        F.printed p.consumed p.sawEnd := by
      rw [← hprinted]
      simp
    refine { h with exited := ?_, printed := fun _ => hnew, drained := ⟨_,hnew⟩ }
    intro hexited
    rcases halive with hp | hp <;> simp [hp] at hexited
  | exits =>
    obtain ⟨⟨hflushing,hheld⟩,hstep⟩ := Option.ite_none_right_eq_some.mp hstep
    obtain rfl := Option.some.inj hstep
    refine { h with reading := ?_, flushing := ?_, exited := ?_, printed := ?_, closed := ?_ }
    · rintro ⟨⟩
    · exact fun _ => h.flushing (.inl hflushing)
    · exact fun _ => hheld
    · exact fun _ => h.printed (by simp [hflushing])
    · simp [alive]
  | dies =>
    obtain ⟨-,hstep⟩ := Option.ite_none_left_eq_some.mp hstep
    obtain rfl := Option.some.inj hstep
    refine { h with reading := ?_, flushing := ?_, exited := ?_, printed := ?_, closed := ?_ }
    · rintro ⟨⟩
    · rintro (⟨⟨⟩⟩ | ⟨⟨⟩⟩)
    · rintro ⟨⟩
    · exact fun hne => absurd rfl hne
    · simp [alive]

/-- It closes no input and changes no pipe's size. -/
theorem step_frame (hstep : step F p e = some p') : p'.stdin.closed = p.stdin.closed ∧
    p'.stdin.cap = p.stdin.cap ∧ p'.stdout.cap = p.stdout.cap := by
  cases e with
  | reads n | readsEnd | writes n | exits =>
    obtain ⟨-,hstep⟩ := Option.ite_none_right_eq_some.mp hstep
    obtain rfl := Option.some.inj hstep
    exact ⟨rfl,rfl,rfl⟩
  | dies =>
    obtain ⟨-,hstep⟩ := Option.ite_none_left_eq_some.mp hstep
    obtain rfl := Option.some.inj hstep
    exact ⟨rfl,rfl,rfl⟩

/-- Once its output is closed nothing is added. -/
theorem Kept.step_closed (h : Kept F fed drained p) (hstep : PipedFilter.step F p e = some p')
    (hclosed : p.stdout.closed = true) : p'.stdout = p.stdout := by
  have hdead := h.closed.mp hclosed
  cases e with
  | reads n =>
    obtain ⟨-,hstep⟩ := Option.ite_none_right_eq_some.mp hstep
    obtain rfl := Option.some.inj hstep
    rfl
  | readsEnd =>
    obtain ⟨-,hstep⟩ := Option.ite_none_right_eq_some.mp hstep
    obtain rfl := Option.some.inj hstep
    rfl
  | writes n =>
    obtain ⟨⟨halive,-⟩,-⟩ := Option.ite_none_right_eq_some.mp hstep
    simp [alive,halive] at hdead
  | exits =>
    obtain ⟨⟨hflushing,-⟩,-⟩ := Option.ite_none_right_eq_some.mp hstep
    simp [alive,hflushing] at hdead
  | dies =>
    obtain ⟨-,hstep⟩ := Option.ite_none_left_eq_some.mp hstep
    obtain rfl := Option.some.inj hstep
    simp [← hclosed]

/-- More input, as long as it has not ended. -/
theorem Kept.feeds (h : Kept F fed drained p) (hopen : p.stdin.closed = false) (xs : List α) :
    Kept F (fed++xs) drained (p.feeds xs) where
  consumed := by simp only [PipedFilter.feeds]; rw [← List.append_assoc,h.consumed]
  state := h.state
  sawEnd hend := by
    have hclosed := (h.sawEnd hend).2
    rw [hopen] at hclosed
    cases hclosed
  reading := h.reading
  flushing := h.flushing
  exited := h.exited
  printed := h.printed
  drained := h.drained
  closed := h.closed

theorem Kept.closesInput (h : Kept F fed drained p) : Kept F fed drained p.closesInput :=
  { h with sawEnd := fun hend => ⟨(h.sawEnd hend).1,rfl⟩ }

theorem Kept.drains (h : Kept F fed drained p) (n : ℕ) :
    Kept F fed (drained ++ p.stdout.queue.take n) (p.drains n) := by
  have hsame : drained ++ p.stdout.queue.take n ++ p.stdout.queue.drop n =
      drained ++ p.stdout.queue := by simp
  refine { h with printed := ?_, drained := ?_ }
  · intro hne
    exact (congrArg (· ++ p.held) hsame).trans (h.printed hne)
  · exact hsame ▸ h.drained

/-- What it has written is part of what it prints on all of its input. -/
theorem Kept.written_prefix (h : Kept F fed drained p) {total : List α} (hfed : fed <+: total)
    (hend : p.sawEnd = true → fed = total) : drained ++ p.stdout.queue <+: F.printed total true := by
  cases hsaw : p.sawEnd with
  | false =>
    have hdrained := h.drained
    rw [hsaw] at hdrained
    exact hdrained.trans (F.printed_prefix (h.consumed_prefix.trans hfed) true)
  | true =>
    have hall : p.consumed = total := by
      rw [← hend hsaw,← h.consumed,(h.sawEnd hsaw).1,List.append_nil]
    have hdrained := h.drained
    rwa [hsaw,hall] at hdrained

theorem step_writes_one (halive : p.phase = .reading ∨ p.phase = .flushing) (hheld : p.held ≠ [])
    (hroom : p.stdout.queue.length < p.stdout.cap) : step F p (.writes 1) ≠ none := by
  have hpos := List.length_pos_iff.mpr hheld
  rw [PipedFilter.step,if_pos ⟨halive,Nat.one_pos,hpos,hroom⟩]
  simp

/-- A filter that cannot move waits for its output to be taken, or for input, or has ended. -/
theorem waits (hcap : 0 < p.stdout.cap) (hstuck : ∀ e, e ≠ .dies → step F p e = none)
    (hkilled : p.phase ≠ .killed) : p.stdout.queue ≠ [] ∨ p.stdout.queue = [] ∧
      (p.phase = .reading ∧ p.stdin.queue = [] ∧ p.stdin.closed = false ∧ p.held = [] ∨
        p.phase = .exited) := by
  by_cases hout : p.stdout.queue = []
  · refine .inr ⟨hout,?_⟩
    have hroom : p.stdout.queue.length < p.stdout.cap := by simpa [hout] using hcap
    cases hphase : p.phase with
    | killed => exact absurd hphase hkilled
    | exited => exact .inr rfl
    | flushing =>
      exfalso
      by_cases hheld : p.held = []
      · have hexits := hstuck .exits (by simp)
        rw [step,if_pos ⟨hphase,hheld⟩] at hexits
        cases hexits
      · exact step_writes_one (.inr hphase) hheld hroom (hstuck _ (by simp))
    | reading =>
      have hheld : p.held = [] := by
        by_contra hheld
        exact step_writes_one (.inl hphase) hheld hroom (hstuck _ (by simp))
      have hempty : p.stdin.queue = [] := by
        by_contra hne
        have hreads := hstuck (.reads 1) (by simp)
        rw [step,if_pos ⟨hphase,Nat.one_pos,List.length_pos_iff.mpr hne⟩] at hreads
        cases hreads
      have hopen : p.stdin.closed = false := by
        by_contra hclosed
        have hend := hstuck .readsEnd (by simp)
        rw [step,if_pos ⟨hphase,hempty,by simpa using hclosed⟩] at hend
        cases hend
      exact .inl ⟨rfl,hempty,hopen,hheld⟩
  · exact .inl hout

/-- How much it has to do itself. -/
def todo (p : PipedFilter σ α β) : ℕ := p.stdin.queue.length + p.phase.endings

theorem todo_feeds (p : PipedFilter σ α β) (xs : List α) :
    (p.feeds xs).todo = p.todo + xs.length := by
  simp only [todo,feeds,List.length_append]
  omega

/-- A step brings it nearer to its end, or writes to its output. -/
theorem step_todo (hstep : step F p e = some p') (he : e ≠ .dies) :
    p'.todo < p.todo ∧ p'.stdout.queue = p.stdout.queue ∨
      p'.todo = p.todo ∧ p.stdout.queue.length < p'.stdout.queue.length := by
  cases e with
  | reads n =>
    obtain ⟨⟨-,hpos,hle⟩,hstep⟩ := Option.ite_none_right_eq_some.mp hstep
    obtain rfl := Option.some.inj hstep
    refine .inl ⟨?_,rfl⟩
    simp only [todo,List.length_drop]
    omega
  | readsEnd =>
    obtain ⟨⟨hreading,-,-⟩,hstep⟩ := Option.ite_none_right_eq_some.mp hstep
    obtain rfl := Option.some.inj hstep
    exact .inl ⟨by simp [todo,hreading,FilterPhase.endings],rfl⟩
  | writes n =>
    obtain ⟨⟨-,hpos,hle,-⟩,hstep⟩ := Option.ite_none_right_eq_some.mp hstep
    obtain rfl := Option.some.inj hstep
    refine .inr ⟨rfl,?_⟩
    simp only [List.length_append,List.length_take]
    omega
  | exits =>
    obtain ⟨⟨hflushing,-⟩,hstep⟩ := Option.ite_none_right_eq_some.mp hstep
    obtain rfl := Option.some.inj hstep
    exact .inl ⟨by simp [todo,hflushing,FilterPhase.endings],rfl⟩
  | dies => exact absurd rfl he

end PipedFilter
