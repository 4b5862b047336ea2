import Babysit.ControlConn
import Babysit.Hub
import Babysit.Lib.Labelled
import Babysit.Lib.Transition
import Babysit.Lib.Utf8

/-! Input for the command. Every Send request and every input frame is a task of its own: it
takes the current pane and writes to it under the writer's lock. A Send acquires the lock
twice, for its text and for its newline. -/
namespace Babysit
open Labelled

inductive Input
  | send (text : String) (newline : Bool)
  | frame (payload : List UInt8)
  deriving DecidableEq, Repr

namespace Input

def text : Input → List UInt8
  | .send text _ => Utf8.encode text.toList
  | .frame payload => payload

def newline : Input → Bool
  | .send _ newline => newline
  | .frame _ => false

/-- The whole message: the text and its newline. -/
def message (m : Input) : List UInt8 := m.text ++ if m.newline then [NEWLINE] else []

end Input

/-- What a task does next: take the current pane, write its text there, or write its newline.
The ghost `written` is how much of the text has been written. -/
inductive InputStage
  | accepted
  | text (pane : ℕ)
  | newline (pane written : ℕ)
  | done
  deriving DecidableEq, Repr

structure InputTask where
  input : Input
  stage : InputStage
  deriving DecidableEq, Repr

/-- For each pane the bytes its command has been given, each with the index of the task that
wrote it. The last pane is the current one. -/
structure InputWorld where
  panes : List (List (ℕ × UInt8))
  tasks : List InputTask
  deriving DecidableEq, Repr

inductive InputEvent
  | request (input : Input)
  | clonesPane (i : ℕ)
  | writesText (i : ℕ) (result : WriteResult)
  | writesNewline (i : ℕ) (result : WriteResult)
  | restart

namespace InputWorld

def start : InputWorld := ⟨[[]],[]⟩

/-- `write_input`: the error of `write_all` is dropped. -/
def writeInput (w : InputWorld) (pane i : ℕ) (written : List UInt8) (stage : InputStage)
    (t : InputTask) : InputWorld :=
  ⟨w.panes.modify pane (· ++ label i written),w.tasks.set i { t with stage := stage }⟩

def step (w : InputWorld) : InputEvent → Option InputWorld
  | .request input => some { w with tasks := w.tasks ++ [⟨input,.accepted⟩] }
  | .clonesPane i => do
    let t ← w.tasks[i]?
    if t.stage = .accepted then
      some { w with tasks := w.tasks.set i { t with stage := .text (w.panes.length-1) } }
    else none
  | .writesText i result => do
    let t ← w.tasks[i]?
    match t.stage with
    | .text pane =>
      let written := result.written t.input.text
      some (w.writeInput pane i written
        (if t.input.newline then .newline pane written.length else .done) t)
    | _ => none
  | .writesNewline i result => do
    let t ← w.tasks[i]?
    match t.stage with
    | .newline pane _ => some (w.writeInput pane i (result.written [NEWLINE]) .done t)
    | _ => none
  | .restart => some { w with panes := w.panes ++ [[]] }

/-- The message of a task. -/
def message (w : InputWorld) (i : ℕ) : List UInt8 :=
  ((w.tasks[i]?).map fun t => t.input.message).getD []

/-- Each pane has been given whole messages of finished tasks in some order, and at most the
text of one more that is at its newline. -/
def MessagesWhole (w : InputWorld) : Prop :=
  ∀ pane stdin, w.panes[pane]? = some stdin → ∃ order : List ℕ, order.Nodup ∧
    (∀ i ∈ order, ∃ t, w.tasks[i]? = some t ∧ t.stage = .done) ∧
    (stdin = blocks w.message order ∨
      ∃ i t n, w.tasks[i]? = some t ∧ t.stage = .newline pane n ∧
        stdin = blocks w.message order ++ label i t.input.text)

/-- A task has written some of its text to the pane, and its newline is still to come. -/
def AtNewline (w : InputWorld) (pane : ℕ) : Prop :=
  ∃ t ∈ w.tasks, ∃ n, t.stage = .newline pane n ∧ 0 < n

/-- A write is whole, and does not come between another task's text and its newline. A task
whose text is not written at all writes no newline either. -/
def WritesWhole (w : InputWorld) : InputEvent → Prop
  | .writesText i result => ∀ t pane, w.tasks[i]? = some t → t.stage = .text pane →
      result.written t.input.text = [] ∨
        result.written t.input.text = t.input.text ∧ ¬w.AtNewline pane
  | .writesNewline i result => ∀ t pane n, w.tasks[i]? = some t → t.stage = .newline pane n →
      (n = 0 ∧ result.written [NEWLINE] = []) ∨
        n = t.input.text.length ∧ result.written [NEWLINE] = [NEWLINE] ∧
          (n = 0 → ¬w.AtNewline pane)
  | _ => True

variable {w w' : InputWorld} {e : InputEvent}

/-- What a step can do. -/
inductive Move (w : InputWorld) : InputEvent → InputWorld → Prop
  | request {input} : Move w (.request input) { w with tasks := w.tasks ++ [⟨input,.accepted⟩] }
  | clonesPane {i t} : w.tasks[i]? = some t → t.stage = .accepted → Move w (.clonesPane i)
      { w with tasks := w.tasks.set i { t with stage := .text (w.panes.length-1) } }
  | writesText {i t pane result} : w.tasks[i]? = some t → t.stage = .text pane →
      Move w (.writesText i result) (w.writeInput pane i (result.written t.input.text)
        (if t.input.newline then .newline pane (result.written t.input.text).length else .done) t)
  | writesNewline {i t pane n result} : w.tasks[i]? = some t → t.stage = .newline pane n →
      Move w (.writesNewline i result)
        (w.writeInput pane i (result.written [NEWLINE]) .done t)
  | restart : Move w .restart { w with panes := w.panes ++ [[]] }

theorem step_move (h : w.step e = some w') : w.Move e w' := by
  cases e with
  | request input =>
    obtain rfl := Option.some.inj h
    exact .request
  | clonesPane i =>
    simp only [step,Option.bind_eq_bind,Option.bind_eq_some_iff] at h
    obtain ⟨t,ht,h⟩ := h
    split_ifs at h with hstage
    obtain rfl := Option.some.inj h
    exact .clonesPane ht hstage
  | writesText i result =>
    simp only [step,Option.bind_eq_bind,Option.bind_eq_some_iff] at h
    obtain ⟨t,ht,h⟩ := h
    split at h
    next pane hstage =>
      obtain rfl := Option.some.inj h
      exact .writesText ht hstage
    next => cases h
  | writesNewline i result =>
    simp only [step,Option.bind_eq_bind,Option.bind_eq_some_iff] at h
    obtain ⟨t,ht,h⟩ := h
    split at h
    next pane n hstage =>
      obtain rfl := Option.some.inj h
      exact .writesNewline ht hstage
    next => cases h
  | restart =>
    obtain rfl := Option.some.inj h
    exact .restart

/-- A task that has written some of its text to the pane, its newline being still to come. -/
def HoldsPane (w : InputWorld) (pane i : ℕ) (t : InputTask) : Prop :=
  w.tasks[i]? = some t ∧ ∃ n, t.stage = .newline pane n ∧ 0 < n

theorem atNewline_iff {pane : ℕ} : w.AtNewline pane ↔ ∃ i t, w.HoldsPane pane i t := by
  constructor
  · rintro ⟨t,ht,hn⟩
    obtain ⟨i,hi⟩ := List.mem_iff_getElem?.mp ht
    exact ⟨i,t,hi,hn⟩
  · rintro ⟨i,t,hi,hn⟩
    exact ⟨t,List.mem_of_getElem? hi,hn⟩

/-- What a pane has been given, with the order of its whole messages. -/
structure Ordered (w : InputWorld) (pane : ℕ) (stdin : List (ℕ × UInt8)) (order : List ℕ) :
    Prop where
  nodup : order.Nodup
  finished : ∀ i ∈ order, ∃ t, w.tasks[i]? = some t ∧ t.stage = .done
  closed : ¬w.AtNewline pane → stdin = blocks w.message order
  opened : ∀ i t, w.HoldsPane pane i t → stdin = blocks w.message order ++ label i t.input.text

/-- The invariant. A task at its newline has written all of its text or nothing of it. -/
structure Good (w : InputWorld) : Prop where
  current : 0 < w.panes.length
  panes : ∀ t ∈ w.tasks, ∀ pane, t.stage = .text pane ∨ (∃ n, t.stage = .newline pane n) →
    pane < w.panes.length
  newline : ∀ t ∈ w.tasks, ∀ pane n, t.stage = .newline pane n →
    t.input.newline = true ∧ (0 < n → n = t.input.text.length)
  ordered : ∀ pane stdin, w.panes[pane]? = some stdin → ∃ order, w.Ordered pane stdin order

theorem good_start : start.Good where
  current := Nat.one_pos
  panes t ht := by cases ht
  newline t ht := by cases ht
  ordered pane stdin h := by
    refine ⟨[],List.nodup_nil,by simp,fun _ => ?_,?_⟩
    · have hmem := List.mem_of_getElem? h
      simpa [start] using hmem
    · rintro i t ⟨ht,-⟩
      simp [start] at ht

theorem Good.messagesWhole (h : w.Good) : w.MessagesWhole := by
  intro pane stdin hpane
  obtain ⟨order,ho⟩ := h.ordered pane stdin hpane
  refine ⟨order,ho.nodup,ho.finished,?_⟩
  by_cases hopen : w.AtNewline pane
  · obtain ⟨i,t,ht⟩ := atNewline_iff.mp hopen
    obtain ⟨hget,n,hn,-⟩ := id ht
    exact .inr ⟨i,t,n,hget,hn,ho.opened i t ht⟩
  · exact .inl (ho.closed hopen)

theorem message_of_task {i : ℕ} {t : InputTask} (h : w.tasks[i]? = some t) :
    w.message i = t.input.message := by
  simp [message,h]

/-- A step that writes nothing to the pane, keeps the tasks that hold it, and keeps finished
tasks finished. -/
theorem Ordered.stays {pane : ℕ} {stdin : List (ℕ × UInt8)} {order : List ℕ}
    (h : w.Ordered pane stdin order)
    (hdone : ∀ (i : ℕ) (t : InputTask), w.tasks[i]? = some t → t.stage = .done →
      w'.tasks[i]? = some t)
    (hholds : ∀ i t, w'.HoldsPane pane i t ↔ w.HoldsPane pane i t) :
    w'.Ordered pane stdin order := by
  have hmessages : blocks w'.message order = blocks w.message order := by
    apply blocks_congr
    intro i hi
    obtain ⟨t,ht,hstage⟩ := h.finished i hi
    rw [message_of_task ht,message_of_task (hdone i t ht hstage)]
  refine ⟨h.nodup,?_,?_,?_⟩
  · intro i hi
    obtain ⟨t,ht,hstage⟩ := h.finished i hi
    exact ⟨t,hdone i t ht hstage,hstage⟩
  · intro hopen
    rw [hmessages]
    apply h.closed
    rw [atNewline_iff] at hopen ⊢
    simpa only [hholds] using hopen
  · intro i t ht
    rw [hmessages]
    exact h.opened i t ((hholds i t).mp ht)

/-- A task moves on without holding the pane before or after. -/
theorem Ordered.moves {pane i : ℕ} {stdin : List (ℕ × UInt8)} {order : List ℕ} {t : InputTask}
    (h : w.Ordered pane stdin order) (ht : w.tasks[i]? = some t) (hdone : t.stage ≠ .done)
    (hbefore : ¬∃ n, t.stage = .newline pane n ∧ 0 < n) {stage : InputStage}
    (hafter : ¬∃ n, stage = .newline pane n ∧ 0 < n) (panes : List (List (ℕ × UInt8))) :
    Ordered ⟨panes,w.tasks.set i { t with stage := stage }⟩ pane stdin order := by
  have hlt := (List.getElem?_eq_some_iff.mp ht).1
  apply h.stays
  · intro j s hs hstage
    have hne : i ≠ j := by
      rintro rfl
      rw [Option.some.inj (ht.symm.trans hs)] at hdone
      exact hdone hstage
    simpa [List.getElem?_set_ne hne] using hs
  · intro j s
    unfold HoldsPane
    by_cases hij : i = j
    · subst hij
      dsimp only
      rw [List.getElem?_set_self hlt,ht,Option.some.injEq,Option.some.injEq]
      constructor
      · rintro ⟨rfl,hn⟩
        exact absurd hn hafter
      · rintro ⟨rfl,hn⟩
        exact absurd hn hbefore
    · simp only [List.getElem?_set_ne hij]

/-- A new task holds no pane. -/
theorem Ordered.accepts {pane : ℕ} {stdin : List (ℕ × UInt8)} {order : List ℕ}
    (h : w.Ordered pane stdin order) (input : Input) :
    Ordered { w with tasks := w.tasks ++ [⟨input,.accepted⟩] } pane stdin order := by
  have hkept : ∀ (i : ℕ) (t : InputTask), w.tasks[i]? = some t →
      (w.tasks ++ [⟨input,.accepted⟩])[i]? = some t := by
    intro i t ht
    exact (List.getElem?_append_left (List.getElem?_eq_some_iff.mp ht).1).trans ht
  apply h.stays
  · intro i t ht _
    exact hkept i t ht
  · intro i t
    constructor
    · rintro ⟨ht,n,hn,hpos⟩
      dsimp only at ht
      rw [List.getElem?_append] at ht
      split_ifs at ht with hlt
      · exact ⟨ht,n,hn,hpos⟩
      · rw [List.mem_singleton.mp (List.mem_of_getElem? ht)] at hn
        cases hn
    · rintro ⟨ht,hn⟩
      exact ⟨hkept i t ht,hn⟩

/-- A task finishes with its message whole at the end of the pane's input. -/
theorem Ordered.finishes {pane i : ℕ} {stdin : List (ℕ × UInt8)} {order : List ℕ} {t : InputTask}
    (h : w.Ordered pane stdin order) (ht : w.tasks[i]? = some t) (hdone : t.stage ≠ .done)
    (hothers : ∀ j s, w.HoldsPane pane j s → j = i) (panes : List (List (ℕ × UInt8))) :
    Ordered ⟨panes,w.tasks.set i { t with stage := .done }⟩ pane
      (blocks w.message order ++ label i t.input.message) (order++[i]) := by
  have hlt := (List.getElem?_eq_some_iff.mp ht).1
  have hnot : i ∉ order := by
    intro hmem
    obtain ⟨s,hs,hstage⟩ := h.finished i hmem
    rw [Option.some.inj (ht.symm.trans hs)] at hdone
    exact hdone hstage
  have hne : ∀ j ∈ order, i ≠ j := by
    rintro j hj rfl
    exact hnot hj
  have hholds : ∀ j s, ¬HoldsPane ⟨panes,w.tasks.set i { t with stage := .done }⟩ pane j s := by
    rintro j s ⟨hs,n,hn,hpos⟩
    dsimp only at hs
    by_cases hij : i = j
    · subst hij
      rw [List.getElem?_set_self hlt] at hs
      obtain rfl := Option.some.inj hs
      cases hn
    · rw [List.getElem?_set_ne hij] at hs
      exact hij (hothers j s ⟨hs,n,hn,hpos⟩).symm
  have hblocks : blocks (message ⟨panes,w.tasks.set i { t with stage := .done }⟩) (order++[i]) =
      blocks w.message order ++ label i t.input.message := by
    rw [blocks_snoc]
    congr 1
    · apply blocks_congr
      intro j hj
      simp only [message,List.getElem?_set_ne (hne j hj)]
    · simp only [message,List.getElem?_set_self hlt,Option.map_some,Option.getD_some]
  refine ⟨?_,?_,fun _ => hblocks.symm,fun j s hs => absurd hs (hholds j s)⟩
  · refine List.nodup_append.mpr ⟨h.nodup,List.nodup_singleton i,?_⟩
    intro j hj k hk
    obtain rfl := List.mem_singleton.mp hk
    exact (hne j hj).symm
  · intro j hj
    rcases List.mem_append.mp hj with hj | hj
    · obtain ⟨s,hs,hstage⟩ := h.finished j hj
      exact ⟨s,by simpa [List.getElem?_set_ne (hne j hj)] using hs,hstage⟩
    · obtain rfl := List.mem_singleton.mp hj
      exact ⟨_,List.getElem?_set_self hlt,rfl⟩

/-- A task writes its text and has its newline still to write. -/
theorem Ordered.opens {pane i : ℕ} {stdin : List (ℕ × UInt8)} {order : List ℕ} {t : InputTask}
    (h : w.Ordered pane stdin order) (ht : w.tasks[i]? = some t) (hstage : t.stage = .text pane)
    (hclosed : ¬w.AtNewline pane) {n : ℕ} (hn : 0 < n) (panes : List (List (ℕ × UInt8))) :
    Ordered ⟨panes,w.tasks.set i { t with stage := .newline pane n }⟩ pane
      (stdin ++ label i t.input.text) order := by
  have hlt := (List.getElem?_eq_some_iff.mp ht).1
  have hne : ∀ j ∈ order, i ≠ j := by
    rintro j hj rfl
    obtain ⟨s,hs,hdone⟩ := h.finished i hj
    rw [← Option.some.inj (ht.symm.trans hs),hstage] at hdone
    cases hdone
  have hmessages : blocks (message ⟨panes,w.tasks.set i { t with stage := .newline pane n }⟩)
      order = blocks w.message order := by
    apply blocks_congr
    intro j hj
    simp only [message,List.getElem?_set_ne (hne j hj)]
  have hself : HoldsPane ⟨panes,w.tasks.set i { t with stage := .newline pane n }⟩ pane i
      { t with stage := .newline pane n } := ⟨List.getElem?_set_self hlt,n,rfl,hn⟩
  refine ⟨h.nodup,?_,fun hopen => absurd (atNewline_iff.mpr ⟨i,_,hself⟩) hopen,?_⟩
  · intro j hj
    obtain ⟨s,hs,hdone⟩ := h.finished j hj
    exact ⟨s,by simpa [List.getElem?_set_ne (hne j hj)] using hs,hdone⟩
  · rintro j s ⟨hs,hholds⟩
    dsimp only at hs
    by_cases hij : i = j
    · subst hij
      rw [List.getElem?_set_self hlt] at hs
      obtain rfl := Option.some.inj hs
      rw [hmessages,h.closed hclosed]
    · rw [List.getElem?_set_ne hij] at hs
      exact absurd (atNewline_iff.mpr ⟨j,s,hs,hholds⟩) hclosed

/-- The two bounds of the invariant under a change of one task. -/
theorem Good.set (h : w.Good) {i : ℕ} {t : InputTask} {stage : InputStage}
    (hpanes : ∀ pane, stage = .text pane ∨ (∃ n, stage = .newline pane n) →
      pane < w.panes.length)
    (hnewline : ∀ pane n, stage = .newline pane n →
      t.input.newline = true ∧ (0 < n → n = t.input.text.length))
    {panes : List (List (ℕ × UInt8))} (hlen : panes.length = w.panes.length)
    (hordered : ∀ pane stdin, panes[pane]? = some stdin →
      ∃ order, Ordered ⟨panes,w.tasks.set i { t with stage := stage }⟩ pane stdin order) :
    Good ⟨panes,w.tasks.set i { t with stage := stage }⟩ := by
  refine ⟨hlen ▸ h.current,?_,?_,hordered⟩
  · intro s hs pane hstage
    dsimp only at hs ⊢
    rw [hlen]
    rcases List.mem_or_eq_of_mem_set hs with hs | rfl
    · exact h.panes s hs pane hstage
    · exact hpanes pane hstage
  · intro s hs pane n hstage
    rcases List.mem_or_eq_of_mem_set hs with hs | rfl
    · exact h.newline s hs pane n hstage
    · exact hnewline pane n hstage

/-- A write: what it does to its own pane is left to show. -/
theorem Good.wrote (h : w.Good) {i pane : ℕ} {t : InputTask} (ht : w.tasks[i]? = some t)
    (hat : t.stage = .text pane ∨ ∃ n, t.stage = .newline pane n) {written : List UInt8}
    {stage : InputStage} (hnext : stage = .done ∨ ∃ n, stage = .newline pane n ∧
      t.input.newline = true ∧ (0 < n → n = t.input.text.length))
    (hpane : ∀ stdin order, w.panes[pane]? = some stdin → w.Ordered pane stdin order →
      ∃ order', Ordered ⟨w.panes.modify pane (· ++ label i written),
        w.tasks.set i { t with stage := stage }⟩ pane (stdin ++ label i written) order') :
    (w.writeInput pane i written stage t).Good := by
  apply h.set
  · intro p hp
    have hlt := h.panes t (List.mem_of_getElem? ht) pane hat
    rcases hnext with rfl | ⟨n,rfl,-⟩
    · rcases hp with hp | ⟨m,hp⟩ <;> cases hp
    · rcases hp with hp | ⟨m,hp⟩
      · cases hp
      · cases hp
        exact hlt
  · intro p n hp
    rcases hnext with rfl | ⟨m,rfl,hm⟩
    · cases hp
    · cases hp
      exact hm
  · exact List.length_modify _ _ _
  · intro p stdin hp
    rw [List.getElem?_modify] at hp
    obtain ⟨before,hbefore,hp⟩ := Option.map_eq_some_iff.mp hp
    obtain ⟨order,ho⟩ := h.ordered p before hbefore
    by_cases hsame : pane = p
    · subst hsame
      rw [if_pos rfl] at hp
      subst hp
      exact hpane before order hbefore ho
    · rw [if_neg hsame] at hp
      subst hp
      refine ⟨order,ho.moves ht ?_ ?_ ?_ _⟩
      · rcases hat with hat | ⟨n,hat⟩ <;> simp [hat]
      · rintro ⟨n,hn,-⟩
        rcases hat with hat | ⟨m,hat⟩
        · rw [hat] at hn
          cases hn
        · rw [hat] at hn
          cases hn
          exact hsame rfl
      · rintro ⟨n,hn,-⟩
        rcases hnext with rfl | ⟨m,rfl,-⟩
        · cases hn
        · cases hn
          exact hsame rfl

theorem Good.writesText (h : w.Good) {i pane : ℕ} {t : InputTask} {result : WriteResult}
    (ht : w.tasks[i]? = some t) (hstage : t.stage = .text pane)
    (hwhole : result.written t.input.text = [] ∨
      result.written t.input.text = t.input.text ∧ ¬w.AtNewline pane) :
    Good (w.writeInput pane i (result.written t.input.text)
      (if t.input.newline then .newline pane (result.written t.input.text).length else .done) t) := by
  have hdone : t.stage ≠ .done := by simp [hstage]
  have hbefore : ¬∃ n, t.stage = .newline pane n ∧ 0 < n := by simp [hstage]
  apply h.wrote ht (.inl hstage)
  · split_ifs with hnewline
    · refine .inr ⟨_,rfl,hnewline,fun hpos => ?_⟩
      rcases hwhole with hnone | ⟨hall,-⟩
      · rw [hnone] at hpos
        cases hpos
      · rw [hall]
    · exact .inl rfl
  · intro stdin order hstdin ho
    by_cases hempty : result.written t.input.text = []
    · -- nothing is written
      rw [hempty,label_nil,List.append_nil]
      refine ⟨order,ho.moves ht hdone hbefore ?_ _⟩
      split_ifs <;> simp
    · obtain ⟨hall,hclosed⟩ := hwhole.resolve_left hempty
      rw [hall] at hempty ⊢
      have hpos := List.length_pos_iff.mpr hempty
      split_ifs with hnewline
      · exact ⟨order,ho.opens ht hstage hclosed hpos _⟩
      · have hmessage : t.input.message = t.input.text := by simp [Input.message,hnewline]
        have hfinishes := ho.finishes ht hdone
          (fun j s hs => absurd (atNewline_iff.mpr ⟨j,s,hs⟩) hclosed)
          (w.panes.modify pane (· ++ label i t.input.text))
        rw [hmessage,← ho.closed hclosed] at hfinishes
        exact ⟨_,hfinishes⟩

theorem Good.writesNewline (h : w.Good) {i pane n : ℕ} {t : InputTask} {result : WriteResult}
    (ht : w.tasks[i]? = some t) (hstage : t.stage = .newline pane n)
    (hwhole : (n = 0 ∧ result.written [NEWLINE] = []) ∨
      n = t.input.text.length ∧ result.written [NEWLINE] = [NEWLINE] ∧
        (n = 0 → ¬w.AtNewline pane)) :
    Good (w.writeInput pane i (result.written [NEWLINE]) .done t) := by
  have hdone : t.stage ≠ .done := by simp [hstage]
  have hnewline := (h.newline t (List.mem_of_getElem? ht) pane n hstage).1
  have hmessage : t.input.message = t.input.text ++ [NEWLINE] := by
    simp [Input.message,hnewline]
  apply h.wrote ht (.inr ⟨n,hstage⟩) (.inl rfl)
  intro stdin order hstdin ho
  rcases hwhole with ⟨rfl,hnone⟩ | ⟨hlen,hall,hclosed⟩
  · rw [hnone,label_nil,List.append_nil]
    refine ⟨order,ho.moves ht hdone ?_ (by simp) _⟩
    rintro ⟨m,hm,hpos⟩
    rw [hstage] at hm
    cases hm
    cases hpos
  · rw [hall]
    rcases Nat.eq_zero_or_pos n with rfl | hpos
    · -- an empty text: the newline is the message
      have hclosed := hclosed rfl
      have htext : t.input.text = [] := List.eq_nil_of_length_eq_zero hlen.symm
      have hfinishes := ho.finishes ht hdone
        (fun j s hs => absurd (atNewline_iff.mpr ⟨j,s,hs⟩) hclosed)
        (w.panes.modify pane (· ++ label i [NEWLINE]))
      rw [hmessage,htext,List.nil_append,← ho.closed hclosed] at hfinishes
      exact ⟨_,hfinishes⟩
    · have hself : w.HoldsPane pane i t := ⟨ht,n,hstage,hpos⟩
      have htext : t.input.text ≠ [] := by
        rw [hlen] at hpos
        exact List.length_pos_iff.mp hpos
      have hothers : ∀ j s, w.HoldsPane pane j s → j = i := by
        intro j s hs
        obtain ⟨hget,m,hm,hmpos⟩ := id hs
        have hslen := (h.newline s (List.mem_of_getElem? hget) pane m hm).2 hmpos
        rw [hslen] at hmpos
        exact eq_of_append_label (List.length_pos_iff.mp hmpos) htext
          ((ho.opened j s hs).symm.trans (ho.opened i t hself))
      have hfinishes := ho.finishes ht hdone hothers
        (w.panes.modify pane (· ++ label i [NEWLINE]))
      rw [hmessage,label_append,← List.append_assoc,← ho.opened i t hself] at hfinishes
      exact ⟨_,hfinishes⟩

theorem good_step (w : InputWorld) (e : InputEvent) (w' : InputWorld) (hstep : w.step e = some w')
    (hc : w.WritesWhole e) (h : w.Good) : w'.Good := by
  cases step_move hstep with
  | @request input =>
    refine ⟨h.current,?_,?_,?_⟩
    · intro t ht pane hpane
      rcases List.mem_append.mp ht with ht | ht
      · exact h.panes t ht pane hpane
      · rw [List.mem_singleton.mp ht] at hpane
        rcases hpane with hpane | ⟨n,hpane⟩ <;> cases hpane
    · intro t ht pane n hstage
      rcases List.mem_append.mp ht with ht | ht
      · exact h.newline t ht pane n hstage
      · rw [List.mem_singleton.mp ht] at hstage
        cases hstage
    · intro pane stdin hpane
      obtain ⟨order,ho⟩ := h.ordered pane stdin hpane
      exact ⟨order,ho.accepts input⟩
  | clonesPane ht hstage =>
    apply h.set
    · rintro pane (hpane | ⟨n,hpane⟩)
      · cases hpane
        exact Nat.sub_lt h.current Nat.one_pos
      · cases hpane
    · intro pane n hpane
      cases hpane
    · rfl
    · intro pane stdin hpane
      obtain ⟨order,ho⟩ := h.ordered pane stdin hpane
      exact ⟨order,ho.moves ht (by simp [hstage]) (by simp [hstage]) (by simp) _⟩
  | writesText ht hstage => exact h.writesText ht hstage (hc _ _ ht hstage)
  | writesNewline ht hstage => exact h.writesNewline ht hstage (hc _ _ _ ht hstage)
  | restart =>
    refine ⟨by simp,?_,h.newline,?_⟩
    · intro t ht pane hpane
      have hlt := h.panes t ht pane hpane
      rw [List.length_append]
      exact Nat.lt_add_right _ hlt
    · intro pane stdin hpane
      dsimp only at hpane
      rw [List.getElem?_append] at hpane
      split_ifs at hpane with hlt
      · obtain ⟨order,ho⟩ := h.ordered pane stdin hpane
        exact ⟨order,ho.nodup,ho.finished,ho.closed,ho.opened⟩
      · obtain rfl := List.mem_singleton.mp (List.mem_of_getElem? hpane)
        refine ⟨[],List.nodup_nil,by simp,fun _ => rfl,?_⟩
        rintro i t ⟨ht,n,hn,-⟩
        exact absurd (h.panes t (List.mem_of_getElem? ht) pane (.inr ⟨n,hn⟩)) hlt

/-- What a task has written to a pane whose messages are whole: nothing, its whole message
once it is done, or its text while it is at its newline. -/
theorem MessagesWhole.own_cases (h : w.MessagesWhole) {pane i : ℕ} {stdin : List (ℕ × UInt8)}
    (hpane : w.panes[pane]? = some stdin) {t : InputTask} (ht : w.tasks[i]? = some t) :
    own i stdin = [] ∨ (t.stage = .done ∧ own i stdin = t.input.message) ∨
      ∃ n, t.stage = .newline pane n ∧ own i stdin = t.input.text := by
  obtain ⟨order,hnodup,hfinished,hstdin⟩ := h pane stdin hpane
  have hblocks : own i (blocks w.message order) = [] ∨
      t.stage = .done ∧ own i (blocks w.message order) = t.input.message := by
    by_cases hi : i ∈ order
    · obtain ⟨s,hs,hdone⟩ := hfinished i hi
      obtain rfl := Option.some.inj (ht.symm.trans hs)
      exact .inr ⟨hdone,by rw [own_blocks_of_mem hnodup hi,message_of_task ht]⟩
    · exact .inl (own_blocks_of_not_mem hi)
  rcases hstdin with rfl | ⟨j,s,n,hs,hstage,rfl⟩
  · exact hblocks.imp_right .inl
  · rw [own_append]
    by_cases hij : j = i
    · subst hij
      obtain rfl := Option.some.inj (ht.symm.trans hs)
      rw [own_label]
      rcases hblocks with hnone | ⟨hdone,-⟩
      · exact .inr (.inr ⟨n,hstage,by rw [hnone,List.nil_append]⟩)
      · rw [hstage] at hdone
        cases hdone
    · rw [own_label_ne hij,List.append_nil]
      exact hblocks.imp_right .inl

/-- The text of a task that holds the pane is the last thing the pane has been given. -/
theorem MessagesWhole.last (h : w.MessagesWhole) {pane i : ℕ} {stdin : List (ℕ × UInt8)}
    (hpane : w.panes[pane]? = some stdin) {t : InputTask} (ht : w.HoldsPane pane i t)
    (hown : own i stdin ≠ []) :
    t.input.text ≠ [] ∧ ∃ before, stdin = before ++ label i t.input.text := by
  obtain ⟨hget,m,hm,-⟩ := ht
  obtain ⟨order,hnodup,hfinished,hstdin⟩ := h pane stdin hpane
  have hnot : i ∉ order := by
    intro hi
    obtain ⟨s,hs,hdone⟩ := hfinished i hi
    rw [← Option.some.inj (hget.symm.trans hs),hm] at hdone
    cases hdone
  rcases hstdin with rfl | ⟨j,s,n,hs,hstage,rfl⟩
  · exact absurd (own_blocks_of_not_mem hnot) hown
  · rw [own_append,own_blocks_of_not_mem hnot,List.nil_append] at hown
    by_cases hij : j = i
    · subst hij
      obtain rfl := Option.some.inj (hget.symm.trans hs)
      rw [own_label] at hown
      exact ⟨hown,_,rfl⟩
    · exact absurd (own_label_ne hij _) hown

/-- A task that is not done and does not hold the pane has written nothing to it. -/
theorem Ordered.own_eq_nil {pane i : ℕ} {stdin : List (ℕ × UInt8)} {order : List ℕ}
    (h : w.Ordered pane stdin order) {t : InputTask} (ht : w.tasks[i]? = some t)
    (hdone : t.stage ≠ .done) (hholds : ¬w.HoldsPane pane i t) : own i stdin = [] := by
  have hnot : i ∉ order := by
    intro hi
    obtain ⟨s,hs,hstage⟩ := h.finished i hi
    rw [← Option.some.inj (ht.symm.trans hs)] at hstage
    exact hdone hstage
  by_cases hopen : w.AtNewline pane
  · obtain ⟨j,s,hs⟩ := atNewline_iff.mp hopen
    have hne : j ≠ i := by
      rintro rfl
      rw [← Option.some.inj (ht.symm.trans hs.1)] at hs
      exact hholds hs
    rw [h.opened j s hs,own_append,own_blocks_of_not_mem hnot,own_label_ne hne,List.append_nil]
  · rw [h.closed hopen,own_blocks_of_not_mem hnot]

theorem written_newline (result : WriteResult) :
    result.written [NEWLINE] = [] ∨ result.written [NEWLINE] = [NEWLINE] := by
  cases result with
  | ok => exact .inr rfl
  | failed k error =>
    cases k with
    | zero => exact .inl rfl
    | succ k => exact .inr (by simp [WriteResult.written])

/-- Input between a task's text and its newline. -/
theorem not_whole_of_between (h : w.Good) {pane i j : ℕ} {s t : InputTask}
    {stdin : List (ℕ × UInt8)} (hpane : w.panes[pane]? = some stdin) (hs : w.HoldsPane pane j s)
    (hij : i ≠ j) {written : List UInt8} (hwritten : written ≠ []) (stage : InputStage) :
    ¬(w.writeInput pane i written stage t).MessagesWhole := by
  intro hwhole
  obtain ⟨order,ho⟩ := h.ordered pane stdin hpane
  obtain ⟨hget,m,hm,hmpos⟩ := id hs
  have hlen := (h.newline s (List.mem_of_getElem? hget) pane m hm).2 hmpos
  have htext : s.input.text ≠ [] := List.length_pos_iff.mp (hlen ▸ hmpos)
  have hpane' : (w.writeInput pane i written stage t).panes[pane]? =
      some (stdin ++ label i written) := by
    simp [writeInput,hpane]
  have hs' : (w.writeInput pane i written stage t).HoldsPane pane j s :=
    ⟨(List.getElem?_set_ne hij).trans hget,m,hm,hmpos⟩
  have hown : own j (stdin ++ label i written) ≠ [] := by
    rw [own_append,own_label_ne hij,List.append_nil,ho.opened j s hs,own_append,own_label]
    intro hnil
    exact htext (List.append_eq_nil_iff.mp hnil).2
  obtain ⟨-,before,hlast⟩ := hwhole.last hpane' hs' hown
  exact hij (eq_of_append_label hwritten htext hlast)

/-- Input of a task that does not hold the pane itself, while the pane is held. -/
theorem not_whole_of_open (h : w.Good) {pane i : ℕ} {t : InputTask} {stdin : List (ℕ × UInt8)}
    (hpane : w.panes[pane]? = some stdin) (ht : w.tasks[i]? = some t)
    (hholds : ¬w.HoldsPane pane i t) (hopen : w.AtNewline pane) {written : List UInt8}
    (hwritten : written ≠ []) (stage : InputStage) :
    ¬(w.writeInput pane i written stage t).MessagesWhole := by
  obtain ⟨j,s,hs⟩ := atNewline_iff.mp hopen
  refine not_whole_of_between h hpane hs ?_ hwritten stage
  rintro rfl
  rw [← Option.some.inj (ht.symm.trans hs.1)] at hs
  exact hholds hs

/-- A write after which what its task has given the pane is neither its message nor, at its
newline, its text. -/
theorem not_whole_of_torn {pane i : ℕ} {t : InputTask} {stdin : List (ℕ × UInt8)}
    {written : List UInt8} {stage : InputStage} (hpane : w.panes[pane]? = some stdin)
    (ht : w.tasks[i]? = some t) (hsome : own i stdin ++ written ≠ [])
    (hdone : stage = .done → own i stdin ++ written ≠ t.input.message)
    (htext : ∀ n, stage = .newline pane n → own i stdin ++ written ≠ t.input.text) :
    ¬(w.writeInput pane i written stage t).MessagesWhole := by
  intro hwhole
  have hpane' : (w.writeInput pane i written stage t).panes[pane]? =
      some (stdin ++ label i written) := by
    simp [writeInput,hpane]
  have hcases := hwhole.own_cases hpane'
    (List.getElem?_set_self (List.getElem?_eq_some_iff.mp ht).1)
  rw [own_append,own_label] at hcases
  rcases hcases with hnil | ⟨hstage,hall⟩ | ⟨n,hstage,hall⟩
  · exact hsome hnil
  · exact hdone hstage hall
  · exact htext n hstage hall

/-- A text that is torn, or that comes between another text and its newline. -/
theorem not_whole_of_text (h : w.Good) {pane i : ℕ} {t : InputTask} {result : WriteResult}
    (ht : w.tasks[i]? = some t) (hstage : t.stage = .text pane)
    (hbad : ¬(result.written t.input.text = [] ∨
      result.written t.input.text = t.input.text ∧ ¬w.AtNewline pane)) :
    ¬(w.writeInput pane i (result.written t.input.text) (if t.input.newline then
      .newline pane (result.written t.input.text).length else .done) t).MessagesWhole := by
  have hlt := h.panes t (List.mem_of_getElem? ht) pane (.inl hstage)
  have hpane := List.getElem?_eq_getElem hlt
  generalize w.panes[pane] = stdin at hpane
  obtain ⟨order,ho⟩ := h.ordered pane stdin hpane
  obtain ⟨hsome,hnot⟩ := not_or.mp hbad
  have hholds : ¬w.HoldsPane pane i t := by
    rintro ⟨-,n,hn,-⟩
    rw [hstage] at hn
    cases hn
  by_cases hopen : w.AtNewline pane
  · exact not_whole_of_open h hpane ht hholds hopen hsome _
  have hown := ho.own_eq_nil ht (by simp [hstage]) hholds
  have htorn : result.written t.input.text ≠ t.input.text := fun he => hnot ⟨he,hopen⟩
  refine not_whole_of_torn hpane ht ?_ ?_ ?_
  · rwa [hown,List.nil_append]
  · intro hdone
    have hnewline : t.input.newline = false := by
      cases hn : t.input.newline with
      | false => rfl
      | true => simp [hn] at hdone
    simpa [hown,Input.message,hnewline] using htorn
  · intro n _
    rwa [hown,List.nil_append]

/-- A newline after a torn text, one that is missing, or an empty text's newline between
another text and its newline. -/
theorem not_whole_of_newline (h : w.Good) {pane i n : ℕ} {t : InputTask} {result : WriteResult}
    (ht : w.tasks[i]? = some t) (hstage : t.stage = .newline pane n)
    (hbad : ¬((n = 0 ∧ result.written [NEWLINE] = []) ∨ n = t.input.text.length ∧
      result.written [NEWLINE] = [NEWLINE] ∧ (n = 0 → ¬w.AtNewline pane))) :
    ¬(w.writeInput pane i (result.written [NEWLINE]) .done t).MessagesWhole := by
  have hlt := h.panes t (List.mem_of_getElem? ht) pane (.inr ⟨n,hstage⟩)
  have hpane := List.getElem?_eq_getElem hlt
  generalize w.panes[pane] = stdin at hpane
  obtain ⟨order,ho⟩ := h.ordered pane stdin hpane
  obtain ⟨hnewline,hlen⟩ := h.newline t (List.mem_of_getElem? ht) pane n hstage
  have hmessage : t.input.message = t.input.text ++ [NEWLINE] := by
    simp only [Input.message,hnewline,if_true]
  rcases Nat.eq_zero_or_pos n with rfl | hpos
  · have hholds : ¬w.HoldsPane pane i t := by
      rintro ⟨-,m,hm,hmpos⟩
      rw [hstage] at hm
      cases hm
      cases hmpos
    have hown := ho.own_eq_nil ht (by simp [hstage]) hholds
    have hout := (written_newline result).resolve_left fun hnone => hbad (.inl ⟨rfl,hnone⟩)
    rw [hout]
    by_cases htext : t.input.text = []
    · -- the newline alone is the message
      have hopen : w.AtNewline pane := by
        by_contra hclosed
        exact hbad (.inr ⟨by rw [htext]; rfl,hout,fun _ => hclosed⟩)
      exact not_whole_of_open h hpane ht hholds hopen (by simp) _
    · refine not_whole_of_torn hpane ht (by simp) (fun _ => ?_) (by rintro m ⟨⟩)
      rw [hown,hmessage]
      intro he
      exact htext (by simpa using he.symm)
  · have hlen := hlen hpos
    have hout : result.written [NEWLINE] = [] := by
      refine (written_newline result).resolve_right fun hall => hbad (.inr ⟨hlen,hall,?_⟩)
      intro hzero
      rw [hzero] at hpos
      cases hpos
    have hown : own i stdin = t.input.text := by
      have hnot : i ∉ order := by
        intro hi
        obtain ⟨s,hs,hdone⟩ := ho.finished i hi
        rw [← Option.some.inj (ht.symm.trans hs),hstage] at hdone
        cases hdone
      rw [ho.opened i t ⟨ht,n,hstage,hpos⟩,own_append,own_label,own_blocks_of_not_mem hnot,
        List.nil_append]
    rw [hout]
    refine not_whole_of_torn hpane ht ?_ (fun _ => ?_) (by rintro m ⟨⟩)
    · rw [hown,List.append_nil]
      exact List.length_pos_iff.mp (hlen ▸ hpos)
    · rw [hown,hmessage]
      simp

/-- A step that tears a message or comes between a text and its newline. -/
theorem not_whole_of_step (w : InputWorld) (e : InputEvent) (w' : InputWorld)
    (hstep : w.step e = some w') (hc : ¬w.WritesWhole e) (h : w.Good) : ¬w'.MessagesWhole := by
  cases step_move hstep with
  | request => exact absurd trivial hc
  | clonesPane => exact absurd trivial hc
  | restart => exact absurd trivial hc
  | writesText ht hstage =>
    refine not_whole_of_text h ht hstage fun hwhole => hc fun s p hs hp => ?_
    obtain rfl := Option.some.inj (ht.symm.trans hs)
    rw [hstage] at hp
    cases hp
    exact hwhole
  | writesNewline ht hstage =>
    refine not_whole_of_newline h ht hstage fun hwhole => hc fun s p m hs hp => ?_
    obtain rfl := Option.some.inj (ht.symm.trans hs)
    rw [hstage] at hp
    cases hp
    exact hwhole

/-- In every state of a run the panes have been given whole messages exactly when every write
is whole and none comes between another task's text and its newline. -/
theorem always_messagesWhole_iff (es : List InputEvent) :
    Transition.Always step MessagesWhole start es ↔ Transition.Meets step WritesWhole start es :=
  Transition.always_iff_meets (I := Good) (fun _ h => h.messagesWhole) good_step
    (fun w e w' => not_whole_of_step w e w') good_start es

/-- Two Send requests at once. -/
def twoSends : List InputEvent :=
  [.request (.send "a" true),.request (.send "b" true),.clonesPane 0,.clonesPane 1,
    .writesText 0 .ok,.writesText 1 .ok,.writesNewline 0 .ok,.writesNewline 1 .ok]

/-- The command has been given `ab` on one line and an empty line. -/
def sharedLine : InputWorld :=
  ⟨[[(0,97),(1,98),(0,NEWLINE),(1,NEWLINE)]],
    [⟨.send "a" true,.done⟩,⟨.send "b" true,.done⟩]⟩

theorem two_sends_share_line :
    Transition.exec step start twoSends = some sharedLine ∧ ¬sharedLine.MessagesWhole := by
  refine ⟨by decide +kernel,fun h => ?_⟩
  obtain ⟨order,-,hfinished,hstdin | ⟨i,t,n,ht,hn,-⟩⟩ := h 0 _ rfl
  · cases order with
    | nil => cases hstdin
    | cons i order =>
      obtain ⟨t,ht,-⟩ := hfinished i List.mem_cons_self
      have hfirst := congrArg (List.take 2) hstdin
      rcases i with _ | _ | i
      · have hmessage : sharedLine.message 0 = [97,NEWLINE] := by decide +kernel
        simp [blocks,hmessage,label] at hfirst
      · have hmessage : sharedLine.message 1 = [98,NEWLINE] := by decide +kernel
        simp [blocks,hmessage,label] at hfirst
      · cases ht
  · rcases i with _ | _ | i <;> cases ht <;> cases hn

end InputWorld
end Babysit
