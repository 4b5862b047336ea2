import Babysit.ScreenSeq
import Mathlib.Data.List.Infix

/-! The live screen against a replay of the log. A reader feeds its chunk under the screen's lock
and broadcasts it under the hub's, so that two readers may take the two locks in different
orders. -/
namespace Babysit

/-- No restart, and no failed write of the log. -/
def ScreenEvent.isPlain : ScreenEvent → Bool
  | .spawns _ => false
  | .reader _ _ (.broadcasts io) => io.log = .ok
  | _ => true

namespace PaneScreen

/-- What has been fed and not broadcast. -/
def held (p : PaneScreen) : List UInt8 := p.readers.flatMap ReaderTurn.held

section Parser
variable {σ α : Type*} (process : σ → List UInt8 → σ) (render : σ → α) (fresh : σ)

/-- What is rendered of the pane's parser, which was `fresh` when the pane was spawned. -/
def screenshot (p : PaneScreen) : α := render (p.processed.foldl process fresh)

/-- What is rendered of a parser of the same size, after the whole log. -/
def renderLog (log : List UInt8) : α := render (process fresh log)

/-- The live worker's screen, or a replay of the log once there is no worker. -/
def currentScreenText (live : Option PaneScreen) (log : List UInt8) : α :=
  match live with
  | some p => p.screenshot process render fresh
  | none => renderLog process render fresh log

variable {process}

/-- A parser that takes its input in pieces ends where it ends with the whole. -/
theorem foldl_process (hnil : ∀ s, process s [] = s)
    (happend : ∀ s xs ys, process s (xs ++ ys) = process (process s xs) ys)
    (chunks : List (List UInt8)) (s : σ) :
    chunks.foldl process s = process s chunks.flatten := by
  induction chunks generalizing s with
  | nil => exact (hnil s).symm
  | cons chunk chunks ih => rw [List.foldl_cons,List.flatten_cons,happend,ih]

end Parser
end PaneScreen

namespace ScreenWorld

/-- All readers are between two chunks. -/
def Idle (w : ScreenWorld) : Prop := ∀ p ∈ w.panes,∀ r ∈ p.readers,r.isIdle = true

/-- What has been added to the log. -/
def appended (w : ScreenWorld) (log : List UInt8) : List UInt8 := w.disk.log.drop log.length

/-- A chunk is broadcast when it is what the terminal was fed with behind all that the log
already holds. -/
def InFedOrder (log : List UInt8) (w : ScreenWorld) : ScreenEvent → Prop
  | .reader i j (.broadcasts _) => ∀ p ∈ w.panes[i]?,∀ chunk, p.readers[j]? = some (.broadcasts chunk) →
    w.appended log ++ chunk <+: (w.output i).flatten
  | _ => True

/-- Of a run with one pane: the log holds `done` behind what it started with, which falls short
of the terminal by the chunks that are held. A single reader holds the end of the output. -/
structure Logging (log : List UInt8) (w : ScreenWorld) (p : PaneScreen) (done : List UInt8) :
    Prop where
  panes : w.panes = [p]
  single : w.Single
  logOpen : w.hub.log = true
  disk : w.disk.log = log ++ done
  total : p.processed.flatten.length = done.length + p.held.length
  lone : p.readers.length = 1 → p.processed.flatten = done ++ p.held

/-- What a step does to the terminal and the log: a broadcast adds its chunk to the log, and no
other step changes the log. -/
inductive LogMove (log : List UInt8) (w : ScreenWorld) (e : ScreenEvent) (p p' : PaneScreen)
    (done : List UInt8) : List UInt8 → Prop
  | keeps : w.InFedOrder log e → p.processed <+: p'.processed → LogMove log w e p p' done done
  | adds {i j chunk io} : e = .reader i j (.broadcasts io) → w.panes[i]? = some p →
      w.output i = p.processed → p.readers[j]? = some (.broadcasts chunk) →
      p'.processed = p.processed → LogMove log w e p p' done (done ++ chunk)

variable {w w' : ScreenWorld} {e : ScreenEvent} {p : PaneScreen} {log done : List UInt8}

theorem Logging.appended (h : w.Logging log p done) : w.appended log = done := by
  rw [ScreenWorld.appended,h.disk,List.drop_left]

theorem Logging.output (h : w.Logging log p done) : w.output 0 = p.processed := by
  rw [ScreenWorld.output,h.panes]
  rfl

theorem logging_start (tty : Bool) (log : List UInt8) :
    (start tty log).Logging log (.spawn tty) [] where
  panes := rfl
  single := ⟨rfl,rfl⟩
  logOpen := rfl
  disk := by
    rw [List.append_nil]
    exact HubInner.configureLog_disk _ _ _
  total := by cases tty <;> rfl
  lone _ := by cases tty <;> rfl

/-- The pane of a step that is no reader's stays as it is. -/
theorem Logging.stays (h : w.Logging log p done) (hpanes : w'.panes = w.panes)
    (hsingle : w'.Single) (hhub : w'.hub = w.hub) (hdisk : w'.disk = w.disk) :
    w'.Logging log p done :=
  ⟨hpanes.trans h.panes,hsingle,by rw [hhub]; exact h.logOpen,by rw [hdisk]; exact h.disk,h.total,
    h.lone⟩

/-- One reader's part in what is held. -/
theorem held_set {j : ℕ} {turn : ReaderTurn} (h : p.readers[j]? = some turn) :
    ∃ front back, p.held = front ++ turn.held ++ back ∧
      (∀ turn', (p.readers.set j turn').flatMap ReaderTurn.held = front ++ turn'.held ++ back) ∧
      (p.readers.length = 1 → front = [] ∧ back = []) := by
  obtain ⟨front,back,hreaders,hset⟩ := exists_set_eq h
  refine ⟨front.flatMap ReaderTurn.held,back.flatMap ReaderTurn.held,?_,fun turn' => ?_,?_⟩
  · rw [PaneScreen.held,hreaders,List.flatMap_append,List.flatMap_cons,List.append_assoc]
  · rw [hset,List.flatMap_append,List.flatMap_cons,List.append_assoc]
  · intro hlength
    rw [hreaders,List.length_append,List.length_cons] at hlength
    have hfront : front = [] := List.length_eq_zero_iff.mp (by omega)
    have hback : back = [] := List.length_eq_zero_iff.mp (by omega)
    rw [hfront,hback]
    exact ⟨rfl,rfl⟩

/-- The pane of a reader's step in the world behind it. -/
theorem Logging.replace (h : w.Logging log p done) {p' : PaneScreen} {done' : List UInt8}
    {hub : HubInner} {disk : Disk} (fed : ℕ) (hlog : hub.log = true)
    (hdisk : disk.log = log ++ done')
    (htotal : p'.processed.flatten.length = done'.length + p'.held.length)
    (hlone : p'.readers.length = 1 → p'.processed.flatten = done' ++ p'.held) :
    Logging log { w with hub := hub, disk := disk, fed := fed, panes := w.panes.set 0 p' } p'
      done' where
  panes := by
    rw [h.panes]
    rfl
  single := ⟨by rw [List.length_set]; exact h.single.panes,h.single.current⟩
  logOpen := hlog
  disk := hdisk
  total := htotal
  lone := hlone

/-- A reader's step that neither takes up what is held nor lays it down. -/
theorem Logging.rests (h : w.Logging log p done) {j : ℕ} {turn : ReaderTurn} (turn' : ReaderTurn)
    {p' : PaneScreen} (hread : p.readers[j]? = some turn) (hturn : turn.held = [])
    (hturn' : turn'.held = []) (hprocessed : p'.processed = p.processed)
    (hreaders : p'.readers = p.readers.set j turn') :
    Logging log { w with panes := w.panes.set 0 p' } p' done := by
  obtain ⟨front,back,hheld,hset,-⟩ := held_set hread
  have hsame : p'.held = p.held := by
    rw [PaneScreen.held,hreaders,hset,hheld,hturn,hturn']
  apply h.replace w.fed h.logOpen h.disk
  · rw [hprocessed,hsame]
    exact h.total
  · rw [hprocessed,hsame,hreaders,List.length_set]
    exact h.lone

theorem Logging.reader (h : w.Logging log p done) {j : ℕ} {turn : ReaderTurn} {a : ReaderStep}
    {p' : PaneScreen} (hmove : p.Move j turn a p')
    (hplain : (ScreenEvent.reader 0 j a).isPlain = true) :
    ∃ done', Logging log { w.reader 0 turn a with panes := w.panes.set 0 p' } p' done' ∧
      LogMove log w (.reader 0 j a) p p' done done' := by
  have htotal := h.total
  have hlone := h.lone
  cases hmove with
  | @counts chunk hread =>
    exact ⟨done,h.rests (.feeds chunk) hread rfl rfl rfl rfl,.keeps trivial List.prefix_rfl⟩
  | ends hread =>
    exact ⟨done,h.rests .ended hread rfl rfl rfl rfl,.keeps trivial List.prefix_rfl⟩
  | @feeds chunk hread =>
    obtain ⟨front,back,hheld,hset,hends⟩ := held_set hread
    have hnew := hset (.broadcasts chunk)
    refine ⟨done,h.replace _ h.logOpen h.disk ?_ ?_,.keeps trivial (List.prefix_append _ _)⟩
    · rw [PaneScreen.held,hnew,List.flatten_append,List.length_append,htotal,hheld]
      simp only [ReaderTurn.held,List.length_append,List.length_nil,List.flatten_singleton]
      omega
    · rw [List.length_set]
      intro hlength
      obtain ⟨hfront,hback⟩ := hends hlength
      have hshown := hlone hlength
      rw [hheld,hfront,hback] at hshown
      rw [PaneScreen.held,hnew,hfront,hback,List.flatten_append,hshown]
      simp [ReaderTurn.held]
  | @broadcasts chunk io hread =>
    obtain ⟨front,back,hheld,hset,hends⟩ := held_set hread
    have hnew := hset .reads
    have hio : io.log = .ok := by simpa [ScreenEvent.isPlain] using hplain
    refine ⟨done ++ chunk,?_,.adds rfl (by rw [h.panes]; rfl) h.output hread rfl⟩
    rw [ScreenWorld.reader]
    apply h.replace
    · rw [HubInner.broadcast_log,h.logOpen,hio]
      rfl
    · rw [HubInner.broadcast_disk,if_pos h.logOpen,hio,h.disk,List.append_assoc]
      rfl
    · rw [PaneScreen.held,hnew,htotal,hheld]
      simp only [ReaderTurn.held,List.length_append,List.length_nil]
      omega
    · rw [List.length_set]
      intro hlength
      obtain ⟨hfront,hback⟩ := hends hlength
      have hshown := hlone hlength
      rw [hheld,hfront,hback] at hshown
      rw [PaneScreen.held,hnew,hfront,hback,hshown]
      simp [ReaderTurn.held]

theorem Logging.step (h : w.Logging log p done) (hplain : e.isPlain = true)
    (hstep : w.step e = some w') :
    ∃ p' done', w'.Logging log p' done' ∧ LogMove log w e p p' done done' ∧
      p'.readers.length = p.readers.length := by
  have hsingle := h.single
  cases e with
  | reader i j a =>
    obtain ⟨q,turn,p',hq,hmove,rfl⟩ := step_reader hstep
    obtain ⟨hlt,-⟩ := List.getElem?_eq_some_iff.mp hq
    obtain rfl : i = 0 := by
      rw [hsingle.panes] at hlt
      omega
    obtain rfl : p = q := by
      rw [h.panes] at hq
      exact Option.some.inj hq
    obtain ⟨done',hlogging,hlogs⟩ := h.reader hmove hplain
    refine ⟨p',done',hlogging,hlogs,?_⟩
    cases hmove <;> exact List.length_set
  | spawns sidecar => cases hplain
  | asksStatus | asksScreenshot | renders | answers | replaces =>
    have hsame := single_step hstep trivial hsingle
    refine ⟨p,done,?_,.keeps trivial List.prefix_rfl,rfl⟩
    cases step_move hstep
    exact h.stays rfl hsame rfl rfl

/-- A move adds to the log and to the terminal only. -/
theorem LogMove.grows {p' : PaneScreen} {done' : List UInt8} (h : LogMove log w e p p' done done') :
    done <+: done' ∧ p.processed <+: p'.processed := by
  cases h with
  | keeps _ hprocessed => exact ⟨List.prefix_rfl,hprocessed⟩
  | adds _ _ _ _ hprocessed =>
    rw [hprocessed]
    exact ⟨List.prefix_append _ _,List.prefix_rfl⟩

theorem logging_run {es : List ScreenEvent} {u : ScreenWorld} (h : w.Logging log p done)
    (hplain : ∀ e ∈ es,e.isPlain = true) (hrun : Transition.exec step w es = some u) :
    ∃ p' done', u.Logging log p' done' ∧ done <+: done' ∧ p.processed <+: p'.processed := by
  induction es generalizing w p done with
  | nil =>
    cases hrun
    exact ⟨p,done,h,List.prefix_rfl,List.prefix_rfl⟩
  | cons e es ih =>
    obtain ⟨t,hstep,hrest⟩ := Transition.exec_cons_eq_some.mp hrun
    obtain ⟨hfirst,hothers⟩ := List.forall_mem_cons.mp hplain
    obtain ⟨q,mid,hmid,hmove,-⟩ := h.step hfirst hstep
    obtain ⟨hdone,hprocessed⟩ := hmove.grows
    obtain ⟨p',done',hlast,hdone',hprocessed'⟩ := ih hmid hothers hrest
    exact ⟨p',done',hlast,hdone.trans hdone',hprocessed.trans hprocessed'⟩

/-- Broadcasts in the order of the terminal keep the log a first part of its input. -/
theorem prefix_of_inFedOrder {es : List ScreenEvent} {u : ScreenWorld} (h : w.Logging log p done)
    (hplain : ∀ e ∈ es,e.isPlain = true) (hrun : Transition.exec step w es = some u)
    (hmeets : Transition.Meets step (InFedOrder log) w es) (hdone : done <+: p.processed.flatten) :
    ∃ p' done', u.Logging log p' done' ∧ done' <+: p'.processed.flatten := by
  induction es generalizing w p done with
  | nil =>
    cases hrun
    exact ⟨p,done,h,hdone⟩
  | cons e es ih =>
    obtain ⟨t,hstep,hrest⟩ := Transition.exec_cons_eq_some.mp hrun
    obtain ⟨hfirst,hothers⟩ := List.forall_mem_cons.mp hplain
    obtain ⟨horder,hmeets⟩ := hmeets t hstep
    obtain ⟨q,mid,hmid,hmove,-⟩ := h.step hfirst hstep
    refine ih hmid hothers hrest hmeets ?_
    cases hmove with
    | keeps _ hprocessed => exact hdone.trans hprocessed.flatten
    | @adds i j chunk io he hp hout hread hprocessed =>
      subst he
      have hnext := horder p hp chunk hread
      rwa [h.appended,hout,← hprocessed] at hnext

/-- Where the log ends up as the terminal's input, every broadcast was in its order. -/
theorem inFedOrder_of_eq {es : List ScreenEvent} {u : ScreenWorld} (h : w.Logging log p done)
    (hplain : ∀ e ∈ es,e.isPlain = true) (hrun : Transition.exec step w es = some u)
    (heq : (u.output 0).flatten = u.appended log) :
    Transition.Meets step (InFedOrder log) w es := by
  induction es generalizing w p done with
  | nil => trivial
  | cons e es ih =>
    intro t hstep
    obtain ⟨t',hstep',hrest⟩ := Transition.exec_cons_eq_some.mp hrun
    obtain rfl : t = t' := Option.some.inj (hstep.symm.trans hstep')
    obtain ⟨hfirst,hothers⟩ := List.forall_mem_cons.mp hplain
    obtain ⟨p',mid,hmid,hmove,-⟩ := h.step hfirst hstep
    refine ⟨?_,ih hmid hothers hrest⟩
    obtain ⟨q,done',hlast,hdone,hprocessed⟩ := logging_run hmid hothers hrest
    rw [hlast.output,hlast.appended] at heq
    cases hmove with
    | keeps horder _ => exact horder
    | @adds i j chunk io he hp hout hread hsame =>
      subst he
      intro p₀ hp₀ chunk₀ hread₀
      obtain rfl : p = p₀ := Option.some.inj (hp.symm.trans hp₀)
      obtain rfl : chunk = chunk₀ := by simpa using hread.symm.trans hread₀
      have htotal := hmid.total
      rw [← heq] at hdone
      rw [h.appended,hout,← hsame]
      exact List.prefix_of_prefix_length_le hdone hprocessed.flatten (by omega)

/-- A single reader broadcasts what it has fed before it reads again. -/
theorem inFedOrder_of_lone {es : List ScreenEvent} (h : w.Logging log p done)
    (hplain : ∀ e ∈ es,e.isPlain = true) (hlone : p.readers.length = 1) :
    Transition.Meets step (InFedOrder log) w es := by
  induction es generalizing w p done with
  | nil => trivial
  | cons e es ih =>
    intro t hstep
    obtain ⟨hfirst,hothers⟩ := List.forall_mem_cons.mp hplain
    obtain ⟨p',mid,hmid,hmove,hreaders⟩ := h.step hfirst hstep
    refine ⟨?_,ih hmid hothers (hreaders.trans hlone)⟩
    cases hmove with
    | keeps horder _ => exact horder
    | @adds i j chunk io he hp hout hread hsame =>
      subst he
      intro p₀ hp₀ chunk₀ hread₀
      obtain rfl : p = p₀ := Option.some.inj (hp.symm.trans hp₀)
      obtain rfl : chunk = chunk₀ := by simpa using hread.symm.trans hread₀
      obtain ⟨front,back,hheld,-,hends⟩ := held_set hread
      obtain ⟨hfront,hback⟩ := hends hlone
      rw [h.appended,hout,h.lone hlone,hheld,hfront,hback]
      simp [ReaderTurn.held]

/-- Idle readers hold nothing. -/
theorem held_of_idle (hidle : ∀ r ∈ p.readers,r.isIdle = true) : p.held = [] := by
  apply List.flatMap_eq_nil_iff.mpr
  intro r hr
  have hr := hidle r hr
  cases r with
  | broadcasts chunk => cases hr
  | reads | feeds | ended => rfl

/-- In a run without restart or failed write that ends with idle readers, the terminal was fed
with what the log gained exactly when every broadcast was in the order of the terminal, as those
of a single reader are. Then the live screen is that of the log. -/
theorem live_screen_iff {σ α : Type} (process : σ → List UInt8 → σ) (render : σ → α) (fresh : σ)
    (hnil : ∀ s, process s [] = s)
    (happend : ∀ s xs ys, process s (xs ++ ys) = process (process s xs) ys) (tty : Bool)
    (log : List UInt8) {es : List ScreenEvent} {u : ScreenWorld}
    (hplain : ∀ e ∈ es,e.isPlain = true)
    (hrun : Transition.exec step (start tty log) es = some u) (hidle : u.Idle) :
    ((u.output 0).flatten = u.appended log ↔
      Transition.Meets step (InFedOrder log) (start tty log) es) ∧
    (tty = true → Transition.Meets step (InFedOrder log) (start tty log) es) ∧
    (log = [] → Transition.Meets step (InFedOrder log) (start tty log) es → ∀ p ∈ u.panes,
      PaneScreen.currentScreenText process render fresh (some p) u.disk.log =
        PaneScreen.currentScreenText process render fresh none u.disk.log) := by
  have hstart := logging_start tty log
  have hagrees : Transition.Meets step (InFedOrder log) (start tty log) es →
      (u.output 0).flatten = u.appended log := by
    intro hmeets
    obtain ⟨p,done,hlast,hdone⟩ :=
      prefix_of_inFedOrder hstart hplain hrun hmeets List.prefix_rfl
    have hheld := held_of_idle (hidle p (by rw [hlast.panes]; exact List.mem_singleton.mpr rfl))
    have htotal := hlast.total
    rw [hheld,List.length_nil,Nat.add_zero] at htotal
    rw [hlast.output,hlast.appended]
    exact (hdone.eq_of_length htotal.symm).symm
  refine ⟨⟨inFedOrder_of_eq hstart hplain hrun,hagrees⟩,?_,?_⟩
  · rintro rfl
    exact inFedOrder_of_lone hstart hplain rfl
  · rintro rfl hmeets p hp
    obtain ⟨q,done,hlast,-,-⟩ := logging_run hstart hplain hrun
    obtain rfl : p = q := by
      rw [hlast.panes] at hp
      exact List.mem_singleton.mp hp
    have hfed := hagrees hmeets
    rw [hlast.output,hlast.appended] at hfed
    have hdisk := hlast.disk
    rw [List.nil_append,← hfed] at hdisk
    simp only [PaneScreen.currentScreenText,PaneScreen.screenshot,PaneScreen.renderLog]
    rw [PaneScreen.foldl_process hnil happend,hdisk]

/-- Two readers that take turns. -/
def pipesInTurn : List ScreenEvent :=
  [.reader 0 0 (.counts [65]),.reader 0 0 .feeds,.reader 0 1 (.counts [66]),
    .reader 0 0 (.broadcasts ⟨0,.ok,.ok⟩),.reader 0 1 .feeds,
    .reader 0 1 (.broadcasts ⟨0,.ok,.ok⟩)]

/-- With a parser that prints what it is fed with. -/
theorem live_screen_iff_pipes : ∃ u,
    Transition.exec step (start false []) pipesInTurn = some u ∧
    ((u.output 0).flatten = u.appended [] ↔
      Transition.Meets step (InFedOrder []) (start false []) pipesInTurn) ∧
    (false = true → Transition.Meets step (InFedOrder []) (start false []) pipesInTurn) ∧
    (([] : List UInt8) = [] → Transition.Meets step (InFedOrder []) (start false []) pipesInTurn →
      ∀ p ∈ u.panes,
        PaneScreen.currentScreenText (fun s xs => s ++ xs) id [] (some p) u.disk.log =
          PaneScreen.currentScreenText (fun s xs => s ++ xs) id [] none u.disk.log) := by
  refine ⟨_,rfl,?_⟩
  refine live_screen_iff (fun s xs => s ++ xs) id [] (fun s => List.append_nil s)
    (fun s xs ys => (List.append_assoc s xs ys).symm) false [] (by decide) rfl ?_
  intro p hp
  rw [List.mem_singleton.mp hp]
  decide

/-- Standard error overtakes standard output between the screen and the log. -/
def stderrOvertakes : List ScreenEvent :=
  [.reader 0 0 (.counts [65]),.reader 0 0 .feeds,.reader 0 1 (.counts [66]),.reader 0 1 .feeds,
    .reader 0 1 (.broadcasts ⟨0,.ok,.ok⟩),.reader 0 0 (.broadcasts ⟨0,.ok,.ok⟩)]

theorem stderr_overtakes_stdout : ∃ u,
    Transition.exec step (start false []) stderrOvertakes = some u ∧ u.Idle ∧
      (∀ e ∈ stderrOvertakes,e.isPlain = true) ∧ (u.output 0).flatten ≠ u.appended [] := by
  refine ⟨_,rfl,?_,by decide,?_⟩
  · intro p hp
    rw [List.mem_singleton.mp hp]
    decide
  · decide

end ScreenWorld
end Babysit
