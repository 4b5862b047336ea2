import Babysit.Lib.Transition
import Babysit.OutputReader

/-! Whether an equal `screen_seq` means an unchanged screen. The counter is ahead of the terminal
by the chunks in the readers' hands, and every pane has its own. -/
namespace Babysit

/-- Chunks that the response's number counts and its screen does not show: those in hand when it
looked, and those counted since. -/
def ScreenReport.missing (r : ScreenReport) : ℕ := r.view.inHand + (r.seq-r.view.seq)

namespace ScreenWorld

/-- A response with the number of an earlier screenshot: the session's terminal was not fed
between the two, and the later screen is the one that the screenshot shows. -/
def SeqMarksScreen (w : ScreenWorld) : Prop :=
  w.reports.Pairwise fun s r => s.screenshot = true → s.screenSeq = r.screenSeq →
    s.view.fedBefore = r.view.fedBefore ∧ s.view.processed = r.view.processed

/-- No terminal from this pane on has been fed. -/
def Unfed (w : ScreenWorld) (i : ℕ) : Prop := ∀ k, i ≤ k → w.output k = []

/-- A response gets the number of an earlier screenshot only while the same pane is the last one
with output, and as many of its counted chunks are missing on the screen; or while there has
been no output since before the earlier pane of the two. -/
def AsManyMissing (w : ScreenWorld) : ScreenEvent → Prop
  | .answers k => ∀ r ∈ w.answer k,∀ s ∈ w.reports,s.screenshot = true →
    s.screenSeq = r.screenSeq →
      w.Unfed (min s.view.pane r.view.pane) ∨ s.view.pane = r.view.pane ∧
        w.Unfed (s.view.pane+1) ∧ s.seq + r.missing = r.seq + s.missing
  | _ => True

/-- No restart. -/
def StaysWithPane (_ : ScreenWorld) : ScreenEvent → Prop
  | .spawns _ => False
  | _ => True

/-- A request holds this view of a screen, or has responded with it. -/
def Holds (w : ScreenWorld) (v : ScreenView) : Prop :=
  .rendered v ∈ w.requests ∨ ∃ r ∈ w.reports,r.view = v

/-- A view shows how its pane's terminal once was. While the terminal still is so, and no later
one has been fed, the session's terminal has not been fed since. -/
structure Seen (w : ScreenWorld) (v : ScreenView) : Prop where
  pane : v.pane ≤ w.current
  seq : v.seq = v.processed.length + v.inHand
  counter : v.seq ≤ w.counter v.pane
  shown : v.processed <+: w.output v.pane
  fedBefore : w.output v.pane = v.processed → w.Unfed (v.pane+1) → v.fedBefore = w.fed

variable {w w' : ScreenWorld} {e : ScreenEvent} {v : ScreenView}

theorem output_of_getElem? {i : ℕ} {p : PaneScreen} (h : w.panes[i]? = some p) :
    w.output i = p.processed := by
  rw [output,h]
  rfl

theorem counter_of_getElem? {i : ℕ} {p : PaneScreen} (h : w.panes[i]? = some p) :
    w.counter i = p.seq := by
  rw [counter,h]
  rfl

/-- A new entry without a value of its own. -/
theorem getD_snoc {α β : Type*} (xs : List α) {y : α} {f : α → β} {z : β} (hy : f y = z) (i : ℕ) :
    ((xs ++ [y])[i]?.map f).getD z = (xs[i]?.map f).getD z := by
  by_cases hlt : i < xs.length
  · rw [List.getElem?_append_left hlt]
  · have hge : xs.length ≤ i := Nat.le_of_not_lt hlt
    rw [List.getElem?_append_right hge,List.getElem?_eq_none hge]
    cases i-xs.length with
    | zero => exact hy
    | succ n => rfl

/-- A reader's step feeds its pane's terminal, or none. -/
theorem reader_effect {j : ℕ} {a : ReaderStep} {turn : ReaderTurn} {p p' : PaneScreen}
    (hmove : p.Move j turn a p') : p.seq ≤ p'.seq ∧ (a ≠ .feeds → p'.processed = p.processed) ∧
      (a = .feeds → ∃ chunk, p'.processed = p.processed ++ [chunk]) := by
  cases hmove with
  | counts => exact ⟨Nat.le_succ _,fun _ => rfl,by rintro ⟨⟩⟩
  | feeds => exact ⟨Nat.le_refl _,fun h => absurd rfl h,fun _ => ⟨_,rfl⟩⟩
  | broadcasts | ends => exact ⟨Nat.le_refl _,fun _ => rfl,by rintro ⟨⟩⟩

/-- What a step does to the terminals: at most one is fed, by one chunk. -/
theorem step_effect (h : w.step e = some w') :
    w.current ≤ w'.current ∧ (∀ i, w.counter i ≤ w'.counter i) ∧
      (w'.fed = w.fed ∧ (∀ i, w'.output i = w.output i) ∨
        ∃ i chunk, w'.fed = (if i = w.current then w.fed+1 else w.fed) ∧
          w'.output i = w.output i ++ [chunk] ∧ ∀ k, k ≠ i → w'.output k = w.output k) := by
  cases step_move h with
  | @reader i j a turn p p' hub disk fed hp hmove hfed =>
    obtain ⟨hseq,hkept,hfeeds⟩ := reader_effect hmove
    obtain ⟨hlt,-⟩ := List.getElem?_eq_some_iff.mp hp
    have hnew : (w.panes.set i p')[i]? = some p' := List.getElem?_set_self hlt
    have hother : ∀ k, k ≠ i → (w.panes.set i p')[k]? = w.panes[k]? :=
      fun k hk => List.getElem?_set_ne (Ne.symm hk)
    refine ⟨Nat.le_refl _,fun k => ?_,?_⟩
    · by_cases hk : k = i
      · subst hk
        rw [counter_of_getElem? hp,counter_of_getElem? hnew]
        exact hseq
      · simp only [counter,hother k hk]
        exact Nat.le_refl _
    · have hsame : ∀ k, k ≠ i → output { w with
          hub := hub, disk := disk, fed := fed, panes := w.panes.set i p' } k = w.output k := by
        intro k hk
        simp only [output,hother k hk]
      rcases hfed with ⟨hfed,ha⟩ | ⟨hfed,ha⟩
      · refine .inl ⟨hfed,fun k => ?_⟩
        by_cases hk : k = i
        · subst hk
          rw [output_of_getElem? hp,output_of_getElem? hnew,hkept ha]
        · exact hsame k hk
      · obtain ⟨chunk,hchunk⟩ := hfeeds ha
        refine .inr ⟨i,chunk,hfed,?_,hsame⟩
        rw [output_of_getElem? hp,output_of_getElem? hnew,hchunk]
  | spawns =>
    have hcounter : ∀ i, ((w.panes ++ [.spawn w.tty])[i]?.map PaneScreen.seq).getD 0 =
        w.counter i := getD_snoc w.panes rfl
    have houtput : ∀ i, ((w.panes ++ [.spawn w.tty])[i]?.map PaneScreen.processed).getD [] =
        w.output i := getD_snoc w.panes rfl
    exact ⟨Nat.le_refl _,fun i => Nat.le_of_eq (hcounter i).symm,.inl ⟨rfl,houtput⟩⟩
  | replaces hlt =>
    exact ⟨by dsimp only; omega,fun _ => Nat.le_refl _,.inl ⟨rfl,fun _ => rfl⟩⟩
  | asksStatus | asksScreenshot | renders | answers =>
    exact ⟨Nat.le_refl _,fun _ => Nat.le_refl _,.inl ⟨rfl,fun _ => rfl⟩⟩

/-- Terminals only gain output. -/
theorem output_grows (h : w.step e = some w') (i : ℕ) : w.output i <+: w'.output i := by
  obtain ⟨-,-,⟨-,hsame⟩ | ⟨k,chunk,-,hfed,hsame⟩⟩ := step_effect h
  · exact ⟨[],(List.append_nil _).trans (hsame i).symm⟩
  · by_cases hk : i = k
    · rw [hk,hfed]
      exact List.prefix_append _ _
    · exact ⟨[],(List.append_nil _).trans (hsame i hk).symm⟩

theorem Unfed.of_step {i : ℕ} (h : w.step e = some w') (hunfed : w'.Unfed i) : w.Unfed i := by
  intro k hk
  have hprefix := output_grows h k
  rw [hunfed k hk] at hprefix
  exact List.prefix_nil.mp hprefix

theorem Seen.step (hv : w.Seen v) (h : w.step e = some w') : w'.Seen v := by
  obtain ⟨hcurrent,hcounter,heffect⟩ := step_effect h
  refine ⟨hv.pane.trans hcurrent,hv.seq,hv.counter.trans (hcounter _),
    hv.shown.trans (output_grows h _),fun hout hunfed => ?_⟩
  have hbefore := hunfed.of_step h
  rcases heffect with ⟨hfed,hsame⟩ | ⟨i,chunk,hfed,hi,hsame⟩
  · rw [hsame] at hout
    rw [hfed]
    exact hv.fedBefore hout hbefore
  · rcases lt_trichotomy i v.pane with hlt | heq | hgt
    · -- an earlier pane is no longer the session's
      have hpane := hv.pane
      rw [hsame _ (by omega)] at hout
      rw [hfed,if_neg (by omega)]
      exact hv.fedBefore hout hbefore
    · rw [← heq] at hout
      have hlength := hv.shown.length_le
      rw [← hout,hi,← heq,List.length_append,List.length_singleton] at hlength
      omega
    · rw [hunfed i hgt] at hi
      simp at hi

theorem seen_look {i : ℕ} {p : PaneScreen} (hp : w.panes[i]? = some p) (hsound : p.Sound)
    (hi : i ≤ w.current) : w.Seen (w.look i p) where
  pane := hi
  seq := hsound.seq
  counter := Nat.le_of_eq (counter_of_getElem? hp).symm
  shown := ⟨[],(List.append_nil _).trans (output_of_getElem? hp).symm⟩
  fedBefore _ _ := rfl

/-- The view is one of the screen as it is now, on behalf of a request. -/
def Looks (w : ScreenWorld) (v : ScreenView) : Prop :=
  ∃ p, w.panes[v.pane]? = some p ∧ v = w.look v.pane p ∧ ∃ q ∈ w.requests,q.pane = some v.pane

/-- Views are taken of the screen as it is. -/
theorem step_holds (h : w.step e = some w') (hv : w'.Holds v) : w.Holds v ∨ w.Looks v := by
  cases step_move h with
  | reader | spawns | replaces => exact .inl hv
  | asksStatus | asksScreenshot =>
    left
    apply hv.imp_left
    intro hmem
    rcases List.mem_append.mp hmem with hmem | hmem
    · exact hmem
    · cases List.mem_singleton.mp hmem
  | renders hk hp =>
    rcases hv with hmem | hreport
    · rcases List.mem_or_eq_of_mem_set hmem with hmem | hnew
      · exact .inl (.inl hmem)
      · obtain rfl := ScreenRequest.rendered.inj hnew
        exact .inr ⟨_,hp,rfl,_,List.mem_of_getElem? hk,rfl⟩
    · exact .inl (.inr hreport)
  | answers hr =>
    rcases hv with hmem | ⟨s,hs,rfl⟩
    · rcases List.mem_or_eq_of_mem_set hmem with hmem | hnew
      · exact .inl (.inl hmem)
      · cases hnew
    · rcases List.mem_append.mp hs with hs | hs
      · exact .inl (.inr ⟨s,hs,rfl⟩)
      · obtain rfl := List.mem_singleton.mp hs
        obtain ⟨p,hp,-,⟨hlook,hmem⟩ | hmem⟩ := answer_view hr
        · exact .inr ⟨p,hp,hlook,_,hmem,rfl⟩
        · exact .inl (.inl hmem)

/-- What a run keeps whatever the steps are. -/
structure Tracked (w : ScreenWorld) : Prop where
  panes : ∀ p ∈ w.panes,p.Sound
  asked : ∀ q ∈ w.requests,∀ i ∈ q.pane,i ≤ w.current
  views : ∀ v, w.Holds v → w.Seen v
  alike : ∀ u v, w.Holds u → w.Holds v → u.pane = v.pane → u.processed = v.processed →
    w.Unfed (v.pane+1) → u.fedBefore = v.fedBefore
  counted : ∀ r ∈ w.reports,r.view.seq ≤ r.seq

theorem tracked_start (tty : Bool) (log : List UInt8) : (start tty log).Tracked where
  panes := by
    intro p hp
    rw [List.mem_singleton.mp hp]
    exact PaneScreen.sound_spawn tty
  asked := by rintro q ⟨⟩
  views := by rintro v (⟨⟨⟩⟩ | ⟨r,⟨⟩,-⟩)
  alike := by rintro u v (⟨⟨⟩⟩ | ⟨r,⟨⟩,-⟩)
  counted := by rintro r ⟨⟩

theorem Tracked.look (h : w.Tracked) (hv : w.Looks v) : w.Seen v := by
  obtain ⟨p,hp,hlook,q,hq,hpane⟩ := hv
  rw [hlook]
  exact seen_look hp (h.panes p (List.mem_of_getElem? hp)) (h.asked q hq _ hpane)

/-- Requests hold panes that are or were the session's. -/
theorem asked_step (hstep : w.step e = some w') (h : ∀ q ∈ w.requests,∀ i ∈ q.pane,i ≤ w.current) :
    ∀ q ∈ w'.requests,∀ i ∈ q.pane,i ≤ w'.current := by
  cases step_move hstep with
  | reader | spawns => exact h
  | asksStatus | asksScreenshot =>
    intro q hq
    rcases List.mem_append.mp hq with hq | hq
    · exact h q hq
    · rw [List.mem_singleton.mp hq]
      rintro i ⟨⟩
      exact Nat.le_refl _
  | renders hk =>
    intro q hq
    rcases List.mem_or_eq_of_mem_set hq with hq | rfl
    · exact h q hq
    · rintro i ⟨⟩
      exact h _ (List.mem_of_getElem? hk) _ rfl
  | answers =>
    intro q hq
    rcases List.mem_or_eq_of_mem_set hq with hq | rfl
    · exact h q hq
    · rintro i ⟨⟩
  | replaces hlt =>
    intro q hq i hi
    have := h q hq i hi
    dsimp only
    omega

/-- Reports are responses. -/
theorem step_reports (h : w.step e = some w') : w'.reports = w.reports ∨
    ∃ k r, e = .answers k ∧ w.answer k = some r ∧ w'.reports = w.reports ++ [r] ∧
      w'.panes = w.panes := by
  cases step_move h with
  | answers hr => exact .inr ⟨_,_,rfl,hr,rfl,rfl⟩
  | reader | asksStatus | asksScreenshot | renders | spawns | replaces => exact .inl rfl

theorem Tracked.seen (h : w.Tracked) (hstep : w.step e = some w') (hv : w'.Holds v) : w.Seen v := by
  rcases step_holds hstep hv with hold | hnew
  · exact h.views v hold
  · exact h.look hnew

theorem Tracked.step (h : w.Tracked) (hstep : w.step e = some w') : w'.Tracked := by
  -- a view of the screen as it is agrees with every other view that shows as much
  have hlooks : ∀ u v, w.Seen u → w.Looks v → u.pane = v.pane → u.processed = v.processed →
      w.Unfed (v.pane+1) → u.fedBefore = v.fedBefore := by
    rintro u v hu ⟨p,hp,hlook,-⟩ hpane hshown hunfed
    have hout : w.output u.pane = u.processed := by
      rw [hpane,hshown,output_of_getElem? hp,hlook]
      rfl
    rw [hu.fedBefore hout (by rw [hpane]; exact hunfed),hlook]
    rfl
  refine ⟨sound_step hstep h.panes,asked_step hstep h.asked,
    fun v hv => (h.seen hstep hv).step hstep,?_,?_⟩
  · intro u v hu hv hpane hshown hunfed
    have hbefore := hunfed.of_step hstep
    rcases step_holds hstep hv with hvold | hvnew
    · rcases step_holds hstep hu with huold | hunew
      · exact h.alike u v huold hvold hpane hshown hbefore
      · exact (hlooks v u (h.seen hstep hv) hunew hpane.symm hshown.symm
          (by rw [hpane]; exact hbefore)).symm
    · exact hlooks u v (h.seen hstep hu) hvnew hpane hshown hbefore
  · intro r hr
    rcases step_reports hstep with hreports | ⟨k,s,rfl,hs,hreports,hpanes⟩
    · rw [hreports] at hr
      exact h.counted r hr
    · have hr' := hr
      rw [hreports] at hr
      rcases List.mem_append.mp hr with hr | hr
      · exact h.counted r hr
      · obtain rfl := List.mem_singleton.mp hr
        obtain ⟨p,hp,hseq,-⟩ := answer_view hs
        rw [hseq,← counter_of_getElem? hp]
        exact (h.seen hstep (.inr ⟨r,hr',rfl⟩)).counter

/-- What a response's number counts is shown or missing. -/
theorem Seen.seq_eq {r : ScreenReport} (h : w.Seen r.view) (hle : r.view.seq ≤ r.seq) :
    r.seq = r.view.processed.length + r.missing := by
  have hseq := h.seq
  unfold ScreenReport.missing
  omega

/-- Two views of one terminal that show equally many chunks show the same. -/
theorem Seen.processed_eq {u : ScreenView} (hu : w.Seen u) (hv : w.Seen v)
    (hpane : u.pane = v.pane) (hlength : u.processed.length = v.processed.length) :
    u.processed = v.processed := by
  have hshown := hu.shown
  rw [hpane] at hshown
  exact (List.prefix_of_prefix_length_le hshown hv.shown (Nat.le_of_eq hlength)).eq_of_length hlength

/-- Without output from the view's pane on, it shows nothing and nothing has come since. -/
theorem Seen.blank {i : ℕ} (hv : w.Seen v) (hi : i ≤ v.pane) (hunfed : w.Unfed i) :
    v.processed = [] ∧ v.fedBefore = w.fed := by
  have hout := hunfed v.pane hi
  have hshown := hv.shown
  rw [hout] at hshown
  have hnil := List.prefix_nil.mp hshown
  exact ⟨hnil,hv.fedBefore (hout.trans hnil.symm) fun k hk => hunfed k (by omega)⟩

structure AllTracked (w : ScreenWorld) : Prop where
  tracked : w.Tracked
  marked : w.SeqMarksScreen

theorem marked_step (w : ScreenWorld) (e : ScreenEvent) (w' : ScreenWorld)
    (hstep : w.step e = some w') (hc : w.AsManyMissing e) (h : w.AllTracked) : w'.AllTracked := by
  have hnext := h.tracked.step hstep
  refine ⟨hnext,?_⟩
  rcases step_reports hstep with hreports | ⟨k,r,rfl,hr,hreports,hpanes⟩
  · rw [SeqMarksScreen,hreports]
    exact h.marked
  · rw [SeqMarksScreen,hreports,List.pairwise_append]
    refine ⟨h.marked,List.pairwise_singleton _ _,fun s hs r' hr' hshot hnumber => ?_⟩
    obtain rfl := List.mem_singleton.mp hr'
    have hsmem : s ∈ w'.reports := by
      rw [hreports]
      exact List.mem_append_left _ hs
    have hrmem : r' ∈ w'.reports := by
      rw [hreports]
      exact List.mem_append_right _ (List.mem_singleton.mpr rfl)
    have hsheld : w'.Holds s.view := .inr ⟨s,hsmem,rfl⟩
    have hrheld : w'.Holds r'.view := .inr ⟨r',hrmem,rfl⟩
    have hsseen := h.tracked.seen hstep hsheld
    have hrseen := h.tracked.seen hstep hrheld
    rcases hc r' hr s hs hshot hnumber with hunfed | ⟨hpane,hunfed,hbalance⟩
    · obtain ⟨hsnil,hsfed⟩ := hsseen.blank (Nat.min_le_left _ _) hunfed
      obtain ⟨hrnil,hrfed⟩ := hrseen.blank (Nat.min_le_right _ _) hunfed
      exact ⟨hsfed.trans hrfed.symm,hsnil.trans hrnil.symm⟩
    · have hsseq := hsseen.seq_eq (hnext.counted s hsmem)
      have hrseq := hrseen.seq_eq (hnext.counted r' hrmem)
      have hshown := hsseen.processed_eq hrseen hpane (by omega)
      refine ⟨hnext.alike _ _ hsheld hrheld hpane hshown ?_,hshown⟩
      intro k hk
      rw [output,hpanes]
      exact hunfed k (by omega)

/-- The first pane is the only one. -/
structure Single (w : ScreenWorld) : Prop where
  panes : w.panes.length = 1
  current : w.current = 0

theorem single_step (hstep : w.step e = some w') (hstays : w.StaysWithPane e) (h : w.Single) :
    w'.Single := by
  obtain ⟨hpanes,hcurrent⟩ := h
  cases step_move hstep with
  | reader => exact ⟨by rw [List.length_set]; exact hpanes,hcurrent⟩
  | asksStatus | asksScreenshot | renders | answers => exact ⟨hpanes,hcurrent⟩
  | spawns => exact absurd hstays id
  | replaces hlt => omega

theorem not_marked (w : ScreenWorld) (e : ScreenEvent) (w' : ScreenWorld)
    (hstep : w.step e = some w') (hc : ¬w.AsManyMissing e) (h : w.AllTracked) (hsingle : w.Single) :
    ¬w'.SeqMarksScreen := by
  have hnext := h.tracked.step hstep
  cases step_move hstep with
  | @answers k r hr =>
    simp only [AsManyMissing,not_forall] at hc
    obtain ⟨r',hr',s,hs,hshot,hnumber,hc⟩ := hc
    obtain rfl : r = r' := Option.some.inj (hr.symm.trans hr')
    intro hmarked
    have hpair := (List.pairwise_append.mp hmarked).2.2 s hs r (List.mem_singleton.mpr rfl)
    obtain ⟨-,hshown⟩ := hpair hshot hnumber
    have hsmem : s ∈ w.reports ++ [r] := List.mem_append_left _ hs
    have hrmem : r ∈ w.reports ++ [r] := List.mem_append_right _ (List.mem_singleton.mpr rfl)
    have hsseen := h.tracked.seen hstep (.inr ⟨s,hsmem,rfl⟩)
    have hrseen := h.tracked.seen hstep (.inr ⟨r,hrmem,rfl⟩)
    have hsseq := hsseen.seq_eq (hnext.counted s hsmem)
    have hrseq := hrseen.seq_eq (hnext.counted r hrmem)
    have hspane := hsseen.pane
    have hrpane := hrseen.pane
    have hcurrent := hsingle.current
    apply hc
    right
    refine ⟨by omega,?_,by rw [hshown] at hsseq; omega⟩
    intro k hk
    have hnone : w.panes[k]? = none := by
      apply List.getElem?_eq_none
      have := hsingle.panes
      omega
    rw [output,hnone]
    rfl
  | reader | asksStatus | asksScreenshot | renders | spawns | replaces => exact absurd trivial hc

/-- Equal numbers mean an unchanged screen as long as every repeated number finds the same pane
with as many chunks missing; without restarts, exactly then. -/
theorem always_seqMarksScreen (tty : Bool) (log : List UInt8) (es : List ScreenEvent) :
    (Transition.Meets step AsManyMissing (start tty log) es →
      Transition.Always step SeqMarksScreen (start tty log) es) ∧
    (Transition.Meets step StaysWithPane (start tty log) es →
      (Transition.Always step SeqMarksScreen (start tty log) es ↔
        Transition.Meets step AsManyMissing (start tty log) es)) := by
  have hstart : (start tty log).AllTracked := ⟨tracked_start tty log,List.Pairwise.nil⟩
  constructor
  · intro hmeets
    exact Transition.always_of_meets marked_step (fun _ h => h.marked) hmeets hstart
  · intro hstays
    refine Transition.always_iff_meets_given (A := StaysWithPane)
      (I := fun w : ScreenWorld => w.AllTracked ∧ w.Single) (fun _ h => h.1.marked) ?_ ?_
      ⟨hstart,rfl,rfl⟩ hstays
    · rintro w e w' hstep ha hc ⟨htracked,hsingle⟩
      exact ⟨marked_step w e w' hstep hc htracked,single_step hstep ha hsingle⟩
    · rintro w e w' hstep - hc ⟨htracked,hsingle⟩
      exact not_marked w e w' hstep hc htracked hsingle

/-- A screenshot is rendered between the counting of a chunk and its way to the terminal. -/
def renderedInBetween : List ScreenEvent :=
  [.reader 0 0 (.counts [65]),.asksScreenshot,.renders 0,.answers 0,.reader 0 0 .feeds,
    .reader 0 0 (.broadcasts ⟨0,.ok,.ok⟩),.asksStatus,.answers 1]

theorem equal_seq_stale_screen : ∃ w,
    Transition.exec step (start true []) renderedInBetween = some w ∧ ¬w.SeqMarksScreen := by
  refine ⟨_,rfl,fun h => ?_⟩
  have hpair := List.rel_of_pairwise_cons h (List.mem_singleton.mpr rfl) rfl rfl
  exact absurd hpair.2 (by decide)

end ScreenWorld
end Babysit
