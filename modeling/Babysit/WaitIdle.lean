import Babysit.Lib.Transition
import Babysit.LogReads

/-! `wait-idle` with a clock, on a log that grows when it likes. -/
namespace Babysit

/-- The pause between two looks, in milliseconds. -/
def IDLE_POLL : ℕ := 50

/-- The durations, in milliseconds. -/
structure IdleCfg where
  settle : ℕ
  timeout : Option ℕ

/-- Why it has returned. Ghost: the times of the two looks between which the log was quiet. -/
inductive IdleEnd
  | settled (start stop : ℕ)
  | finished
  | timedOut
  deriving DecidableEq, Repr

def IdleEnd.code : IdleEnd → ℕ
  | .settled _ _ | .finished => 0
  | .timedOut => 124

/-- The next thing to do; the first and every later size that was read is kept in the phase. -/
inductive IdlePhase
  | sizing
  | stamping (size : ℕ)
  | measuring
  | comparing (size : ℕ)
  | checking
  | timing
  | sleeping
  | returned (why : IdleEnd)
  deriving DecidableEq, Repr

/-- A call of `wait-idle` and the log. `since` is when the phase was entered, or when a sleep is
over. The ghosts are the first and the last look at which the log had its last size, when the
deadline was last checked, and when the log has grown, the last time first; the start counts. -/
structure IdleWorld where
  file : LogFile
  now : ℕ
  phase : IdlePhase
  since : ℕ
  lastSize : ℕ
  quietSince : ℕ
  deadline : Option ℕ
  sizedAt : ℕ
  lookedAt : ℕ
  checkedAt : ℕ
  growths : List ℕ

inductive IdleEvent
  | file (e : LogFileEvent)
  | tick (ms : ℕ)
  | sizes
  | stamps
  | measures
  | compares
  | checks
  | times
  | wakes

namespace IdleWorld

def start (cfg : IdleCfg) (file : LogFile) (now : ℕ) : IdleWorld :=
  ⟨file,now,.sizing,now,0,now,cfg.timeout.map (now+·),now,now,now,[now]⟩

def enter (w : IdleWorld) (phase : IdlePhase) : IdleWorld := { w with phase, since := w.now }

/-- The log or the status has changed. -/
def filed (w : IdleWorld) (file : LogFile) : IdleWorld :=
  let growths := if file.length = w.file.length then w.growths else w.now::w.growths
  { w with file, growths }

/-- The last time the log has grown. -/
def grownAt (w : IdleWorld) : ℕ := w.growths.headD 0

/-- It has not returned. -/
def Waits (w : IdleWorld) : Prop := ∀ why, w.phase ≠ .returned why

instance (w : IdleWorld) : Decidable w.Waits :=
  match h : w.phase with
  | .returned why => .isFalse fun hwaits => hwaits why h
  | .sizing | .stamping _ | .measuring | .comparing _ | .checking | .timing | .sleeping =>
    .isTrue fun why hwhy => by simp [h] at hwhy

/-- A new last size. -/
def resized (w : IdleWorld) (size : ℕ) : IdleWorld :=
  { w with lastSize := size, quietSince := w.now, sizedAt := w.since, lookedAt := w.since }

/-- The sizes differ, or have been the same for long enough, or neither. -/
def compared (cfg : IdleCfg) (w : IdleWorld) (size : ℕ) : IdleWorld :=
  if size ≠ w.lastSize then (w.resized size).enter .checking
  else if w.quietSince + cfg.settle ≤ w.now then
    w.enter (.returned (.settled w.sizedAt w.since))
  else { w with lookedAt := w.since }.enter .checking

/-- The deadline has passed, or there is time to sleep. -/
def timed (w : IdleWorld) : IdleWorld :=
  if w.deadline.any (· ≤ w.now) then w.enter (.returned .timedOut)
  else { w with phase := .sleeping, since := w.now + IDLE_POLL, checkedAt := w.now }

def step (cfg : IdleCfg) (w : IdleWorld) : IdleEvent → Option IdleWorld
  | .file e => some (w.filed (w.file.after e))
  | .tick ms => some { w with now := w.now + ms }
  | .sizes => if w.phase = .sizing then some (w.enter (.stamping w.file.length)) else none
  | .stamps =>
    match w.phase with
    | .stamping size => some ((w.resized size).enter .measuring)
    | _ => none
  | .measures => if w.phase = .measuring then some (w.enter (.comparing w.file.length)) else none
  | .compares =>
    match w.phase with
    | .comparing size => some (w.compared cfg size)
    | _ => none
  | .checks =>
    if w.phase = .checking then
      some (w.enter (if w.file.finished then .returned .finished else .timing))
    else none
  | .times => if w.phase = .timing then some w.timed else none
  | .wakes =>
    if w.phase = .sleeping ∧ w.since ≤ w.now then some (w.enter .measuring) else none

/-- Each thing is done within `delay` of when it can be. -/
def Prompt (delay : ℕ) (w : IdleWorld) : IdleEvent → Prop
  | .tick ms => w.Waits → w.now + ms ≤ w.since + delay
  | _ => True

instance (delay : ℕ) (w : IdleWorld) : (e : IdleEvent) → Decidable (Prompt delay w e)
  | .tick ms => inferInstanceAs (Decidable (w.Waits → w.now + ms ≤ w.since + delay))
  | .file _ | .sizes | .stamps | .measures | .compares | .checks | .times | .wakes => .isTrue trivial

/-- Two looks are no further apart than this. -/
def round (delay : ℕ) : ℕ := IDLE_POLL + 6*delay

/-- The log has not grown between two looks that are the settle time apart. -/
def Quiet (cfg : IdleCfg) (delay : ℕ) (w : IdleWorld) (start stop : ℕ) : Prop :=
  start + cfg.settle ≤ stop + delay ∧ stop ≤ w.now ∧ ∀ g ∈ w.growths, g ≤ start ∨ stop ≤ g

/-- An exit with 0 is for a quiet log unless the session was found finished, and one with 124 is
not early. While it waits, neither the deadline nor a quiet of the settle time is long past. -/
structure Settles (cfg : IdleCfg) (delay : ℕ) (w : IdleWorld) : Prop where
  quiet : ∀ why, w.phase = .returned why → why.code = 0 →
    why = .finished ∨ ∃ start stop, w.Quiet cfg delay start stop
  late : ∀ why, w.phase = .returned why → why.code = 124 → ∃ d ∈ w.deadline, d ≤ w.now
  onTime : w.Waits → (∀ d ∈ w.deadline, w.now ≤ d + round delay) ∧
    w.now ≤ w.grownAt + cfg.settle + 2*round delay

/-- How long the last look, or the last check of the deadline, can be past in a phase. -/
def afterLook (delay : ℕ) : IdlePhase → ℕ
  | .sizing | .returned _ => 0
  | .stamping _ => delay
  | .measuring => IDLE_POLL + 4*delay
  | .comparing _ => IDLE_POLL + 5*delay
  | .checking => delay
  | .timing => 2*delay
  | .sleeping => IDLE_POLL + 3*delay

def afterCheck (delay : ℕ) : IdlePhase → ℕ
  | .sizing | .returned _ => 0
  | .stamping _ => delay
  | .measuring => IDLE_POLL + 2*delay
  | .comparing _ => IDLE_POLL + 3*delay
  | .checking => IDLE_POLL + 4*delay
  | .timing => IDLE_POLL + 5*delay
  | .sleeping => IDLE_POLL

/-- A size that was read, beside the last one and the growth of the log. -/
structure Measured (w : IdleWorld) (size : ℕ) : Prop where
  last_le : w.lastSize ≤ size
  size_le : size ≤ w.file.length
  still : size = w.file.length → ∀ g ∈ w.growths, g ≤ w.since
  same : size = w.lastSize → ∀ g ∈ w.growths, g ≤ w.sizedAt ∨ w.since ≤ g
  moved : size ≠ w.lastSize → w.lookedAt ≤ w.grownAt
  grew : size ≠ w.file.length → w.since ≤ w.grownAt

def During (cfg : IdleCfg) (delay : ℕ) (w : IdleWorld) : IdlePhase → Prop
  | .sizing => w.checkedAt ≤ w.grownAt
  | .stamping size => w.checkedAt ≤ w.grownAt ∧ w.Measured size
  | .comparing size => w.Measured size
  | .returned (.settled start stop) => w.Quiet cfg delay start stop
  | .returned .timedOut => ∃ d ∈ w.deadline, d ≤ w.now
  | .measuring | .checking | .timing | .sleeping | .returned .finished => True

/-- The invariant: when the log has grown, as far as its sizes tell, and how long each thing can
be past. -/
structure Kept (cfg : IdleCfg) (delay : ℕ) (w : IdleWorld) : Prop where
  prompt : w.Waits → w.now ≤ w.since + delay
  entered : w.phase ≠ .sleeping → w.since ≤ w.now
  grown : ∀ g ∈ w.growths, g ≤ w.now
  last_le : w.lastSize ≤ w.file.length
  still : w.lastSize = w.file.length → ∀ g ∈ w.growths, g ≤ w.sizedAt
  moved : w.lastSize ≠ w.file.length → w.lookedAt ≤ w.grownAt
  sized : w.sizedAt ≤ w.quietSince
  looked : w.lookedAt ≤ w.now
  noisy : w.lookedAt ≤ w.quietSince + cfg.settle
  stamped : w.quietSince ≤ w.grownAt + round delay
  during : w.During cfg delay w.phase
  look : w.Waits → w.since ≤ w.lookedAt + afterLook delay w.phase
  check : w.Waits → w.since ≤ w.checkedAt + afterCheck delay w.phase
  checked : ∀ d ∈ w.deadline, w.checkedAt ≤ d

variable {cfg : IdleCfg} {delay size : ℕ} {file : LogFile} {w : IdleWorld} {p : IdlePhase}

theorem start_kept (cfg : IdleCfg) (delay : ℕ) (file : LogFile) (now : ℕ) :
    (start cfg file now).Kept cfg delay := by
  constructor
  case checked =>
    intro d hd
    obtain ⟨timeout,-,rfl⟩ := Option.map_eq_some_iff.mp hd
    exact Nat.le_add_right _ _
  all_goals simp [start,grownAt,During,afterLook,afterCheck]

theorem waits_of (hphase : w.phase = p) (hp : ∀ why, p ≠ .returned why) : w.Waits :=
  fun why hreturned => hp why (hphase.symm.trans hreturned)

/-- How far back the last look and the last check are. -/
theorem Kept.past (h : w.Kept cfg delay) (hphase : w.phase = p) (hp : ∀ why, p ≠ .returned why) :
    w.now ≤ w.lookedAt + afterLook delay p + delay ∧
      w.now ≤ w.checkedAt + afterCheck delay p + delay := by
  have hwaits := waits_of hphase hp
  have hprompt := h.prompt hwaits
  have hlook := h.look hwaits
  have hcheck := h.check hwaits
  rw [hphase] at hlook hcheck
  omega

theorem Kept.past_round (h : w.Kept cfg delay) (hwaits : w.Waits) :
    w.now ≤ w.lookedAt + round delay ∧ w.now ≤ w.checkedAt + round delay := by
  unfold round
  cases hphase : w.phase with
  | returned why => exact absurd hphase (hwaits why)
  | sizing | stamping size | measuring | comparing size | checking | timing | sleeping =>
    have hpast := h.past hphase (by simp)
    dsimp only [afterLook,afterCheck] at hpast
    omega

theorem Kept.settles (h : w.Kept cfg delay) : w.Settles cfg delay := by
  have hduring := h.during
  refine ⟨fun why hphase hcode => ?_,fun why hphase hcode => ?_,
    fun hwaits => ⟨fun d hd => ?_,?_⟩⟩
  · rw [hphase] at hduring
    cases why with
    | settled start stop => exact .inr ⟨start,stop,hduring⟩
    | finished => exact .inl rfl
    | timedOut => cases hcode
  · rw [hphase] at hduring
    cases why with
    | timedOut => exact hduring
    | settled start stop => cases hcode
    | finished => cases hcode
  · have hcheck := (h.past_round hwaits).2
    have hle := h.checked d hd
    omega
  · have hlook := (h.past_round hwaits).1
    have hnoisy := h.noisy
    have hstamped := h.stamped
    omega

theorem Kept.ticks {ms : ℕ} (h : w.Kept cfg delay) (hprompt : Prompt delay w (.tick ms)) :
    Kept cfg delay { w with now := w.now + ms } := by
  have hlater : w.now ≤ w.now + ms := Nat.le_add_right _ _
  have hduring := h.during
  refine { h with prompt := hprompt, entered := ?_, grown := ?_, looked := ?_, during := ?_ }
  · exact fun hphase => Nat.le_trans (h.entered hphase) hlater
  · exact fun g hg => Nat.le_trans (h.grown g hg) hlater
  · exact Nat.le_trans h.looked hlater
  · dsimp only
    cases hphase : w.phase with
    | sizing | measuring | checking | timing | sleeping => rwa [hphase] at hduring
    | stamping size =>
      rw [hphase] at hduring
      exact ⟨hduring.1,{ hduring.2 with }⟩
    | comparing size =>
      rw [hphase] at hduring
      exact { hduring with }
    | returned why =>
      rw [hphase] at hduring
      cases why with
      | finished => trivial
      | settled start stop => exact ⟨hduring.1,Nat.le_trans hduring.2.1 hlater,hduring.2.2⟩
      | timedOut =>
        obtain ⟨d,hd,hle⟩ := hduring
        exact ⟨d,hd,Nat.le_trans hle hlater⟩

/-- The log has grown just now, or is as long as it was. -/
theorem filed_cases (hle : w.file.length ≤ file.length) :
    file.length = w.file.length ∧ w.filed file = { w with file } ∨
      w.file.length < file.length ∧ w.filed file = { w with file, growths := w.now::w.growths } := by
  by_cases heq : file.length = w.file.length
  · exact .inl ⟨heq,by simp [filed,heq]⟩
  · exact .inr ⟨by omega,by simp [filed,heq]⟩

theorem Measured.files (h : w.Measured size) (hentered : w.since ≤ w.now)
    (hlooked : w.lookedAt ≤ w.now) (hle : w.file.length ≤ file.length) :
    (w.filed file).Measured size := by
  rcases filed_cases hle with ⟨heq,hfiled⟩ | ⟨hlonger,hfiled⟩
  · rw [hfiled]
    exact { h with
      size_le := Nat.le_trans h.size_le hle
      still := fun hsize => h.still (hsize.trans heq)
      grew := fun hne => h.grew fun hsize => hne (hsize.trans heq.symm) }
  · rw [hfiled]
    refine ⟨h.last_le,Nat.le_trans h.size_le hle,?_,?_,fun _ => hlooked,fun _ => hentered⟩
    · intro hsize
      have hsize_le := h.size_le
      dsimp only at hsize
      omega
    · exact fun hsize => List.forall_mem_cons.mpr ⟨.inr hentered,h.same hsize⟩

theorem Kept.grownAt_le (h : w.Kept cfg delay) : w.grownAt ≤ w.now := by
  unfold grownAt
  cases hg : w.growths with
  | nil => exact Nat.zero_le _
  | cons g gs => exact h.grown g (by simp [hg])

theorem Kept.during_files (h : w.Kept cfg delay) (hle : w.file.length ≤ file.length) :
    (w.filed file).During cfg delay w.phase := by
  have hduring := h.during
  have hgrownAt : w.grownAt ≤ (w.filed file).grownAt := by
    rcases filed_cases hle with ⟨-,hfiled⟩ | ⟨-,hfiled⟩
    · rw [hfiled]
      exact Nat.le_refl _
    · rw [hfiled]
      exact h.grownAt_le
  cases hphase : w.phase with
  | measuring | checking | timing | sleeping => trivial
  | sizing =>
    rw [hphase] at hduring
    exact Nat.le_trans hduring hgrownAt
  | stamping size =>
    rw [hphase] at hduring
    have hentered := h.entered (by simp [hphase])
    exact ⟨Nat.le_trans hduring.1 hgrownAt,hduring.2.files hentered h.looked hle⟩
  | comparing size =>
    rw [hphase] at hduring
    exact hduring.files (h.entered (by simp [hphase])) h.looked hle
  | returned why =>
    rw [hphase] at hduring
    cases why with
    | finished => trivial
    | timedOut => exact hduring
    | settled start stop =>
      refine ⟨hduring.1,hduring.2.1,?_⟩
      rcases filed_cases hle with ⟨-,hfiled⟩ | ⟨-,hfiled⟩
      · rw [hfiled]
        exact hduring.2.2
      · rw [hfiled]
        exact List.forall_mem_cons.mpr ⟨.inr hduring.2.1,hduring.2.2⟩

theorem Kept.files (h : w.Kept cfg delay) (hle : w.file.length ≤ file.length) :
    (w.filed file).Kept cfg delay := by
  have hduring := h.during_files hle
  rcases filed_cases hle with ⟨heq,hfiled⟩ | ⟨hlonger,hfiled⟩
  · rw [hfiled] at hduring ⊢
    refine { h with last_le := ?_, still := ?_, moved := ?_, during := hduring }
    · exact Nat.le_trans h.last_le hle
    · exact fun hlast => h.still (hlast.trans heq)
    · exact fun hne => h.moved fun hlast => hne (hlast.trans heq.symm)
  · rw [hfiled] at hduring ⊢
    refine { h with grown := ?_, last_le := ?_, still := ?_, moved := ?_, stamped := ?_,
                    during := hduring }
    · exact List.forall_mem_cons.mpr ⟨Nat.le_refl _,h.grown⟩
    · exact Nat.le_trans h.last_le hle
    · intro hlast
      have hlast_le := h.last_le
      dsimp only at hlast
      omega
    · exact fun _ => h.looked
    · exact Nat.le_trans h.stamped (Nat.add_le_add_right h.grownAt_le _)

/-- Entering a phase, the sizes being as they are. -/
theorem Kept.enters (h : w.Kept cfg delay) (hduring : (w.enter p).During cfg delay p)
    (hlook : (∀ why, p ≠ .returned why) → w.now ≤ w.lookedAt + afterLook delay p)
    (hcheck : (∀ why, p ≠ .returned why) → w.now ≤ w.checkedAt + afterCheck delay p) :
    (w.enter p).Kept cfg delay :=
  { h with
    prompt := fun _ => Nat.le_add_right _ _
    entered := fun _ => Nat.le_refl _
    during := hduring
    look := hlook
    check := hcheck }

/-- Entering a phase with a new last size. -/
theorem Kept.resizes (h : w.Kept cfg delay) (hmeasured : w.Measured size) (hentered : w.since ≤ w.now)
    (hstamped : w.now ≤ w.grownAt + round delay) (hduring : ((w.resized size).enter p).During cfg delay p)
    (hlook : w.now ≤ w.since + afterLook delay p) (hcheck : w.now ≤ w.checkedAt + afterCheck delay p) :
    ((w.resized size).enter p).Kept cfg delay where
  prompt _ := Nat.le_add_right _ _
  entered _ := Nat.le_refl _
  grown := h.grown
  last_le := hmeasured.size_le
  still := hmeasured.still
  moved := hmeasured.grew
  sized := hentered
  looked := hentered
  noisy := Nat.le_trans hentered (Nat.le_add_right _ _)
  stamped := hstamped
  during := hduring
  look _ := hlook
  check _ := hcheck
  checked := h.checked

/-- The size that was read tells whether the log has grown since the last look. -/
theorem Kept.compares (h : w.Kept cfg delay) (hphase : w.phase = .comparing size) :
    (w.compared cfg size).Kept cfg delay := by
  have hmeasured := h.during
  rw [hphase] at hmeasured
  have hwaits := waits_of hphase (by simp)
  have hprompt := h.prompt hwaits
  have hentered := h.entered (by simp [hphase])
  obtain ⟨-,hcheck⟩ := h.past hphase (by simp)
  dsimp only [afterCheck] at hcheck
  unfold compared
  split_ifs with hne hquiet
  · -- the log has grown since the last look, which is no more than a round ago
    have hround := (h.past_round hwaits).1
    have hmoved := hmeasured.moved hne
    refine h.resizes hmeasured hentered (by omega) trivial hprompt ?_
    dsimp only [afterCheck]
    omega
  · -- a quiet of the settle time up to this look
    have hsized := h.sized
    refine h.enters ⟨?_,hentered,hmeasured.same (not_not.mp hne)⟩ ?_ ?_
    · omega
    · exact fun hp => absurd rfl (hp _)
    · exact fun hp => absurd rfl (hp _)
  · have hlooked : Kept cfg delay { w with lookedAt := w.since } := by
      rw [not_not] at hne
      subst hne
      refine { h with moved := hmeasured.grew, looked := hentered, noisy := ?_, during := ?_, look := ?_ }
      · dsimp only
        omega
      · dsimp only
        rw [hphase]
        exact { hmeasured with moved := fun hne => absurd rfl hne }
      · exact fun _ => Nat.le_add_right _ _
    refine hlooked.enters trivial (fun _ => hprompt) fun _ => ?_
    dsimp only [afterCheck]
    omega

theorem Kept.timed (h : w.Kept cfg delay) (hphase : w.phase = .timing) :
    w.timed.Kept cfg delay := by
  obtain ⟨hlook,-⟩ := h.past hphase (by simp)
  dsimp only [afterLook] at hlook
  unfold IdleWorld.timed
  split_ifs with hpassed
  · obtain ⟨d,hd,hle⟩ := (Option.any_eq_true _ _).mp hpassed
    refine h.enters ⟨d,hd,of_decide_eq_true hle⟩ ?_ ?_
    · exact fun hp => absurd rfl (hp _)
    · exact fun hp => absurd rfl (hp _)
  · refine { h with prompt := ?_, entered := ?_, during := trivial, look := ?_, check := ?_,
                    checked := ?_ }
    · intro _
      dsimp only
      omega
    · exact fun hne => absurd rfl hne
    · intro _
      dsimp only [afterLook]
      omega
    · exact fun _ => Nat.le_refl _
    · intro d hd
      by_contra hlt
      exact hpassed ((Option.any_eq_true _ _).mpr ⟨d,hd,decide_eq_true (Nat.le_of_not_le hlt)⟩)

/-- What a look finds. -/
theorem Kept.measured (h : w.Kept cfg delay) (p : IdlePhase) :
    (w.enter p).Measured w.file.length where
  last_le := h.last_le
  size_le := Nat.le_refl _
  still _ := h.grown
  same hsize g hg := .inl (h.still hsize.symm g hg)
  moved hne := h.moved (Ne.symm hne)
  grew hne := absurd rfl hne

theorem Kept.stamps (h : w.Kept cfg delay) (hphase : w.phase = .stamping size) :
    ((w.resized size).enter .measuring).Kept cfg delay := by
  have hduring := h.during
  rw [hphase] at hduring
  have hprompt := h.prompt (waits_of hphase (by simp))
  have hentered := h.entered (by simp [hphase])
  obtain ⟨-,hcheck⟩ := h.past hphase (by simp)
  dsimp only [afterCheck] at hcheck
  refine h.resizes hduring.2 hentered ?_ trivial ?_ ?_
  · have hstart := hduring.1
    unfold round
    omega
  · dsimp only [afterLook]
    omega
  · dsimp only [afterCheck]
    omega

theorem step_kept (w : IdleWorld) (e : IdleEvent) (w' : IdleWorld) (hstep : step cfg w e = some w')
    (hprompt : Prompt delay w e) (h : w.Kept cfg delay) : w'.Kept cfg delay := by
  cases e with
  | file e =>
    obtain rfl := Option.some.inj hstep
    exact h.files (LogFile.length_after w.file e)
  | tick ms =>
    obtain rfl := Option.some.inj hstep
    exact h.ticks hprompt
  | stamps =>
    simp only [step] at hstep
    split at hstep
    · next size hphase =>
      obtain rfl := Option.some.inj hstep
      exact h.stamps hphase
    · cases hstep
  | compares =>
    simp only [step] at hstep
    split at hstep
    · next size hphase =>
      obtain rfl := Option.some.inj hstep
      exact h.compares hphase
    · cases hstep
  | times =>
    obtain ⟨hphase,hstep⟩ := Option.ite_none_right_eq_some.mp hstep
    obtain rfl := Option.some.inj hstep
    exact h.timed hphase
  | sizes =>
    obtain ⟨hphase,hstep⟩ := Option.ite_none_right_eq_some.mp hstep
    obtain rfl := Option.some.inj hstep
    have hduring := h.during
    rw [hphase] at hduring
    obtain ⟨hlook,hcheck⟩ := h.past hphase (by simp)
    exact h.enters ⟨hduring,h.measured _⟩ (fun _ => hlook) (fun _ => hcheck)
  | measures =>
    obtain ⟨hphase,hstep⟩ := Option.ite_none_right_eq_some.mp hstep
    obtain rfl := Option.some.inj hstep
    obtain ⟨hlook,hcheck⟩ := h.past hphase (by simp)
    dsimp only [afterLook,afterCheck] at hlook hcheck
    refine h.enters (h.measured _) (fun _ => ?_) fun _ => ?_
    · dsimp only [afterLook]
      omega
    · dsimp only [afterCheck]
      omega
  | checks =>
    obtain ⟨hphase,hstep⟩ := Option.ite_none_right_eq_some.mp hstep
    obtain rfl := Option.some.inj hstep
    obtain ⟨hlook,hcheck⟩ := h.past hphase (by simp)
    dsimp only [afterLook,afterCheck] at hlook hcheck
    cases hfinished : w.file.finished with
    | true => exact h.enters trivial (fun hp => absurd rfl (hp _)) (fun hp => absurd rfl (hp _))
    | false =>
      refine h.enters trivial (fun _ => ?_) fun _ => ?_
      · simp only [Bool.false_eq_true,if_false,afterLook]
        omega
      · simp only [Bool.false_eq_true,if_false,afterCheck]
        omega
  | wakes =>
    obtain ⟨⟨hphase,-⟩,hstep⟩ := Option.ite_none_right_eq_some.mp hstep
    obtain rfl := Option.some.inj hstep
    obtain ⟨hlook,hcheck⟩ := h.past hphase (by simp)
    dsimp only [afterLook,afterCheck] at hlook hcheck
    refine h.enters trivial (fun _ => ?_) fun _ => ?_
    · dsimp only [afterLook]
      omega
    · dsimp only [afterCheck]
      omega

/-- `wait-idle` in every order of its steps and the log's, each of its steps being taken within
`delay`: a 0 without the session being finished means a quiet of the settle time, a 124 that the
time was up, and it waits for neither much longer than that. -/
theorem wait_idle_settles (cfg : IdleCfg) (delay : ℕ) (file : LogFile) (now : ℕ)
    (es : List IdleEvent) (hprompt : Transition.Meets (step cfg) (Prompt delay)
      (start cfg file now) es) :
    Transition.Always (step cfg) (Settles cfg delay) (start cfg file now) es :=
  Transition.always_of_meets (I := Kept cfg delay) step_kept (fun _ => Kept.settles) hprompt
    (start_kept cfg delay file now)

/-- The log grows once, during the first sleep. -/
def settlingRun : List IdleEvent :=
  [.sizes,.stamps,.measures,.compares,.checks,.times,.tick 30,.file (.grow [104]),.tick 20,.wakes,
    .measures,.compares,.checks,.times,.tick 50,.wakes,.measures,.compares,.checks,.times,.tick 55,
    .wakes,.measures,.compares]

theorem wait_idle_settles_once : ∃ w,
    Transition.exec (step ⟨80,some 1000⟩) (start ⟨80,some 1000⟩ ⟨none,false⟩ 0) settlingRun = some w ∧
      w.phase = .returned (.settled 50 155) ∧ w.Settles ⟨80,some 1000⟩ 5 := by
  have hsome : ((Transition.exec (step ⟨80,some 1000⟩) (start ⟨80,some 1000⟩ ⟨none,false⟩ 0)
      settlingRun).map phase) = some (.returned (.settled 50 155)) := by decide +kernel
  obtain ⟨w,hrun,hphase⟩ := Option.map_eq_some_iff.mp hsome
  have hprompt : Transition.Meets (step ⟨80,some 1000⟩) (Prompt 5)
      (start ⟨80,some 1000⟩ ⟨none,false⟩ 0) settlingRun := by decide +kernel
  exact ⟨w,hrun,hphase,(wait_idle_settles ⟨80,some 1000⟩ 5 ⟨none,false⟩ 0 settlingRun hprompt).last
    hrun⟩

end IdleWorld
end Babysit
