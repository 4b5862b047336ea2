import Babysit.Durations
import Babysit.Lib.Refinement
import Babysit.Worker

/-! The two limits of `serve_worker`. The deadline of `--timeout` is fixed when the loop begins;
`--idle-timeout` is checked at a tick every 500 ms, against the wall clock at the last output.
The worker of `Worker` is the one here without its clocks. -/
namespace Babysit

structure WorkerLimits where
  timeout : Option Duration
  idleTimeout : Option Duration
  deriving DecidableEq

namespace WorkerLimits

def cfg (limits : WorkerLimits) : WorkerConfig :=
  ⟨limits.timeout.isSome,limits.idleTimeout.isSome⟩

/-- `as u64` truncates. -/
def idleLimitMs (limits : WorkerLimits) : Option ℕ :=
  limits.idleTimeout.map fun d => d.asMillis % 2^64

end WorkerLimits

/-- The period of the idle tick. A missed tick is made up for. -/
def IDLE_TICK : ℕ := 500

/-- The worker with the monotonic clock and the wall clock, in milliseconds. The ghosts are the
times at which the current command has last written, or was spawned, and at which the loop has
last come back to `select!`. -/
structure LimitedWorker where
  worker : Worker
  clock : ℕ
  wall : ℕ
  lastMs : ℕ
  servedAt : Option ℕ
  nextTick : ℕ
  spokenAt : ℕ
  backAt : ℕ

inductive LimitedEvent
  | worker (e : WorkerEvent)
  | tick
  | output
  | passes (ms : ℕ)
  | setWall (ms : ℕ)

def WorkerPhase.isLooping : WorkerPhase → Bool
  | .looping => true
  | _ => false

/-- The loop has begun and is to go on, or is being left at a limit or a request. -/
def WorkerPhase.isServed : WorkerPhase → Bool
  | .looping | .respawning | .recordingRestart _ => true
  | .terminating cause _ =>
    match cause with
    | .setupFailure _ => false
    | _ => true
  | _ => false

namespace LimitedWorker

def start (clock wall : ℕ) : LimitedWorker := ⟨.start,clock,wall,wall,none,0,clock,clock⟩

def timeoutAt (limits : WorkerLimits) (w : LimitedWorker) : Option ℕ :=
  w.servedAt.bind fun t => limits.timeout.map fun d => t + d.asMillis

/-- `Pane::idle_ms`. -/
def idleMs (w : LimitedWorker) : ℕ := w.wall - w.lastMs

/-- When a branch of the loop is ready. -/
def Ready (limits : WorkerLimits) (w : LimitedWorker) : WorkerEvent → Prop
  | .timeout => ∃ t ∈ w.timeoutAt limits, t ≤ w.clock
  | .idle => w.nextTick ≤ w.clock ∧ ∃ limit ∈ limits.idleLimitMs, limit ≤ w.idleMs
  | _ => True

instance (limits : WorkerLimits) (w : LimitedWorker) :
    (e : WorkerEvent) → Decidable (w.Ready limits e)
  | .timeout => inferInstanceAs (Decidable (∃ t ∈ w.timeoutAt limits, t ≤ w.clock))
  | .idle => inferInstanceAs (Decidable (_ ∧ ∃ limit ∈ limits.idleLimitMs, limit ≤ w.idleMs))
  | .spawned _ | .spawnFailed _ _ | .served _ | .request _ | .receive | .exitNotified | .os _
  | .record _ | .drained | .left | .died | .pane _ _ => inferInstanceAs (Decidable True)

/-- What a step of the worker sets. -/
def marked (w : LimitedWorker) : WorkerEvent → LimitedWorker
  | .spawned _ => { w with lastMs := w.wall, spokenAt := w.clock }
  | .served _ => { w with servedAt := some w.clock, nextTick := w.clock }
  | _ => w

def moved (w : LimitedWorker) (worker : Worker) : LimitedWorker :=
  { w with
    worker := worker
    backAt := if worker.phase.isLooping ∧ ¬w.worker.phase.isLooping then w.clock else w.backAt }

def step (limits : WorkerLimits) (w : LimitedWorker) : LimitedEvent → Option LimitedWorker
  | .worker e =>
    if w.Ready limits e then (w.worker.step limits.cfg e).map (w.marked e).moved else none
  | .tick =>
    if w.worker.phase.isLooping ∧ w.nextTick ≤ w.clock ∧
        ∃ limit ∈ limits.idleLimitMs, w.idleMs < limit then
      some { w with nextTick := w.nextTick+IDLE_TICK }
    else none
  | .output =>
    if w.worker.phase.isRunning then some { w with lastMs := w.wall, spokenAt := w.clock }
    else none
  | .passes ms => some { w with clock := w.clock+ms, wall := w.wall+ms }
  | .setWall ms => some { w with wall := ms }

/-- Nobody sets the wall clock; and while the loop waits, a branch that is ready is taken within
`delay` of being ready, or of the loop coming back. -/
def Prompt (limits : WorkerLimits) (delay : ℕ) (w : LimitedWorker) : LimitedEvent → Prop
  | .setWall _ => False
  | .passes ms => w.worker.phase.isLooping = true →
      (∀ t ∈ w.timeoutAt limits, w.clock+ms ≤ max t w.backAt + delay) ∧
      (limits.idleTimeout.isSome = true → w.clock+ms ≤ max w.nextTick w.backAt + delay)
  | _ => True

instance (limits : WorkerLimits) (delay : ℕ) (w : LimitedWorker) :
    (e : LimitedEvent) → Decidable (w.Prompt limits delay e)
  | .setWall _ => inferInstanceAs (Decidable False)
  | .passes ms => inferInstanceAs (Decidable (_ = true →
      (∀ t ∈ w.timeoutAt limits, w.clock+ms ≤ max t w.backAt + delay) ∧ (_ = true → _ ≤ _)))
  | .worker _ | .tick | .output => inferInstanceAs (Decidable True)

/-- A limit is not enforced before its time. -/
def InTime (limits : WorkerLimits) (w : LimitedWorker) : LimitedEvent → Prop
  | .worker .timeout => ∃ served ∈ w.servedAt, ∃ d ∈ limits.timeout, served+d.asMillis ≤ w.clock
  | .worker .idle => ∃ limit ∈ limits.idleLimitMs, w.spokenAt+limit ≤ w.clock
  | _ => True

/-- And it is not missed: the loop does not wait on beyond it. -/
def Enforced (limits : WorkerLimits) (delay : ℕ) (w : LimitedWorker) : Prop :=
  w.worker.phase.isLooping = true → ∃ served, w.servedAt = some served ∧
    (∀ d ∈ limits.timeout, w.clock ≤ max (served+d.asMillis) w.backAt + delay) ∧
    ∀ limit ∈ limits.idleLimitMs,
      w.clock ≤ max (max served (w.spokenAt+limit+IDLE_TICK)) w.backAt + delay

/-- The invariant. -/
structure Kept (limits : WorkerLimits) (delay : ℕ) (w : LimitedWorker) : Prop where
  served : w.worker.phase.isServed = true → w.servedAt.isSome = true
  spoken : w.spokenAt ≤ w.clock ∧ w.wall = w.lastMs + (w.clock-w.spokenAt)
  ticks : ∀ served ∈ w.servedAt, ∀ limit ∈ limits.idleLimitMs,
    w.nextTick ≤ max served (w.spokenAt+limit+IDLE_TICK)
  prompt : w.worker.phase.isLooping = true →
    (∀ t ∈ w.timeoutAt limits, w.clock ≤ max t w.backAt + delay) ∧
    (limits.idleTimeout.isSome = true → w.clock ≤ max w.nextTick w.backAt + delay)

variable {limits : WorkerLimits} {delay : ℕ} {w w' : LimitedWorker} {e : LimitedEvent}

theorem isServed_of_isLooping {phase : WorkerPhase} (h : phase.isLooping = true) :
    phase.isServed = true := by
  cases phase with
  | looping => rfl
  | _ => cases h

/-- The loop is reached only through `serve`. -/
theorem isServed_step {cfg : WorkerConfig} {v v' : Worker} {e : WorkerEvent}
    (h : v.step cfg e = some v') (hserved : v'.phase.isServed = true) :
    v.phase.isServed = true ∨ e = .served none := by
  cases Worker.step_move h with
  | request | pane => exact .inl hserved
  | served => exact .inr rfl
  | respawned hp | timeout hp | idle hp | restart hp | kill hp =>
    rw [hp]
    exact .inl rfl
  | called hp =>
    rw [hp]
    exact .inl hserved
  | @terminated cause _ result _ hp =>
    rw [hp]
    cases cause with
    | setupFailure => cases hserved
    | _ => exact .inl rfl
  | wrote hp =>
    generalize v.phase = phase at hp
    unfold WorkerPhase.write at hp
    split at hp <;> cases hp
    · cases hserved
    · cases hserved
    · cases hserved
    · exact .inl rfl
    · cases hserved
    · cases hserved
  | writeFailed =>
    dsimp only at hserved
    unfold WorkerPhase.writeFailed at hserved
    split at hserved <;> cases hserved
  | spawned | spawnFailed | respawnFailed | setupFailed | exitNotified | drained | left | died =>
    cases hserved

/-- While the loop waits nothing is spawned or served. -/
theorem marked_of_isLooping {e : WorkerEvent} {v : Worker}
    (h : w.worker.step limits.cfg e = some v) (hloop : w.worker.phase.isLooping = true) :
    w.marked e = w := by
  cases Worker.step_move h with
  | spawned hp | respawned hp | served hp | setupFailed hp =>
    rw [hp] at hloop
    cases hloop
  | _ => rfl

/-- The clocks under a step of the worker. -/
theorem Kept.marked (h : Kept limits delay w) (e : WorkerEvent) :
    ((w.marked e).spokenAt ≤ w.clock ∧
      w.wall = (w.marked e).lastMs + (w.clock-(w.marked e).spokenAt)) ∧
    ∀ served ∈ (w.marked e).servedAt, ∀ limit ∈ limits.idleLimitMs,
      (w.marked e).nextTick ≤ max served ((w.marked e).spokenAt+limit+IDLE_TICK) := by
  have hspoken := h.spoken
  cases e with
  | spawned pid =>
    refine ⟨⟨Nat.le_refl _,by simp [LimitedWorker.marked]⟩,fun served hs limit hl => ?_⟩
    have := h.ticks served hs limit hl
    simp only [LimitedWorker.marked]
    omega
  | served failed =>
    refine ⟨hspoken,fun served hs limit hl => ?_⟩
    obtain rfl := Option.some.inj hs
    exact Nat.le_max_left _ _
  | _ => exact ⟨hspoken,h.ticks⟩

theorem Kept.worker (h : Kept limits delay w) {e : WorkerEvent} {v : Worker}
    (hstep : w.worker.step limits.cfg e = some v) : Kept limits delay ((w.marked e).moved v) := by
  have hclock : (w.marked e).clock = w.clock := by cases e <;> rfl
  have hwall : (w.marked e).wall = w.wall := by cases e <;> rfl
  have hworker : (w.marked e).worker = w.worker := by cases e <;> rfl
  have hback : (w.marked e).backAt = w.backAt := by cases e <;> rfl
  obtain ⟨hspoken,hticks⟩ := h.marked e
  refine ⟨fun hserved => ?_,?_,hticks,fun hloop => ?_⟩
  · rcases isServed_step hstep hserved with hold | rfl
    · have hsome := h.served hold
      cases e <;> first | exact hsome | rfl
    · rfl
  · simp only [moved,hclock,hwall]
    exact hspoken
  · by_cases hold : w.worker.phase.isLooping = true
    · have hmarked := marked_of_isLooping hstep hold
      have hsame : (w.moved v).backAt = w.backAt := if_neg (by simp [hold])
      rw [hmarked,hsame]
      exact h.prompt hold
    · have hnow : ((w.marked e).moved v).backAt = w.clock := by
        rw [moved,hworker,hclock]
        exact if_pos ⟨hloop,hold⟩
      rw [hnow]
      simp only [moved,hclock]
      exact ⟨fun t _ => by omega,fun _ => by omega⟩

theorem step_kept (hstep : w.step limits e = some w') (hprompt : w.Prompt limits delay e)
    (h : Kept limits delay w) : w.InTime limits e ∧ Kept limits delay w' := by
  cases e with
  | worker e =>
    obtain ⟨hready,hstep⟩ := Option.ite_none_right_eq_some.mp hstep
    obtain ⟨v,hv,rfl⟩ := Option.map_eq_some_iff.mp hstep
    refine ⟨?_,h.worker hv⟩
    cases e with
    | timeout =>
      obtain ⟨t,ht,hle⟩ := hready
      obtain ⟨served,hserved,hmap⟩ := Option.bind_eq_some_iff.mp ht
      obtain ⟨d,hd,rfl⟩ := Option.map_eq_some_iff.mp hmap
      exact ⟨served,hserved,d,hd,hle⟩
    | idle =>
      obtain ⟨-,limit,hlimit,hle⟩ := hready
      obtain ⟨hspoken,hwall⟩ := h.spoken
      refine ⟨limit,hlimit,?_⟩
      unfold idleMs at hle
      omega
    | _ => trivial
  | tick =>
    obtain ⟨⟨hloop,hdue,limit,hlimit,hlt⟩,hstep⟩ := Option.ite_none_right_eq_some.mp hstep
    obtain rfl := Option.some.inj hstep
    obtain ⟨hspoken,hwall⟩ := h.spoken
    refine ⟨trivial,h.served,h.spoken,fun served hs limit' hl => ?_,fun hl => ?_⟩
    · obtain rfl := Option.mem_unique hlimit hl
      unfold idleMs at hlt
      dsimp only
      omega
    · obtain ⟨htimeout,hidle⟩ := h.prompt hl
      refine ⟨htimeout,fun hi => (hidle hi).trans ?_⟩
      dsimp only
      omega
  | output =>
    obtain ⟨-,hstep⟩ := Option.ite_none_right_eq_some.mp hstep
    obtain rfl := Option.some.inj hstep
    refine ⟨trivial,h.served,⟨Nat.le_refl _,by simp⟩,fun served hs limit hl => ?_,h.prompt⟩
    have := h.ticks served hs limit hl
    have := h.spoken.1
    dsimp only
    omega
  | passes ms =>
    obtain rfl := Option.some.inj hstep
    refine ⟨trivial,h.served,?_,h.ticks,hprompt⟩
    have := h.spoken
    dsimp only
    omega
  | setWall ms => exact hprompt.elim

theorem Kept.enforced (h : Kept limits delay w) : w.Enforced limits delay := by
  intro hloop
  obtain ⟨served,hserved⟩ := Option.isSome_iff_exists.mp (h.served (isServed_of_isLooping hloop))
  obtain ⟨htimeout,hidle⟩ := h.prompt hloop
  refine ⟨served,hserved,fun d hd => ?_,fun limit hlimit => ?_⟩
  · refine htimeout _ ?_
    simp only [timeoutAt,hserved,Option.bind_some]
    exact Option.map_eq_some_iff.mpr ⟨d,hd,rfl⟩
  · have hsome : limits.idleTimeout.isSome = true := by
      obtain ⟨d,hd,-⟩ := Option.map_eq_some_iff.mp hlimit
      rw [hd]
      rfl
    have := hidle hsome
    have := h.ticks served hserved limit hlimit
    omega

theorem start_kept (limits : WorkerLimits) (delay clock wall : ℕ) :
    Kept limits delay (start clock wall) :=
  ⟨by rintro ⟨⟩,⟨Nat.le_refl _,by simp [start]⟩,by rintro _ ⟨⟩,by rintro ⟨⟩⟩

/-- The steps of the worker alone. -/
def workerSteps (_ : LimitedWorker) : LimitedEvent → List WorkerEvent
  | .worker e => [e]
  | _ => []

theorem follows_worker (limits : WorkerLimits) : Refinement.Follows (step limits) workerSteps
    (Worker.step limits.cfg) fun w v => w.worker = v := by
  rintro w e w' v hstep rfl
  cases e with
  | worker e =>
    obtain ⟨-,hstep⟩ := Option.ite_none_right_eq_some.mp hstep
    obtain ⟨v,hv,rfl⟩ := Option.map_eq_some_iff.mp hstep
    exact Refinement.follows_one hv rfl
  | tick | output =>
    obtain ⟨-,hstep⟩ := Option.ite_none_right_eq_some.mp hstep
    obtain rfl := Option.some.inj hstep
    exact Refinement.follows_silent rfl
  | passes | setWall =>
    obtain rfl := Option.some.inj hstep
    exact Refinement.follows_silent rfl

/-- Whatever the order of output, restarts, kills and ticks: the worker is one of the untimed
model; it enforces neither limit early; and its loop never waits on past the deadline, which no
restart moves, or past 500 ms behind the idle limit of the current command. -/
theorem limits_enforced (limits : WorkerLimits) (delay clock wall : ℕ) (es : List LimitedEvent)
    (hprompt : Transition.Meets (step limits) (Prompt limits delay) (start clock wall) es) :
    Transition.Meets (step limits) (InTime limits) (start clock wall) es ∧
    Transition.Always (step limits) (Enforced limits delay) (start clock wall) es ∧
    ∀ w, Transition.exec (step limits) (start clock wall) es = some w →
      ∃ fs, Transition.exec (Worker.step limits.cfg) .start fs = some w.worker := by
  have hstart := start_kept limits delay clock wall
  refine ⟨hprompt.kept (I := Kept limits delay) (fun _ _ _ => step_kept) hstart,?_,?_⟩
  · exact Transition.always_of_meets (I := Kept limits delay)
      (fun _ _ _ hstep hp h => (step_kept hstep hp h).2) (fun _ h => h.enforced) hprompt hstart
  · intro w hrun
    obtain ⟨v,hv,rfl⟩ := Refinement.exec_trace (follows_worker limits) hrun rfl
    exact ⟨_,hv⟩

/-- `--idle-timeout 1s` and a command that says something once. -/
def quietRun : List LimitedEvent :=
  [.worker (.spawned (some 7)),.worker (.record none),.passes 3,.worker (.served none),.tick,
    .passes 300,.output,.passes 205,.tick,.passes 500,.tick,.passes 510,.worker .idle]

theorem limits_enforced_quiet : ∃ w,
    Transition.exec (step ⟨none,some (.fromSecs 1)⟩) (start 0 1000) quietRun = some w ∧
      ∃ fs, Transition.exec (Worker.step ⟨false,true⟩) .start fs = some w.worker := by
  have hsome : (Transition.exec (step ⟨none,some (.fromSecs 1)⟩) (start 0 1000) quietRun).isSome =
      true := by
    decide +kernel
  obtain ⟨w,hrun⟩ := Option.isSome_iff_exists.mp hsome
  have hprompt : Transition.Meets (step ⟨none,some (.fromSecs 1)⟩)
      (Prompt ⟨none,some (.fromSecs 1)⟩ 50) (start 0 1000) quietRun := by
    decide +kernel
  exact ⟨w,hrun,(limits_enforced ⟨none,some (.fromSecs 1)⟩ 50 0 1000 quietRun hprompt).2.2 w hrun⟩

end LimitedWorker
end Babysit
