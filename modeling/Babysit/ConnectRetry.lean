import Babysit.Lib.Transition
import Babysit.Session

/-! How a command and an attached client find the socket of a worker that may not be there yet:
`connect_with_retry` and `connect_retry`, one loop with two sets of values, beside a worker that
binds and removes its sockets and writes its status when it likes. -/
namespace Babysit

/-- The pause between two attempts, in milliseconds. -/
def CONNECT_POLL : ℕ := 40

/-- Whether it looks after the owner of a session that is not finished, and whether it sleeps after
its last attempt, too, to look at the status once more. -/
structure ConnectCfg where
  attempts : ℕ
  checksOwner : Bool
  looksAgain : Bool

def connectWithRetry : ConnectCfg := ⟨25,true,false⟩
def connectRetry : ConnectCfg := ⟨75,false,true⟩

/-- `trying` one path, the hashed one first. -/
inductive ConnectPhase
  | trying (attempt : ℕ) (legacy : Bool)
  | readingStatus (attempt : ℕ)
  | readingMeta (attempt : ℕ)
  | asking (attempt pid : ℕ)
  | sleeping (attempt : ℕ)
  | lookingAgain
  | connected (legacy : Bool)
  | finished (state : State)
  | ownerless
  | gaveUp
  deriving DecidableEq, Repr

def ConnectPhase.ended : ConnectPhase → Bool
  | .connected _ | .finished _ | .ownerless | .gaveUp => true
  | _ => false

/-- The sockets with since when they listen; the status and the owner's process id, where they can
be read; the processes that are alive; and the loop, with when its phase was entered or its sleep
is over. The ghosts are its start and when the two paths last refused it. -/
structure ConnectWorld where
  now : ℕ
  hashed : Option ℕ
  legacy : Option ℕ
  status : Option State
  owner : Option ℕ
  alive : List ℕ
  phase : ConnectPhase
  since : ℕ
  startedAt : ℕ
  hashedRefused : Option ℕ
  legacyRefused : Option ℕ

inductive ConnectEvent
  | tick (ms : ℕ)
  | binds (legacy : Bool)
  | unbinds (legacy : Bool)
  | status (state : Option State)
  | owner (pid : Option ℕ)
  | alive (pids : List ℕ)
  | connects
  | readsStatus
  | readsMeta
  | asks
  | wakes

namespace ConnectWorld

def enter (w : ConnectWorld) (phase : ConnectPhase) : ConnectWorld :=
  { w with phase, since := w.now }

/-- Behind an attempt. -/
def rests (cfg : ConnectCfg) (w : ConnectWorld) (attempt : ℕ) : ConnectWorld :=
  if attempt + 1 < cfg.attempts ∨ cfg.looksAgain then
    { w with phase := .sleeping attempt, since := w.now + CONNECT_POLL }
  else w.enter .gaveUp

def step (cfg : ConnectCfg) (w : ConnectWorld) : ConnectEvent → Option ConnectWorld
  | .tick ms => some { w with now := w.now + ms }
  | .binds false => some { w with hashed := w.hashed.or (some w.now) }
  | .binds true => some { w with legacy := w.legacy.or (some w.now) }
  | .unbinds false => some { w with hashed := none }
  | .unbinds true => some { w with legacy := none }
  | .status state => some { w with status := state }
  | .owner pid => some { w with owner := pid }
  | .alive pids => some { w with alive := pids }
  | .connects =>
    match w.phase with
    | .trying attempt false =>
      if w.hashed.isSome then some (w.enter (.connected false))
      else some ({ w with hashedRefused := some w.now }.enter (.trying attempt true))
    | .trying attempt true =>
      if w.legacy.isSome then some (w.enter (.connected true))
      else some ({ w with legacyRefused := some w.now }.enter (.readingStatus attempt))
    | _ => none
  | .readsStatus =>
    match w.phase with
    | .readingStatus attempt =>
      match w.status with
      | some state =>
        if state.isTerminal then some (w.enter (.finished state))
        else if cfg.checksOwner then some (w.enter (.readingMeta attempt))
        else some (w.rests cfg attempt)
      | none => some (w.rests cfg attempt)
    | .lookingAgain =>
      match w.status with
      | some state =>
        if state.isTerminal then some (w.enter (.finished state)) else some (w.enter .gaveUp)
      | none => some (w.enter .gaveUp)
    | _ => none
  | .readsMeta =>
    match w.phase with
    | .readingMeta attempt =>
      match w.owner with
      | some pid => some (w.enter (.asking attempt pid))
      | none => some (w.rests cfg attempt)
    | _ => none
  | .asks =>
    match w.phase with
    | .asking attempt pid =>
      if pid ∈ w.alive then some (w.rests cfg attempt) else some (w.enter .ownerless)
    | _ => none
  | .wakes =>
    match w.phase with
    | .sleeping attempt =>
      if w.since ≤ w.now then
        some (w.enter (if attempt + 1 < cfg.attempts then .trying (attempt+1) false
          else .lookingAgain))
      else none
    | _ => none

def start (now : ℕ) (hashed legacy : Option ℕ) (status : Option State) (owner : Option ℕ)
    (alive : List ℕ) : ConnectWorld :=
  ⟨now,hashed,legacy,status,owner,alive,.trying 0 false,now,now,none,none⟩

/-- Each thing is done within `delay` of when it can be. -/
def Prompt (delay : ℕ) (w : ConnectWorld) : ConnectEvent → Prop
  | .tick ms => w.phase.ended = false → w.now + ms ≤ w.since + delay
  | _ => True

instance (delay : ℕ) (w : ConnectWorld) : (e : ConnectEvent) → Decidable (Prompt delay w e)
  | .tick ms => inferInstanceAs (Decidable (w.phase.ended = false → w.now + ms ≤ w.since + delay))
  | .binds _ | .unbinds _ | .status _ | .owner _ | .alive _ | .connects | .readsStatus | .readsMeta
  | .asks | .wakes => .isTrue trivial

/-- An attempt and the pause behind it take no longer than this. -/
def round (delay : ℕ) : ℕ := CONNECT_POLL + 6*delay

/-- A socket that listens now and has done so for long was not missed. -/
structure Reaches (cfg : ConnectCfg) (delay : ℕ) (w : ConnectWorld) : Prop where
  hashed : w.phase = .gaveUp → ∀ t ∈ w.hashed, w.startedAt + CONNECT_POLL*(cfg.attempts-1) ≤ t
  legacy : w.phase = .gaveUp → ∀ t ∈ w.legacy, w.startedAt + CONNECT_POLL*(cfg.attempts-1) ≤ t
  finished : ∀ state, w.phase = .finished state → state.isTerminal = true
  bounded : w.phase.ended = false → w.now ≤ w.startedAt + cfg.attempts*round delay + delay

/-- Both paths have refused an attempt at this time or later. -/
def Refused (w : ConnectWorld) (time : ℕ) : Prop :=
  (∃ r ∈ w.hashedRefused, time ≤ r) ∧ ∃ r ∈ w.legacyRefused, time ≤ r

/-- When an attempt begins at the earliest, and at the latest. -/
def earliest (w : ConnectWorld) (attempt : ℕ) : ℕ := w.startedAt + CONNECT_POLL*attempt

def latest (delay : ℕ) (w : ConnectWorld) (attempt : ℕ) : ℕ := w.startedAt + attempt*round delay

/-- How far a phase has come, between the two. -/
def Paced (cfg : ConnectCfg) (delay : ℕ) (w : ConnectWorld) : ConnectPhase → Prop
  | .trying k false => k < cfg.attempts ∧ w.earliest k ≤ w.since ∧ w.since ≤ w.latest delay k
  | .trying k true => k < cfg.attempts ∧ w.earliest k ≤ w.since ∧
    (∃ r ∈ w.hashedRefused, w.earliest k ≤ r) ∧ w.since ≤ w.latest delay k + delay
  | .readingStatus k => k < cfg.attempts ∧ w.Refused (w.earliest k) ∧
    w.since ≤ w.latest delay k + 2*delay
  | .readingMeta k => k < cfg.attempts ∧ w.Refused (w.earliest k) ∧
    w.since ≤ w.latest delay k + 3*delay
  | .asking k _ => k < cfg.attempts ∧ w.Refused (w.earliest k) ∧
    w.since ≤ w.latest delay k + 4*delay
  | .sleeping k => k < cfg.attempts ∧ w.Refused (w.earliest k) ∧ w.earliest (k+1) ≤ w.since ∧
    w.since ≤ w.latest delay k + 5*delay + CONNECT_POLL
  | .lookingAgain => w.Refused (w.earliest (cfg.attempts-1)) ∧
    w.since ≤ w.latest delay cfg.attempts
  | .gaveUp => w.Refused (w.earliest (cfg.attempts-1))
  | .finished state => state.isTerminal = true
  | .connected _ | .ownerless => True

/-- The invariant: a socket that listens has begun to after its path last refused. -/
structure Kept (cfg : ConnectCfg) (delay : ℕ) (w : ConnectWorld) : Prop where
  prompt : w.phase.ended = false → w.now ≤ w.since + delay
  entered : (∀ k, w.phase ≠ .sleeping k) → w.since ≤ w.now
  hashed : ∀ r ∈ w.hashedRefused, r ≤ w.now ∧ ∀ t ∈ w.hashed, r ≤ t
  legacy : ∀ r ∈ w.legacyRefused, r ≤ w.now ∧ ∀ t ∈ w.legacy, r ≤ t
  paced : w.Paced cfg delay w.phase

variable {cfg : ConnectCfg} {delay k : ℕ} {w : ConnectWorld} {p : ConnectPhase}

theorem latest_succ (delay : ℕ) (w : ConnectWorld) (k : ℕ) :
    w.latest delay (k+1) = w.latest delay k + round delay := by
  simp [latest,Nat.succ_mul,Nat.add_assoc]

theorem latest_mono {k n : ℕ} (h : k ≤ n) : w.latest delay k ≤ w.latest delay n :=
  Nat.add_le_add_left (Nat.mul_le_mul_right _ h) _

theorem start_kept (hattempts : 0 < cfg.attempts) (now : ℕ) (hashed legacy : Option ℕ)
    (status : Option State) (owner : Option ℕ) (alive : List ℕ) :
    (start now hashed legacy status owner alive).Kept cfg delay := by
  constructor
  case paced => exact ⟨hattempts,by simp [earliest,start],by simp [latest,start]⟩
  all_goals simp [start]

theorem Kept.reaches (h : w.Kept cfg delay) : w.Reaches cfg delay := by
  have hpaced := h.paced
  refine ⟨fun hphase t ht => ?_,fun hphase t ht => ?_,fun state hphase => ?_,fun hrunning => ?_⟩
  · rw [hphase] at hpaced
    obtain ⟨r,hr,hle⟩ := hpaced.1
    exact Nat.le_trans hle ((h.hashed r hr).2 t ht)
  · rw [hphase] at hpaced
    obtain ⟨r,hr,hle⟩ := hpaced.2
    exact Nat.le_trans hle ((h.legacy r hr).2 t ht)
  · rw [hphase] at hpaced
    exact hpaced
  · have hprompt := h.prompt hrunning
    have hbound : ∀ k < cfg.attempts, w.latest delay k + round delay ≤ w.latest delay cfg.attempts := by
      intro k hk
      rw [← latest_succ]
      exact latest_mono hk
    have hsince : w.since ≤ w.latest delay cfg.attempts := by
      unfold round at hbound
      cases hphase : w.phase with
      | trying k legacy =>
        rw [hphase] at hpaced
        cases legacy with
        | false =>
          have hk := hbound k hpaced.1
          have hlatest := hpaced.2.2
          omega
        | true =>
          have hk := hbound k hpaced.1
          have hlatest := hpaced.2.2.2
          omega
      | readingStatus k | readingMeta k | asking k pid =>
        rw [hphase] at hpaced
        have hk := hbound k hpaced.1
        have hlatest := hpaced.2.2
        omega
      | sleeping k =>
        rw [hphase] at hpaced
        have hk := hbound k hpaced.1
        have hlatest := hpaced.2.2.2
        omega
      | lookingAgain =>
        rw [hphase] at hpaced
        exact hpaced.2
      | connected legacy | finished state | ownerless | gaveUp =>
        rw [hphase] at hrunning
        cases hrunning
    exact Nat.le_trans hprompt (Nat.add_le_add_right hsince _)

/-- What others do leaves the loop where it is. -/
theorem Kept.others {w' : ConnectWorld} (h : w.Kept cfg delay) (hphase : w'.phase = w.phase)
    (hsince : w'.since = w.since) (hstarted : w'.startedAt = w.startedAt)
    (hhashed : w'.hashedRefused = w.hashedRefused) (hlegacy : w'.legacyRefused = w.legacyRefused)
    (hnow : w.now ≤ w'.now) (hprompt : w'.phase.ended = false → w'.now ≤ w'.since + delay)
    (hbinds : ∀ t ∈ w'.hashed, t ∈ w.hashed ∨ t = w.now)
    (hbinds' : ∀ t ∈ w'.legacy, t ∈ w.legacy ∨ t = w.now) : w'.Kept cfg delay := by
  obtain ⟨now,hashed,legacy,status,owner,alive,phase,since,startedAt,hashedRefused,legacyRefused⟩ := w'
  dsimp only at hphase hsince hstarted hhashed hlegacy hnow hbinds hbinds'
  subst hphase hsince hstarted hhashed hlegacy
  refine ⟨hprompt,fun hne => Nat.le_trans (h.entered hne) hnow,fun r hr => ?_,fun r hr => ?_,h.paced⟩
  · obtain ⟨hle,hlater⟩ := h.hashed r hr
    refine ⟨Nat.le_trans hle hnow,fun t ht => ?_⟩
    rcases hbinds t ht with hold | rfl
    · exact hlater t hold
    · exact hle
  · obtain ⟨hle,hlater⟩ := h.legacy r hr
    refine ⟨Nat.le_trans hle hnow,fun t ht => ?_⟩
    rcases hbinds' t ht with hold | rfl
    · exact hlater t hold
    · exact hle

theorem Kept.enters (h : w.Kept cfg delay) (hpaced : (w.enter p).Paced cfg delay p) :
    (w.enter p).Kept cfg delay :=
  { h with
    prompt := fun _ => Nat.le_add_right _ _
    entered := fun _ => Nat.le_refl _
    paced := hpaced }

/-- An attempt that both paths have refused. -/
theorem Kept.rests (h : w.Kept cfg delay) (hk : k < cfg.attempts)
    (hrefused : w.Refused (w.earliest k)) (hlatest : w.now ≤ w.latest delay k + 5*delay) :
    (w.rests cfg k).Kept cfg delay := by
  unfold ConnectWorld.rests
  split_ifs with hmore
  · obtain ⟨r,hr,hearliest⟩ := hrefused.2
    have hnow := (h.legacy r hr).1
    refine { h with prompt := ?_, entered := ?_, paced := ⟨hk,hrefused,?_,?_⟩ }
    · intro _
      dsimp only
      omega
    · exact fun hne => absurd rfl (hne k)
    · unfold earliest at hearliest ⊢
      dsimp only
      rw [Nat.mul_succ]
      omega
    · exact Nat.add_le_add_right hlatest _
  · obtain ⟨hlast,-⟩ := not_or.mp hmore
    obtain rfl : k = cfg.attempts - 1 := by omega
    exact h.enters hrefused

/-- A path refuses: its socket does not listen now. -/
theorem Kept.refuses (h : w.Kept cfg delay) (hphase : w.phase = .trying k false)
    (hnone : w.hashed = none) :
    Kept cfg delay ({ w with hashedRefused := some w.now }.enter (.trying k true)) := by
  have hpaced := h.paced
  rw [hphase] at hpaced
  obtain ⟨hk,hearliest,hlatest⟩ := hpaced
  have hentered := h.entered (by simp [hphase])
  have hprompt := h.prompt (by simp [hphase,ConnectPhase.ended])
  refine ⟨fun _ => Nat.le_add_right _ _,fun _ => Nat.le_refl _,?_,h.legacy,hk,?_,⟨w.now,rfl,?_⟩,?_⟩
  · rintro r ⟨⟩
    refine ⟨Nat.le_refl _,fun t ht => ?_⟩
    simp [enter,hnone] at ht
  · exact Nat.le_trans hearliest hentered
  · exact Nat.le_trans hearliest hentered
  · exact Nat.le_trans hprompt (Nat.add_le_add_right hlatest _)

theorem Kept.refusesLegacy (h : w.Kept cfg delay) (hphase : w.phase = .trying k true)
    (hnone : w.legacy = none) :
    Kept cfg delay ({ w with legacyRefused := some w.now }.enter (.readingStatus k)) := by
  have hpaced := h.paced
  rw [hphase] at hpaced
  obtain ⟨hk,hearliest,hrefused,hlatest⟩ := hpaced
  have hentered := h.entered (by simp [hphase])
  have hprompt := h.prompt (by simp [hphase,ConnectPhase.ended])
  refine ⟨fun _ => Nat.le_add_right _ _,fun _ => Nat.le_refl _,h.hashed,?_,hk,
    ⟨hrefused,⟨w.now,rfl,?_⟩⟩,?_⟩
  · rintro r ⟨⟩
    refine ⟨Nat.le_refl _,fun t ht => ?_⟩
    simp [enter,hnone] at ht
  · exact Nat.le_trans hearliest hentered
  · change w.now ≤ w.latest delay k + 2*delay
    omega

theorem Kept.readsStatus {w' : ConnectWorld} (h : w.Kept cfg delay)
    (hstep : step cfg w .readsStatus = some w') : w'.Kept cfg delay := by
  have hpaced := h.paced
  simp only [step] at hstep
  split at hstep
  · next k hphase =>
    rw [hphase] at hpaced
    obtain ⟨hk,hrefused,hlatest⟩ := hpaced
    have hprompt := h.prompt (by simp [hphase,ConnectPhase.ended])
    have hrests : (w.rests cfg k).Kept cfg delay := h.rests hk hrefused (by omega)
    split at hstep
    · next state hstatus =>
      split_ifs at hstep with hterminal howner
      · obtain rfl := Option.some.inj hstep
        exact h.enters hterminal
      · obtain rfl := Option.some.inj hstep
        refine h.enters ⟨hk,hrefused,?_⟩
        change w.now ≤ w.latest delay k + 3*delay
        omega
      · obtain rfl := Option.some.inj hstep
        exact hrests
    · obtain rfl := Option.some.inj hstep
      exact hrests
  · next hphase =>
    rw [hphase] at hpaced
    split at hstep
    · next state hstatus =>
      split_ifs at hstep with hterminal
      · obtain rfl := Option.some.inj hstep
        exact h.enters hterminal
      · obtain rfl := Option.some.inj hstep
        exact h.enters hpaced.1
    · obtain rfl := Option.some.inj hstep
      exact h.enters hpaced.1
  · cases hstep

theorem step_kept (w : ConnectWorld) (e : ConnectEvent) (w' : ConnectWorld)
    (hstep : step cfg w e = some w') (hprompt : Prompt delay w e) (h : w.Kept cfg delay) :
    w'.Kept cfg delay := by
  have hpaced := h.paced
  cases e with
  | tick ms =>
    obtain rfl := Option.some.inj hstep
    exact h.others rfl rfl rfl rfl rfl (Nat.le_add_right _ _) hprompt (fun t => .inl) fun t => .inl
  | binds legacy =>
    cases legacy with
    | false =>
      obtain rfl := Option.some.inj hstep
      refine h.others rfl rfl rfl rfl rfl (Nat.le_refl _) h.prompt (fun t ht => ?_) fun t => .inl
      rcases Option.or_eq_some_iff.mp ht with hold | ⟨-,hnew⟩
      · exact .inl hold
      · exact .inr (Option.some.inj hnew).symm
    | true =>
      obtain rfl := Option.some.inj hstep
      refine h.others rfl rfl rfl rfl rfl (Nat.le_refl _) h.prompt (fun t => .inl) fun t ht => ?_
      rcases Option.or_eq_some_iff.mp ht with hold | ⟨-,hnew⟩
      · exact .inl hold
      · exact .inr (Option.some.inj hnew).symm
  | unbinds legacy =>
    cases legacy with
    | false =>
      obtain rfl := Option.some.inj hstep
      exact h.others rfl rfl rfl rfl rfl (Nat.le_refl _) h.prompt (by rintro t ⟨⟩) fun t => .inl
    | true =>
      obtain rfl := Option.some.inj hstep
      exact h.others rfl rfl rfl rfl rfl (Nat.le_refl _) h.prompt (fun t => .inl) (by rintro t ⟨⟩)
  | status state | owner pid | alive pids =>
    obtain rfl := Option.some.inj hstep
    exact h.others rfl rfl rfl rfl rfl (Nat.le_refl _) h.prompt (fun t => .inl) fun t => .inl
  | connects =>
    simp only [step] at hstep
    split at hstep
    · next k hphase =>
      split_ifs at hstep with hlistens
      · obtain rfl := Option.some.inj hstep
        exact h.enters trivial
      · obtain rfl := Option.some.inj hstep
        exact h.refuses hphase (by simpa using hlistens)
    · next k hphase =>
      split_ifs at hstep with hlistens
      · obtain rfl := Option.some.inj hstep
        exact h.enters trivial
      · obtain rfl := Option.some.inj hstep
        exact h.refusesLegacy hphase (by simpa using hlistens)
    · cases hstep
  | readsStatus => exact h.readsStatus hstep
  | readsMeta =>
    simp only [step] at hstep
    split at hstep
    · next k hphase =>
      rw [hphase] at hpaced
      obtain ⟨hk,hrefused,hlatest⟩ := hpaced
      have hnow := h.prompt (by simp [hphase,ConnectPhase.ended])
      split at hstep
      · obtain rfl := Option.some.inj hstep
        refine h.enters ⟨hk,hrefused,?_⟩
        change w.now ≤ w.latest delay k + 4*delay
        omega
      · obtain rfl := Option.some.inj hstep
        exact h.rests hk hrefused (by omega)
    · cases hstep
  | asks =>
    simp only [step] at hstep
    split at hstep
    · next k pid hphase =>
      rw [hphase] at hpaced
      obtain ⟨hk,hrefused,hlatest⟩ := hpaced
      have hnow := h.prompt (by simp [hphase,ConnectPhase.ended])
      split_ifs at hstep
      · obtain rfl := Option.some.inj hstep
        exact h.rests hk hrefused (by omega)
      · obtain rfl := Option.some.inj hstep
        exact h.enters trivial
    · cases hstep
  | wakes =>
    simp only [step] at hstep
    split at hstep
    · next k hphase =>
      obtain ⟨hwoken,hstep⟩ := Option.ite_none_right_eq_some.mp hstep
      obtain rfl := Option.some.inj hstep
      rw [hphase] at hpaced
      obtain ⟨hk,hrefused,hearliest,hlatest⟩ := hpaced
      have hnow := h.prompt (by simp [hphase,ConnectPhase.ended])
      have hround : w.now ≤ w.latest delay (k+1) := by
        rw [latest_succ]
        unfold round
        omega
      split_ifs with hmore
      · exact h.enters ⟨hmore,Nat.le_trans hearliest hwoken,hround⟩
      · obtain rfl : k = cfg.attempts - 1 := by omega
        rw [Nat.sub_add_cancel (Nat.lt_of_le_of_lt (Nat.zero_le _) hk)] at hround
        exact h.enters ⟨hrefused,hround⟩
    · cases hstep

/-- In every order of the loop's steps and of what the worker and others do: the loop gives up only
where neither socket has listened since before its last attempt, it takes a session for finished
only for its status, and with each step taken within `delay` it ends in time. -/
theorem connects_in_time (cfg : ConnectCfg) (delay : ℕ) (hattempts : 0 < cfg.attempts) (now : ℕ)
    (hashed legacy : Option ℕ) (status : Option State) (owner : Option ℕ) (alive : List ℕ)
    (es : List ConnectEvent) (hprompt : Transition.Meets (step cfg) (Prompt delay)
      (start now hashed legacy status owner alive) es) :
    Transition.Always (step cfg) (Reaches cfg delay)
      (start now hashed legacy status owner alive) es :=
  Transition.always_of_meets (I := Kept cfg delay) step_kept (fun _ => Kept.reaches) hprompt
    (start_kept hattempts now hashed legacy status owner alive)

/-- A worker that is starting binds its socket during the first pause. -/
def startingRun : List ConnectEvent :=
  [.connects,.connects,.status (some .starting),.readsStatus,.owner (some 7),.readsMeta,.asks,
    .tick 30,.binds false,.tick 13,.wakes,.connects]

theorem connects_in_time_starting : ∃ w,
    Transition.exec (step connectWithRetry) (start 0 none none none none [7]) startingRun = some w ∧
      w.phase = .connected false ∧ w.Reaches connectWithRetry 5 := by
  have hsome : ((Transition.exec (step connectWithRetry) (start 0 none none none none [7])
      startingRun).map phase) = some (.connected false) := by decide +kernel
  obtain ⟨w,hrun,hphase⟩ := Option.map_eq_some_iff.mp hsome
  have hprompt : Transition.Meets (step connectWithRetry) (Prompt 5)
      (start 0 none none none none [7]) startingRun := by decide +kernel
  exact ⟨w,hrun,hphase,(connects_in_time connectWithRetry 5 (by decide) 0 none none none none [7]
    startingRun hprompt).last hrun⟩

end ConnectWorld
end Babysit
