import Babysit.SessionIds

/-! `run` with a remote host: one `run` is sent over SSH, and when the transport fails under it
the session is looked for by its id. The command may reach the host late, or after SSH has given
up, and the host serves other invocations meanwhile. -/
namespace Babysit

/-- The flags of `run`. -/
structure RunFlags where
  id : Option String
  detach : Bool
  noTty : Bool
  timeout : Option String
  idleTimeout : Option String
  size : Option String
  viewCmd : Option String
  cmd : List String

/-- The flags, and the two ids that are drawn when there is none among them. -/
structure CreateCfg where
  flags : RunFlags
  drawn : String × String

namespace CreateCfg

def generated (cfg : CreateCfg) : Bool := cfg.flags.id.isNone

def id (cfg : CreateCfg) : String := cfg.flags.id.getD (cfg.drawn.1 ++ cfg.drawn.2)

end CreateCfg

/-- A flag with its value. -/
def flagArgs (name : String) : Option String → List String
  | some value => [name,value]
  | none => []

def runArgs (cfg : CreateCfg) : List String :=
  ["run","--id",cfg.id,"--detach","--json"] ++ (if cfg.flags.noTty then ["--no-tty"] else []) ++
    flagArgs "--timeout" cfg.flags.timeout ++ flagArgs "--idle-timeout" cfg.flags.idleTimeout ++
    flagArgs "--size" cfg.flags.size ++ flagArgs "--view-cmd" cfg.flags.viewCmd ++ ["--"] ++
    cfg.flags.cmd

def statusArgs (id : String) : List String := ["status","--session",id,"--json"]

def remoteInfoArgs : List String := ["__remote-info"]

/-- A process on the host, once the command has reached it. -/
inductive RemoteProcess
  | pending
  | running
  | exited (code : ℕ)
  deriving DecidableEq, Repr

/-- A call of `ssh_command`. `invocation` is the `run` that the process on the host is, `found`
tells that a `status` there has resolved its session. -/
structure SshCall where
  args : List String
  process : RemoteProcess
  invocation : Option ℕ
  found : Bool
  deriving DecidableEq, Repr

namespace SshCall

def isRun (call : SshCall) : Bool := call.args.head? == some "run"

/-- The id that `run` is asked for. -/
def requested (call : SshCall) : Option String :=
  if call.isRun then call.args[2]? else none

/-- The id that `status` looks for. -/
def selected (call : SshCall) : Option String :=
  if call.args.head? = some "status" then call.args[2]? else none

def exitCode (call : SshCall) : Option ℕ :=
  match call.process with
  | .exited code => some code
  | _ => none

end SshCall

namespace Invocation

/-- The id the invocation has settled on. -/
def chosenId (inv : Invocation) : Option String :=
  match inv.phase with
  | .chosen id | .worker id _ | .ended id _ => some id
  | _ => none

/-- The invocation has spawned its worker. -/
def hasSpawned (inv : Invocation) : Bool :=
  match inv.phase with
  | .worker _ _ | .ended _ _ => true
  | _ => false

end Invocation

/-- What the user is told: that the session is there, that this is unknown, that `run` has failed
with a code, or what has gone wrong on the way. -/
inductive CreateVerdict
  | created
  | unknown
  | failed (code : Option ℕ)
  | error
  deriving DecidableEq, Repr

/-- What is being asked over SSH, and whether SSH is running. -/
inductive CreatePhase
  | verifying (isOpen : Bool)
  | running (isOpen : Bool)
  | confirming (attempt : ℕ) (isOpen : Bool)
  | ended (verdict : CreateVerdict)
  deriving DecidableEq, Repr

def notCreated (code : Option ℕ) : CreateVerdict :=
  if code = some 255 then .unknown else .failed code

namespace CreatePhase

/-- The next call of SSH. -/
def opened (cfg : CreateCfg) : CreatePhase → Option (CreatePhase × List String)
  | .verifying false => some (.verifying true,remoteInfoArgs)
  | .running false => some (.running true,runArgs cfg)
  | .confirming attempt false => some (.confirming attempt true,statusArgs cfg.id)
  | _ => none

/-- SSH cannot be started, or is not back after 20 seconds. -/
def aborted : CreatePhase → Option CreatePhase
  | .ended _ => none
  | _ => some (.ended .error)

/-- What the exit of `run` comes to; without a code, SSH has been killed. -/
def afterRun (cfg : CreateCfg) (code : Option ℕ) : CreatePhase :=
  if code = some 0 then .ended .created
  else if cfg.generated ∧ code = some 255 then .confirming 0 false
  else .ended (notCreated code)

/-- What a look for the session comes to. -/
def afterStatus (attempt : ℕ) (code : Option ℕ) : CreatePhase :=
  if code = some 0 then .ended .created
  else if attempt < 9 then .confirming (attempt+1) false
  else .ended (notCreated (some 255))

/-- SSH has exited. -/
def returned (cfg : CreateCfg) (compatible : Bool) (code : Option ℕ) :
    CreatePhase → Option CreatePhase
  | .verifying true => some (if code = some 0 ∧ compatible then .running false else .ended .error)
  | .running true => some (afterRun cfg code)
  | .confirming attempt true => some (afterStatus attempt code)
  | _ => none

end CreatePhase

/-- The client, its calls of SSH in order, and the state root on the host. -/
structure CreateWorld where
  phase : CreatePhase
  ssh : List SshCall
  root : RootWorld

inductive CreateEvent
  | opens
  | aborts
  | returns (code : Option ℕ) (compatible : Bool)
  | reaches (j : ℕ)
  | invokes (j : ℕ)
  | looks (j : ℕ)
  | exits (j : ℕ) (code : ℕ)
  | root (e : RootEvent)

/-- The invocation whose first process takes the step, not its worker. -/
def RootEvent.parent : RootEvent → Option ℕ
  | .acts i (.checks _ _) | .acts i .spawns | .acts i .spawnFails => some i
  | _ => none

/-- The `run` of the call has spawned its worker. -/
def SshCall.hasSpawned (call : SshCall) (root : RootWorld) : Bool :=
  (call.invocation.bind fun i => root.runs[i]?).any Invocation.hasSpawned

/-- With 0 `run` has spawned its worker and `status` has found its session; a `run` that has
spawned its worker ends with 0 unless it is killed. -/
def SshCall.MayExit (call : SshCall) (root : RootWorld) (code : ℕ) : Prop :=
  (code = 0 → (call.isRun → call.hasSpawned root) ∧ (call.selected.isSome → call.found)) ∧
    (call.hasSpawned root → code = 0 ∨ 128 ≤ code)

instance (call : SshCall) (root : RootWorld) (code : ℕ) : Decidable (call.MayExit root code) :=
  inferInstanceAs (Decidable ((_ → (_ → _) ∧ (_ → _)) ∧ (_ → _)))

namespace CreateWorld

def start (cfg : CreateCfg) : CreateWorld :=
  ⟨if cfg.flags.detach then .running false else .verifying false,[],.start⟩

/-- The first processes of the calls that are still running. -/
def Lives (w : CreateWorld) (e : RootEvent) : Prop :=
  ∀ call ∈ w.ssh, call.invocation.isSome → e.parent = call.invocation → call.process = .running

instance (w : CreateWorld) (e : RootEvent) : Decidable (w.Lives e) :=
  inferInstanceAs (Decidable (∀ call ∈ w.ssh, _ → _ → _))

/-- A step of the client, of SSH or of the host. SSH exits with the code of the command, with
255 when the transport has failed, or by a signal. -/
def step (cfg : CreateCfg) (w : CreateWorld) : CreateEvent → Option CreateWorld
  | .opens => do
    let (phase,args) ← w.phase.opened cfg
    some { w with phase, ssh := w.ssh ++ [⟨args,.pending,none,false⟩] }
  | .aborts => do
    let phase ← w.phase.aborted
    some { w with phase }
  | .returns code compatible => do
    let phase ← w.phase.returned cfg compatible code
    if code = none ∨ code = some 255 ∨ w.ssh.getLast?.bind SshCall.exitCode = code then
      some { w with phase }
    else none
  | .reaches j => do
    let call ← w.ssh[j]?
    if call.process = .pending then
      some { w with ssh := w.ssh.set j { call with process := .running } }
    else none
  | .invokes j => do
    let call ← w.ssh[j]?
    let id ← call.requested
    let root ← w.root.step (.invoked (some id))
    if call.process = .running ∧ call.invocation = none then
      some { w with root, ssh := w.ssh.set j { call with invocation := some w.root.runs.length } }
    else none
  | .looks j => do
    let call ← w.ssh[j]?
    let id ← call.selected
    if call.process = .running then
      some { w with ssh := w.ssh.set j { call with found := decide (id ∈ w.root.dirs) } }
    else none
  | .exits j code => do
    let call ← w.ssh[j]?
    if call.process = .running ∧ call.MayExit w.root code then
      some { w with ssh := w.ssh.set j { call with process := .exited code } }
    else none
  | .root e => do
    let root ← w.root.step e
    if w.Lives e then some { w with root } else none

end CreateWorld

namespace Invocation
variable {inv inv' : Invocation} {dirs made : List String} {written : List SessionPath}
  {a : RunAction}

theorem chosenId_of_owned {id : String} (h : inv.owned = some id) : inv.chosenId = some id := by
  unfold owned at h
  unfold chosenId
  split at h
  · cases h
  · cases h
  · next hphase => rw [hphase]; exact h
  · next hphase => rw [hphase]; exact h
  · cases h

theorem hasSpawned_of_owned {id : String} (h : inv.owned = some id) : inv.hasSpawned = true := by
  unfold owned at h
  unfold hasSpawned
  split at h
  · cases h
  · cases h
  · next hphase => rw [hphase]
  · next hphase => rw [hphase]
  · cases h

theorem makeId_chosen {requested : Option String} {attempts : ℕ} {newId id : String}
    {isThere : String → Option Bool} (h : makeId requested attempts newId isThere = .chosen id) :
    requested = some id ∨ requested = none ∧ newId = id := by
  unfold makeId at h
  cases requested with
  | none => split_ifs at h <;> exact .inr ⟨rfl,by injection h⟩
  | some x =>
    simp only at h
    cases hvalid : validateId x with
    | some error =>
      rw [hvalid] at h
      cases h
    | none =>
      simp only [hvalid] at h
      split_ifs at h
      exact .inl (congrArg some (by injection h))

/-- What an invocation does next: its first process looks for an id, or spawns the worker, or
fails to; or the worker goes on with the session, whose directory it may make. -/
theorem act_cases (h : inv.act dirs a = some (inv',made,written)) :
    (∃ newId readable attempts, a = .checks newId readable ∧ inv.phase = .checking attempts ∧
      made = [] ∧ inv' = { inv with
        phase := makeId inv.requested attempts newId (tryExists dirs readable) }) ∨
    (∃ id, inv.phase = .chosen id ∧ made = [] ∧
      (a = .spawns ∧ inv' = { inv with phase := .worker id .spawned } ∨
        a = .spawnFails ∧
          inv' = { inv with phase := .refused "spawning detached babysit worker" })) ∨
    ∃ id stage stage', inv.phase = .worker id stage ∧
      (made = [] ∧ inv' = { inv with phase := .worker id stage' } ∨
        made = [id] ∧ inv' = { inv with phase := .worker id .created } ∨
        made = [] ∧ inv' = { inv with phase := .ended id stage' }) := by
  unfold act at h
  split at h
  case h_1 newId readable =>
    split at h <;> cases h
    next attempts hphase => exact .inl ⟨newId,readable,attempts,rfl,hphase,rfl,rfl⟩
  case h_2 =>
    split at h <;> cases h
    next id hphase => exact .inr (.inl ⟨id,hphase,rfl,.inl ⟨rfl,rfl⟩⟩)
  case h_3 =>
    split at h <;> cases h
    next id hphase => exact .inr (.inl ⟨id,hphase,rfl,.inr ⟨rfl,rfl⟩⟩)
  case h_4 =>
    split at h <;> cases h
    next id hphase => exact .inr (.inr ⟨id,_,.created,hphase,.inr (.inl ⟨rfl,rfl⟩)⟩)
  case h_5 =>
    split at h
    case h_2 => cases h
    next id stage hphase =>
      obtain ⟨⟨files,next⟩,-,hnext⟩ := Option.map_eq_some_iff.mp h
      cases hnext
      exact .inr (.inr ⟨id,stage,next,hphase,.inl ⟨rfl,rfl⟩⟩)
  case h_6 file =>
    split at h
    case h_2 => cases h
    next id stage hphase =>
      obtain ⟨-,h⟩ := Option.ite_none_right_eq_some.mp h
      cases h
      exact .inr (.inr ⟨id,stage,stage,hphase,.inl ⟨rfl,by rw [← hphase]⟩⟩)
  case h_7 =>
    split at h <;> cases h
    next id stage hphase => exact .inr (.inr ⟨id,stage,stage,hphase,.inr (.inr ⟨rfl,rfl⟩)⟩)

theorem act_requested (h : inv.act dirs a = some (inv',made,written)) :
    inv'.requested = inv.requested := by
  rcases act_cases h with ⟨_,_,_,-,-,-,rfl⟩ | ⟨_,-,-,⟨-,rfl⟩ | ⟨-,rfl⟩⟩ |
    ⟨_,_,_,-,⟨-,rfl⟩ | ⟨-,rfl⟩ | ⟨-,rfl⟩⟩ <;> rfl

/-- An id that an invocation settles on is the one asked for, or newly drawn. -/
theorem act_chosenId {id : String} (h : inv.act dirs a = some (inv',made,written))
    (hid : inv'.chosenId = some id) : inv.chosenId = some id ∨ inv.requested = some id ∨
      ∃ readable, inv.requested = none ∧ a = .checks id readable := by
  rcases act_cases h with ⟨newId,readable,attempts,rfl,-,-,rfl⟩ |
    ⟨x,hphase,-,⟨-,rfl⟩ | ⟨-,rfl⟩⟩ | ⟨x,stage,_,hphase,⟨-,rfl⟩ | ⟨-,rfl⟩ | ⟨-,rfl⟩⟩
  · right
    rcases makeId_cases inv.requested attempts newId (tryExists dirs readable) with
      ⟨x,hmake⟩ | ⟨error,hmake⟩ | ⟨n,hmake⟩
    · rw [chosenId,hmake] at hid
      obtain rfl := Option.some.inj hid
      rcases makeId_chosen hmake with hrequested | ⟨hrequested,rfl⟩
      · exact .inl hrequested
      · exact .inr ⟨readable,hrequested,rfl⟩
    · rw [chosenId,hmake] at hid
      cases hid
    · rw [chosenId,hmake] at hid
      cases hid
  · exact .inl (by rw [chosenId,hphase]; exact hid)
  · cases hid
  · exact .inl (by rw [chosenId,hphase]; exact hid)
  · exact .inl (by rw [chosenId,hphase]; exact hid)
  · exact .inl (by rw [chosenId,hphase]; exact hid)

/-- Only the first process spawns the worker, and that is for good. -/
theorem act_hasSpawned (i : ℕ) (h : inv.act dirs a = some (inv',made,written)) :
    (inv.hasSpawned = true → inv'.hasSpawned = true) ∧
      ((RootEvent.acts i a).parent = none → inv'.hasSpawned = inv.hasSpawned) := by
  rcases act_cases h with ⟨newId,readable,attempts,rfl,hphase,-,rfl⟩ |
    ⟨x,hphase,-,⟨rfl,rfl⟩ | ⟨rfl,rfl⟩⟩ | ⟨x,stage,_,hphase,⟨-,rfl⟩ | ⟨-,rfl⟩ | ⟨-,rfl⟩⟩ <;>
    rw [hasSpawned,hphase]
  · exact ⟨by rintro ⟨⟩,by rintro ⟨⟩⟩
  · exact ⟨fun _ => rfl,by rintro ⟨⟩⟩
  · exact ⟨by rintro ⟨⟩,by rintro ⟨⟩⟩
  all_goals exact ⟨fun _ => rfl,fun _ => rfl⟩

/-- A directory that is made belongs to the invocation. -/
theorem act_made {id : String} (h : inv.act dirs a = some (inv',made,written)) (hid : id ∈ made) :
    inv'.owned = some id := by
  rcases act_cases h with ⟨_,_,_,-,-,rfl,rfl⟩ | ⟨_,-,rfl,-⟩ |
    ⟨_,_,_,-,⟨rfl,rfl⟩ | ⟨rfl,rfl⟩ | ⟨rfl,rfl⟩⟩
  · cases hid
  · cases hid
  · cases hid
  · rw [List.mem_singleton.mp hid]
    rfl
  · cases hid

end Invocation

namespace RootWorld
variable {root root' : RootWorld} {e : RootEvent}

/-- An invocation is left alone by a step on its host, or the step is its own. -/
def Advances (root : RootWorld) (e : RootEvent) (i : ℕ) (inv inv' : Invocation) : Prop :=
  inv' = inv ∨ ∃ a made written, e = .acts i a ∧ inv.act root.dirs a = some (inv',made,written)

theorem Advances.requested {i : ℕ} {inv inv' : Invocation} (h : root.Advances e i inv inv') :
    inv'.requested = inv.requested := by
  rcases h with rfl | ⟨a,made,written,-,hact⟩
  · rfl
  · exact Invocation.act_requested hact

theorem Advances.hasSpawned {i : ℕ} {inv inv' : Invocation} (h : root.Advances e i inv inv') :
    (inv.hasSpawned = true → inv'.hasSpawned = true) ∧
      (e.parent ≠ some i → inv'.hasSpawned = inv.hasSpawned) := by
  rcases h with rfl | ⟨a,made,written,rfl,hact⟩
  · exact ⟨id,fun _ => rfl⟩
  · refine ⟨(Invocation.act_hasSpawned i hact).1,fun hparent => ?_⟩
    refine (Invocation.act_hasSpawned i hact).2 ?_
    cases a <;> simp [RootEvent.parent] at hparent ⊢

theorem Advances.owned {i : ℕ} {inv inv' : Invocation} {id : String}
    (h : root.Advances e i inv inv') (hid : inv.owned = some id) : inv'.owned = some id := by
  rcases h with rfl | ⟨a,made,written,-,hact⟩
  · exact hid
  · exact (Invocation.act_spec hact).2.2.1 id hid

/-- Every invocation is still there after a step. -/
theorem step_run (hstep : root.step e = some root') {i : ℕ} {inv : Invocation}
    (hinv : root.runs[i]? = some inv) :
    ∃ inv', root'.runs[i]? = some inv' ∧ root.Advances e i inv inv' := by
  have hlt := (List.getElem?_eq_some_iff.mp hinv).1
  cases e with
  | invoked requested =>
    obtain rfl := Option.some.inj hstep
    exact ⟨inv,(List.getElem?_append_left hlt).trans hinv,.inl rfl⟩
  | acts k a =>
    obtain ⟨acting,hacting,hstep⟩ := Option.bind_eq_some_iff.mp hstep
    obtain ⟨⟨acted,made,written⟩,hact,hstep⟩ := Option.bind_eq_some_iff.mp hstep
    obtain rfl := Option.some.inj hstep
    by_cases hk : k = i
    · subst hk
      obtain rfl := Option.some.inj (hacting.symm.trans hinv)
      exact ⟨acted,List.getElem?_set_self hlt,.inr ⟨a,made,written,rfl,hact⟩⟩
    · exact ⟨inv,(List.getElem?_set_ne hk).trans hinv,.inl rfl⟩

/-- Every invocation was there before a step, but for one that begins with it. -/
theorem run_of_step (hstep : root.step e = some root') {i : ℕ} {inv' : Invocation}
    (hinv : root'.runs[i]? = some inv') :
    (∃ requested, e = .invoked requested ∧ i = root.runs.length ∧
      inv' = ⟨requested,.checking 0⟩) ∨
    ∃ inv, root.runs[i]? = some inv ∧ root.Advances e i inv inv' := by
  cases hold : root.runs[i]? with
  | some inv =>
    obtain ⟨inv'',hinv'',h⟩ := step_run hstep hold
    obtain rfl := Option.some.inj (hinv''.symm.trans hinv)
    exact .inr ⟨inv,rfl,h⟩
  | none =>
    have hle := List.getElem?_eq_none_iff.mp hold
    cases e with
    | invoked requested =>
      obtain rfl := Option.some.inj hstep
      rw [List.getElem?_append_right hle,List.getElem?_singleton] at hinv
      split_ifs at hinv with hi
      exact .inl ⟨requested,rfl,by omega,(Option.some.inj hinv).symm⟩
    | acts k a =>
      obtain ⟨acting,-,hstep⟩ := Option.bind_eq_some_iff.mp hstep
      obtain ⟨⟨acted,made,written⟩,-,hstep⟩ := Option.bind_eq_some_iff.mp hstep
      obtain rfl := Option.some.inj hstep
      rw [List.getElem?_eq_none (by simpa using hle)] at hinv
      cases hinv

/-- Directories stay, and those that are new belong to the invocation that acts. -/
theorem step_dirs (hstep : root.step e = some root') :
    (∀ id ∈ root.dirs, id ∈ root'.dirs) ∧ ∀ id ∈ root'.dirs, id ∈ root.dirs ∨
      ∃ inv ∈ root'.runs, inv.owned = some id := by
  cases e with
  | invoked requested =>
    obtain rfl := Option.some.inj hstep
    exact ⟨fun _ => id,fun _ => .inl⟩
  | acts k a =>
    obtain ⟨acting,hacting,hstep⟩ := Option.bind_eq_some_iff.mp hstep
    obtain ⟨⟨acted,made,written⟩,hact,hstep⟩ := Option.bind_eq_some_iff.mp hstep
    obtain rfl := Option.some.inj hstep
    refine ⟨fun id hid => List.mem_append_left _ hid,fun id hid => ?_⟩
    rcases List.mem_append.mp hid with hid | hid
    · exact .inl hid
    · have hlt := (List.getElem?_eq_some_iff.mp hacting).1
      exact .inr ⟨acted,List.mem_of_getElem? (List.getElem?_set_self hlt),
        Invocation.act_made hact hid⟩

end RootWorld

/-- A call asks for the session of this client, and its process has told the truth. -/
structure SshCall.Sound (cfg : CreateCfg) (root : RootWorld) (call : SshCall) : Prop where
  args : call.args = remoteInfoArgs ∨ call.args = runArgs cfg ∨ call.args = statusArgs cfg.id
  mine : ∀ i ∈ call.invocation, call.isRun = true ∧
    ∃ inv, root.runs[i]? = some inv ∧ inv.requested = some cfg.id
  spawned : call.isRun = true → call.process = .exited 0 → call.hasSpawned root = true
  refused : ∀ code, call.process = .exited code → 0 < code → code < 128 →
    call.hasSpawned root = false
  resolved : call.selected.isSome = true → call.process = .exited 0 → call.found = true
  found : call.found = true → cfg.id ∈ root.dirs

namespace SshCall
variable {cfg : CreateCfg} {root root' : RootWorld} {call : SshCall} {e : RootEvent}

theorem Sound.requested (h : call.Sound cfg root) {id : String} (hid : call.requested = some id) :
    id = cfg.id ∧ call.isRun = true := by
  rcases h.args with hargs | hargs | hargs
  · simp [SshCall.requested,isRun,hargs,remoteInfoArgs] at hid
  · simp only [SshCall.requested,isRun,hargs] at hid ⊢
    exact ⟨(Option.some.inj hid).symm,rfl⟩
  · simp [SshCall.requested,isRun,hargs,statusArgs] at hid

theorem Sound.selected (h : call.Sound cfg root) {id : String} (hid : call.selected = some id) :
    id = cfg.id := by
  rcases h.args with hargs | hargs | hargs
  · simp [SshCall.selected,hargs,remoteInfoArgs] at hid
  · simp [SshCall.selected,hargs,runArgs] at hid
  · simp only [SshCall.selected,hargs] at hid
    exact (Option.some.inj hid).symm

/-- The worker of a call stays spawned, and is spawned by nobody but its invocation. -/
theorem Sound.hasSpawned_step (h : call.Sound cfg root) (hstep : root.step e = some root') :
    (call.hasSpawned root = true → call.hasSpawned root' = true) ∧
      (e.parent ≠ call.invocation → call.hasSpawned root' = call.hasSpawned root) := by
  cases hcall : call.invocation with
  | none => simp [hasSpawned,hcall]
  | some i =>
    obtain ⟨-,inv,hinv,-⟩ := h.mine i hcall
    obtain ⟨inv',hinv',hadvances⟩ := RootWorld.step_run hstep hinv
    simpa [hasSpawned,hcall,hinv,hinv'] using hadvances.hasSpawned

theorem Sound.host (h : call.Sound cfg root) (hstep : root.step e = some root')
    (hlives : call.invocation.isSome = true → e.parent = call.invocation →
      call.process = .running) : call.Sound cfg root' := by
  obtain ⟨hmono,hsame⟩ := h.hasSpawned_step hstep
  refine ⟨h.args,fun i hi => ?_,fun hrun hexit => hmono (h.spawned hrun hexit),
    fun code hexit hpos hlt => ?_,h.resolved,fun hfound => (RootWorld.step_dirs hstep).1 _
      (h.found hfound)⟩
  · obtain ⟨hrun,inv,hinv,hrequested⟩ := h.mine i hi
    obtain ⟨inv',hinv',hadvances⟩ := RootWorld.step_run hstep hinv
    exact ⟨hrun,inv',hinv',hadvances.requested.trans hrequested⟩
  · have hold := h.refused code hexit hpos hlt
    by_cases hparent : e.parent = call.invocation
    · cases hcall : call.invocation with
      | none => simp [hasSpawned,hcall]
      | some i =>
        have hrunning := hlives (by rw [hcall]; rfl) hparent
        rw [hexit] at hrunning
        cases hrunning
    · exact (hsame hparent).trans hold

end SshCall

namespace CreatePhase

/-- How many of the calls there may have been, and how many of them `run`. -/
def calls : CreatePhase → ℕ × ℕ
  | .verifying false => (0,0)
  | .verifying true => (1,0)
  | .running false => (1,0)
  | .running true => (2,1)
  | .confirming attempt false => (attempt+2,1)
  | .confirming attempt true => (attempt+3,1)
  | .ended _ => (12,1)

/-- What SSH is running. -/
def asks (cfg : CreateCfg) : CreatePhase → Option (List String)
  | .verifying true => some remoteInfoArgs
  | .running true => some (runArgs cfg)
  | .confirming _ true => some (statusArgs cfg.id)
  | _ => none

end CreatePhase

namespace CreateWorld

def argsOf (w : CreateWorld) : List (List String) := w.ssh.map SshCall.args

/-- The invocations on the host that are calls of this client. -/
def mine (w : CreateWorld) : List ℕ := w.ssh.filterMap SshCall.invocation

/-- What the client has asked for so far, and what its verdict rests on. -/
structure Asked (cfg : CreateCfg) (w : CreateWorld) : Prop where
  calls : w.argsOf.length ≤ w.phase.calls.1
  runs : w.argsOf.countP (fun args => args.head? == some "run") ≤ w.phase.calls.2
  last : ∀ args ∈ w.phase.asks cfg, w.argsOf.getLast? = some args
  confirming : ∀ attempt isOpen, w.phase = .confirming attempt isOpen →
    cfg.generated = true ∧ attempt ≤ 9
  created : w.phase = .ended .created → ∃ call ∈ w.ssh, call.process = .exited 0 ∧
    (call.isRun = true ∨ cfg.generated = true ∧ call.selected.isSome = true)
  failed : ∀ code, w.phase = .ended (.failed (some code)) → 0 < code ∧
    ∃ call ∈ w.ssh, call.process = .exited code ∧ call.isRun = true

/-- The invariant of `run` with a remote host. -/
structure Kept (cfg : CreateCfg) (w : CreateWorld) : Prop where
  asked : w.Asked cfg
  sound : ∀ call ∈ w.ssh, call.Sound cfg w.root
  dirs : ∀ id ∈ w.root.dirs, ∃ inv ∈ w.root.runs, inv.owned = some id
  others : cfg.generated = true → ∀ (i : ℕ) inv, w.root.runs[i]? = some inv →
    inv.requested = some cfg.id ∨ inv.chosenId = some cfg.id →
    some i ∈ w.ssh.map SshCall.invocation

/-- What is true of a verdict, from when it is given. -/
structure Verdicts (cfg : CreateCfg) (w : CreateWorld) : Prop where
  bounded : w.ssh.length ≤ 12
  once : w.ssh.countP SshCall.isRun ≤ 1 ∧ w.mine.length ≤ 1
  created : w.phase = .ended .created → ∃ i ∈ w.mine, ∃ inv, w.root.runs[i]? = some inv ∧
    inv.requested = some cfg.id ∧ inv.hasSpawned = true
  failed : ∀ code, w.phase = .ended (.failed (some code)) → code < 128 →
    ∀ i ∈ w.mine, ∀ inv, w.root.runs[i]? = some inv → inv.hasSpawned = false

variable {cfg : CreateCfg} {w w' : CreateWorld} {e : CreateEvent} {j : ℕ} {call call' : SshCall}
  {phase : CreatePhase}

/-- What a replacement leaves as it was, the list of it stays. -/
theorem map_replace {α β : Type*} {f : α → β} {l : List α} {a b : α} (ha : l[j]? = some a)
    (hf : f b = f a) : (l.set j b).map f = l.map f := by
  obtain ⟨hj,rfl⟩ := List.getElem?_eq_some_iff.mp ha
  rw [List.map_set,hf]
  exact List.ext_getElem? fun i => by
    rw [List.getElem?_set]
    split_ifs with hi hlt
    · subst hi
      simp [hj]
    · subst hi
      simp at hlt
      omega
    · rfl

/-- A call that has exited is not replaced. -/
theorem mem_replace {code : ℕ} (hcall : w.ssh[j]? = some call)
    (hlive : call.process ≠ .exited code) {done : SshCall} (hdone : done ∈ w.ssh)
    (hexit : done.process = .exited code) : done ∈ w.ssh.set j call' := by
  obtain ⟨i,hi⟩ := List.mem_iff_getElem?.mp hdone
  by_cases hij : j = i
  · subst hij
    obtain rfl := Option.some.inj (hcall.symm.trans hi)
    exact absurd hexit hlive
  · exact List.mem_iff_getElem?.mpr ⟨i,(List.getElem?_set_ne hij).trans hi⟩

theorem Asked.elsewhere (h : w.Asked cfg) (root : RootWorld) : Asked cfg { w with root } :=
  ⟨h.calls,h.runs,h.last,h.confirming,h.created,h.failed⟩

/-- A process on the host goes on. -/
theorem Asked.replace (h : w.Asked cfg) (hcall : w.ssh[j]? = some call)
    (hargs : call'.args = call.args) (hlive : ∀ code, call.process ≠ .exited code)
    (root : RootWorld) : Asked cfg { w with root, ssh := w.ssh.set j call' } := by
  have hsame : argsOf { w with root, ssh := w.ssh.set j call' } = w.argsOf :=
    map_replace hcall hargs
  refine ⟨?_,?_,?_,h.confirming,fun hphase => ?_,fun code hphase => ?_⟩
  · rw [hsame]
    exact h.calls
  · rw [hsame]
    exact h.runs
  · rw [hsame]
    exact h.last
  · obtain ⟨done,hdone,hexit,hwhich⟩ := h.created hphase
    exact ⟨done,mem_replace hcall (hlive 0) hdone hexit,hexit,hwhich⟩
  · obtain ⟨hpos,done,hdone,hexit,hrun⟩ := h.failed code hphase
    exact ⟨hpos,done,mem_replace hcall (hlive code) hdone hexit,hexit,hrun⟩

theorem Kept.replace (h : w.Kept cfg) (hcall : w.ssh[j]? = some call)
    (hargs : call'.args = call.args) (hinvocation : call'.invocation = call.invocation)
    (hlive : ∀ code, call.process ≠ .exited code) (hsound : call'.Sound cfg w.root) :
    Kept cfg { w with ssh := w.ssh.set j call' } := by
  refine ⟨h.asked.replace hcall hargs hlive w.root,fun c hc => ?_,h.dirs,?_⟩
  · rcases List.mem_or_eq_of_mem_set hc with hc | rfl
    · exact h.sound c hc
    · exact hsound
  · intro hgenerated i inv hinv hid
    dsimp only
    rw [map_replace hcall hinvocation]
    exact h.others hgenerated i inv hinv hid

/-- SSH is started. -/
theorem Kept.opens (h : w.Kept cfg) {args : List String}
    (hopened : w.phase.opened cfg = some (phase,args)) :
    Kept cfg { w with phase, ssh := w.ssh ++ [⟨args,.pending,none,false⟩] } := by
  have hcalls := h.asked.calls
  have hruns := h.asked.runs
  have hargs : argsOf { w with phase, ssh := w.ssh ++ [⟨args,.pending,none,false⟩] } =
      w.argsOf ++ [args] := by simp [argsOf]
  refine ⟨?_,fun c hc => ?_,h.dirs,fun hgenerated i inv hinv hid => ?_⟩
  · have hconfirming := h.asked.confirming
    cases hphase : w.phase with
    | ended verdict =>
      rw [hphase] at hopened
      cases hopened
    | verifying isOpen | running isOpen | confirming attempt isOpen =>
      rw [hphase] at hopened hcalls hruns hconfirming
      cases isOpen <;> cases hopened
      constructor
      · rw [hargs]
        simpa [CreatePhase.calls] using hcalls
      · rw [hargs]
        simpa [CreatePhase.calls,remoteInfoArgs,runArgs,statusArgs] using hruns
      · rw [hargs]
        simp [CreatePhase.asks]
      · rintro _ _ ⟨⟩
        all_goals exact hconfirming _ _ rfl
      · rintro ⟨⟩
      · rintro _ ⟨⟩
  · rcases List.mem_append.mp hc with hc | hc
    · exact h.sound c hc
    · obtain rfl := List.mem_singleton.mp hc
      refine ⟨?_,by simp,by simp,by simp,by simp,by simp⟩
      cases hphase : w.phase with
      | ended verdict =>
        rw [hphase] at hopened
        cases hopened
      | verifying isOpen | running isOpen | confirming attempt isOpen =>
        rw [hphase] at hopened
        cases isOpen <;> cases hopened
        simp
  · simpa using h.others hgenerated i inv hinv hid

/-- The phase moves on and nothing else. -/
theorem Kept.moves (h : w.Kept cfg) (hasked : Asked cfg { w with phase }) :
    Kept cfg { w with phase } := ⟨hasked,h.sound,h.dirs,h.others⟩

theorem Asked.error (h : w.Asked cfg) : Asked cfg { w with phase := .ended .error } := by
  have hcalls := h.calls
  have hruns := h.runs
  have hconfirming := h.confirming
  refine ⟨Nat.le_trans hcalls ?_,Nat.le_trans hruns ?_,by simp [CreatePhase.asks],by simp,by simp,by simp⟩
  · cases hphase : w.phase with
    | ended verdict => exact Nat.le_refl _
    | verifying isOpen | running isOpen =>
      cases isOpen <;> simp [CreatePhase.calls]
    | confirming attempt isOpen =>
      obtain ⟨-,hle⟩ := hconfirming attempt isOpen hphase
      cases isOpen <;> simp only [CreatePhase.calls] <;> omega
  · cases w.phase with
    | ended verdict => exact Nat.le_refl _
    | verifying isOpen | running isOpen | confirming attempt isOpen =>
      cases isOpen <;> simp [CreatePhase.calls]

/-- The call whose exit SSH reports. -/
theorem Asked.exited (h : w.Asked cfg) {args : List String} (hasks : w.phase.asks cfg = some args)
    {code : ℕ} (hcode : w.ssh.getLast?.bind SshCall.exitCode = some code) :
    ∃ call ∈ w.ssh, call.args = args ∧ call.process = .exited code := by
  obtain ⟨call,hcall,hexit⟩ := Option.bind_eq_some_iff.mp hcode
  have hlast := h.last args hasks
  rw [argsOf,List.getLast?_map,hcall] at hlast
  refine ⟨call,List.mem_of_getLast? hcall,Option.some.inj hlast,?_⟩
  unfold SshCall.exitCode at hexit
  split at hexit
  · next hprocess => rw [hprocess,Option.some.inj hexit]
  · cases hexit

theorem isRun_of_args (h : call.args = runArgs cfg) : call.isRun = true := by
  simp [SshCall.isRun,h,runArgs]

theorem selected_of_args (h : call.args = statusArgs cfg.id) : call.selected.isSome = true := by
  simp [SshCall.selected,h,statusArgs]

/-- The verdict on `run` when SSH exits. -/
theorem Asked.ran (h : w.Asked cfg) (hphase : w.phase = .running true) {code : Option ℕ}
    (hguard : code = none ∨ code = some 255 ∨ w.ssh.getLast?.bind SshCall.exitCode = code) :
    Asked cfg { w with phase := .afterRun cfg code } := by
  have hcalls := h.calls
  have hruns := h.runs
  rw [hphase] at hcalls hruns
  have hasks : w.phase.asks cfg = some (runArgs cfg) := by rw [hphase]; rfl
  unfold CreatePhase.afterRun
  split_ifs with hzero hlost
  · subst hzero
    refine ⟨Nat.le_trans hcalls (by simp [CreatePhase.calls]),hruns,by simp [CreatePhase.asks],by simp,fun _ => ?_,by simp⟩
    obtain ⟨call,hmem,hargs,hexit⟩ := h.exited hasks (by simpa using hguard)
    exact ⟨call,hmem,hexit,.inl (isRun_of_args hargs)⟩
  · refine ⟨hcalls,hruns,by simp [CreatePhase.asks],?_,by simp,by simp⟩
    intro attempt isOpen hconfirming
    cases hconfirming
    exact ⟨hlost.1,by decide⟩
  · refine ⟨Nat.le_trans hcalls (by simp [CreatePhase.calls]),hruns,by simp [CreatePhase.asks],by simp,
      ?_,?_⟩
    · unfold notCreated
      split_ifs <;> rintro ⟨⟩
    · unfold notCreated
      split_ifs with hunknown
      · rintro code ⟨⟩
      · rintro code ⟨⟩
        obtain ⟨call,hmem,hargs,hexit⟩ := h.exited hasks (by simpa [hunknown] using hguard)
        refine ⟨?_,call,hmem,hexit,isRun_of_args hargs⟩
        exact Nat.pos_of_ne_zero fun h0 => hzero (congrArg some h0)

/-- The verdict when a `status` has returned. -/
theorem Asked.confirmed (h : w.Asked cfg) {attempt : ℕ} (hphase : w.phase = .confirming attempt true)
    {code : Option ℕ}
    (hguard : code = none ∨ code = some 255 ∨ w.ssh.getLast?.bind SshCall.exitCode = code) :
    Asked cfg { w with phase := .afterStatus attempt code } := by
  have hcalls := h.calls
  have hruns := h.runs
  obtain ⟨hgenerated,hle⟩ := h.confirming attempt true hphase
  rw [hphase] at hcalls hruns
  simp only [CreatePhase.calls] at hcalls hruns
  have hasks : w.phase.asks cfg = some (statusArgs cfg.id) := by rw [hphase]; rfl
  unfold CreatePhase.afterStatus
  split_ifs with hzero hmore
  · subst hzero
    refine ⟨Nat.le_trans hcalls ?_,hruns,by simp [CreatePhase.asks],by simp,fun _ => ?_,by simp⟩
    · simp only [CreatePhase.calls]
      omega
    · obtain ⟨call,hmem,hargs,hexit⟩ := h.exited hasks (by simpa using hguard)
      exact ⟨call,hmem,hexit,.inr ⟨hgenerated,selected_of_args hargs⟩⟩
  · refine ⟨Nat.le_trans hcalls ?_,hruns,by simp [CreatePhase.asks],?_,by simp,by simp⟩
    · simp only [CreatePhase.calls]
      omega
    · intro n isOpen hconfirming
      cases hconfirming
      exact ⟨hgenerated,hmore⟩
  · refine ⟨Nat.le_trans hcalls ?_,hruns,by simp [CreatePhase.asks],by simp,by simp [notCreated],
      by simp [notCreated]⟩
    simp only [CreatePhase.calls]
    omega

theorem Kept.returns (h : w.Kept cfg) {code : Option ℕ} {compatible : Bool}
    (hreturned : w.phase.returned cfg compatible code = some phase)
    (hguard : code = none ∨ code = some 255 ∨ w.ssh.getLast?.bind SshCall.exitCode = code) :
    Kept cfg { w with phase } := by
  refine h.moves ?_
  cases hphase : w.phase with
  | ended verdict =>
    rw [hphase] at hreturned
    cases hreturned
  | verifying isOpen =>
    rw [hphase] at hreturned
    cases isOpen <;> cases hreturned
    split_ifs
    · have hcalls := h.asked.calls
      have hruns := h.asked.runs
      rw [hphase] at hcalls hruns
      exact ⟨hcalls,hruns,by simp [CreatePhase.asks],by simp,by simp,by simp⟩
    · exact h.asked.error
  | running isOpen =>
    rw [hphase] at hreturned
    cases isOpen <;> cases hreturned
    exact h.asked.ran hphase hguard
  | confirming attempt isOpen =>
    rw [hphase] at hreturned
    cases isOpen <;> cases hreturned
    exact h.asked.confirmed hphase hguard

theorem Kept.reaches (h : w.Kept cfg) (hcall : w.ssh[j]? = some call)
    (hpending : call.process = .pending) :
    Kept cfg { w with ssh := w.ssh.set j { call with process := .running } } := by
  have hsound := h.sound call (List.mem_of_getElem? hcall)
  exact h.replace hcall rfl rfl (by simp [hpending])
    ⟨hsound.args,hsound.mine,by simp,by simp,by simp,hsound.found⟩

theorem Kept.looks (h : w.Kept cfg) (hcall : w.ssh[j]? = some call) {id : String}
    (hselected : call.selected = some id) (hrunning : call.process = .running) :
    Kept cfg { w with ssh := w.ssh.set j { call with found := decide (id ∈ w.root.dirs) } } := by
  have hsound := h.sound call (List.mem_of_getElem? hcall)
  refine h.replace hcall rfl rfl (by simp [hrunning])
    ⟨hsound.args,hsound.mine,by simp [hrunning],by simp [hrunning],by simp [hrunning],?_⟩
  intro hfound
  exact hsound.selected hselected ▸ of_decide_eq_true hfound

theorem Kept.exits (h : w.Kept cfg) (hcall : w.ssh[j]? = some call) {code : ℕ}
    (hrunning : call.process = .running) (hmay : call.MayExit w.root code) :
    Kept cfg { w with ssh := w.ssh.set j { call with process := .exited code } } := by
  have hsound := h.sound call (List.mem_of_getElem? hcall)
  refine h.replace hcall rfl rfl (by simp [hrunning]) ⟨hsound.args,hsound.mine,?_,?_,?_,hsound.found⟩
  · rintro hrun ⟨⟩
    exact (hmay.1 rfl).1 hrun
  · rintro code ⟨⟩ hpos hlt
    refine Bool.eq_false_iff.mpr fun hspawned => ?_
    rcases hmay.2 hspawned with hzero | hsignal
    · omega
    · omega
  · rintro hselected ⟨⟩
    exact (hmay.1 rfl).2 hselected

/-- A step on the host, after which its new invocations are accounted for. -/
theorem Kept.host (h : w.Kept cfg) {root : RootWorld} {d : RootEvent}
    (hstep : w.root.step d = some root) (hlives : w.Lives d)
    (hothers : cfg.generated = true → ∀ (i : ℕ) inv, root.runs[i]? = some inv →
      inv.requested = some cfg.id ∨ inv.chosenId = some cfg.id →
      some i ∈ w.ssh.map SshCall.invocation) : Kept cfg { w with root } := by
  obtain ⟨-,hdirs⟩ := RootWorld.step_dirs hstep
  refine ⟨h.asked.elsewhere root,fun c hc => (h.sound c hc).host hstep (hlives c hc),fun id hid => ?_,hothers⟩
  rcases hdirs id hid with hold | hnew
  · obtain ⟨inv,hinv,howned⟩ := h.dirs id hold
    obtain ⟨i,hi⟩ := List.mem_iff_getElem?.mp hinv
    obtain ⟨inv',hinv',hadvances⟩ := RootWorld.step_run hstep hi
    exact ⟨inv',List.mem_of_getElem? hinv',hadvances.owned howned⟩
  · exact hnew

/-- A step on the host that draws or asks for no id of this client. -/
theorem Kept.others_host (h : w.Kept cfg) {root : RootWorld} {d : RootEvent}
    (hstep : w.root.step d = some root)
    (hinvoked : ∀ requested, d = .invoked requested → requested ≠ some cfg.id)
    (hchecks : ∀ i readable, d ≠ .acts i (.checks cfg.id readable))
    (hgenerated : cfg.generated = true) (i : ℕ) (inv : Invocation)
    (hinv : root.runs[i]? = some inv)
    (hid : inv.requested = some cfg.id ∨ inv.chosenId = some cfg.id) :
    some i ∈ w.ssh.map SshCall.invocation := by
  rcases RootWorld.run_of_step hstep hinv with ⟨requested,rfl,-,rfl⟩ | ⟨old,hold,hadvances⟩
  · rcases hid with hid | hid
    · exact absurd hid (hinvoked requested rfl)
    · cases hid
  · refine h.others hgenerated i old hold ?_
    rcases hid with hid | hid
    · exact .inl (hadvances.requested ▸ hid)
    · rcases hadvances with rfl | ⟨a,made,written,rfl,hact⟩
      · exact .inr hid
      · rcases Invocation.act_chosenId hact hid with hid | hid | ⟨readable,-,rfl⟩
        · exact .inr hid
        · exact .inl hid
        · exact absurd rfl (hchecks i readable)

/-- The process on the host begins its `run`. -/
theorem Kept.invokes (h : w.Kept cfg) (hcall : w.ssh[j]? = some call) {id : String}
    (hrequested : call.requested = some id) {root : RootWorld}
    (hstep : w.root.step (.invoked (some id)) = some root) (hrunning : call.process = .running)
    (hnone : call.invocation = none) :
    Kept cfg { w with
      root
      ssh := w.ssh.set j { call with invocation := some w.root.runs.length } } := by
  have hsound := h.sound call (List.mem_of_getElem? hcall)
  obtain ⟨rfl,hrun⟩ := hsound.requested hrequested
  have hold : ∀ c ∈ w.ssh, c.Sound cfg root := fun c hc =>
    (h.sound c hc).host hstep fun hsome hparent => by
      rw [← hparent] at hsome
      cases hsome
  obtain rfl := Option.some.inj hstep
  have hhost : (w.root.runs ++ [⟨some cfg.id,.checking 0⟩])[w.root.runs.length]? =
      some ⟨some cfg.id,.checking 0⟩ := by simp
  have hargs : ({ call with invocation := some w.root.runs.length } : SshCall).args = call.args :=
    rfl
  refine ⟨h.asked.replace hcall hargs (by simp [hrunning]) _,fun c hc => ?_,fun id hid => ?_,?_⟩
  · rcases List.mem_or_eq_of_mem_set hc with hc | rfl
    · exact hold c hc
    · refine ⟨hsound.args,?_,by simp [hrunning],by simp [hrunning],by simp [hrunning],hsound.found⟩
      rintro i ⟨⟩
      exact ⟨hrun,_,hhost,rfl⟩
  · obtain ⟨inv,hinv,howned⟩ := h.dirs id hid
    exact ⟨inv,List.mem_append_left _ hinv,howned⟩
  · intro hgenerated i inv hinv hid
    have hlt := (List.getElem?_eq_some_iff.mp hcall).1
    by_cases hi : i = w.root.runs.length
    · subst hi
      exact List.mem_map.mpr ⟨_,List.mem_of_getElem? (List.getElem?_set_self hlt),rfl⟩
    · rcases RootWorld.run_of_step hstep hinv with ⟨_,-,hnew,-⟩ | ⟨old,hold',hadvances⟩
      · exact absurd hnew hi
      · obtain rfl : inv = old := by
          rcases hadvances with rfl | ⟨a,_,_,⟨⟩,-⟩
          rfl
        obtain ⟨c,hc,hinvocation⟩ := List.mem_map.mp (h.others hgenerated i inv hold' hid)
        obtain ⟨k,hk⟩ := List.mem_iff_getElem?.mp hc
        have hne : j ≠ k := by
          rintro rfl
          rw [hcall] at hk
          cases hk
          rw [hnone] at hinvocation
          cases hinvocation
        exact List.mem_map.mpr
          ⟨c,List.mem_of_getElem? ((List.getElem?_set_ne hne).trans hk),hinvocation⟩

/-- Nobody else on the host asks for the id of this client, or draws it. -/
def Fresh (cfg : CreateCfg) : CreateEvent → Prop
  | .root (.invoked requested) => requested ≠ some cfg.id
  | .root (.acts _ (.checks newId _)) => newId ≠ cfg.id
  | _ => True

theorem start_kept (cfg : CreateCfg) : (start cfg).Kept cfg := by
  have hphase : (start cfg).phase = .running false ∨ (start cfg).phase = .verifying false := by
    unfold start
    split_ifs
    · exact .inl rfl
    · exact .inr rfl
  have hssh : (start cfg).ssh = [] := rfl
  refine ⟨⟨?_,?_,?_,?_,?_,?_⟩,by simp [hssh],by simp [start,RootWorld.start],
    by simp [start,RootWorld.start]⟩
  · simp [argsOf,hssh]
  · simp [argsOf,hssh]
  all_goals rcases hphase with hphase | hphase <;> simp [hphase,CreatePhase.asks]

theorem step_kept (w : CreateWorld) (e : CreateEvent) (w' : CreateWorld)
    (hstep : w.step cfg e = some w') (hfresh : cfg.generated = true → Fresh cfg e)
    (h : w.Kept cfg) : w'.Kept cfg := by
  cases e with
  | opens =>
    obtain ⟨⟨phase,args⟩,hopened,hstep⟩ := Option.bind_eq_some_iff.mp hstep
    obtain rfl := Option.some.inj hstep
    exact h.opens hopened
  | aborts =>
    obtain ⟨phase,haborted,hstep⟩ := Option.bind_eq_some_iff.mp hstep
    obtain rfl := Option.some.inj hstep
    have herror : phase = .ended .error := by
      unfold CreatePhase.aborted at haborted
      split at haborted
      · cases haborted
      · exact (Option.some.inj haborted).symm
    subst herror
    exact h.moves h.asked.error
  | returns code compatible =>
    obtain ⟨phase,hreturned,hstep⟩ := Option.bind_eq_some_iff.mp hstep
    obtain ⟨hguard,hstep⟩ := Option.ite_none_right_eq_some.mp hstep
    obtain rfl := Option.some.inj hstep
    exact h.returns hreturned hguard
  | reaches j =>
    obtain ⟨call,hcall,hstep⟩ := Option.bind_eq_some_iff.mp hstep
    obtain ⟨hpending,hstep⟩ := Option.ite_none_right_eq_some.mp hstep
    obtain rfl := Option.some.inj hstep
    exact h.reaches hcall hpending
  | invokes j =>
    obtain ⟨call,hcall,hstep⟩ := Option.bind_eq_some_iff.mp hstep
    obtain ⟨id,hrequested,hstep⟩ := Option.bind_eq_some_iff.mp hstep
    obtain ⟨root,hroot,hstep⟩ := Option.bind_eq_some_iff.mp hstep
    obtain ⟨⟨hrunning,hnone⟩,hstep⟩ := Option.ite_none_right_eq_some.mp hstep
    obtain rfl := Option.some.inj hstep
    exact h.invokes hcall hrequested hroot hrunning hnone
  | looks j =>
    obtain ⟨call,hcall,hstep⟩ := Option.bind_eq_some_iff.mp hstep
    obtain ⟨id,hselected,hstep⟩ := Option.bind_eq_some_iff.mp hstep
    obtain ⟨hrunning,hstep⟩ := Option.ite_none_right_eq_some.mp hstep
    obtain rfl := Option.some.inj hstep
    exact h.looks hcall hselected hrunning
  | exits j code =>
    obtain ⟨call,hcall,hstep⟩ := Option.bind_eq_some_iff.mp hstep
    obtain ⟨⟨hrunning,hmay⟩,hstep⟩ := Option.ite_none_right_eq_some.mp hstep
    obtain rfl := Option.some.inj hstep
    exact h.exits hcall hrunning hmay
  | root d =>
    obtain ⟨root,hroot,hstep⟩ := Option.bind_eq_some_iff.mp hstep
    obtain ⟨hlives,hstep⟩ := Option.ite_none_right_eq_some.mp hstep
    obtain rfl := Option.some.inj hstep
    refine h.host hroot hlives fun hgenerated => h.others_host hroot ?_ ?_ hgenerated
    · rintro requested rfl
      exact hfresh hgenerated
    · rintro i readable rfl
      exact hfresh hgenerated rfl

/-- At most one of the calls is a `run`. -/
theorem Kept.countP_isRun (h : w.Kept cfg) : w.ssh.countP SshCall.isRun ≤ 1 := by
  have hruns := h.asked.runs
  rw [argsOf,List.countP_map] at hruns
  refine Nat.le_trans hruns ?_
  cases w.phase with
  | ended verdict => exact Nat.le_refl _
  | verifying isOpen | running isOpen | confirming attempt isOpen =>
    cases isOpen <;> simp [CreatePhase.calls]

/-- The call that an invocation of this client belongs to. -/
theorem Kept.unique (h : w.Kept cfg) {a b : SshCall} (ha : a ∈ w.ssh) (hb : b ∈ w.ssh)
    (hruna : a.isRun = true) (hrunb : b.isRun = true) : a = b := by
  have hone := h.countP_isRun
  rw [List.countP_eq_length_filter] at hone
  have hina := List.mem_filter.mpr ⟨ha,hruna⟩
  have hinb := List.mem_filter.mpr ⟨hb,hrunb⟩
  cases hfilter : w.ssh.filter SshCall.isRun with
  | nil =>
    rw [hfilter] at hina
    cases hina
  | cons c rest =>
    rw [hfilter] at hone hina hinb
    obtain rfl := List.length_eq_zero_iff.mp (Nat.le_zero.mp (Nat.le_of_succ_le_succ hone))
    exact (List.mem_singleton.mp hina).trans (List.mem_singleton.mp hinb).symm

theorem Kept.verdicts (h : w.Kept cfg) : w.Verdicts cfg := by
  refine ⟨?_,⟨h.countP_isRun,?_⟩,fun hphase => ?_,fun code hphase hlt i hi inv hinv => ?_⟩
  · have hcalls := h.asked.calls
    rw [argsOf,List.length_map] at hcalls
    refine Nat.le_trans hcalls ?_
    cases hphase : w.phase with
    | ended verdict => exact Nat.le_refl _
    | verifying isOpen | running isOpen =>
      cases isOpen <;> simp [CreatePhase.calls]
    | confirming attempt isOpen =>
      obtain ⟨-,hle⟩ := h.asked.confirming attempt isOpen hphase
      cases isOpen <;> simp only [CreatePhase.calls] <;> omega
  · rw [mine,List.length_filterMap_eq_countP]
    refine Nat.le_trans (List.countP_mono_left fun call hcall hsome => ?_) h.countP_isRun
    obtain ⟨i,hi⟩ := Option.isSome_iff_exists.mp hsome
    exact ((h.sound call hcall).mine i hi).1
  · obtain ⟨call,hcall,hexit,hwhich⟩ := h.asked.created hphase
    have hsound := h.sound call hcall
    rcases hwhich with hrun | ⟨hgenerated,hselected⟩
    · have hspawned := hsound.spawned hrun hexit
      cases hinvocation : call.invocation with
      | none => simp [SshCall.hasSpawned,hinvocation] at hspawned
      | some i =>
        obtain ⟨-,inv,hinv,hrequested⟩ := hsound.mine i hinvocation
        refine ⟨i,List.mem_filterMap.mpr ⟨call,hcall,hinvocation⟩,inv,hinv,hrequested,?_⟩
        simpa [SshCall.hasSpawned,hinvocation,hinv] using hspawned
    · -- the directory is there, and nobody else can have made it
      obtain ⟨inv,hmem,howned⟩ := h.dirs _ (hsound.found (hsound.resolved hselected hexit))
      obtain ⟨i,hinv⟩ := List.mem_iff_getElem?.mp hmem
      have hours := h.others hgenerated i inv hinv
        (.inr (Invocation.chosenId_of_owned howned))
      obtain ⟨c,hc,hinvocation⟩ := List.mem_map.mp hours
      obtain ⟨-,inv',hinv',hrequested⟩ := (h.sound c hc).mine i hinvocation
      obtain rfl := Option.some.inj (hinv.symm.trans hinv')
      exact ⟨i,List.mem_filterMap.mpr ⟨c,hc,hinvocation⟩,inv,hinv,hrequested,
        Invocation.hasSpawned_of_owned howned⟩
  · obtain ⟨hpos,call,hcall,hexit,hrun⟩ := h.asked.failed code hphase
    obtain ⟨c,hc,hinvocation⟩ := List.mem_filterMap.mp hi
    obtain rfl := h.unique hcall hc hrun ((h.sound c hc).mine i hinvocation).1
    have hrefused := (h.sound call hcall).refused code hexit hpos hlt
    simpa [SshCall.hasSpawned,hinvocation,hinv] using hrefused

/-- Whatever becomes of SSH and whenever its commands reach the host: `run` is executed at most
once; when the session is reported as created, its worker has been spawned by that `run`; and a
`run` reported as failed, and not by a signal, has spawned none and never will. -/
theorem create_verdicts (cfg : CreateCfg) (es : List CreateEvent)
    (hfresh : cfg.generated = true → ∀ e ∈ es, Fresh cfg e) :
    Transition.Always (step cfg) (Verdicts cfg) (start cfg) es :=
  Transition.always_of_meets (I := Kept cfg) step_kept (fun _ h => h.verdicts)
    (Transition.meets_of_forall (fun e he hgenerated => hfresh hgenerated e he) _)
    (start_kept cfg)

/-- `run` on a host, without an id. -/
def echoRun : CreateCfg := ⟨⟨none,true,false,none,none,none,none,["echo","hi"]⟩,("a1","b2")⟩

/-- SSH fails after the host has begun with `run`; the second look finds the session. -/
def lostRun : List CreateEvent :=
  [.opens,.reaches 0,.invokes 0,.root (.acts 0 (.checks "" true)),.returns (some 255) false,
    .opens,.reaches 1,.looks 1,.exits 1 1,.returns (some 1) false,.root (.acts 0 .spawns),
    .exits 0 0,.root (.invoked none),.root (.acts 1 (.checks "c3" true)),.root (.acts 0 .creates),
    .opens,.reaches 2,.looks 2,.exits 2 0,.returns (some 0) false]

theorem create_verdicts_lost : ∃ w, Transition.exec (step echoRun) (start echoRun) lostRun = some w ∧
    w.phase = .ended .created ∧ w.Verdicts echoRun := by
  have hsome : ((Transition.exec (step echoRun) (start echoRun) lostRun).map
      CreateWorld.phase) = some (.ended .created) := by decide +kernel
  obtain ⟨w,hrun,hphase⟩ := Option.map_eq_some_iff.mp hsome
  have hfresh : ∀ e ∈ lostRun, Fresh echoRun e := by
    have hid : echoRun.id = "a1b2" := by decide
    simp [lostRun,Fresh,hid]
  exact ⟨w,hrun,hphase,(create_verdicts echoRun lostRun fun _ => hfresh).last hrun⟩

end CreateWorld
end Babysit
