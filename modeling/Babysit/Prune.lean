import Babysit.Session
import Babysit.SessionIds

/-! Any number of `prune` calls beside any number of `run` invocations on one state root.
`prune` classifies every session first, by three reads, and then removes the ones it has
chosen, by id. -/
namespace Babysit

/-- What a file of a session tells: the invocation whose worker has written it, and for a
`status.json` the state. `meta.json` holds the writer's process id. -/
structure Written where
  writer : ℕ
  state : State
  deriving DecidableEq, Repr

/-- The state in the status that a worker writes next, unless it is a terminal one. -/
def WorkerStage.state : WorkerStage → State
  | .starting => .starting
  | _ => .running

/-- `should_delete`; `alive` is what `is_pid_alive` tells of the owner. -/
def shouldDelete (status : Option State) (alive : Bool) : Bool :=
  match status with
  | some .exited | some .killed => true
  | some .starting | some .running => !alive
  | none => !alive

/-- What `prune` has read of a session it may remove: whose process id, and the status. -/
structure Target where
  id : String
  owner : ℕ
  status : Option Written
  deriving DecidableEq, Repr

/-- Where a `prune` is; each phase is named for what it does next. -/
inductive PrunePhase
  | listing
  | readingMeta (ids : List String)
  | readingStatus (id : String) (owner : ℕ) (ids : List String)
  | probing (target : Target) (ids : List String)
  | removingDir
  | removingSocket (target : Target)
  | removingLegacy (target : Target)
  deriving DecidableEq, Repr

/-- A call of `prune`, with the targets it has yet to remove. -/
structure PruneCall where
  dryRun : Bool
  phase : PrunePhase
  targets : List Target
  deriving DecidableEq, Repr

/-- The next call of a `prune`. A listing may see or miss what changes meanwhile; `reused` tells
that another process has the owner's id; a removal of a directory that fails has removed the files
in `lost`. -/
inductive PruneAction
  | lists (ids : List String)
  | readsMeta (readable : Bool)
  | readsStatus (readable : Bool)
  | probes (reused : Bool)
  | removesDir
  | failsDir (lost : List SessionFile)
  | removesSocket (failed : Bool)
  | removesLegacy (failed : Bool)

/-- `finished` lists the invocations whose workers have recorded a terminal status, `harmed` is a
ghost: the workers that were live without one when a prune removed their directory or socket. -/
structure PruneWorld where
  runs : List Invocation
  finished : List ℕ
  dirs : List String
  files : SessionPath → Option Written
  prunes : List PruneCall
  harmed : List ℕ

inductive PruneEvent
  | invoked (requested : Option String)
  | acts (i : ℕ) (a : RunAction)
  | finishes (i : ℕ) (killed : Bool)
  | cleansUp (i : ℕ)
  | pruned (dryRun : Bool)
  | prunes (p : ℕ) (a : PruneAction)

namespace PruneWorld

def start : PruneWorld := ⟨[],[],[],fun _ => none,[],[]⟩

/-- The worker of this invocation is a live process. -/
def ownerAlive (w : PruneWorld) (i : ℕ) : Bool := w.runs[i]?.any fun inv => inv.live.isSome

/-- A live worker that has not recorded a terminal status. -/
def busy (w : PruneWorld) (i : ℕ) : Bool := w.ownerAlive i && !w.finished.contains i

/-- The session whose directory this invocation's worker has created. -/
def owned (w : PruneWorld) (i : ℕ) : Option String := w.runs[i]?.bind Invocation.owned

/-- The live workers without a terminal status whose session has this id. -/
def tenants (w : PruneWorld) (id : String) : List ℕ :=
  (List.range w.runs.length).filter fun i => w.busy i && w.owned i = some id

/-- The live worker without a terminal status that has bound a socket. -/
def binders (w : PruneWorld) (socket : SessionPath) : List ℕ :=
  ((w.files socket).map Written.writer).toList.filter w.busy

def store (files : SessionPath → Option Written) (paths : List SessionPath)
    (content : Option Written) : SessionPath → Option Written :=
  fun p => if p ∈ paths then content else files p

/-- `remove_dir_all` takes all files of the directory along. -/
def withoutDir (files : SessionPath → Option Written) (id : String) :
    SessionPath → Option Written
  | .inDir id' file => if id' = id then none else files (.inDir id' file)
  | .socket hash => files (.socket hash)

/-- There is a directory for the file. -/
def writable (dirs : List String) : SessionPath → Bool
  | .inDir id _ => dirs.contains id
  | .socket _ => true

/-- The sockets that a worker binds when it serves, and removes when it has ended. -/
def sockets (id : String) : List SessionPath :=
  [SessionFile.controlSocket.path id,SessionFile.legacySocket.path id]

/-- A worker that has recorded a terminal status sets up nothing more; sockets are bound once. -/
def mayAct (w : PruneWorld) (i : ℕ) : RunAction → Bool
  | .setsUp => !w.finished.contains i
  | .writes file => !w.finished.contains i && file ∉ [.controlSocket,.legacySocket]
  | _ => true

def stage (inv : Invocation) : WorkerStage :=
  match inv.phase with
  | .worker _ stage => stage
  | _ => .spawned

def setPrune (w : PruneWorld) (p : ℕ) (c : PruneCall) : PruneWorld :=
  { w with prunes := w.prunes.set p c }

/-- The classification goes on, or ends. -/
def classified (ids : List String) (c : PruneCall) : PruneCall :=
  match ids with
  | [] => { c with phase := .removingDir, targets := if c.dryRun then [] else c.targets }
  | ids => { c with phase := .readingMeta ids }

/-- One call of a `prune`. -/
def pruneStep (w : PruneWorld) (p : ℕ) (c : PruneCall) : PruneAction → Option PruneWorld
  | .lists ids =>
    match c.phase with
    | .listing => some (w.setPrune p (classified ids c))
    | _ => none
  | .readsMeta readable =>
    match c.phase with
    | .readingMeta (id::ids) =>
      match (if readable then w.files (SessionFile.metaJson.path id) else none) with
      | some written => some (w.setPrune p { c with phase := .readingStatus id written.writer ids })
      | none => some (w.setPrune p (classified ids c))
    | _ => none
  | .readsStatus readable =>
    match c.phase with
    | .readingStatus id owner ids =>
      let status := if readable then w.files (SessionFile.status.path id) else none
      some (w.setPrune p { c with phase := .probing ⟨id,owner,status⟩ ids })
    | _ => none
  | .probes reused =>
    match c.phase with
    | .probing target ids =>
      let alive := w.ownerAlive target.owner || reused
      let targets := if shouldDelete (target.status.map Written.state) alive
        then c.targets ++ [target] else c.targets
      some (w.setPrune p (classified ids { c with targets := targets }))
    | _ => none
  | .removesDir =>
    match c.phase,c.targets with
    | .removingDir,target::targets =>
      if target.id ∈ w.dirs then some { w with
        dirs := w.dirs.filter (· ≠ target.id)
        files := withoutDir w.files target.id
        prunes := w.prunes.set p { c with phase := .removingSocket target, targets := targets }
        harmed := w.harmed ++ w.tenants target.id }
      else none
    | _,_ => none
  | .failsDir lost =>
    match c.phase,c.targets with
    | .removingDir,target::targets => some { w with
        files := store w.files (lost.map (SessionPath.inDir target.id)) none
        prunes := w.prunes.set p { c with targets := targets }
        harmed := w.harmed ++ if lost = [] then [] else w.tenants target.id }
    | _,_ => none
  | .removesSocket failed =>
    match c.phase with
    | .removingSocket target =>
      let socket := SessionFile.controlSocket.path target.id
      let w := w.setPrune p { c with phase := .removingLegacy target }
      some (if failed then w else { w with
        files := store w.files [socket] none, harmed := w.harmed ++ w.binders socket })
    | _ => none
  | .removesLegacy failed =>
    match c.phase with
    | .removingLegacy target =>
      let socket := SessionFile.legacySocket.path target.id
      let w := w.setPrune p { c with phase := .removingDir }
      some (if failed then w else { w with
        files := store w.files [socket] none, harmed := w.harmed ++ w.binders socket })
    | _ => none

def step (w : PruneWorld) : PruneEvent → Option PruneWorld
  | .invoked requested => some { w with runs := w.runs ++ [⟨requested,.checking 0⟩] }
  | .acts i a =>
    if w.mayAct i a then do
      let inv ← w.runs[i]?
      let (inv',made,written) ← inv.act w.dirs a
      let dirs := w.dirs ++ made
      -- only the legacy socket is bound at best
      if written.all fun p => writable dirs p || p ∈ (inv.live.map sockets).getD [] then
        some { w with
          runs := w.runs.set i inv'
          dirs := dirs
          files := store w.files (written.filter (writable dirs)) (some ⟨i,(stage inv').state⟩) }
      else none
    else none
  | .finishes i killed => do
    let inv ← w.runs[i]?
    let id ← inv.live
    if .status ∈ (stage inv).files ∧ i ∉ w.finished ∧ id ∈ w.dirs then
      some { w with
        finished := i :: w.finished
        files := store w.files [SessionFile.status.path id]
          (some ⟨i,if killed then .killed else .exited⟩) }
    else none
  | .cleansUp i => do
    let inv ← w.runs[i]?
    let id ← inv.live
    if i ∈ w.finished then some { w with files := store w.files (sockets id) none } else none
  | .pruned dryRun => some { w with prunes := w.prunes ++ [⟨dryRun,.listing,[]⟩] }
  | .prunes p a => do
    let c ← w.prunes[p]?
    w.pruneStep p c a

/-- No prune has removed the directory or the socket of a live session. -/
def SparesLive (w : PruneWorld) : Prop := w.harmed = []

/-- What a call of a prune removes for which target: the live workers without a terminal status
that use it. -/
def removal (w : PruneWorld) (c : PruneCall) : PruneAction → Option (Target × List ℕ)
  | .removesDir =>
    match c.phase,c.targets with
    | .removingDir,target::_ => some (target,w.tenants target.id)
    | _,_ => none
  | .failsDir lost =>
    match c.phase,c.targets with
    | .removingDir,target::_ => some (target,if lost = [] then [] else w.tenants target.id)
    | _,_ => none
  | .removesSocket failed =>
    match c.phase with
    | .removingSocket target => some (target,if failed then []
        else w.binders (SessionFile.controlSocket.path target.id))
    | _ => none
  | .removesLegacy failed =>
    match c.phase with
    | .removingLegacy target => some (target,if failed then []
        else w.binders (SessionFile.legacySocket.path target.id))
    | _ => none
  | .lists _ | .readsMeta _ | .readsStatus _ | .probes _ => none

/-- What has been read is about this worker: its process id, and no terminal status of another. -/
def About (target : Target) (i : ℕ) : Prop :=
  i = target.owner ∧ ∀ s ∈ target.status,s.state.isTerminal = true → s.writer = i

/-- The ids that a prune has begun to read or is going to remove. -/
def inHand (c : PruneCall) : List String :=
  c.targets.map Target.id ++
    match c.phase with
    | .readingStatus id _ _ => [id]
    | .probing target _ | .removingSocket target | .removingLegacy target => [target.id]
    | .listing | .readingMeta _ | .removingDir => []

/-- A worker creates its directory where there is none; no prune has the id in hand, and no
other session there has been has a socket of the same name. -/
def CreatesApart (w : PruneWorld) : PruneEvent → Prop
  | .acts i .creates => ∀ inv ∈ w.runs[i]?,∀ id ∈ inv.underWay,
      id ∉ w.dirs ∧ (∀ c ∈ w.prunes,id ∉ inHand c) ∧
        ∀ j,∀ id' ∈ w.owned j,socketName id' = socketName id → id' = id
  | _ => True

/-- What a prune removes is in use by no other worker than the one it has classified. -/
def RemovesClassified (w : PruneWorld) : PruneEvent → Prop
  | .prunes p a => ∀ c ∈ w.prunes[p]?,∀ r ∈ w.removal c a,∀ i ∈ r.2,About r.1 i
  | _ => True

end PruneWorld

namespace Invocation
variable {inv inv' : Invocation} {dirs made : List String} {written : List SessionPath}
  {a : RunAction}

/-- A worker that has ended does nothing any more. -/
theorem live_of_act (h : inv.act dirs a = some (inv',made,written)) (howned : inv.owned.isSome = true) :
    inv.live.isSome = true := by
  cases hphase : inv.phase with
  | worker id stage => simp [live,hphase]
  | ended id stage => cases a <;> simp [act,hphase] at h
  | checking _ | refused _ | chosen _ => simp [owned,hphase] at howned

/-- Only a worker's first step makes a directory, and a session of it. -/
theorem made_of_act (h : inv.act dirs a = some (inv',made,written)) (ha : a ≠ .creates) :
    made = [] ∧ inv'.owned = inv.owned := by
  have hmade : made = [] := by
    unfold act at h
    split at h
    case h_4 => exact absurd rfl ha
    case h_5 =>
      split at h
      · obtain ⟨next,-,hnext⟩ := Option.map_eq_some_iff.mp h
        cases hnext
        rfl
      · cases h
    case h_6 =>
      split at h
      · split_ifs at h
        cases h
        rfl
      · cases h
    all_goals
      split at h <;> cases h
      rfl
  refine ⟨hmade,?_⟩
  obtain ⟨-,hnew,hkept,-⟩ := act_spec h
  cases howned : inv.owned with
  | some id => exact hkept id howned
  | none =>
    by_contra hne
    obtain ⟨id,hid⟩ := Option.ne_none_iff_exists'.mp hne
    rcases hnew id hid with hold | hmem
    · rw [howned] at hold
      cases hold
    · rw [hmade] at hmem
      cases hmem

theorem created_of_act (h : inv.act dirs .creates = some (inv',made,written)) :
    ∃ id,inv.phase = .worker id .spawned ∧ inv' = { inv with phase := .worker id .created } ∧
      made = [id] ∧ written = [] := by
  simp only [act] at h
  split at h
  · next id hphase =>
    cases h
    exact ⟨id,hphase,rfl,rfl,rfl⟩
  · cases h

end Invocation

namespace PruneWorld
variable {w w' : PruneWorld}

/-- What stays true of the workers: a terminal status, a created session, and an end. -/
structure Grows (w w' : PruneWorld) : Prop where
  finished : ∀ i ∈ w.finished,i ∈ w'.finished
  owned : ∀ i,(w.owned i).isSome = true → (w'.owned i).isSome = true
  ended : ∀ i,(w.owned i).isSome = true → w.ownerAlive i = false → w'.ownerAlive i = false

/-- The session that has been classified is over. -/
def Over (w : PruneWorld) (target : Target) : Prop :=
  (∃ s ∈ target.status,s.state.isTerminal = true ∧ s.writer ∈ w.finished) ∨
    ((w.owned target.owner).isSome = true ∧ w.ownerAlive target.owner = false)

theorem Over.grows {target : Target} (h : w.Over target) (hg : w.Grows w') : w'.Over target := by
  rcases h with ⟨s,hs,hterminal,hwriter⟩ | ⟨howned,hended⟩
  · exact .inl ⟨s,hs,hterminal,hg.finished _ hwriter⟩
  · exact .inr ⟨hg.owned _ howned,hg.ended _ howned hended⟩

/-- What a prune has in hand: the owner it has read for an id, a session it is about to
classify, and its targets. -/
structure Holds (named : String → ℕ → Prop) (read chosen : Target → Prop) (c : PruneCall) :
    Prop where
  targets : ∀ target ∈ c.targets,chosen target
  owner : ∀ id i ids,c.phase = .readingStatus id i ids → named id i
  probing : ∀ target ids,c.phase = .probing target ids → read target
  removing : ∀ target,c.phase = .removingSocket target ∨ c.phase = .removingLegacy target →
    chosen target

/-- What the reads of a prune tell of the owner, of the session and of what is to be deleted. -/
structure Learns (w : PruneWorld) (named : String → ℕ → Prop) (read chosen : Target → Prop) :
    Prop where
  owner : ∀ id s,w.files (SessionFile.metaJson.path id) = some s → named id s.writer
  status : ∀ id i status,named id i →
    (∀ s ∈ status,w.files (SessionFile.status.path id) = some s) → read ⟨id,i,status⟩
  probe : ∀ (target : Target) reused,read target →
    shouldDelete (target.status.map Written.state) (w.ownerAlive target.owner || reused) = true →
      chosen target

section Holds
variable {named named' : String → ℕ → Prop} {read read' chosen chosen' : Target → Prop}
  {c : PruneCall}

theorem Holds.mono (h : Holds named read chosen c)
    (hnamed : ∀ id i,id ∈ inHand c → named id i → named' id i)
    (hread : ∀ target : Target,target.id ∈ inHand c → read target → read' target)
    (hchosen : ∀ target : Target,target.id ∈ inHand c → chosen target → chosen' target) :
    Holds named' read' chosen' c where
  targets target ht :=
    hchosen target (List.mem_append_left _ (List.mem_map_of_mem ht)) (h.targets target ht)
  owner id i ids hp := hnamed id i (by simp [inHand,hp]) (h.owner id i ids hp)
  probing target ids hp := hread target (by simp [inHand,hp]) (h.probing target ids hp)
  removing target hp :=
    hchosen target (by rcases hp with hp | hp <;> simp [inHand,hp]) (h.removing target hp)

/-- The end of the classification keeps what has been read. -/
theorem Holds.classified (h : ∀ target ∈ c.targets,chosen target) (ids : List String) :
    Holds named read chosen (classified ids c) := by
  cases ids with
  | nil =>
    refine ⟨?_,by simp [PruneWorld.classified],by simp [PruneWorld.classified],
      by simp [PruneWorld.classified]⟩
    intro target ht
    simp only [PruneWorld.classified] at ht
    split_ifs at ht
    · cases ht
    · exact h target ht
  | cons id ids =>
    exact ⟨h,by simp [PruneWorld.classified],by simp [PruneWorld.classified],
      by simp [PruneWorld.classified]⟩

/-- `meta.json` names the owner. -/
theorem Holds.readsMeta (h : Holds named read chosen c) (hw : w.Learns named read chosen)
    {id : String} {ids : List String} {readable : Bool} {written : Written}
    (hread : (if readable then w.files (SessionFile.metaJson.path id) else none) = some written) :
    Holds named read chosen { c with phase := .readingStatus id written.writer ids } := by
  refine ⟨h.targets,?_,by simp,by simp⟩
  rintro id' owner ids' ⟨⟩
  split_ifs at hread
  exact hw.owner _ _ hread

theorem Holds.readsStatus (h : Holds named read chosen c) (hw : w.Learns named read chosen)
    {id : String} {owner : ℕ} {ids : List String} (hphase : c.phase = .readingStatus id owner ids)
    (readable : Bool) :
    let status := if readable then w.files (SessionFile.status.path id) else none
    Holds named read chosen { c with phase := .probing ⟨id,owner,status⟩ ids } := by
  refine ⟨h.targets,by simp,?_,by simp⟩
  rintro target ids' ⟨⟩
  refine hw.status id owner _ (h.owner id owner ids hphase) fun s hs => ?_
  simp only [Option.mem_def] at hs
  split_ifs at hs
  exact hs

/-- The targets with the one that has just been classified, if it is to be deleted. -/
theorem Holds.probes (h : Holds named read chosen c) (hw : w.Learns named read chosen)
    {target : Target} {ids : List String} (hphase : c.phase = .probing target ids) (reused : Bool) :
    ∀ t ∈ (if shouldDelete (target.status.map Written.state) (w.ownerAlive target.owner || reused)
      then c.targets ++ [target] else c.targets),chosen t := by
  intro t ht
  split_ifs at ht with hdelete
  · rcases List.mem_append.mp ht with ht | ht
    · exact h.targets t ht
    · obtain rfl := List.mem_singleton.mp ht
      exact hw.probe t reused (h.probing t ids hphase) hdelete
  · exact h.targets t ht

/-- The next target's turn. -/
theorem Holds.next (h : Holds named read chosen c) {target : Target} {targets : List Target}
    (htargets : c.targets = target::targets) : chosen target ∧ ∀ t ∈ targets,chosen t := by
  have hchosen := h.targets
  rw [htargets] at hchosen
  exact List.forall_mem_cons.mp hchosen

/-- The sockets are removed for the target of the directory. -/
theorem Holds.removes (h : Holds named read chosen c) {target : Target} (htarget : chosen target)
    {phase : PrunePhase} (hphase : phase = .removingLegacy target ∨ phase = .removingDir) :
    Holds named read chosen { c with phase := phase } := by
  refine ⟨h.targets,?_,?_,?_⟩
  · rintro id owner ids rfl
    rcases hphase with hphase | hphase <;> cases hphase
  · rintro t ids rfl
    rcases hphase with hphase | hphase <;> cases hphase
  · rintro t (rfl | rfl) <;> rcases hphase with hphase | hphase <;> cases hphase
    exact htarget

end Holds

/-- A terminal status that has been read is on record. -/
def Recorded (w : PruneWorld) (target : Target) : Prop :=
  ∀ s ∈ target.status,s.state.isTerminal = true → s.writer ∈ w.finished

/-- What a prune has read so far, and its targets. -/
def Reads (w : PruneWorld) (c : PruneCall) : Prop :=
  Holds (fun _ i => (w.owned i).isSome = true)
    (fun target => (w.owned target.owner).isSome = true ∧ w.Recorded target) w.Over c

theorem Recorded.grows {target : Target} (h : w.Recorded target) (hg : w.Grows w') :
    w'.Recorded target := fun s hs hterminal => hg.finished _ (h s hs hterminal)

theorem Reads.grows {c : PruneCall} (h : w.Reads c) (hg : w.Grows w') : w'.Reads c :=
  Holds.mono h (fun _ _ _ hi => hg.owned _ hi)
    (fun _ _ ht => ⟨hg.owned _ ht.1,ht.2.grows hg⟩) fun _ _ ht => ht.grows hg

/-- Whoever has written a file is a worker that has created its session, and a terminal status is
the last it records. -/
structure Good (w : PruneWorld) : Prop where
  writers : ∀ p s,w.files p = some s → (w.owned s.writer).isSome = true ∧
    (s.state.isTerminal = true → s.writer ∈ w.finished)
  reads : ∀ c ∈ w.prunes,w.Reads c
  spares : w.SparesLive

theorem good_start : start.Good := by
  constructor <;> simp [start,SparesLive]

theorem Grows.of_runs (hruns : w'.runs = w.runs) (hfinished : ∀ i ∈ w.finished,i ∈ w'.finished) :
    w.Grows w' := by
  refine ⟨hfinished,fun i hi => ?_,fun i _ hi => ?_⟩
  · simpa only [PruneWorld.owned,hruns] using hi
  · simpa only [ownerAlive,hruns] using hi

theorem store_eq_some {files : SessionPath → Option Written} {paths : List SessionPath}
    {content : Option Written} {p : SessionPath} {s : Written}
    (h : store files paths content p = some s) : (p ∈ paths ∧ content = some s) ∨ files p = some s := by
  unfold store at h
  split_ifs at h with hp
  · exact .inl ⟨hp,h⟩
  · exact .inr h

theorem removed_eq_some {files : SessionPath → Option Written} {paths : List SessionPath}
    {q : SessionPath} {s : Written} (h : store files paths none q = some s) : files q = some s := by
  rcases store_eq_some h with ⟨-,hnone⟩ | hold
  · cases hnone
  · exact hold

theorem withoutDir_eq_some {files : SessionPath → Option Written} {id : String} {p : SessionPath}
    {s : Written} (h : withoutDir files id p = some s) : files p = some s := by
  unfold withoutDir at h
  split at h
  · split_ifs at h
    exact h
  · exact h

/-- A step that changes only what is on disk, or the state of a prune. -/
theorem Good.moves (h : w.Good) (hg : w.Grows w') (hfiles : ∀ p s,w'.files p = some s →
      w.files p = some s ∨ ((w'.owned s.writer).isSome = true ∧
        (s.state.isTerminal = true → s.writer ∈ w'.finished)))
    (hprunes : ∀ c ∈ w'.prunes,c ∈ w.prunes ∨ w'.Reads c) (hspares : w'.SparesLive) : w'.Good := by
  refine ⟨?_,?_,hspares⟩
  · intro p s hs
    rcases hfiles p s hs with hold | hnew
    · obtain ⟨howned,hfinished⟩ := h.writers p s hold
      exact ⟨hg.owned _ howned,fun ht => hg.finished _ (hfinished ht)⟩
    · exact hnew
  · intro c hc
    rcases hprunes c hc with hold | hnew
    · exact (h.reads c hold).grows hg
    · exact hnew

theorem grows_invoked (w : PruneWorld) (requested : Option String) :
    w.Grows { w with runs := w.runs ++ [⟨requested,.checking 0⟩] } := by
  have hget : ∀ i,(w.owned i).isSome = true →
      (w.runs ++ [⟨requested,.checking 0⟩])[i]? = w.runs[i]? := by
    intro i hi
    obtain ⟨id,hid⟩ := Option.isSome_iff_exists.mp hi
    obtain ⟨inv,hinv,-⟩ := Option.bind_eq_some_iff.mp hid
    exact List.getElem?_append_left (List.getElem?_eq_some_iff.mp hinv).1
  refine ⟨fun i hi => hi,?_,?_⟩
  · intro i hi
    simpa only [PruneWorld.owned,hget i hi] using hi
  · intro i howned hi
    simpa only [ownerAlive,hget i howned] using hi

section acts
variable {i : ℕ} {a : RunAction} {inv inv' : Invocation} {made dirs : List String}
  {written : List SessionPath} {files : SessionPath → Option Written}

theorem getElem?_acts (hinv : w.runs[i]? = some inv) (j : ℕ) :
    (w.runs.set i inv')[j]? = if i = j then some inv' else w.runs[j]? := by
  have hlt := (List.getElem?_eq_some_iff.mp hinv).1
  rw [List.getElem?_set]
  split_ifs <;> rfl

theorem owned_acts (hinv : w.runs[i]? = some inv) (j : ℕ) :
    PruneWorld.owned { w with runs := w.runs.set i inv', dirs := dirs, files := files } j =
      if i = j then inv'.owned else w.owned j := by
  simp only [PruneWorld.owned,getElem?_acts hinv]
  split_ifs <;> rfl

theorem owned_of_run (hinv : w.runs[i]? = some inv) : w.owned i = inv.owned := by
  rw [PruneWorld.owned,hinv,Option.bind_some]

theorem grows_acts (hinv : w.runs[i]? = some inv)
    (hact : inv.act w.dirs a = some (inv',made,written)) :
    w.Grows { w with runs := w.runs.set i inv', dirs := dirs, files := files } := by
  obtain ⟨-,-,hkeeps,-⟩ := Invocation.act_spec hact
  refine ⟨fun j hj => hj,?_,?_⟩
  · intro j hj
    rw [owned_acts hinv]
    split_ifs with hij
    · rw [← hij,owned_of_run hinv] at hj
      obtain ⟨id,hid⟩ := Option.isSome_iff_exists.mp hj
      rw [hkeeps id hid]
      rfl
    · exact hj
  · intro j howned hj
    simp only [ownerAlive,getElem?_acts hinv] at hj ⊢
    split_ifs with hij
    · subst hij
      rw [owned_of_run hinv] at howned
      rw [hinv,Option.any_some,Invocation.live_of_act hact howned] at hj
      cases hj
    · exact hj

end acts

/-- A worker acts: whatever it writes, it is the writer, and its session is created by then. -/
theorem Good.acts (h : w.Good) {i : ℕ} {a : RunAction} {inv inv' : Invocation}
    {made : List String} {written paths : List SessionPath} (hinv : w.runs[i]? = some inv)
    (hact : inv.act w.dirs a = some (inv',made,written)) (hpaths : ∀ p ∈ paths,p ∈ written)
    {stage : WorkerStage} {dirs : List String} : Good { w with
      runs := w.runs.set i inv'
      dirs := dirs
      files := store w.files paths (some ⟨i,stage.state⟩) } := by
  obtain ⟨-,-,-,hwritten⟩ := Invocation.act_spec hact
  refine h.moves (grows_acts hinv hact) ?_ (fun c hc => .inl hc) h.spares
  intro p s hs
  rcases store_eq_some hs with ⟨hp,hcontent⟩ | hold
  · right
    obtain rfl := Option.some.inj hcontent
    obtain ⟨id,file,hid,-⟩ := hwritten p (hpaths p hp)
    refine ⟨?_,fun hterminal => ?_⟩
    · rw [owned_acts hinv,if_pos rfl,hid]
      rfl
    · cases stage <;> cases hterminal
  · exact .inl hold

/-- What is chosen for deletion is over: its worker has recorded a terminal status, or ended. -/
theorem over_of_shouldDelete {target : Target} {reused : Bool}
    (howned : (w.owned target.owner).isSome = true) (hstatus : w.Recorded target)
    (h : shouldDelete (target.status.map Written.state) (w.ownerAlive target.owner || reused) = true) :
    w.Over target := by
  have hdead : (!(w.ownerAlive target.owner || reused)) = true → w.Over target := by
    intro hnot
    simp only [Bool.not_eq_true',Bool.or_eq_false_iff] at hnot
    exact .inr ⟨howned,hnot.1⟩
  cases hs : target.status with
  | none =>
    rw [hs] at h
    exact hdead h
  | some s =>
    rw [hs] at h
    cases hstate : s.state with
    | exited | killed =>
      have hterminal : s.state.isTerminal = true := by rw [hstate]; rfl
      exact .inl ⟨s,hs,hterminal,hstatus s hs hterminal⟩
    | starting | running =>
      simp only [Option.map_some,hstate,shouldDelete] at h
      exact hdead h

/-- What the reads of a prune tell it of the workers. -/
theorem Good.learns (h : w.Good) : w.Learns (fun _ i => (w.owned i).isSome = true)
    (fun target => (w.owned target.owner).isSome = true ∧ w.Recorded target) w.Over where
  owner _ _ hs := (h.writers _ _ hs).1
  status _ _ _ howned hstatus :=
    ⟨howned,fun s hs hterminal => (h.writers _ _ (hstatus s hs)).2 hterminal⟩
  probe _ _ ht hdelete := over_of_shouldDelete ht.1 ht.2 hdelete

/-- What one call of a prune does: it reads what is there, or removes what it has chosen. -/
structure Pruned (w : PruneWorld) (p : ℕ) (c : PruneCall) (a : PruneAction) (w' : PruneWorld) :
    Prop where
  call : ∃ c',w'.prunes = w.prunes.set p c' ∧ ∀ named read chosen,w.Learns named read chosen →
    Holds named read chosen c → Holds named read chosen c'
  runs : w'.runs = w.runs
  finished : w'.finished = w.finished
  files : ∀ q s,w'.files q = some s → w.files q = some s
  dirs : w'.dirs = w.dirs ∨ ∃ target ∈ c.targets,w'.dirs = w.dirs.filter (· ≠ target.id) ∧
    ∀ file,w'.files (.inDir target.id file) = none
  harmed : w'.harmed = w.harmed ++ ((w.removal c a).map Prod.snd).getD []

section calls
variable {p : ℕ} {c c' : PruneCall} {a : PruneAction}

/-- A call that only reads. -/
theorem pruned_of_reads (hc : ∀ named read chosen,w.Learns named read chosen →
      Holds named read chosen c → Holds named read chosen c')
    (hremoval : w.removal c a = none) : w.Pruned p c a (w.setPrune p c') :=
  ⟨⟨c',rfl,hc⟩,rfl,rfl,fun _ _ hs => hs,.inl rfl,by rw [hremoval]; exact (List.append_nil _).symm⟩

/-- The removal of a socket, which can fail. -/
theorem pruned_of_removes {socket : SessionPath} {failed : Bool}
    (hc : ∀ named read chosen,w.Learns named read chosen →
      Holds named read chosen c → Holds named read chosen c')
    (hremoval : (w.removal c a).map Prod.snd = some (if failed then [] else w.binders socket)) :
    w.Pruned p c a (if failed then w.setPrune p c' else { w.setPrune p c' with
      files := store w.files [socket] none, harmed := w.harmed ++ w.binders socket }) := by
  cases failed with
  | true =>
    refine ⟨⟨c',rfl,hc⟩,rfl,rfl,fun _ _ hs => hs,.inl rfl,?_⟩
    rw [hremoval]
    exact (List.append_nil _).symm
  | false =>
    refine ⟨⟨c',rfl,hc⟩,rfl,rfl,fun _ _ hs => removed_eq_some hs,.inl rfl,?_⟩
    rw [hremoval]
    rfl

theorem pruneStep_spec (hstep : w.pruneStep p c a = some w') : w.Pruned p c a w' := by
  cases a with
  | lists ids =>
    simp only [pruneStep] at hstep
    split at hstep <;> cases hstep
    exact pruned_of_reads (fun _ _ _ _ hc => .classified hc.targets ids) rfl
  | readsMeta readable =>
    simp only [pruneStep] at hstep
    split at hstep
    next id ids hphase =>
      split at hstep <;> cases hstep
      next written hread => exact pruned_of_reads (fun _ _ _ hw hc => hc.readsMeta hw hread) rfl
      next => exact pruned_of_reads (fun _ _ _ _ hc => .classified hc.targets ids) rfl
    next => cases hstep
  | readsStatus readable =>
    simp only [pruneStep] at hstep
    split at hstep <;> cases hstep
    next id owner ids hphase =>
      exact pruned_of_reads (fun _ _ _ hw hc => hc.readsStatus hw hphase readable) rfl
  | probes reused =>
    simp only [pruneStep] at hstep
    split at hstep <;> cases hstep
    next target ids hphase =>
      exact pruned_of_reads (fun _ _ _ hw hc => .classified (hc.probes hw hphase reused) ids) rfl
  | removesDir =>
    simp only [pruneStep] at hstep
    split at hstep
    next target targets hphase htargets =>
      split_ifs at hstep
      cases hstep
      refine ⟨⟨_,rfl,fun _ _ _ _ hc => ?_⟩,rfl,rfl,fun q s hs => withoutDir_eq_some hs,
        .inr ⟨target,by rw [htargets]; exact List.mem_cons_self,rfl,fun file => if_pos rfl⟩,
        by simp [removal,hphase,htargets]⟩
      obtain ⟨hchosen,hothers⟩ := hc.next htargets
      refine ⟨hothers,by simp,by simp,?_⟩
      rintro t (ht | ht) <;> cases ht
      exact hchosen
    next => cases hstep
  | failsDir lost =>
    simp only [pruneStep] at hstep
    split at hstep
    next target targets hphase htargets =>
      cases hstep
      refine ⟨⟨_,rfl,fun _ _ _ _ hc => ⟨(hc.next htargets).2,?_,?_,?_⟩⟩,rfl,rfl,
        fun q s hs => removed_eq_some hs,.inl rfl,by simp [removal,hphase,htargets]⟩
      all_goals simp [hphase]
    next => cases hstep
  | removesSocket failed =>
    simp only [pruneStep] at hstep
    split at hstep <;> cases hstep
    next target hphase =>
      exact pruned_of_removes
        (fun _ _ _ _ hc => hc.removes (hc.removing target (.inl hphase)) (.inl rfl))
        (by simp only [removal,hphase,Option.map_some])
  | removesLegacy failed =>
    simp only [pruneStep] at hstep
    split at hstep <;> cases hstep
    next target hphase =>
      exact pruned_of_removes
        (fun _ _ _ _ hc => hc.removes (hc.removing target (.inr hphase)) (.inr rfl))
        (by simp only [removal,hphase,Option.map_some])

end calls

/-- The worker that has been classified is over. -/
theorem Over.not_busy {target : Target} (h : w.Over target) {i : ℕ} (hi : About target i) :
    w.busy i = false := by
  obtain ⟨rfl,hstatus⟩ := hi
  rcases h with ⟨s,hs,hterminal,hwriter⟩ | ⟨-,hended⟩
  · rw [hstatus s hs hterminal] at hwriter
    simp [busy,hwriter]
  · simp [busy,hended]

theorem busy_of_removal {c : PruneCall} {a : PruneAction} {r : Target × List ℕ}
    (h : w.removal c a = some r) : ∀ i ∈ r.2,w.busy i = true := by
  have htenants : ∀ {id i},i ∈ w.tenants id → w.busy i = true := by
    intro id i hi
    have := (List.mem_filter.mp hi).2
    simp only [Bool.and_eq_true] at this
    exact this.1
  have hbinders : ∀ {socket i},i ∈ w.binders socket → w.busy i = true :=
    fun hi => (List.mem_filter.mp hi).2
  intro i hi
  cases a with
  | removesDir =>
    simp only [removal] at h
    split at h <;> cases h
    exact htenants hi
  | failsDir lost =>
    simp only [removal] at h
    split at h <;> cases h
    dsimp only at hi
    split_ifs at hi
    · cases hi
    · exact htenants hi
  | removesSocket failed | removesLegacy failed =>
    simp only [removal] at h
    split at h <;> cases h
    dsimp only at hi
    split_ifs at hi
    · cases hi
    · exact hbinders hi
  | _ => cases h

theorem over_of_removal {c : PruneCall} {a : PruneAction} {r : Target × List ℕ} (hc : w.Reads c)
    (h : w.removal c a = some r) : w.Over r.1 := by
  cases a with
  | removesDir | failsDir =>
    simp only [removal] at h
    split at h <;> cases h
    rename_i htargets
    exact hc.targets _ (by rw [htargets]; exact List.mem_cons_self)
  | removesSocket =>
    simp only [removal] at h
    split at h <;> cases h
    exact hc.removing _ (.inl ‹_›)
  | removesLegacy =>
    simp only [removal] at h
    split at h <;> cases h
    exact hc.removing _ (.inr ‹_›)
  | _ => cases h

/-- A removal harms somebody exactly when it does not meet the condition. -/
theorem users_eq_nil_iff {p : ℕ} {c : PruneCall} {a : PruneAction} (hget : w.prunes[p]? = some c)
    (hc : w.Reads c) : ((w.removal c a).map Prod.snd).getD [] = [] ↔
      w.RemovesClassified (.prunes p a) := by
  cases hr : w.removal c a with
  | none => simp [RemovesClassified,hget,hr]
  | some r =>
    simp only [Option.map_some,Option.getD_some,RemovesClassified,hget,hr,Option.mem_def,
      Option.some.injEq,forall_eq']
    constructor
    · intro hnil i hi
      rw [hnil] at hi
      cases hi
    · intro habout
      by_contra hne
      obtain ⟨i,hi⟩ := List.exists_mem_of_ne_nil _ hne
      have hbusy := busy_of_removal hr i hi
      rw [(over_of_removal hc hr).not_busy (habout i hi)] at hbusy
      cases hbusy

theorem acts_cases {i : ℕ} {a : RunAction} (hstep : w.step (.acts i a) = some w') :
    w.mayAct i a = true ∧ ∃ inv inv' made written,w.runs[i]? = some inv ∧
      inv.act w.dirs a = some (inv',made,written) ∧
      w' = { w with
        runs := w.runs.set i inv'
        dirs := w.dirs ++ made
        files := store w.files (written.filter (writable (w.dirs ++ made)))
          (some ⟨i,(stage inv').state⟩) } := by
  simp only [step] at hstep
  split_ifs at hstep with hmay
  obtain ⟨inv,hinv,hstep⟩ := Option.bind_eq_some_iff.mp hstep
  obtain ⟨⟨inv',made,written⟩,hact,hstep⟩ := Option.bind_eq_some_iff.mp hstep
  dsimp only at hstep
  split_ifs at hstep
  exact ⟨hmay,inv,inv',made,written,hinv,hact,(Option.some.inj hstep).symm⟩

/-- A worker records a terminal status when it is live, has set its session up, and has not
recorded one. -/
theorem finishes_cases {i : ℕ} {killed : Bool} (hstep : w.step (.finishes i killed) = some w') :
    ∃ inv id,w.runs[i]? = some inv ∧ inv.live = some id ∧ .status ∈ (stage inv).files ∧
      i ∉ w.finished ∧
      w' = { w with
        finished := i :: w.finished
        files := store w.files [SessionFile.status.path id]
          (some ⟨i,if killed then .killed else .exited⟩) } := by
  simp only [step] at hstep
  obtain ⟨inv,hinv,hstep⟩ := Option.bind_eq_some_iff.mp hstep
  obtain ⟨id,hid,hstep⟩ := Option.bind_eq_some_iff.mp hstep
  split at hstep
  case isFalse => cases hstep
  rename_i hready
  exact ⟨inv,id,hinv,hid,hready.1,hready.2.1,(Option.some.inj hstep).symm⟩

/-- A worker that has recorded its terminal status removes its sockets. -/
theorem cleansUp_cases {i : ℕ} (hstep : w.step (.cleansUp i) = some w') :
    ∃ id,w' = { w with files := store w.files (sockets id) none } := by
  simp only [step] at hstep
  obtain ⟨inv,hinv,hstep⟩ := Option.bind_eq_some_iff.mp hstep
  obtain ⟨id,hid,hstep⟩ := Option.bind_eq_some_iff.mp hstep
  split_ifs at hstep
  exact ⟨id,(Option.some.inj hstep).symm⟩

/-- A worker that has written a status has created its session. -/
theorem owned_of_live {inv : Invocation} {id : String} (hlive : inv.live = some id)
    (h : SessionFile.status ∈ (stage inv).files) : inv.owned = some id := by
  cases hphase : inv.phase with
  | worker id' stage =>
    rw [PruneWorld.stage,hphase] at h
    simp only [Invocation.live,hphase] at hlive
    cases stage with
    | spawned => cases h
    | _ => simpa [Invocation.owned,hphase] using hlive
  | checking _ | refused _ | chosen _ | ended _ _ =>
    rw [PruneWorld.stage,hphase] at h
    cases h

theorem good_step (w : PruneWorld) (e : PruneEvent) (w' : PruneWorld) (hstep : w.step e = some w')
    (hc : w.RemovesClassified e) (h : w.Good) : w'.Good := by
  cases e with
  | invoked requested =>
    obtain rfl := Option.some.inj hstep
    exact h.moves (grows_invoked w requested) (fun p s hs => .inl hs) (fun c hc => .inl hc) h.spares
  | acts i a =>
    obtain ⟨-,inv,inv',made,written,hinv,hact,rfl⟩ := acts_cases hstep
    exact h.acts hinv hact fun p hp => (List.mem_filter.mp hp).1
  | finishes i killed =>
    obtain ⟨inv,id,hinv,hid,hstatus,-,rfl⟩ := finishes_cases hstep
    have howned : (w.owned i).isSome = true := by
      rw [owned_of_run hinv,owned_of_live hid hstatus]
      rfl
    refine h.moves (.of_runs rfl fun j hj => List.mem_cons_of_mem _ hj) ?_ (fun c hc => .inl hc)
      h.spares
    intro p s hs
    rcases store_eq_some hs with ⟨-,hcontent⟩ | hold
    · obtain rfl := Option.some.inj hcontent
      exact .inr ⟨howned,fun _ => List.mem_cons_self⟩
    · exact .inl hold
  | cleansUp i =>
    obtain ⟨id,rfl⟩ := cleansUp_cases hstep
    exact h.moves (.of_runs rfl fun j hj => hj) (fun p s hs => .inl (removed_eq_some hs))
      (fun c hc => .inl hc) h.spares
  | pruned dryRun =>
    obtain rfl := Option.some.inj hstep
    refine h.moves (.of_runs rfl fun j hj => hj) (fun p s hs => .inl hs) ?_ h.spares
    intro c hc
    rcases List.mem_append.mp hc with hc | hc
    · exact .inl hc
    · obtain rfl := List.mem_singleton.mp hc
      exact .inr ⟨by simp,by simp,by simp,by simp⟩
  | prunes p a =>
    obtain ⟨c,hget,hstep⟩ := Option.bind_eq_some_iff.mp hstep
    have hreads := h.reads c (List.mem_of_getElem? hget)
    have hspec := pruneStep_spec hstep
    obtain ⟨c',hprunes,hkeeps⟩ := hspec.call
    have hreads' : w.Reads c' := hkeeps _ _ _ h.learns hreads
    have hgrows : w.Grows w' := .of_runs hspec.runs (by rw [hspec.finished]; exact fun j hj => hj)
    refine h.moves hgrows (fun q s hs => .inl (hspec.files q s hs)) ?_ ?_
    · intro d hd
      rw [hprunes] at hd
      rcases List.mem_or_eq_of_mem_set hd with hd | rfl
      · exact .inl hd
      · exact .inr (hreads'.grows hgrows)
    · rw [SparesLive,hspec.harmed,(users_eq_nil_iff hget hreads).mpr hc,h.spares]
      rfl

theorem not_sparesLive (w : PruneWorld) (e : PruneEvent) (w' : PruneWorld)
    (hstep : w.step e = some w') (hc : ¬w.RemovesClassified e) (h : w.Good) : ¬w'.SparesLive := by
  cases e with
  | prunes p a =>
    obtain ⟨c,hget,hstep⟩ := Option.bind_eq_some_iff.mp hstep
    have hreads := h.reads c (List.mem_of_getElem? hget)
    rw [SparesLive,(pruneStep_spec hstep).harmed]
    intro hnil
    exact hc ((users_eq_nil_iff hget hreads).mp (List.append_eq_nil_iff.mp hnil).2)
  | _ => exact absurd trivial hc

/-! Sessions that are created apart from the prunes are never theirs to remove. -/

/-- A live worker without a terminal status whose session has this id. -/
def Tenant (w : PruneWorld) (i : ℕ) (id : String) : Prop := w.busy i = true ∧ w.owned i = some id

/-- The session that is to be deleted has been created, and nobody uses it. -/
def Vacant (w : PruneWorld) (target : Target) : Prop :=
  w.owned target.owner = some target.id ∧ ∀ i,¬w.Tenant i target.id

/-- Whoever uses the session of an id that a prune has in hand is the worker it has read about. -/
def Knows (w : PruneWorld) (c : PruneCall) : Prop :=
  Holds (fun id i => w.owned i = some id ∧ ∀ j,w.Tenant j id → j = i)
    (fun target => w.owned target.owner = some target.id ∧ w.Recorded target ∧
      ∀ j,w.Tenant j target.id → About target j) w.Vacant c

/-- One live worker a session, which has written all the files of its directory; names of sockets
that tell the sessions apart; and prunes that know whose sessions they have in hand. -/
structure Apart (w : PruneWorld) : Prop where
  names : ∀ i j x y,w.owned i = some x → w.owned j = some y → socketName x = socketName y → x = y
  writers : ∀ p s,w.files p = some s → ∃ id file,w.owned s.writer = some id ∧
    p = SessionFile.path id file
  inDirs : ∀ id file s,w.files (.inDir id file) = some s → id ∈ w.dirs
  housed : ∀ i id,w.Tenant i id → id ∈ w.dirs
  unique : ∀ i j id,w.Tenant i id → w.Tenant j id → i = j
  current : ∀ i id file s,w.Tenant i id → w.files (.inDir id file) = some s → s.writer = i
  knows : ∀ c ∈ w.prunes,w.Knows c

theorem apart_start : start.Apart where
  names i j x y hx := by simp [PruneWorld.owned,start] at hx
  writers p s hs := by cases hs
  inDirs id file s hs := by cases hs
  housed i id hi := by simp [Tenant,PruneWorld.owned,start] at hi
  unique i j id hi := by simp [Tenant,PruneWorld.owned,start] at hi
  current i id file s _ hs := by cases hs
  knows c hc := by cases hc

theorem id_of_path {id id' : String} {file file' : SessionFile}
    (h : SessionPath.inDir id file = SessionFile.path id' file') : id = id' := by
  cases file' <;> cases h <;> rfl

/-- The owner that `meta.json` names, and the terminal status, are those of the one worker that
may still use the session. -/
theorem Apart.learns (h : w.Apart) (hgood : w.Good) :
    w.Learns (fun id i => w.owned i = some id ∧ ∀ j,w.Tenant j id → j = i)
      (fun target => w.owned target.owner = some target.id ∧ w.Recorded target ∧
        ∀ j,w.Tenant j target.id → About target j) w.Vacant where
  owner id s hs := by
    obtain ⟨id',file,howned,hpath⟩ := h.writers _ _ hs
    rw [← id_of_path hpath] at howned
    exact ⟨howned,fun j hj => (h.current j id .metaJson s hj hs).symm⟩
  status id i status hnamed hstatus := by
    refine ⟨hnamed.1,fun s hs hterminal => (hgood.writers _ _ (hstatus s hs)).2 hterminal,?_⟩
    exact fun j hj => ⟨hnamed.2 j hj,fun s hs _ => h.current j id .status s hj (hstatus s hs)⟩
  probe target reused hread hdelete := by
    obtain ⟨howned,hrecorded,habout⟩ := hread
    have hover := over_of_shouldDelete (by rw [howned]; rfl) hrecorded hdelete
    refine ⟨howned,fun j hj => ?_⟩
    have hidle := hover.not_busy (habout j hj)
    rw [hj.1] at hidle
    cases hidle

/-- Growing takes no live worker on. -/
theorem Grows.tenant (hg : w.Grows w') {i : ℕ} {id : String} (howned : w'.owned i = w.owned i)
    (h : w'.Tenant i id) : w.Tenant i id := by
  obtain ⟨hbusy,hid⟩ := h
  rw [howned] at hid
  refine ⟨?_,hid⟩
  simp only [busy,Bool.and_eq_true,Bool.not_eq_true',List.contains_eq_mem,decide_eq_false_iff_not]
    at hbusy ⊢
  refine ⟨?_,fun hfinished => hbusy.2 (hg.finished i hfinished)⟩
  by_contra hended
  have hlater := hg.ended i (by rw [hid]; rfl) (eq_false_of_ne_true hended)
  rw [hlater] at hbusy
  cases hbusy.1

/-- A prune still knows whose sessions it has in hand, if nobody else has come to use them. -/
theorem Knows.moves {c : PruneCall} (h : w.Knows c) (hg : w.Grows w')
    (howned : ∀ i id,w.owned i = some id → w'.owned i = some id)
    (htenant : ∀ i id,id ∈ inHand c → w'.Tenant i id → w.Tenant i id) : w'.Knows c :=
  Holds.mono h
    (fun id i hid hn => ⟨howned i id hn.1,fun j hj => hn.2 j (htenant j id hid hj)⟩)
    (fun _ hid hr => ⟨howned _ _ hr.1,hr.2.1.grows hg,fun j hj => hr.2.2 j (htenant j _ hid hj)⟩)
    (fun _ hid hv => ⟨howned _ _ hv.1,fun j hj => hv.2 j (htenant j _ hid hj)⟩)

/-- A step by which nobody creates a session: what is new in a file is written by a worker that
uses the session. -/
theorem Apart.moves (h : w.Apart) (hg : w.Grows w') (howned : ∀ i,w'.owned i = w.owned i)
    (hhoused : ∀ i id,w.Tenant i id → id ∈ w'.dirs)
    (hfiles : ∀ p s,w'.files p = some s →
      w.files p = some s ∨ ∃ id file,w.Tenant s.writer id ∧ p = SessionFile.path id file)
    (hinDirs : ∀ id file s,w'.files (.inDir id file) = some s → id ∈ w'.dirs)
    (hprunes : ∀ c ∈ w'.prunes,c ∈ w.prunes ∨ w.Knows c) : w'.Apart where
  names i j x y hx hy := by
    rw [howned] at hx hy
    exact h.names i j x y hx hy
  writers p s hs := by
    rw [howned]
    rcases hfiles p s hs with hold | ⟨id,file,hid,hpath⟩
    · exact h.writers p s hold
    · exact ⟨id,file,hid.2,hpath⟩
  inDirs := hinDirs
  housed i id hi := hhoused i id (hg.tenant (howned i) hi)
  unique i j id hi hj := h.unique i j id (hg.tenant (howned i) hi) (hg.tenant (howned j) hj)
  current i id file s hi hs := by
    have hold := hg.tenant (howned i) hi
    rcases hfiles _ s hs with hfile | ⟨id',file',hid,hpath⟩
    · exact h.current i id file s hold hfile
    · rw [← id_of_path hpath] at hid
      exact h.unique _ _ id hid hold
  knows c hc := by
    have hknown : w.Knows c := (hprunes c hc).elim (h.knows c) fun hnew => hnew
    exact hknown.moves hg (fun i id hid => (howned i).trans hid)
      fun i id _ hi => hg.tenant (howned i) hi

/-- A worker that uses its session writes files of it. -/
theorem Apart.writes (h : w.Apart) (hg : w.Grows w') (howned : ∀ i,w'.owned i = w.owned i)
    (hdirs : w'.dirs = w.dirs) (hprunes : w'.prunes = w.prunes) {i : ℕ} {id : String}
    (htenant : w.Tenant i id) {paths : List SessionPath} {state : State}
    (hpaths : ∀ p ∈ paths,∃ file,p = SessionFile.path id file)
    (hfiles : w'.files = store w.files paths (some ⟨i,state⟩)) : w'.Apart := by
  refine h.moves hg howned (fun j x hj => hdirs ▸ h.housed j x hj) ?_ ?_
    (fun c hc => .inl (hprunes ▸ hc))
  · intro p s hs
    rw [hfiles] at hs
    rcases store_eq_some hs with ⟨hp,hcontent⟩ | hold
    · obtain rfl := Option.some.inj hcontent
      obtain ⟨file,hpath⟩ := hpaths p hp
      exact .inr ⟨id,file,htenant,hpath⟩
    · exact .inl hold
  · intro x file s hs
    rw [hfiles] at hs
    rw [hdirs]
    rcases store_eq_some hs with ⟨hp,-⟩ | hold
    · obtain ⟨file',hpath⟩ := hpaths _ hp
      rw [id_of_path hpath]
      exact h.housed i id htenant
    · exact h.inDirs x file s hold

/-- A worker creates its session apart from all others. -/
theorem Apart.creates (h : w.Apart) (hg : w.Grows w') {i : ℕ} {id : String}
    (hnone : w.owned i = none) (howned : ∀ j,w'.owned j = if i = j then some id else w.owned j)
    (hdirs : w'.dirs = w.dirs ++ [id]) (hfiles : w'.files = w.files)
    (hprunes : w'.prunes = w.prunes) (hfree : id ∉ w.dirs) (hhand : ∀ c ∈ w.prunes,id ∉ inHand c)
    (hname : ∀ j,∀ id' ∈ w.owned j,socketName id' = socketName id → id' = id) : w'.Apart := by
  have hkept : ∀ j x,w.owned j = some x → w'.owned j = some x := by
    intro j x hx
    rw [howned,if_neg ?_,hx]
    rintro rfl
    rw [hnone] at hx
    cases hx
  have hcases : ∀ j x,w'.owned j = some x → (j = i ∧ x = id) ∨ w.owned j = some x := by
    intro j x hx
    rw [howned] at hx
    split_ifs at hx with hij
    · exact .inl ⟨hij.symm,(Option.some.inj hx).symm⟩
    · exact .inr hx
  have htenant : ∀ j x,w'.Tenant j x → (j = i ∧ x = id) ∨ w.Tenant j x := by
    intro j x hj
    refine (hcases j x hj.2).imp_right fun hold => hg.tenant ?_ hj
    rw [hj.2,hold]
  have hmade : ∀ x ∈ w.dirs,x ∈ w'.dirs := fun x hx => by rw [hdirs]; exact List.mem_append_left _ hx
  constructor
  · intro j k x y hx hy hsame
    rcases hcases j x hx with ⟨-,rfl⟩ | hx <;> rcases hcases k y hy with ⟨-,rfl⟩ | hy
    · rfl
    · exact (hname k y hy hsame.symm).symm
    · exact hname j x hx hsame
    · exact h.names j k x y hx hy hsame
  · intro p s hs
    rw [hfiles] at hs
    obtain ⟨x,file,hx,hpath⟩ := h.writers p s hs
    exact ⟨x,file,hkept _ x hx,hpath⟩
  · intro x file s hs
    rw [hfiles] at hs
    exact hmade x (h.inDirs x file s hs)
  · intro j x hj
    rcases htenant j x hj with ⟨-,rfl⟩ | hold
    · rw [hdirs]
      exact List.mem_append_right _ (List.mem_singleton_self x)
    · exact hmade x (h.housed j x hold)
  · intro j k x hj hk
    rcases htenant j x hj with ⟨rfl,rfl⟩ | hj <;> rcases htenant k x hk with ⟨rfl,hx⟩ | hk
    · rfl
    · exact absurd (h.housed k x hk) hfree
    · rw [hx] at hj
      exact absurd (h.housed j id hj) hfree
    · exact h.unique j k x hj hk
  · intro j x file s hj hs
    rw [hfiles] at hs
    rcases htenant j x hj with ⟨-,rfl⟩ | hold
    · exact absurd (h.inDirs x file s hs) hfree
    · exact h.current j x file s hold hs
  · intro c hc
    rw [hprunes] at hc
    refine (h.knows c hc).moves hg hkept fun j x hx hj => ?_
    rcases htenant j x hj with ⟨-,rfl⟩ | hold
    · exact absurd hx (hhand c hc)
    · exact hold

/-- What a prune removes in such a run is in use by nobody. -/
theorem Apart.removes_nobody (h : w.Apart) {c : PruneCall} (hc : w.Knows c) {a : PruneAction}
    {r : Target × List ℕ} (hr : w.removal c a = some r) : r.2 = [] := by
  have htenants : ∀ target,w.Vacant target → w.tenants target.id = [] := by
    intro target hvacant
    rw [tenants,List.filter_eq_nil_iff]
    intro i _ hi
    simp only [Bool.and_eq_true,decide_eq_true_eq] at hi
    exact hvacant.2 i hi
  have hbinders : ∀ target (file : SessionFile),w.Vacant target →
      w.binders (file.path target.id) = [] := by
    intro target file hvacant
    rw [binders,List.filter_eq_nil_iff]
    intro i hi hbusy
    obtain ⟨s,hs,rfl⟩ := Option.map_eq_some_iff.mp (Option.mem_toList.mp hi)
    obtain ⟨id,file',howned,hpath⟩ := h.writers _ s hs
    have hid := h.names _ _ _ _ hvacant.1 howned (SessionFile.socketName_of_path hpath)
    exact hvacant.2 _ ⟨hbusy,hid ▸ howned⟩
  cases a with
  | removesDir | failsDir lost =>
    simp only [removal] at hr
    split at hr <;> cases hr
    rename_i htargets
    have hnone := htenants _ (hc.next htargets).1
    simp [hnone]
  | removesSocket failed =>
    simp only [removal] at hr
    split at hr <;> cases hr
    next target hphase => simp [hbinders target _ (hc.removing target (.inl hphase))]
  | removesLegacy failed =>
    simp only [removal] at hr
    split at hr <;> cases hr
    next target hphase => simp [hbinders target _ (hc.removing target (.inr hphase))]
  | _ => cases hr

theorem Apart.removesClassified (h : w.Apart) (e : PruneEvent) : w.RemovesClassified e := by
  cases e with
  | prunes p a =>
    intro c hget r hr i hi
    rw [h.removes_nobody (h.knows c (List.mem_of_getElem? hget)) hr] at hi
    cases hi
  | _ => trivial

/-- Only a worker that has not recorded a terminal status writes. -/
theorem busy_of_writes {i : ℕ} {a : RunAction} {inv inv' : Invocation} {made : List String}
    {written : List SessionPath} (hinv : w.runs[i]? = some inv)
    (hact : inv.act w.dirs a = some (inv',made,written)) (hmay : w.mayAct i a = true)
    (howned : inv.owned.isSome = true) (hne : written ≠ []) : w.busy i = true := by
  have hlive : w.ownerAlive i = true := by
    rw [ownerAlive,hinv]
    exact Invocation.live_of_act hact howned
  have hnotFinished : (!w.finished.contains i) = true := by
    cases a with
    | setsUp => exact hmay
    | writes file => exact (Bool.and_eq_true _ _ ▸ hmay).1
    | creates =>
      obtain ⟨-,-,-,-,hwritten⟩ := Invocation.created_of_act hact
      exact absurd hwritten hne
    | checks | spawns | spawnFails | ends =>
      simp only [Invocation.act] at hact
      split at hact <;> cases hact
      exact absurd rfl hne
  rw [busy,hlive,hnotFinished]
  rfl

/-- A worker acts in its own session. -/
theorem Apart.acts (h : w.Apart) {i : ℕ} {a : RunAction} (hstep : w.step (.acts i a) = some w')
    (ha : w.CreatesApart (.acts i a)) : w'.Apart := by
  obtain ⟨hmay,inv,inv',made,written,hinv,hact,hw'⟩ := acts_cases hstep
  have hg : w.Grows w' := by
    rw [hw']
    exact grows_acts hinv hact
  have howns : ∀ j,w'.owned j = if i = j then inv'.owned else w.owned j := by
    rw [hw']
    exact owned_acts hinv
  by_cases hcreates : a = .creates
  · subst hcreates
    obtain ⟨id,hphase,rfl,rfl,rfl⟩ := Invocation.created_of_act hact
    obtain ⟨hfree,hhand,hname⟩ := ha inv hinv id (by simp [Invocation.underWay,hphase])
    have hnone : w.owned i = none := by
      rw [owned_of_run hinv]
      simp [Invocation.owned,hphase]
    exact h.creates hg hnone howns (by rw [hw']) (by rw [hw']; rfl) (by rw [hw']) hfree hhand hname
  · obtain ⟨rfl,hsame⟩ := Invocation.made_of_act hact hcreates
    have howned : ∀ j,w'.owned j = w.owned j := by
      intro j
      rw [howns]
      split_ifs with hij
      · rw [hsame,← hij,owned_of_run hinv]
      · rfl
    have hdirs : w'.dirs = w.dirs := by rw [hw',List.append_nil]
    obtain ⟨-,-,-,hwritten⟩ := Invocation.act_spec hact
    cases written with
    | nil =>
      have hfiles : w'.files = w.files := by rw [hw']; rfl
      refine h.moves hg howned (fun j id hj => hdirs ▸ h.housed j id hj)
        (fun p s hs => .inl (hfiles ▸ hs)) ?_ (fun c hc => .inl (by rw [hw'] at hc; exact hc))
      intro id file s hs
      rw [hdirs]
      exact h.inDirs id file s (hfiles ▸ hs)
    | cons q written =>
      obtain ⟨id,-,hid,-⟩ := hwritten q List.mem_cons_self
      have hlive : inv.owned = some id := hsame ▸ hid
      have htenant : w.Tenant i id :=
        ⟨busy_of_writes hinv hact hmay (by rw [hlive]; rfl) (List.cons_ne_nil _ _),
          (owned_of_run hinv).trans hlive⟩
      refine h.writes hg howned hdirs (by rw [hw']) htenant ?_ (by rw [hw'])
      intro p hp
      obtain ⟨id',file,hid',hpath⟩ := hwritten p (List.mem_filter.mp hp).1
      obtain rfl := Option.some.inj (hid.symm.trans hid')
      exact ⟨file,hpath⟩

theorem apart_step (w : PruneWorld) (e : PruneEvent) (w' : PruneWorld) (hstep : w.step e = some w')
    (he : w.CreatesApart e) (hgood : w.Good) (h : w.Apart) : w'.Apart := by
  cases e with
  | acts i a => exact h.acts hstep he
  | invoked requested =>
    obtain rfl := Option.some.inj hstep
    refine h.moves (grows_invoked w requested) (fun j => ?_) h.housed (fun p s hs => .inl hs) h.inDirs
      fun c hc => .inl hc
    simp only [PruneWorld.owned]
    rw [List.getElem?_append]
    split_ifs with hlt
    · rfl
    · rw [List.getElem?_eq_none (Nat.le_of_not_lt hlt),Option.bind_none]
      cases j - w.runs.length <;> rfl
  | finishes i killed =>
    obtain ⟨inv,id,hinv,hid,hstatus,hnot,rfl⟩ := finishes_cases hstep
    have howned : w.owned i = some id := by
      rw [owned_of_run hinv]
      exact owned_of_live hid hstatus
    have hbusy : w.busy i = true := by
      simp [busy,ownerAlive,hinv,hid,hnot]
    exact h.writes (.of_runs rfl fun j hj => List.mem_cons_of_mem _ hj) (fun _ => rfl) rfl rfl
      ⟨hbusy,howned⟩ (fun p hp => ⟨.status,List.mem_singleton.mp hp⟩) rfl
  | cleansUp i =>
    obtain ⟨id,rfl⟩ := cleansUp_cases hstep
    exact h.moves (.of_runs rfl fun j hj => hj) (fun _ => rfl) h.housed
      (fun p s hs => .inl (removed_eq_some hs))
      (fun x file s hs => h.inDirs x file s (removed_eq_some hs)) fun c hc => .inl hc
  | pruned dryRun =>
    obtain rfl := Option.some.inj hstep
    refine h.moves (.of_runs rfl fun j hj => hj) (fun _ => rfl) h.housed (fun p s hs => .inl hs)
      h.inDirs fun c hc => ?_
    rcases List.mem_append.mp hc with hc | hc
    · exact .inl hc
    · obtain rfl := List.mem_singleton.mp hc
      exact .inr ⟨by simp,by simp,by simp,by simp⟩
  | prunes p a =>
    obtain ⟨c,hget,hstep⟩ := Option.bind_eq_some_iff.mp hstep
    have hknows := h.knows c (List.mem_of_getElem? hget)
    have hspec := pruneStep_spec hstep
    obtain ⟨c',hprunes,hkeeps⟩ := hspec.call
    have hgrows : w.Grows w' := .of_runs hspec.runs (by rw [hspec.finished]; exact fun j hj => hj)
    refine h.moves hgrows (fun j => by rw [PruneWorld.owned,hspec.runs]; rfl) ?_
      (fun q s hs => .inl (hspec.files q s hs)) ?_ ?_
    · intro j id hj
      rcases hspec.dirs with hdirs | ⟨target,htarget,hdirs,-⟩
      · exact hdirs ▸ h.housed j id hj
      · rw [hdirs,List.mem_filter]
        refine ⟨h.housed j id hj,decide_eq_true ?_⟩
        rintro rfl
        exact (hknows.targets target htarget).2 j hj
    · intro id file s hs
      have hold := h.inDirs id file s (hspec.files _ s hs)
      rcases hspec.dirs with hdirs | ⟨target,-,hdirs,hgone⟩
      · exact hdirs ▸ hold
      · rw [hdirs,List.mem_filter]
        refine ⟨hold,decide_eq_true ?_⟩
        rintro rfl
        rw [hgone file] at hs
        cases hs
    · intro d hd
      rw [hprunes] at hd
      rcases List.mem_or_eq_of_mem_set hd with hd | rfl
      · exact .inl hd
      · exact .inr (hkeeps _ _ _ (h.learns hgood) hknows)

/-- No live session loses its directory or its socket throughout a run exactly when whatever a
prune removes is in use by no other worker than the one it has classified; so it is where every
session is created apart from the prunes and from the other sessions. -/
theorem always_sparesLive_iff (es : List PruneEvent) :
    (Transition.Always step SparesLive start es ↔
        Transition.Meets step RemovesClassified start es) ∧
      (Transition.Meets step CreatesApart start es →
        Transition.Meets step RemovesClassified start es) := by
  constructor
  · exact Transition.always_iff_meets (fun _ h => h.spares) good_step not_sparesLive good_start es
  · intro happart
    refine Transition.Meets.kept (I := fun w => w.Good ∧ w.Apart) ?_ happart ⟨good_start,apart_start⟩
    rintro w e w' hstep he ⟨hgood,h⟩
    have hclassified := h.removesClassified e
    exact ⟨hclassified,good_step w e w' hstep hclassified hgood,apart_step w e w' hstep he hgood h⟩

/-- An invocation that asks for "x" and serves its session. -/
def launched (i : ℕ) : List PruneEvent :=
  [.invoked (some "x"),.acts i (.checks "" true),.acts i .spawns,.acts i .creates,.acts i .setsUp,
    .acts i .setsUp,.acts i .setsUp,.acts i .setsUp,.acts i .setsUp]

/-- A prune that classifies "x". -/
def classifiedX (p : ℕ) : List PruneEvent :=
  [.pruned false,.prunes p (.lists ["x"]),.prunes p (.readsMeta true),.prunes p (.readsStatus true),
    .prunes p (.probes false)]

/-- Two prunes find the session finished; one removes it, "x" is launched again, and the other
removes the new session. -/
def relaunchedRun : List PruneEvent :=
  launched 0 ++ [.finishes 0 false,.cleansUp 0,.acts 0 .ends] ++ classifiedX 0 ++ classifiedX 1 ++
    [.prunes 1 .removesDir,.prunes 1 (.removesSocket false),.prunes 1 (.removesLegacy true)] ++
    launched 1 ++ [.prunes 0 .removesDir,.prunes 0 (.removesSocket false)]

theorem relaunched_session_removed : ∃ w,Transition.exec step start relaunchedRun = some w ∧
    w.ownerAlive 1 = true ∧ w.finished = [0] ∧ w.dirs = [] ∧ w.harmed = [1,1] ∧ ¬w.SparesLive := by
  refine ⟨_,rfl,by decide +kernel,by decide +kernel,by decide +kernel,by decide +kernel,?_⟩
  unfold SparesLive
  decide +kernel

end PruneWorld
end Babysit
