import Babysit.Lib.Transition

/-! Any number of `run` invocations on one state root: `make_id` looks whether a session
directory exists, and the worker that its parent spawns creates it, later and in a process
of its own. Session directories are not removed. -/
namespace Babysit

/-- The first complaint of `validate_id`. -/
def validateId (id : String) : Option String :=
  if id.isEmpty then some "session id must not be empty"
  else if id.utf8ByteSize > 64 then some "session id too long (max 64 characters)"
  else if id = "." ∨ id = ".." then some "`.` and `..` are not valid session ids"
  else if ¬id.toList.all (fun c => c.isAlphanum || c = '-' || c = '_' || c = '.') then
    some "session id may only contain ASCII letters, digits, `-`, `_`, `.`"
  else none

/-- FNV-1a. -/
def stableHash (bytes : List UInt8) : UInt64 :=
  bytes.foldl (fun hash byte => (hash ^^^ byte.toUInt64) * 0x100000001b3) 0xcbf29ce484222325

/-- The name of a session's control socket. -/
def socketName (id : String) : UInt64 := stableHash id.toUTF8.data.toList

/-- The files of a session. -/
inductive SessionFile
  | metaJson
  | status
  | log
  | controlSocket
  | legacySocket
  deriving DecidableEq, Repr

/-- A file is in the session's directory, or it is its control socket. -/
inductive SessionPath
  | inDir (id : String) (file : SessionFile)
  | socket (hash : UInt64)
  deriving DecidableEq, Repr

def SessionFile.path (id : String) : SessionFile → SessionPath
  | .controlSocket => .socket (socketName id)
  | file => .inDir id file

/-- How far `serve_worker` is with its session. -/
inductive WorkerStage
  | spawned
  | created
  | described
  | starting
  | logging
  | running
  | serving
  deriving DecidableEq, Repr

namespace WorkerStage

/-- The files a worker writes next, once it has its directory. -/
def setUp : WorkerStage → Option (List SessionFile × WorkerStage)
  | .created => some ([.metaJson],.described)
  | .described => some ([.status],.starting)
  | .starting => some ([.log],.logging)
  | .logging => some ([.status],.running)
  | .running => some ([.controlSocket,.legacySocket],.serving)
  | .spawned | .serving => none

/-- The files a worker has written, and writes or removes again at any time. -/
def files : WorkerStage → List SessionFile
  | .spawned | .created | .described => []
  | .starting => [.status]
  | .logging | .running => [.status,.log]
  | .serving => [.status,.log,.controlSocket,.legacySocket]

end WorkerStage

/-- Where an invocation is: `checking` counts the attempts of `new_unique_id`. -/
inductive RunPhase
  | checking (attempts : ℕ)
  | refused (error : String)
  | chosen (id : String)
  | worker (id : String) (stage : WorkerStage)
  | ended (id : String) (stage : WorkerStage)
  deriving DecidableEq, Repr

structure Invocation where
  requested : Option String
  phase : RunPhase
  deriving DecidableEq, Repr

/-- One look of `make_id`: `newId` is what `new_id` returns, `isThere` what `try_exists`
returns, if it can tell. -/
def makeId (requested : Option String) (attempts : ℕ) (newId : String)
    (isThere : String → Option Bool) : RunPhase :=
  match requested with
  | some id =>
    match validateId id with
    | some error => .refused error
    | none =>
      if (isThere id).getD false then
        .refused ("session `" ++ id ++ "` already exists; pick another --id or run `babysit prune`")
      else .chosen id
  | none =>
    if attempts < 10000 then
      if ¬(isThere newId).getD false then .chosen newId else .checking (attempts+1)
    else .chosen newId

/-- What an invocation does next. -/
inductive RunAction
  | checks (newId : String) (readable : Bool)
  | spawns
  | spawnFails
  | creates
  | setsUp
  | writes (file : SessionFile)
  | ends

namespace Invocation

/-- What `try_exists` tells of a session directory. -/
def tryExists (dirs : List String) (readable : Bool) (id : String) : Option Bool :=
  if readable then some (decide (id ∈ dirs)) else none

/-- The id that `make_id` settles on at this look. -/
def chooses (inv : Invocation) (dirs : List String) (newId : String) (readable : Bool) :
    Option String :=
  match inv.phase with
  | .checking attempts =>
    match makeId inv.requested attempts newId (tryExists dirs readable) with
    | .chosen id => some id
    | _ => none
  | _ => none

/-- An action, with the directories it creates and the files it writes. -/
def act (inv : Invocation) (dirs : List String) : RunAction →
    Option (Invocation × List String × List SessionPath)
  | .checks newId readable =>
    match inv.phase with
    | .checking attempts =>
      some ({ inv with phase := makeId inv.requested attempts newId (tryExists dirs readable) },
        [],[])
    | _ => none
  | .spawns =>
    match inv.phase with
    | .chosen id => some ({ inv with phase := .worker id .spawned },[],[])
    | _ => none
  | .spawnFails =>
    match inv.phase with
    | .chosen _ =>
      some ({ inv with phase := .refused "spawning detached babysit worker" },[],[])
    | _ => none
  | .creates =>
    match inv.phase with
    | .worker id .spawned => some ({ inv with phase := .worker id .created },[id],[])
    | _ => none
  | .setsUp =>
    match inv.phase with
    | .worker id stage => stage.setUp.map fun (files,next) =>
      ({ inv with phase := .worker id next },[],files.map (SessionFile.path id))
    | _ => none
  | .writes file =>
    match inv.phase with
    | .worker id stage => if file ∈ stage.files then some (inv,[],[file.path id]) else none
    | _ => none
  | .ends =>
    match inv.phase with
    | .worker id stage => some ({ inv with phase := .ended id stage },[],[])
    | _ => none

/-- The id of a live worker. -/
def live (inv : Invocation) : Option String :=
  match inv.phase with
  | .worker id _ => some id
  | _ => none

/-- The id of an invocation that has chosen it and not yet created its directory. -/
def underWay (inv : Invocation) : Option String :=
  match inv.phase with
  | .chosen id | .worker id .spawned => some id
  | _ => none

/-- The id of a session whose directory the invocation's worker has created. -/
def owned (inv : Invocation) : Option String :=
  match inv.phase with
  | .worker _ .spawned | .ended _ .spawned => none
  | .worker id _ | .ended id _ => some id
  | _ => none

/-- The id the invocation stands for. -/
def claimed (inv : Invocation) : Option String := inv.underWay.or inv.owned

end Invocation

/-- `writes` is a ghost: which path has been written by which invocation's worker. -/
structure RootWorld where
  runs : List Invocation
  dirs : List String
  writes : List (SessionPath × ℕ)

inductive RootEvent
  | invoked (requested : Option String)
  | acts (i : ℕ) (a : RunAction)

namespace RootWorld

def start : RootWorld := ⟨[],[],[]⟩

def step (w : RootWorld) : RootEvent → Option RootWorld
  | .invoked requested => some { w with runs := w.runs ++ [⟨requested,.checking 0⟩] }
  | .acts i a => do
    let inv ← w.runs[i]?
    let (inv',made,written) ← inv.act w.dirs a
    some ⟨w.runs.set i inv',w.dirs ++ made,w.writes ++ written.map (·,i)⟩

/-- Live workers have different ids, and no path is written by two of the workers there
have been. -/
def Disjoint (w : RootWorld) : Prop :=
  (∀ (i j : ℕ) (a b : Invocation) (id : String), w.runs[i]? = some a → w.runs[j]? = some b →
    a.live = some id → b.live = some id → i = j) ∧
  ∀ p i j, (p,i) ∈ w.writes → (p,j) ∈ w.writes → i = j

/-- An id that `make_id` settles on is free: it has no directory, no other invocation is under
way with it, and no other session's socket has its name. -/
def ChoosesFree (w : RootWorld) : RootEvent → Prop
  | .acts i (.checks newId readable) =>
    ∀ inv ∈ w.runs[i]?,∀ id ∈ inv.chooses w.dirs newId readable,
      id ∉ w.dirs ∧ ∀ other ∈ w.runs,other.underWay ≠ some id ∧
        ∀ id' ∈ other.claimed,id' ≠ id → socketName id' ≠ socketName id
  | _ => True

end RootWorld

namespace SessionFile

/-- Sessions that share a path share the name of their sockets. -/
theorem socketName_of_path {id id' : String} {file file' : SessionFile}
    (h : file.path id = file'.path id') : socketName id = socketName id' := by
  cases file <;> cases file' <;> simp [path] at h <;> first | exact h | rw [h]

example : path "a" .controlSocket = .socket 0xaf63dc4c8601ec8c := by decide +kernel

end SessionFile

theorem makeId_cases (requested : Option String) (attempts : ℕ) (newId : String)
    (isThere : String → Option Bool) :
    (∃ id, makeId requested attempts newId isThere = .chosen id) ∨
      (∃ error, makeId requested attempts newId isThere = .refused error) ∨
      ∃ n, makeId requested attempts newId isThere = .checking n := by
  unfold makeId
  split
  · split
    · exact .inr (.inl ⟨_,rfl⟩)
    · split_ifs
      · exact .inr (.inl ⟨_,rfl⟩)
      · exact .inl ⟨_,rfl⟩
  · split_ifs
    · exact .inr (.inr ⟨_,rfl⟩)
    · exact .inl ⟨_,rfl⟩
    · exact .inl ⟨_,rfl⟩

namespace Invocation
variable {inv inv' : Invocation} {dirs made : List String} {written : List SessionPath}
  {a : RunAction}

theorem claimed_of_live {id : String} (h : inv.live = some id) : inv.claimed = some id := by
  unfold live at h
  split at h
  · obtain rfl := Option.some.inj h
    rename_i stage hphase
    cases stage <;> simp [claimed,underWay,owned,hphase]
  · cases h

theorem claimed_of_owned {id : String} (h : inv.owned = some id) : inv.claimed = some id := by
  have hunder : inv.underWay = none := by
    unfold owned at h
    unfold underWay
    cases hphase : inv.phase with
    | worker id stage =>
      rw [hphase] at h
      cases stage <;> first | rfl | cases h
    | chosen id =>
      rw [hphase] at h
      cases h
    | checking _ | refused _ | ended _ _ => rfl
  rw [claimed,hunder,h]
  rfl

/-- Only `make_id` gives an invocation a new id; a directory that is claimed is made by then,
and a worker writes files of its own session. -/
theorem act_spec (h : inv.act dirs a = some (inv',made,written)) :
    ((∃ newId readable id, a = .checks newId readable ∧
        inv.chooses dirs newId readable = some id ∧ inv'.claimed = some id) ∨
      ∀ id, inv'.claimed = some id → inv.claimed = some id) ∧
    (∀ id, inv'.owned = some id → inv.owned = some id ∨ id ∈ made) ∧
    (∀ id, inv.owned = some id → inv'.owned = some id) ∧
    ∀ p ∈ written,∃ id file, inv'.owned = some id ∧ p = SessionFile.path id file := by
  unfold act at h
  split at h
  case h_1 newId readable =>
    split at h <;> cases h
    rename_i attempts hphase
    rcases makeId_cases inv.requested attempts newId (tryExists dirs readable) with
      ⟨id,hid⟩ | ⟨error,hid⟩ | ⟨n,hid⟩
    · refine ⟨.inl ⟨newId,readable,id,rfl,?_,?_⟩,by simp [owned,hid],by simp [owned,hphase],by simp⟩
      · simp [chooses,hphase,hid]
      · simp [claimed,underWay,hid]
    · exact ⟨.inr (by simp [claimed,underWay,owned,hid]),by simp [owned,hid],
        by simp [owned,hphase],by simp⟩
    · exact ⟨.inr (by simp [claimed,underWay,owned,hid]),by simp [owned,hid],
        by simp [owned,hphase],by simp⟩
  case h_2 | h_3 | h_4 =>
    split at h <;> cases h
    rename_i hphase
    simp [claimed,underWay,owned,hphase]
  case h_5 =>
    split at h
    case h_2 => cases h
    rename_i id stage hphase
    obtain ⟨⟨files,next⟩,hset,hnext⟩ := Option.map_eq_some_iff.mp h
    cases hnext
    cases stage <;> cases hset <;> simp [claimed,underWay,owned,hphase]
  case h_6 file =>
    split at h
    case h_2 => cases h
    rename_i id stage hphase
    split_ifs at h with hfile
    cases h
    refine ⟨.inr fun _ hid => hid,fun _ => .inl,fun _ hid => hid,?_⟩
    intro p hp
    refine ⟨id,file,?_,List.mem_singleton.mp hp⟩
    cases stage with
    | spawned => cases hfile
    | _ => simp [owned,hphase]
  case h_7 =>
    split at h <;> cases h
    rename_i id stage hphase
    cases stage <;> simp [claimed,underWay,owned,hphase]

end Invocation

namespace RootWorld
variable {w w' : RootWorld}

/-- No two invocations claim ids whose files or sockets coincide; an owned session has its
directory, and whoever has written a path owns a session it is a path of. -/
structure Good (w : RootWorld) : Prop where
  unique : ∀ (i j : ℕ) (a b : Invocation) (x y : String), w.runs[i]? = some a →
    w.runs[j]? = some b → a.claimed = some x → b.claimed = some y → socketName x = socketName y →
    i = j
  dirs : ∀ a ∈ w.runs,∀ id, a.owned = some id → id ∈ w.dirs
  writes : ∀ p i, (p,i) ∈ w.writes →
    ∃ a id file, w.runs[i]? = some a ∧ a.owned = some id ∧ p = SessionFile.path id file

theorem good_start : start.Good := by
  constructor <;> simp [start]

theorem Good.disjoint (h : w.Good) : w.Disjoint := by
  constructor
  · intro i j a b id ha hb hlivea hliveb
    exact h.unique i j a b id id ha hb (Invocation.claimed_of_live hlivea)
      (Invocation.claimed_of_live hliveb) rfl
  · intro p i j hi hj
    obtain ⟨a,x,file,ha,hx,rfl⟩ := h.writes p i hi
    obtain ⟨b,y,file',hb,hy,hpath⟩ := h.writes _ j hj
    exact h.unique i j a b x y ha hb (Invocation.claimed_of_owned hx)
      (Invocation.claimed_of_owned hy) (SessionFile.socketName_of_path hpath)

theorem Good.invoked (h : w.Good) (requested : Option String) :
    Good { w with runs := w.runs ++ [⟨requested,.checking 0⟩] } := by
  have hold : ∀ (i : ℕ) (a : Invocation) (x : String),
      (w.runs ++ [⟨requested,.checking 0⟩])[i]? = some a → a.claimed = some x →
      w.runs[i]? = some a := by
    intro i a x ha hx
    rw [List.getElem?_append] at ha
    split_ifs at ha
    · exact ha
    · have hmem := List.mem_of_getElem? ha
      rw [List.mem_singleton.mp hmem] at hx
      cases hx
  refine ⟨?_,?_,?_⟩
  · intro i j a b x y ha hb hx hy
    exact h.unique i j a b x y (hold i a x ha hx) (hold j b y hb hy) hx hy
  · intro a ha id hid
    rcases List.mem_append.mp ha with ha | ha
    · exact h.dirs a ha id hid
    · rw [List.mem_singleton.mp ha] at hid
      cases hid
  · intro p i hp
    obtain ⟨a,id,file,ha,hid,hpath⟩ := h.writes p i hp
    have hlt := (List.getElem?_eq_some_iff.mp ha).1
    exact ⟨a,id,file,(List.getElem?_append_left hlt).trans ha,hid,hpath⟩

/-- A free choice collides with nobody. -/
theorem Good.chosen (h : w.Good) {i : ℕ} {a : RunAction} {inv inv' : Invocation}
    {made : List String} {written : List SessionPath} (hc : w.ChoosesFree (.acts i a))
    (hinv : w.runs[i]? = some inv) (hact : inv.act w.dirs a = some (inv',made,written))
    {j : ℕ} {b : Invocation} {x y : String} (hb : w.runs[j]? = some b) (hx : inv'.claimed = some x)
    (hy : b.claimed = some y) (hname : socketName x = socketName y) : i = j := by
  rcases (Invocation.act_spec hact).1 with ⟨newId,readable,id,rfl,hid,hclaimed⟩ | hkeep
  · obtain ⟨hfree,hothers⟩ := hc inv hinv id hid
    obtain rfl : id = x := Option.some.inj (hclaimed.symm.trans hx)
    have hmem := List.mem_of_getElem? hb
    obtain ⟨hunder,hnames⟩ := hothers b hmem
    by_cases hsame : y = id
    · subst hsame
      cases hbunder : b.underWay with
      | none =>
        rw [Invocation.claimed,hbunder,Option.none_or] at hy
        exact absurd (h.dirs b hmem y hy) hfree
      | some z =>
        rw [Invocation.claimed,hbunder,Option.some_or] at hy
        exact absurd (hbunder.trans hy) hunder
    · exact absurd hname.symm (hnames y hy hsame)
  · exact h.unique i j inv b x y hinv hb (hkeep x hx) hy hname

theorem good_step (w : RootWorld) (e : RootEvent) (w' : RootWorld) (hstep : w.step e = some w')
    (hc : w.ChoosesFree e) (h : w.Good) : w'.Good := by
  cases e with
  | invoked requested =>
    obtain rfl := Option.some.inj hstep
    exact h.invoked requested
  | acts i a =>
    obtain ⟨inv,hinv,hstep⟩ := Option.bind_eq_some_iff.mp hstep
    obtain ⟨⟨inv',made,written⟩,hact,hstep⟩ := Option.bind_eq_some_iff.mp hstep
    obtain rfl := Option.some.inj hstep
    obtain ⟨-,howned,hkeeps,hwritten⟩ := Invocation.act_spec hact
    have hlt := (List.getElem?_eq_some_iff.mp hinv).1
    have hget : ∀ j, (w.runs.set i inv')[j]? = if i = j then some inv' else w.runs[j]? := by
      intro j
      rw [List.getElem?_set]
      split_ifs <;> rfl
    refine ⟨?_,?_,?_⟩
    · intro j k b c x y hb hc' hx hy hname
      rw [hget] at hb hc'
      split_ifs at hb hc' with hj hk hk
      · exact hj.symm.trans hk
      · cases hb
        exact hj.symm.trans (h.chosen hc hinv hact hc' hx hy hname)
      · cases hc'
        exact (hk.symm.trans (h.chosen hc hinv hact hb hy hx hname.symm)).symm
      · exact h.unique j k b c x y hb hc' hx hy hname
    · intro b hb id hid
      dsimp only
      rcases List.mem_or_eq_of_mem_set hb with hb | rfl
      · exact List.mem_append_left _ (h.dirs b hb id hid)
      · rcases howned id hid with hid | hid
        · exact List.mem_append_left _ (h.dirs inv (List.mem_of_getElem? hinv) id hid)
        · exact List.mem_append_right _ hid
    · intro p j hp
      dsimp only
      rcases List.mem_append.mp hp with hp | hp
      · obtain ⟨b,id,file,hb,hid,hpath⟩ := h.writes p j hp
        by_cases hj : i = j
        · subst hj
          obtain rfl : inv = b := Option.some.inj (hinv.symm.trans hb)
          exact ⟨inv',id,file,by rw [hget,if_pos rfl],hkeeps id hid,hpath⟩
        · exact ⟨b,id,file,by rw [hget,if_neg hj,hb],hid,hpath⟩
      · obtain ⟨q,hq,hpair⟩ := List.mem_map.mp hp
        obtain ⟨rfl,rfl⟩ := Prod.ext_iff.mp hpair
        obtain ⟨id,file,hid,hpath⟩ := hwritten q hq
        exact ⟨inv',id,file,by rw [hget,if_pos rfl],hid,hpath⟩

/-- As long as every id that is settled on is free, live workers have different ids, and no
worker ever writes a path of another's. -/
theorem always_disjoint (es : List RootEvent) (hmeets : Transition.Meets step ChoosesFree start es) :
    Transition.Always step Disjoint start es :=
  Transition.always_of_meets good_step (fun _ h => h.disjoint) hmeets good_start

instance (w : RootWorld) : (e : RootEvent) → Decidable (w.ChoosesFree e)
  | .acts i (.checks newId readable) => inferInstanceAs (Decidable
      (∀ inv ∈ w.runs[i]?,∀ id ∈ inv.chooses w.dirs newId readable,
        id ∉ w.dirs ∧ ∀ other ∈ w.runs,other.underWay ≠ some id ∧
          ∀ id' ∈ other.claimed,id' ≠ id → socketName id' ≠ socketName id))
  | .invoked _ | .acts _ .spawns | .acts _ .spawnFails | .acts _ .creates | .acts _ .setsUp
  | .acts _ (.writes _) | .acts _ .ends => .isTrue trivial

/-- A generated id that is taken is passed over. -/
def generatedRuns : List RootEvent :=
  [.invoked none,.acts 0 (.checks "3a7f" true),.acts 0 .spawns,.acts 0 .creates,.acts 0 .setsUp,
    .invoked none,.acts 1 (.checks "3a7f" true),.acts 1 (.checks "3a80" true),.acts 1 .spawns,
    .acts 1 .creates,.acts 1 .setsUp]

theorem always_disjoint_generated : Transition.Always step Disjoint start generatedRuns :=
  always_disjoint generatedRuns (by decide)

/-- Two invocations look for the same id before either worker has created its directory. -/
def overlappingRuns : List RootEvent :=
  [.invoked (some "x"),.invoked (some "x"),.acts 0 (.checks "" true),.acts 1 (.checks "" true),
    .acts 0 .spawns,.acts 1 .spawns,.acts 0 .creates,.acts 1 .creates,.acts 0 .setsUp,
    .acts 1 .setsUp]

theorem overlapping_runs_share_id : ∃ w, Transition.exec step start overlappingRuns = some w ∧
    (w.runs.map Invocation.live = [some "x",some "x"]) ∧ ¬w.Disjoint := by
  refine ⟨_,rfl,by decide,fun h => ?_⟩
  exact absurd (h.1 0 1 _ _ "x" rfl rfl rfl rfl) (by decide)

end RootWorld
end Babysit
