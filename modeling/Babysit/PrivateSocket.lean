import Babysit.Lib.Transition
import Babysit.Lib.UnixFs

/-! Workers of one user bind their control sockets while other users do what they like on the
same file system. A symbolic link, where one is followed, leads anywhere. -/
namespace Babysit

/-- The user, the directory the sockets are under (home or /tmp), and the name of the user's
own directory in it. -/
structure SocketCfg where
  uid : ℕ
  base : ℕ
  userDir : String

/-- The calls of `ensure_private_dir`. -/
inductive PrivateStage
  | creating
  | inspecting
  | securing
  deriving DecidableEq, Repr

/-- Where `serve` is: with the user's directory, with the one inside it for the state root, or
with the socket. -/
inductive ServePhase
  | ensuring (inner : Bool) (stage : PrivateStage)
  | clearing
  | binding
  | securing (socket : ℕ)
  | serving (socket : ℕ)
  | failed
  | ended
  deriving DecidableEq, Repr

/-- The listener there is, from when it is bound. -/
def ServePhase.socket : ServePhase → Option ℕ
  | .securing i | .serving i => some i
  | _ => none

/-- A worker, with the two hashes in the path of its socket. -/
structure SocketServer where
  rootHash : String
  idHash : String
  phase : ServePhase
  deriving DecidableEq, Repr

namespace SocketCfg

/-- A step of `ensure_private_dir`: an error, or the next stage, or its end. -/
def ensurePrivateDir (cfg : SocketCfg) (fs : UnixFs) (dir : ℕ) (name : String) (via mask : ℕ) :
    PrivateStage → Option (UnixFs × Option PrivateStage)
  | .creating =>
    match fs.entry dir name with
    | some _ => some (fs,some .inspecting)
    | none => do
      let fs' ← fs.call cfg.uid (.make dir name .dir (0o700 &&& mask))
      some (fs',some .inspecting)
  | .inspecting => do
    let i ← fs.entry dir name
    let x ← fs.inodes[i]?
    if x.kind = .dir ∧ x.owner = cfg.uid then some (fs,some .securing) else none
  | .securing => do
    let i ← fs.resolve dir name via
    let fs' ← fs.call cfg.uid (.chmod i 0o700)
    some (fs',none)

/-- The directory that the user's own one is in, or that one itself. -/
def holder (cfg : SocketCfg) (fs : UnixFs) (via : ℕ × ℕ × ℕ) : Bool → Option ℕ
  | false => some cfg.base
  | true => fs.resolve cfg.base cfg.userDir via.1

/-- The directory of the socket. -/
def parent (cfg : SocketCfg) (fs : UnixFs) (s : SocketServer) (via : ℕ × ℕ × ℕ) : Option ℕ := do
  let dir ← cfg.holder fs via true
  fs.resolve dir s.rootHash via.2.1

/-- `remove_file` on the path of the socket. -/
def removeFile (cfg : SocketCfg) (fs : UnixFs) (s : SocketServer) (via : ℕ × ℕ × ℕ) :
    Option UnixFs := do
  let dir ← cfg.parent fs s via
  let i ← fs.entry dir s.idHash
  let x ← fs.inodes[i]?
  if x.kind ≠ .dir then fs.call cfg.uid (.unlink dir s.idHash) else none

/-- The next call of `serve`, where `none` is an error. -/
def serve (cfg : SocketCfg) (fs : UnixFs) (s : SocketServer) (via : ℕ × ℕ × ℕ) (mask : ℕ) :
    Option (UnixFs × ServePhase) :=
  match s.phase with
  | .ensuring inner stage => do
    let dir ← cfg.holder fs via inner
    let name := if inner then s.rootHash else cfg.userDir
    let (fs',next) ← cfg.ensurePrivateDir fs dir name (if inner then via.2.1 else via.1) mask stage
    match next with
    | some stage' => some (fs',.ensuring inner stage')
    | none => some (fs',if inner then .clearing else .ensuring true .creating)
  | .clearing => some ((cfg.removeFile fs s via).getD fs,.binding)
  | .binding => do
    let dir ← cfg.parent fs s via
    let fs' ← fs.call cfg.uid (.make dir s.idHash .socket (0o777 &&& mask))
    some (fs',.securing fs.inodes.length)
  | .securing socket => do
    let dir ← cfg.parent fs s via
    let i ← fs.resolve dir s.idHash via.2.2
    let fs' ← fs.call cfg.uid (.chmod i 0o600)
    some (fs',.serving socket)
  | .serving _ | .failed | .ended => none

end SocketCfg

structure SocketWorld where
  fs : UnixFs
  servers : List SocketServer

/-- `fails` tells of a call that fails for a reason of its own, `mask` is what the umask lets
through, `via` is where symbolic links in the path lead. -/
inductive SocketEvent
  | starts (rootHash idHash : String)
  | serves (i : ℕ) (fails : Bool) (via : ℕ × ℕ × ℕ) (mask : ℕ)
  | cleans (i : ℕ) (via : ℕ × ℕ × ℕ)
  | dies (i : ℕ)
  | other (uid : ℕ) (c : FileCall)
  | connects (uid : ℕ) (dir : ℕ) (name : String)

/-- Another user, and not the superuser. -/
def SocketCfg.IsOther (cfg : SocketCfg) (uid : ℕ) : Prop := uid ≠ cfg.uid ∧ uid ≠ 0

instance (cfg : SocketCfg) (uid : ℕ) : Decidable (cfg.IsOther uid) :=
  inferInstanceAs (Decidable (_ ∧ _))

namespace SocketWorld

def step (cfg : SocketCfg) (w : SocketWorld) : SocketEvent → Option SocketWorld
  | .starts rootHash idHash =>
    some { w with servers := w.servers ++ [⟨rootHash,idHash,.ensuring false .creating⟩] }
  | .serves i fails via mask => do
    let s ← w.servers[i]?
    match if fails then none else cfg.serve w.fs s via mask with
    | some (fs,phase) => some ⟨fs,w.servers.set i { s with phase }⟩
    | none =>
      match s.phase with
      | .clearing => some { w with servers := w.servers.set i { s with phase := .binding } }
      | .serving _ | .failed | .ended => none
      | _ => some { w with servers := w.servers.set i { s with phase := .failed } }
  | .cleans i via => do
    let s ← w.servers[i]?
    match s.phase with
    | .serving _ =>
      some ⟨(cfg.removeFile w.fs s via).getD w.fs,w.servers.set i { s with phase := .ended }⟩
    | _ => none
  | .dies i => do
    let s ← w.servers[i]?
    some { w with servers := w.servers.set i { s with phase := .ended } }
  | .other uid c => do
    let fs ← w.fs.call uid c
    if cfg.IsOther uid then some { w with fs } else none
  | .connects uid dir name =>
    if cfg.IsOther uid ∧ w.fs.CanConnect uid dir name then some w else none

/-- Another user's connection leads to no worker of this one. -/
def KeptOut (w : SocketWorld) : SocketEvent → Prop
  | .connects _ dir name => ∀ s ∈ w.servers, ∀ i ∈ s.phase.socket, w.fs.entry dir name ≠ some i
  | _ => True

/-- A worker that listens does so in its directory, inside the user's, and both are closed to
others and stay where they are. -/
def Private (cfg : SocketCfg) (w : SocketWorld) : Prop :=
  ∀ s ∈ w.servers, ∀ i ∈ s.phase.socket, w.fs.Guarded cfg.uid i ∧ ∃ user parent,
    w.fs.Pinned cfg.uid cfg.base cfg.userDir user ∧ w.fs.Sealed cfg.uid user ∧
      w.fs.Pinned cfg.uid user s.rootHash parent ∧ w.fs.Sealed cfg.uid parent

end SocketWorld

namespace SocketCfg
variable {cfg : SocketCfg} {fs fs' : UnixFs} {s : SocketServer} {via : ℕ × ℕ × ℕ} {mask : ℕ}
  {uid : ℕ} {c : FileCall}

/-- The user's directory is where it was found, and closed to others. -/
def UserDir (cfg : SocketCfg) (fs : UnixFs) (user : ℕ) : Prop :=
  fs.Pinned cfg.uid cfg.base cfg.userDir user ∧ fs.Sealed cfg.uid user

/-- Both directories are. -/
def InPlace (cfg : SocketCfg) (fs : UnixFs) (rootHash : String) : Prop :=
  ∃ user parent, cfg.UserDir fs user ∧ fs.Pinned cfg.uid user rootHash parent ∧
    fs.Sealed cfg.uid parent

/-- What a worker has seen to, by its phase. -/
def Reached (cfg : SocketCfg) (fs : UnixFs) (s : SocketServer) : Prop :=
  match s.phase with
  | .ensuring false .securing => ∃ user, fs.Pinned cfg.uid cfg.base cfg.userDir user
  | .ensuring true .creating | .ensuring true .inspecting => ∃ user, cfg.UserDir fs user
  | .ensuring true .securing =>
    ∃ user parent, cfg.UserDir fs user ∧ fs.Pinned cfg.uid user s.rootHash parent
  | .clearing | .binding => cfg.InPlace fs s.rootHash
  | .securing i | .serving i => cfg.InPlace fs s.rootHash ∧ fs.Guarded cfg.uid i
  | .ensuring false _ | .failed | .ended => True

theorem UserDir.call {user : ℕ} (h : cfg.UserDir fs user) (hkeeps : fs.Keeps cfg.uid cfg.base)
    (hcall : fs.call uid c = some fs') (hsuper : uid = 0 → uid = cfg.uid)
    (hallowed : fs.Allowed cfg.uid uid c) : cfg.UserDir fs' user :=
  ⟨h.1.call hkeeps hcall hsuper hallowed,h.2.call hcall hallowed⟩

theorem InPlace.call {rootHash : String} (h : cfg.InPlace fs rootHash)
    (hkeeps : fs.Keeps cfg.uid cfg.base) (hcall : fs.call uid c = some fs')
    (hsuper : uid = 0 → uid = cfg.uid) (hallowed : fs.Allowed cfg.uid uid c) :
    cfg.InPlace fs' rootHash := by
  obtain ⟨user,parent,huser,hparent,hsealed⟩ := h
  exact ⟨user,parent,huser.call hkeeps hcall hsuper hallowed,
    hparent.call huser.2.keeps hcall hsuper hallowed,hsealed.call hcall hallowed⟩

/-- No call of another user, and no tame one, undoes what a worker has seen to. -/
theorem Reached.call (h : cfg.Reached fs s) (hkeeps : fs.Keeps cfg.uid cfg.base)
    (hcall : fs.call uid c = some fs') (hsuper : uid = 0 → uid = cfg.uid)
    (hallowed : fs.Allowed cfg.uid uid c) : cfg.Reached fs' s := by
  unfold Reached at h ⊢
  split at h
  · obtain ⟨user,hpinned⟩ := h
    exact ⟨user,hpinned.call hkeeps hcall hsuper hallowed⟩
  · obtain ⟨user,huser⟩ := h
    exact ⟨user,huser.call hkeeps hcall hsuper hallowed⟩
  · obtain ⟨user,huser⟩ := h
    exact ⟨user,huser.call hkeeps hcall hsuper hallowed⟩
  · obtain ⟨user,parent,huser,hparent⟩ := h
    exact ⟨user,parent,huser.call hkeeps hcall hsuper hallowed,
      hparent.call huser.2.keeps hcall hsuper hallowed⟩
  · exact h.call hkeeps hcall hsuper hallowed
  · exact h.call hkeeps hcall hsuper hallowed
  · exact ⟨h.1.call hkeeps hcall hsuper hallowed,h.2.call hcall hallowed⟩
  · exact ⟨h.1.call hkeeps hcall hsuper hallowed,h.2.call hcall hallowed⟩
  all_goals trivial

/-- At most one call, and that a tame one. -/
def Own (cfg : SocketCfg) (fs fs' : UnixFs) : Prop :=
  fs' = fs ∨ ∃ c, fs.Tame c ∧ fs.call cfg.uid c = some fs'

theorem own_of_call (hcall : fs.call cfg.uid c = some fs') (htame : fs.Tame c) : cfg.Own fs fs' :=
  .inr ⟨c,htame,hcall⟩

theorem Own.reached (hown : cfg.Own fs fs') (hkeeps : fs.Keeps cfg.uid cfg.base)
    (h : cfg.Reached fs s) : cfg.Reached fs' s := by
  rcases hown with rfl | ⟨c,htame,hcall⟩
  · exact h
  · exact h.call hkeeps hcall (fun _ => rfl) fun _ => htame

theorem Own.keeps (hown : cfg.Own fs fs') (hkeeps : fs.Keeps cfg.uid cfg.base) :
    fs'.Keeps cfg.uid cfg.base := by
  rcases hown with rfl | ⟨c,htame,hcall⟩
  · exact hkeeps
  · exact hkeeps.call hcall (fun _ => rfl) fun _ => htame

theorem Own.valid (hown : cfg.Own fs fs') (hvalid : fs.Valid) : fs'.Valid := by
  rcases hown with rfl | ⟨c,-,hcall⟩
  · exact hvalid
  · exact hvalid.call hcall

theorem Own.userDir {user : ℕ} (hown : cfg.Own fs fs') (hkeeps : fs.Keeps cfg.uid cfg.base)
    (h : cfg.UserDir fs user) : cfg.UserDir fs' user := by
  rcases hown with rfl | ⟨c,htame,hcall⟩
  · exact h
  · exact h.call hkeeps hcall (fun _ => rfl) fun _ => htame

theorem Own.pinned {dir i : ℕ} {name : String} (hown : cfg.Own fs fs')
    (hkeeps : fs.Keeps cfg.uid dir) (h : fs.Pinned cfg.uid dir name i) :
    fs'.Pinned cfg.uid dir name i := by
  rcases hown with rfl | ⟨c,htame,hcall⟩
  · exact h
  · exact h.call hkeeps hcall (fun _ => rfl) fun _ => htame

theorem Own.inPlace {rootHash : String} (hown : cfg.Own fs fs')
    (hkeeps : fs.Keeps cfg.uid cfg.base) (h : cfg.InPlace fs rootHash) :
    cfg.InPlace fs' rootHash := by
  rcases hown with rfl | ⟨c,htame,hcall⟩
  · exact h
  · exact h.call hkeeps hcall (fun _ => rfl) fun _ => htame

/-- A stage of `ensure_private_dir`, by what it finds out or brings about. -/
theorem ensurePrivateDir_spec {dir level : ℕ} {name : String} {stage : PrivateStage}
    {next : Option PrivateStage}
    (h : cfg.ensurePrivateDir fs dir name level mask stage = some (fs',next)) :
    cfg.Own fs fs' ∧
      ((stage = .creating ∧ next = some .inspecting) ∨
        (stage = .inspecting ∧ next = some .securing ∧ ∃ i, fs'.Pinned cfg.uid dir name i) ∨
        (stage = .securing ∧ next = none ∧
          ∀ i, fs.Pinned cfg.uid dir name i → fs'.Sealed cfg.uid i)) := by
  cases stage with
  | creating =>
    simp only [ensurePrivateDir] at h
    split at h
    · cases h
      exact ⟨.inl rfl,.inl ⟨rfl,rfl⟩⟩
    · obtain ⟨made,hcall,h⟩ := Option.bind_eq_some_iff.mp h
      cases h
      exact ⟨own_of_call hcall trivial,.inl ⟨rfl,rfl⟩⟩
  | inspecting =>
    obtain ⟨i,hentry,h⟩ := Option.bind_eq_some_iff.mp h
    obtain ⟨x,hx,h⟩ := Option.bind_eq_some_iff.mp h
    obtain ⟨⟨hdir,howner⟩,h⟩ := Option.ite_none_right_eq_some.mp h
    cases h
    exact ⟨.inl rfl,.inr (.inl ⟨rfl,rfl,i,hentry,x,hx,hdir,howner⟩)⟩
  | securing =>
    obtain ⟨i,hresolve,h⟩ := Option.bind_eq_some_iff.mp h
    obtain ⟨closed,hcall,h⟩ := Option.bind_eq_some_iff.mp h
    cases h
    have hprivate : UnixFs.IsPrivate 0o700 := by decide
    refine ⟨own_of_call hcall hprivate,.inr (.inr ⟨rfl,rfl,fun j hpinned => ?_⟩)⟩
    obtain rfl := Option.some.inj ((hpinned.resolve level).symm.trans hresolve)
    exact hpinned.sealed hprivate hcall

theorem removeFile_own (cfg : SocketCfg) (fs : UnixFs) (s : SocketServer) (via : ℕ × ℕ × ℕ) :
    cfg.Own fs ((cfg.removeFile fs s via).getD fs) := by
  cases hremove : cfg.removeFile fs s via with
  | none => exact .inl rfl
  | some fs' =>
    obtain ⟨dir,-,h⟩ := Option.bind_eq_some_iff.mp hremove
    obtain ⟨i,hentry,h⟩ := Option.bind_eq_some_iff.mp h
    obtain ⟨x,hx,h⟩ := Option.bind_eq_some_iff.mp h
    obtain ⟨hkind,hcall⟩ := Option.ite_none_right_eq_some.mp h
    refine own_of_call hcall fun j hj y hy => ?_
    obtain rfl := Option.some.inj (hentry.symm.trans hj)
    obtain rfl := Option.some.inj (hx.symm.trans hy)
    exact hkind

/-- In place, the path of the socket leads to its directory. -/
theorem InPlace.parent {dir : ℕ} (h : cfg.InPlace fs s.rootHash)
    (hdir : cfg.parent fs s via = some dir) : fs.Sealed cfg.uid dir := by
  obtain ⟨user,parent,⟨huser,-⟩,hparent,hsealed⟩ := h
  obtain ⟨d,hd,hdir⟩ := Option.bind_eq_some_iff.mp hdir
  obtain rfl := Option.some.inj ((huser.resolve via.1).symm.trans hd)
  obtain rfl := Option.some.inj ((hparent.resolve via.2.1).symm.trans hdir)
  exact hsealed

/-- A step of `serve` keeps what the worker has seen to and sees to the next. -/
theorem serve_reached (hkeeps : fs.Keeps cfg.uid cfg.base) (hvalid : fs.Valid)
    (h : cfg.Reached fs s) {phase : ServePhase}
    (hserve : cfg.serve fs s via mask = some (fs',phase)) :
    cfg.Own fs fs' ∧ cfg.Reached fs' { s with phase } := by
  obtain ⟨rootHash,idHash,old⟩ := s
  cases old with
  | ensuring inner stage =>
    obtain ⟨dir,hdir,hserve⟩ := Option.bind_eq_some_iff.mp hserve
    obtain ⟨⟨made,next⟩,hensure,hserve⟩ := Option.bind_eq_some_iff.mp hserve
    obtain ⟨hown,hstage⟩ := ensurePrivateDir_spec hensure
    cases inner with
    | false =>
      obtain rfl := Option.some.inj hdir
      rcases hstage with ⟨rfl,rfl⟩ | ⟨rfl,rfl,user,hpinned⟩ | ⟨rfl,rfl,hsealed⟩ <;> cases hserve
      · exact ⟨hown,trivial⟩
      · exact ⟨hown,user,hpinned⟩
      · obtain ⟨user,hpinned⟩ := h
        exact ⟨hown,user,hown.pinned hkeeps hpinned,hsealed user hpinned⟩
    | true =>
      rcases hstage with ⟨rfl,rfl⟩ | ⟨rfl,rfl,parent,hpinned⟩ | ⟨rfl,rfl,hsealed⟩ <;> cases hserve
      · obtain ⟨user,huser⟩ := h
        exact ⟨hown,user,hown.userDir hkeeps huser⟩
      · obtain ⟨user,huser⟩ := h
        obtain rfl := Option.some.inj ((huser.1.resolve via.1).symm.trans hdir)
        exact ⟨hown,user,parent,hown.userDir hkeeps huser,hpinned⟩
      · obtain ⟨user,parent,huser,hpinned⟩ := h
        obtain rfl := Option.some.inj ((huser.1.resolve via.1).symm.trans hdir)
        exact ⟨hown,user,parent,hown.userDir hkeeps huser,
          hown.pinned huser.2.keeps hpinned,hsealed parent hpinned⟩
  | clearing =>
    cases hserve
    have hown := removeFile_own cfg fs ⟨rootHash,idHash,.clearing⟩ via
    exact ⟨hown,hown.inPlace hkeeps h⟩
  | binding =>
    obtain ⟨dir,hdir,hserve⟩ := Option.bind_eq_some_iff.mp hserve
    obtain ⟨bound,hcall,hserve⟩ := Option.bind_eq_some_iff.mp hserve
    cases hserve
    have hown : cfg.Own fs fs' := own_of_call hcall trivial
    exact ⟨hown,hown.inPlace hkeeps h,(InPlace.parent h hdir).guarded hvalid hcall⟩
  | securing socket =>
    obtain ⟨dir,-,hserve⟩ := Option.bind_eq_some_iff.mp hserve
    obtain ⟨i,-,hserve⟩ := Option.bind_eq_some_iff.mp hserve
    obtain ⟨closed,hcall,hserve⟩ := Option.bind_eq_some_iff.mp hserve
    cases hserve
    have hprivate : UnixFs.IsPrivate 0o600 := by decide
    exact ⟨own_of_call hcall hprivate,Reached.call h hkeeps hcall (fun _ => rfl) fun _ => hprivate⟩
  | serving socket => cases hserve
  | failed => cases hserve
  | ended => cases hserve

end SocketCfg

namespace SocketWorld
variable {cfg : SocketCfg} {w w' : SocketWorld} {e : SocketEvent} {fs : UnixFs} {s : SocketServer}
  {i : ℕ}

structure Kept (cfg : SocketCfg) (w : SocketWorld) : Prop where
  keeps : w.fs.Keeps cfg.uid cfg.base
  valid : w.fs.Valid
  reached : ∀ s ∈ w.servers, cfg.Reached w.fs s

/-- What the phase of a listening worker says. -/
theorem Kept.listening (h : w.Kept cfg) (hs : s ∈ w.servers) (hi : s.phase.socket = some i) :
    cfg.InPlace w.fs s.rootHash ∧ w.fs.Guarded cfg.uid i := by
  have hreached := h.reached s hs
  obtain ⟨rootHash,idHash,phase⟩ := s
  cases phase <;> cases hi <;> exact hreached

theorem Kept.isPrivate (h : w.Kept cfg) : w.Private cfg := by
  intro s hs i hi
  obtain ⟨⟨user,parent,huser,hparent,hsealed⟩,hguarded⟩ := h.listening hs hi
  exact ⟨hguarded,user,parent,huser.1,huser.2,hparent,hsealed⟩

/-- A worker of the user takes a step. -/
theorem Kept.own (h : w.Kept cfg) (hown : cfg.Own w.fs fs) {s' : SocketServer}
    (hreached : cfg.Reached fs s') : Kept cfg ⟨fs,w.servers.set i s'⟩ := by
  refine ⟨hown.keeps h.keeps,hown.valid h.valid,fun s hs => ?_⟩
  rcases List.mem_or_eq_of_mem_set hs with hs | rfl
  · exact hown.reached h.keeps (h.reached s hs)
  · exact hreached

/-- In every step the invariant is kept, and another user's connection leads elsewhere. -/
theorem step_kept (hstep : w.step cfg e = some w') (h : w.Kept cfg) :
    w.KeptOut e ∧ w'.Kept cfg := by
  cases e with
  | starts rootHash idHash =>
    obtain rfl := Option.some.inj hstep
    refine ⟨trivial,h.keeps,h.valid,fun s hs => ?_⟩
    rcases List.mem_append.mp hs with hs | hs
    · exact h.reached s hs
    · rw [List.mem_singleton.mp hs]
      trivial
  | serves i fails via mask =>
    obtain ⟨s,hs,hstep⟩ := Option.bind_eq_some_iff.mp hstep
    have hreached := h.reached s (List.mem_of_getElem? hs)
    refine ⟨trivial,?_⟩
    split at hstep
    · next fs phase hserve =>
      obtain rfl := Option.some.inj hstep
      cases fails with
      | true => cases hserve
      | false =>
        obtain ⟨hown,hnext⟩ := SocketCfg.serve_reached h.keeps h.valid hreached hserve
        exact h.own hown hnext
    · split at hstep
      · next hphase =>
        obtain rfl := Option.some.inj hstep
        rw [SocketCfg.Reached,hphase] at hreached
        exact h.own (.inl rfl) hreached
      · cases hstep
      · cases hstep
      · cases hstep
      · obtain rfl := Option.some.inj hstep
        exact h.own (.inl rfl) trivial
  | cleans i via =>
    obtain ⟨s,hs,hstep⟩ := Option.bind_eq_some_iff.mp hstep
    split at hstep
    · obtain rfl := Option.some.inj hstep
      exact ⟨trivial,h.own (SocketCfg.removeFile_own cfg w.fs s via) trivial⟩
    · cases hstep
  | dies i =>
    obtain ⟨s,hs,hstep⟩ := Option.bind_eq_some_iff.mp hstep
    obtain rfl := Option.some.inj hstep
    exact ⟨trivial,h.own (.inl rfl) trivial⟩
  | other uid c =>
    obtain ⟨fs,hcall,hstep⟩ := Option.bind_eq_some_iff.mp hstep
    obtain ⟨⟨hother,hsuper⟩,hstep⟩ := Option.ite_none_right_eq_some.mp hstep
    obtain rfl := Option.some.inj hstep
    have hallowed : w.fs.Allowed cfg.uid uid c := fun huid => absurd huid hother
    have hzero : uid = 0 → uid = cfg.uid := fun huid => absurd huid hsuper
    exact ⟨trivial,h.keeps.call hcall hzero hallowed,h.valid.call hcall,
      fun s hs => (h.reached s hs).call h.keeps hcall hzero hallowed⟩
  | connects uid dir name =>
    obtain ⟨⟨hother,hconnect⟩,hstep⟩ := Option.ite_none_right_eq_some.mp hstep
    obtain rfl := Option.some.inj hstep
    exact ⟨fun s hs i hi hname => (h.listening hs hi).2.not_connect hname hother.1 hconnect,h⟩

/-- Whatever other users do before, between and after the calls of `serve`: none of them ever
connects to a control socket, and its directories stay closed to them and in place. All it takes
is that names in the directory above cannot be taken away by others. -/
theorem sockets_private (cfg : SocketCfg) (fs : UnixFs) (es : List SocketEvent)
    (hkeeps : fs.Keeps cfg.uid cfg.base) (hvalid : fs.Valid) :
    Transition.Meets (step cfg) KeptOut ⟨fs,[]⟩ es ∧
      Transition.Always (step cfg) (Private cfg) ⟨fs,[]⟩ es := by
  have hstart : Kept cfg ⟨fs,[]⟩ := ⟨hkeeps,hvalid,by simp⟩
  have hmeets : Transition.Meets (step cfg) (fun _ _ => True) ⟨fs,[]⟩ es :=
    Transition.meets_true _ es
  exact ⟨hmeets.kept (fun _ _ _ hstep _ h => step_kept hstep h) hstart,
    Transition.always_of_meets (I := Kept cfg) (fun _ _ _ hstep _ h => (step_kept hstep h).2)
      (fun _ h => h.isPrivate) hmeets hstart⟩

/-- Nothing but /tmp, which everybody may write and which is sticky. -/
def tmpOnly : UnixFs := ⟨[⟨.dir,0,0o1777⟩],[]⟩

def tmpCfg : SocketCfg := ⟨1000,0,"babysit-1000"⟩

/-- Another user makes files meanwhile and connects to a socket of its own; the umask is 0. -/
def meddledRun : List SocketEvent :=
  [.starts "aa" "bb",.other 1001 (.make 0 "x" .dir 0o777),.serves 0 false (0,0,0) 0o777,
    .serves 0 false (0,0,0) 0o777,.serves 0 false (0,0,0) 0o777,.serves 0 false (0,0,0) 0o777,
    .serves 0 false (0,0,0) 0o777,.other 1001 (.make 1 "y" .socket 0o777),
    .serves 0 false (0,0,0) 0o777,.serves 0 true (0,0,0) 0o777,.connects 1001 1 "y",
    .serves 0 false (0,0,0) 0o777,.serves 0 false (0,0,0) 0o777]

theorem sockets_private_tmp : ∃ w, Transition.exec (step tmpCfg) ⟨tmpOnly,[]⟩ meddledRun = some w ∧
    w.servers.map SocketServer.phase = [.serving 5] ∧ w.Private tmpCfg := by
  have hsome : ((Transition.exec (step tmpCfg) ⟨tmpOnly,[]⟩ meddledRun).map fun w =>
      w.servers.map SocketServer.phase) = some [.serving 5] := by decide +kernel
  obtain ⟨w,hrun,hphase⟩ := Option.map_eq_some_iff.mp hsome
  have hkeeps : tmpOnly.Keeps tmpCfg.uid tmpCfg.base := ⟨_,rfl,.inr rfl,.inl (by decide)⟩
  have hvalid : tmpOnly.Valid := by
    intro d n i hi
    cases hi
  exact ⟨w,hrun,hphase,(sockets_private tmpCfg tmpOnly meddledRun hkeeps hvalid).2.last hrun⟩

end SocketWorld
end Babysit
