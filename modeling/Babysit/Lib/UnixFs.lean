import Mathlib.Data.List.Basic
import Mathlib.Tactic.SplitIfs

/-! Directories, names and permission bits, with the calls a user may make on them. A user who
does not own a file is given what its group or the others have. Of a file's contents nothing is
said, and a symbolic link leads wherever it leads when it is followed. -/

inductive FileKind
  | dir
  | symlink
  | file
  | socket
  deriving DecidableEq, Repr

structure Inode where
  kind : FileKind
  owner : ℕ
  mode : ℕ
  deriving DecidableEq, Repr

/-- The files by number, and the names: of a directory, and the file that a name in it is for. -/
structure UnixFs where
  inodes : List Inode
  links : List ((ℕ × String) × ℕ)

namespace Inode

/-- One of the permission bits, by which of them is for the user. -/
def allows (uid : ℕ) (x : Inode) (owner group others : ℕ) : Bool :=
  if uid = x.owner then x.mode.testBit owner else x.mode.testBit group || x.mode.testBit others

def canWrite (uid : ℕ) (x : Inode) : Bool := x.allows uid 7 4 1

def canSearch (uid : ℕ) (x : Inode) : Bool := x.allows uid 6 3 0

def isSticky (x : Inode) : Bool := x.mode.testBit 9

end Inode

/-- A call by a user. -/
inductive FileCall
  | make (dir : ℕ) (name : String) (kind : FileKind) (mode : ℕ)
  | link (dir : ℕ) (name : String) (dir' : ℕ) (name' : String)
  | unlink (dir : ℕ) (name : String)
  | rename (dir : ℕ) (name : String) (dir' : ℕ) (name' : String)
  | chmod (i : ℕ) (mode : ℕ)

namespace UnixFs

def entry (fs : UnixFs) (dir : ℕ) (name : String) : Option ℕ := fs.links.lookup (dir,name)

/-- The file a name leads to; `via` is where a symbolic link leads. -/
def resolve (fs : UnixFs) (dir : ℕ) (name : String) (via : ℕ) : Option ℕ := do
  let i ← fs.entry dir name
  let x ← fs.inodes[i]?
  some (if x.kind = .symlink then via else i)

def addLink (fs : UnixFs) (dir : ℕ) (name : String) (i : ℕ) : UnixFs :=
  { fs with links := ((dir,name),i)::fs.links }

def removeLink (fs : UnixFs) (dir : ℕ) (name : String) : UnixFs :=
  { fs with links := fs.links.filter fun l => l.1 != (dir,name) }

def create (fs : UnixFs) (dir : ℕ) (name : String) (x : Inode) : UnixFs :=
  { fs with inodes := fs.inodes ++ [x] }.addLink dir name fs.inodes.length

def chmod (fs : UnixFs) (i mode : ℕ) : UnixFs :=
  { fs with inodes := fs.inodes.modify i fun x => { x with mode } }

/-- The user may change the names in the directory. -/
def CanModify (fs : UnixFs) (uid dir : ℕ) : Prop :=
  ∃ d ∈ fs.inodes[dir]?, d.kind = .dir ∧ d.canWrite uid = true ∧ d.canSearch uid = true

instance (fs : UnixFs) (uid dir : ℕ) : Decidable (fs.CanModify uid dir) :=
  inferInstanceAs (Decidable (∃ d ∈ fs.inodes[dir]?, _))

/-- The user may take this name away: in a sticky directory only as the owner of the directory or
of the file. -/
def CanRemove (fs : UnixFs) (uid dir i : ℕ) : Prop :=
  fs.CanModify uid dir ∧ ∃ d ∈ fs.inodes[dir]?, ∃ x ∈ fs.inodes[i]?,
    d.isSticky = true → uid = d.owner ∨ uid = x.owner

instance (fs : UnixFs) (uid dir i : ℕ) : Decidable (fs.CanRemove uid dir i) :=
  inferInstanceAs (Decidable (_ ∧ ∃ d ∈ fs.inodes[dir]?, ∃ x ∈ fs.inodes[i]?, _))

/-- No name is left in the directory. -/
def IsEmpty (fs : UnixFs) (i : ℕ) : Prop := ∀ l ∈ fs.links, l.1.1 ≠ i

instance (fs : UnixFs) (i : ℕ) : Decidable (fs.IsEmpty i) :=
  inferInstanceAs (Decidable (∀ l ∈ fs.links, _))

/-- The user may use the name to get at the file. -/
def CanReach (fs : UnixFs) (uid dir : ℕ) : Prop :=
  ∃ d ∈ fs.inodes[dir]?, d.kind = .dir ∧ d.canSearch uid = true

instance (fs : UnixFs) (uid dir : ℕ) : Decidable (fs.CanReach uid dir) :=
  inferInstanceAs (Decidable (∃ d ∈ fs.inodes[dir]?, _))

/-- The user may connect to a socket by this name. -/
def CanConnect (fs : UnixFs) (uid dir : ℕ) (name : String) : Prop :=
  fs.CanReach uid dir ∧ ∃ i ∈ fs.entry dir name, ∃ x ∈ fs.inodes[i]?,
    x.kind = .socket ∧ x.canWrite uid = true

instance (fs : UnixFs) (uid dir : ℕ) (name : String) : Decidable (fs.CanConnect uid dir name) :=
  inferInstanceAs (Decidable (_ ∧ ∃ i ∈ fs.entry dir name, ∃ x ∈ fs.inodes[i]?, _))

/-- What the file system lets a user do. -/
def call (fs : UnixFs) (uid : ℕ) : FileCall → Option UnixFs
  | .make dir name kind mode =>
    if fs.CanModify uid dir ∧ fs.entry dir name = none then
      some (fs.create dir name ⟨kind,uid,mode⟩)
    else none
  | .link dir name dir' name' => do
    let i ← fs.entry dir name
    let x ← fs.inodes[i]?
    if fs.CanReach uid dir ∧ x.kind ≠ .dir ∧ fs.CanModify uid dir' ∧
        fs.entry dir' name' = none then some (fs.addLink dir' name' i)
    else none
  | .unlink dir name => do
    let i ← fs.entry dir name
    let x ← fs.inodes[i]?
    if fs.CanRemove uid dir i ∧ (x.kind = .dir → fs.IsEmpty i) then some (fs.removeLink dir name)
    else none
  | .rename dir name dir' name' => do
    let i ← fs.entry dir name
    if fs.CanRemove uid dir i ∧ fs.CanModify uid dir' ∧
        ∀ i' ∈ fs.entry dir' name', fs.CanRemove uid dir' i' ∧ fs.IsEmpty i' then
      some (((fs.removeLink dir name).removeLink dir' name').addLink dir' name' i)
    else none
  | .chmod i mode => do
    let x ← fs.inodes[i]?
    if x.owner = uid then some (fs.chmod i mode) else none

variable {fs fs' : UnixFs} {uid owner dir i : ℕ} {name : String} {c : FileCall}

theorem entry_addLink (fs : UnixFs) (dir : ℕ) (name : String) (i d : ℕ) (n : String) :
    (fs.addLink dir name i).entry d n = if (d,n) = (dir,name) then some i else fs.entry d n := by
  simp only [entry,addLink,List.lookup_cons]
  by_cases h : (d,n) = (dir,name)
  · simp [h]
  · rw [if_neg h,beq_false_of_ne h]

theorem lookup_filter_ne {κ α : Type*} [BEq κ] [LawfulBEq κ] (l : List (κ × α)) (k k' : κ) :
    (l.filter fun e => e.1 != k).lookup k' = if (k' == k) = true then none else l.lookup k' := by
  induction l with
  | nil => simp
  | cons e l ih =>
    obtain ⟨key,value⟩ := e
    by_cases hkey : key = k
    · subst hkey
      rw [List.filter_cons_of_neg (by simp),ih,List.lookup_cons]
      split_ifs with h
      · rfl
      · simp [h]
    · rw [List.filter_cons_of_pos (by simp [hkey]),List.lookup_cons,List.lookup_cons,ih]
      by_cases h : k' = key
      · simp [h,hkey]
      · simp [beq_false_of_ne h]

theorem entry_removeLink (fs : UnixFs) (dir : ℕ) (name : String) (d : ℕ) (n : String) :
    (fs.removeLink dir name).entry d n = if (d,n) = (dir,name) then none else fs.entry d n := by
  simp only [entry,removeLink,lookup_filter_ne,beq_iff_eq]

theorem inodes_chmod (fs : UnixFs) (i mode j : ℕ) {x : Inode} (h : fs.inodes[j]? = some x) :
    (fs.chmod i mode).inodes[j]? = some (if i = j then { x with mode } else x) := by
  simp [chmod,List.getElem?_modify,h]

theorem inodes_create (fs : UnixFs) (dir : ℕ) (name : String) (x : Inode) {i : ℕ} {y : Inode}
    (h : fs.inodes[i]? = some y) : (fs.create dir name x).inodes[i]? = some y :=
  (List.getElem?_append_left (List.getElem?_eq_some_iff.mp h).1).trans h

/-- A file keeps its kind and its owner, and its mode too for all the others can do. -/
theorem call_inodes (h : fs.call uid c = some fs') {i : ℕ} {x : Inode}
    (hx : fs.inodes[i]? = some x) : ∃ x', fs'.inodes[i]? = some x' ∧ x'.kind = x.kind ∧
      x'.owner = x.owner ∧ (x' = x ∨ x.owner = uid ∧ ∃ mode, c = .chmod i mode ∧ x'.mode = mode) := by
  cases c with
  | make dir name kind mode =>
    obtain ⟨-,h⟩ := Option.ite_none_right_eq_some.mp h
    obtain rfl := Option.some.inj h
    exact ⟨x,fs.inodes_create dir name _ hx,rfl,rfl,.inl rfl⟩
  | link dir name dir' name' =>
    obtain ⟨j,-,h⟩ := Option.bind_eq_some_iff.mp h
    obtain ⟨y,-,h⟩ := Option.bind_eq_some_iff.mp h
    obtain ⟨-,h⟩ := Option.ite_none_right_eq_some.mp h
    obtain rfl := Option.some.inj h
    exact ⟨x,hx,rfl,rfl,.inl rfl⟩
  | unlink dir name =>
    obtain ⟨j,-,h⟩ := Option.bind_eq_some_iff.mp h
    obtain ⟨y,-,h⟩ := Option.bind_eq_some_iff.mp h
    obtain ⟨-,h⟩ := Option.ite_none_right_eq_some.mp h
    obtain rfl := Option.some.inj h
    exact ⟨x,hx,rfl,rfl,.inl rfl⟩
  | rename dir name dir' name' =>
    obtain ⟨j,-,h⟩ := Option.bind_eq_some_iff.mp h
    obtain ⟨-,h⟩ := Option.ite_none_right_eq_some.mp h
    obtain rfl := Option.some.inj h
    exact ⟨x,hx,rfl,rfl,.inl rfl⟩
  | chmod j mode =>
    obtain ⟨y,hy,h⟩ := Option.bind_eq_some_iff.mp h
    obtain ⟨howner,h⟩ := Option.ite_none_right_eq_some.mp h
    obtain rfl := Option.some.inj h
    by_cases hj : j = i
    · subst hj
      obtain rfl := Option.some.inj (hx.symm.trans hy)
      exact ⟨_,fs.inodes_chmod j mode j hx,by simp,by simp,.inr ⟨howner,mode,rfl,by simp⟩⟩
    · exact ⟨_,fs.inodes_chmod j mode i hx,by simp [hj],by simp [hj],.inl (by simp [hj])⟩

/-- A name goes only where the user may take it away. -/
theorem call_removes (h : fs.call uid c = some fs') {d i : ℕ} {n : String}
    (hi : fs.entry d n = some i) : fs'.entry d n = some i ∨ fs.CanRemove uid d i ∧
      ((∃ x ∈ fs.inodes[i]?, c = .unlink d n ∧ (x.kind = .dir → fs.IsEmpty i)) ∨
        ∃ dir name dir' name', c = .rename dir name dir' name') := by
  cases c with
  | make dir name kind mode =>
    obtain ⟨⟨-,hnone⟩,h⟩ := Option.ite_none_right_eq_some.mp h
    obtain rfl := Option.some.inj h
    left
    refine (entry_addLink _ dir name _ d n).trans ?_
    rw [if_neg ?_]
    · exact hi
    · rintro heq
      cases heq
      rw [hnone] at hi
      cases hi
  | link dir name dir' name' =>
    obtain ⟨j,-,h⟩ := Option.bind_eq_some_iff.mp h
    obtain ⟨y,-,h⟩ := Option.bind_eq_some_iff.mp h
    obtain ⟨⟨-,-,-,hnone⟩,h⟩ := Option.ite_none_right_eq_some.mp h
    obtain rfl := Option.some.inj h
    left
    rw [entry_addLink,if_neg ?_]
    · exact hi
    · rintro heq
      cases heq
      rw [hnone] at hi
      cases hi
  | unlink dir name =>
    obtain ⟨j,hj,h⟩ := Option.bind_eq_some_iff.mp h
    obtain ⟨y,hy,h⟩ := Option.bind_eq_some_iff.mp h
    obtain ⟨⟨hremove,hempty⟩,h⟩ := Option.ite_none_right_eq_some.mp h
    obtain rfl := Option.some.inj h
    rw [entry_removeLink]
    split_ifs with heq
    · cases heq
      obtain rfl := Option.some.inj (hi.symm.trans hj)
      exact .inr ⟨hremove,.inl ⟨y,hy,rfl,hempty⟩⟩
    · exact .inl hi
  | rename dir name dir' name' =>
    obtain ⟨j,hj,h⟩ := Option.bind_eq_some_iff.mp h
    obtain ⟨⟨hremove,-,hover⟩,h⟩ := Option.ite_none_right_eq_some.mp h
    obtain rfl := Option.some.inj h
    rw [entry_addLink,entry_removeLink,entry_removeLink]
    split_ifs with heq' heq
    · cases heq'
      exact .inr ⟨(hover i hi).1,.inr ⟨_,_,_,_,rfl⟩⟩
    · cases heq
      obtain rfl := Option.some.inj (hi.symm.trans hj)
      exact .inr ⟨hremove,.inr ⟨_,_,_,_,rfl⟩⟩
    · exact .inl hi
  | chmod j mode =>
    obtain ⟨y,-,h⟩ := Option.bind_eq_some_iff.mp h
    obtain ⟨-,h⟩ := Option.ite_none_right_eq_some.mp h
    obtain rfl := Option.some.inj h
    exact .inl hi

/-- A name comes only where the user may change names, for a file that is new or that the user
reaches by another name. -/
theorem call_adds (h : fs.call uid c = some fs') {d i : ℕ} {n : String}
    (hi : fs'.entry d n = some i) : fs.entry d n = some i ∨ fs.CanModify uid d ∧
      (i = fs.inodes.length ∧ i < fs'.inodes.length ∨
        ∃ d₀ n₀, fs.entry d₀ n₀ = some i ∧ fs.CanReach uid d₀ ∧
        (∃ d' n', c = .link d₀ n₀ d' n' ∨ c = .rename d₀ n₀ d' n')) := by
  cases c with
  | make dir name kind mode =>
    obtain ⟨⟨hmodify,-⟩,h⟩ := Option.ite_none_right_eq_some.mp h
    obtain rfl := Option.some.inj h
    have hadd := (entry_addLink { fs with inodes := fs.inodes ++ [⟨kind,uid,mode⟩] } dir name
      fs.inodes.length d n).symm.trans hi
    split_ifs at hadd with heq
    · cases heq
      obtain rfl := Option.some.inj hadd
      exact .inr ⟨hmodify,.inl ⟨rfl,by simp [create,addLink]⟩⟩
    · exact .inl hadd
  | link dir name dir' name' =>
    obtain ⟨j,hj,h⟩ := Option.bind_eq_some_iff.mp h
    obtain ⟨y,-,h⟩ := Option.bind_eq_some_iff.mp h
    obtain ⟨⟨hreach,-,hmodify,-⟩,h⟩ := Option.ite_none_right_eq_some.mp h
    obtain rfl := Option.some.inj h
    rw [entry_addLink] at hi
    split_ifs at hi with heq
    · cases heq
      cases hi
      exact .inr ⟨hmodify,.inr ⟨dir,name,hj,hreach,_,_,.inl rfl⟩⟩
    · exact .inl hi
  | unlink dir name =>
    obtain ⟨j,-,h⟩ := Option.bind_eq_some_iff.mp h
    obtain ⟨y,-,h⟩ := Option.bind_eq_some_iff.mp h
    obtain ⟨-,h⟩ := Option.ite_none_right_eq_some.mp h
    obtain rfl := Option.some.inj h
    rw [entry_removeLink] at hi
    split_ifs at hi
    exact .inl hi
  | rename dir name dir' name' =>
    obtain ⟨j,hj,h⟩ := Option.bind_eq_some_iff.mp h
    obtain ⟨⟨hremove,hmodify,-⟩,h⟩ := Option.ite_none_right_eq_some.mp h
    obtain rfl := Option.some.inj h
    rw [entry_addLink,entry_removeLink,entry_removeLink] at hi
    split_ifs at hi with heq'
    · cases heq'
      cases hi
      obtain ⟨x,hx,hdir,-,hsearch⟩ := hremove.1
      exact .inr ⟨hmodify,.inr ⟨dir,name,hj,⟨x,hx,hdir,hsearch⟩,_,_,.inr rfl⟩⟩
    · exact .inl hi
  | chmod j mode =>
    obtain ⟨y,-,h⟩ := Option.bind_eq_some_iff.mp h
    obtain ⟨-,h⟩ := Option.ite_none_right_eq_some.mp h
    obtain rfl := Option.some.inj h
    exact .inl hi

/-- A mode with nothing in it for the group or the others. -/
def IsPrivate (mode : ℕ) : Prop := ∀ b < 6, mode.testBit b = false

instance (mode : ℕ) : Decidable (IsPrivate mode) :=
  inferInstanceAs (Decidable (∀ b < 6, _))

/-- A directory of the owner that is closed to everybody else. -/
def Sealed (fs : UnixFs) (owner i : ℕ) : Prop :=
  ∃ x, fs.inodes[i]? = some x ∧ x.kind = .dir ∧ x.owner = owner ∧ IsPrivate x.mode

/-- Every name is for a file. -/
def Valid (fs : UnixFs) : Prop := ∀ d n i, fs.entry d n = some i → i < fs.inodes.length

/-- A file whose names are all in sealed directories. -/
def Guarded (fs : UnixFs) (owner i : ℕ) : Prop :=
  i < fs.inodes.length ∧ ∀ d n, fs.entry d n = some i → fs.Sealed owner d

/-- A name for a directory of the owner. -/
def Pinned (fs : UnixFs) (owner dir : ℕ) (name : String) (i : ℕ) : Prop :=
  fs.entry dir name = some i ∧ ∃ x, fs.inodes[i]? = some x ∧ x.kind = .dir ∧ x.owner = owner

/-- A directory in which nobody but the owner, or the superuser, takes away a name of the
owner's: it is theirs, and either sticky or not for others to write. -/
def Keeps (fs : UnixFs) (owner dir : ℕ) : Prop :=
  ∃ x, fs.inodes[dir]? = some x ∧ (x.owner = owner ∨ x.owner = 0) ∧
    (x.isSticky = true ∨ x.mode.testBit 4 = false ∧ x.mode.testBit 1 = false)

/-- What the owner may do without opening anything to others: make files, take away names of
files that are no directories, and close files to them. -/
def Tame (fs : UnixFs) : FileCall → Prop
  | .make _ _ _ _ => True
  | .unlink dir name => ∀ i ∈ fs.entry dir name, ∀ x ∈ fs.inodes[i]?, x.kind ≠ .dir
  | .chmod _ mode => IsPrivate mode
  | .link _ _ _ _ | .rename _ _ _ _ => False

theorem Sealed.not_reach (h : fs.Sealed owner dir) (hother : uid ≠ owner) :
    ¬fs.CanReach uid dir := by
  rintro ⟨d,hd,-,hsearch⟩
  obtain ⟨x,hx,-,howner,hprivate⟩ := h
  obtain rfl := Option.some.inj (hx.symm.trans hd)
  have hnot : uid ≠ x.owner := howner ▸ hother
  rw [Inode.canSearch,Inode.allows,if_neg hnot,hprivate 3 (by decide),
    hprivate 0 (by decide)] at hsearch
  cases hsearch

/-- The owner's own calls are tame. -/
def Allowed (fs : UnixFs) (owner uid : ℕ) (c : FileCall) : Prop := uid = owner → fs.Tame c

theorem Sealed.call (h : fs.Sealed owner i) (hcall : fs.call uid c = some fs')
    (hallowed : fs.Allowed owner uid c) : fs'.Sealed owner i := by
  obtain ⟨x,hx,hdir,howner,hprivate⟩ := h
  obtain ⟨x',hx',hkind,howner',rfl | ⟨huid,mode,rfl,hmode⟩⟩ := call_inodes hcall hx
  · exact ⟨x',hx',hdir,howner,hprivate⟩
  · have htame : IsPrivate mode := hallowed (huid.symm.trans howner)
    exact ⟨x',hx',hkind.trans hdir,howner'.trans howner,hmode ▸ htame⟩

theorem Guarded.call (h : fs.Guarded owner i) (hcall : fs.call uid c = some fs')
    (hallowed : fs.Allowed owner uid c) : fs'.Guarded owner i := by
  obtain ⟨hlt,hnames⟩ := h
  obtain ⟨x',hx',-⟩ := call_inodes hcall (List.getElem?_eq_getElem hlt)
  refine ⟨(List.getElem?_eq_some_iff.mp hx').1,fun d n hi => ?_⟩
  rcases call_adds hcall hi with hold | ⟨-,⟨hnew,-⟩ | ⟨d₀,n₀,hreached,hreach,d',n',hc⟩⟩
  · exact (hnames d n hold).call hcall hallowed
  · omega
  · have hother : uid ≠ owner := by
      intro huid
      have htame := hallowed huid
      rcases hc with rfl | rfl <;> exact htame
    exact absurd hreach ((hnames d₀ n₀ hreached).not_reach hother)

theorem Valid.call (h : fs.Valid) (hcall : fs.call uid c = some fs') : fs'.Valid := by
  have hstays : ∀ i, i < fs.inodes.length → i < fs'.inodes.length := by
    intro i hi
    obtain ⟨x',hx',-⟩ := call_inodes hcall (List.getElem?_eq_getElem hi)
    exact (List.getElem?_eq_some_iff.mp hx').1
  intro d n i hi
  rcases call_adds hcall hi with hold | ⟨-,⟨-,hlt⟩ | ⟨d₀,n₀,hreached,-⟩⟩
  · exact hstays i (h d n i hold)
  · exact hlt
  · exact hstays i (h d₀ n₀ i hreached)

theorem Keeps.call (h : fs.Keeps owner dir) (hcall : fs.call uid c = some fs')
    (hsuper : uid = 0 → uid = owner) (hallowed : fs.Allowed owner uid c) : fs'.Keeps owner dir := by
  obtain ⟨x,hx,howner,hmode⟩ := h
  obtain ⟨x',hx',-,howner',rfl | ⟨huid,mode,rfl,hmode'⟩⟩ := call_inodes hcall hx
  · exact ⟨x',hx',howner,hmode⟩
  · have hown : uid = owner := by
      rcases howner with howner | howner
      · exact huid.symm.trans howner
      · exact hsuper (huid.symm.trans howner)
    have htame : IsPrivate mode := hallowed hown
    subst hmode'
    exact ⟨x',hx',.inl ((howner'.trans huid).trans hown),
      .inr ⟨htame 4 (by decide),htame 1 (by decide)⟩⟩

/-- Nobody else takes a pinned name away. -/
theorem Keeps.not_remove (h : fs.Keeps owner dir) (hpinned : fs.Pinned owner dir name i)
    (hsuper : uid = 0 → uid = owner) (hother : uid ≠ owner) : ¬fs.CanRemove uid dir i := by
  rintro ⟨⟨d,hd,-,hwrite,-⟩,d',hd',y,hy,hsticky⟩
  obtain ⟨x,hx,howner,hmode⟩ := h
  obtain ⟨-,z,hz,-,hzowner⟩ := hpinned
  obtain rfl := Option.some.inj (hx.symm.trans hd)
  obtain rfl := Option.some.inj (hx.symm.trans hd')
  obtain rfl := Option.some.inj (hz.symm.trans hy)
  have hnot : uid ≠ x.owner := by
    rcases howner with howner | howner
    · exact howner ▸ hother
    · exact howner ▸ fun hzero => hother (hsuper hzero)
  rcases hmode with hmode | ⟨hgroup,hothers⟩
  · rcases hsticky hmode with huid | huid
    · exact hnot huid
    · exact hother (huid.trans hzowner)
  · rw [Inode.canWrite,Inode.allows,if_neg hnot,hgroup,hothers] at hwrite
    cases hwrite

theorem Pinned.call (h : fs.Pinned owner dir name i) (hkeeps : fs.Keeps owner dir)
    (hcall : fs.call uid c = some fs') (hsuper : uid = 0 → uid = owner)
    (hallowed : fs.Allowed owner uid c) : fs'.Pinned owner dir name i := by
  have hfile := h.2
  obtain ⟨x,hx,hdir,howner⟩ := hfile
  obtain ⟨x',hx',hkind,howner',-⟩ := call_inodes hcall hx
  refine ⟨?_,x',hx',hkind.trans hdir,howner'.trans howner⟩
  rcases call_removes hcall h.1 with hstays | ⟨hremove,hc⟩
  · exact hstays
  · by_cases huid : uid = owner
    · have htame := hallowed huid
      rcases hc with ⟨y,hy,rfl,-⟩ | ⟨d₀,n₀,d',n',rfl⟩
      · obtain rfl := Option.some.inj (hx.symm.trans hy)
        exact absurd hdir (htame i h.1 x hx)
      · exact absurd htame id
    · exact absurd hremove (hkeeps.not_remove h hsuper huid)

theorem Sealed.keeps (h : fs.Sealed owner i) : fs.Keeps owner i := by
  obtain ⟨x,hx,-,howner,hprivate⟩ := h
  exact ⟨x,hx,.inl howner,.inr ⟨hprivate 4 (by decide),hprivate 1 (by decide)⟩⟩

theorem Guarded.not_connect (h : fs.Guarded owner i) (hname : fs.entry dir name = some i)
    (hother : uid ≠ owner) : ¬fs.CanConnect uid dir name :=
  fun hconnect => (h.2 dir name hname).not_reach hother hconnect.1

theorem Pinned.resolve (h : fs.Pinned owner dir name i) (via : ℕ) :
    fs.resolve dir name via = some i := by
  obtain ⟨hentry,x,hx,hdir,-⟩ := h
  simp [UnixFs.resolve,hentry,hx,hdir]

/-- The owner closes a directory. -/
theorem Pinned.sealed (h : fs.Pinned owner dir name i) {mode : ℕ} (hprivate : IsPrivate mode)
    (hcall : fs.call uid (.chmod i mode) = some fs') : fs'.Sealed owner i := by
  obtain ⟨-,x,hx,hdir,howner⟩ := h
  obtain ⟨y,-,h⟩ := Option.bind_eq_some_iff.mp hcall
  obtain ⟨-,h⟩ := Option.ite_none_right_eq_some.mp h
  obtain rfl := Option.some.inj h
  exact ⟨_,fs.inodes_chmod i mode i hx,by simp [hdir],by simp [howner],by simpa using hprivate⟩

/-- A file made in a sealed directory is guarded. -/
theorem Sealed.guarded (h : fs.Sealed owner dir) (hvalid : fs.Valid) {kind : FileKind} {mode : ℕ}
    (hcall : fs.call uid (.make dir name kind mode) = some fs') :
    fs'.Guarded owner fs.inodes.length := by
  have hsealed : fs'.Sealed owner dir := h.call hcall fun _ => trivial
  obtain ⟨-,h⟩ := Option.ite_none_right_eq_some.mp hcall
  obtain rfl := Option.some.inj h
  refine ⟨by simp [create,addLink],fun d n hi => ?_⟩
  have hadd := (entry_addLink { fs with inodes := fs.inodes ++ [⟨kind,uid,mode⟩] } dir name
    fs.inodes.length d n).symm.trans hi
  split_ifs at hadd with heq
  · cases heq
    exact hsealed
  · exact absurd (hvalid d n _ hadd) (Nat.lt_irrefl _)

end UnixFs
