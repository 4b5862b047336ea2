import Babysit.Lib.Refinement
import Babysit.Session

/-! `status.json` on the disk. `write_status` writes a temporary file in pieces and renames it;
`read_status` opens the file and reads it in pieces. For the readers this is a register that
is written at the rename and read at the open, whatever stops a writer in between. -/
namespace Babysit

/-- `serde_json` on a status. -/
structure StatusCodec where
  encode : Status → List UInt8
  decode : List UInt8 → Option Status

inductive WriteStage
  | opening
  | writing (inode sent : ℕ)
  | returned (ok : Bool)
  | died
  deriving DecidableEq, Repr

/-- A call of `write_status`. -/
structure StatusWrite where
  status : Status
  stage : WriteStage
  deriving DecidableEq, Repr

def StatusWrite.inProgress (c : StatusWrite) : Bool :=
  match c.stage with
  | .opening | .writing _ _ => true
  | .returned _ | .died => false

/-- A call of `read_status`. An open file stays the one that was opened. -/
inductive ReadStage
  | opening
  | reading (inode : ℕ) (got : List UInt8)
  | returned (answer : Option Status)
  | failed
  deriving DecidableEq, Repr

/-- The directory of a session, as far as its status goes: the contents of the files, the two
names, and the calls. The worker makes one `write_status` call after the other. -/
structure StatusDir where
  inodes : List (List UInt8)
  file : Option ℕ
  tmp : Option ℕ
  write : Option StatusWrite
  reads : List ReadStage
  deriving DecidableEq, Repr

inductive StatusDirEvent
  | call (s : Status)
  | create (failed : Bool)
  | push (n : ℕ)
  | pushFails
  | rename (failed : Bool)
  | dies
  | read
  | openFile (j : ℕ)
  | fetch (j n : ℕ)
  | fetchEnd (j : ℕ)
  | fetchFails (j : ℕ)
  deriving DecidableEq, Repr

namespace StatusDir

def empty : StatusDir := ⟨[],none,none,none,[]⟩

def setStage (w : StatusDir) (stage : WriteStage) : StatusDir :=
  { w with write := w.write.map fun c => { c with stage := stage } }

def setRead (w : StatusDir) (j : ℕ) (stage : ReadStage) : StatusDir :=
  { w with reads := w.reads.set j stage }

def step (codec : StatusCodec) (w : StatusDir) : StatusDirEvent → Option StatusDir
  | .call s =>
    if w.write.any StatusWrite.inProgress then none
    else some { w with write := some ⟨s,.opening⟩ }
  | .create failed =>
    match w.write with
    | some ⟨_,.opening⟩ =>
      if failed then some (w.setStage (.returned false))
      else
        match w.tmp with
        -- what a call that was stopped has left is truncated
        | some k => some ({ w with inodes := w.inodes.set k [] }.setStage (.writing k 0))
        | none => some ({ w with
            inodes := w.inodes ++ [[]], tmp := some w.inodes.length }.setStage
              (.writing w.inodes.length 0))
    | _ => none
  | .push n =>
    match w.write with
    | some ⟨s,.writing k sent⟩ =>
      if 0 < n ∧ sent+n ≤ (codec.encode s).length then
        some ({ w with
          inodes := w.inodes.modify k (· ++ ((codec.encode s).drop sent).take n) }.setStage
            (.writing k (sent+n)))
      else none
    | _ => none
  | .pushFails =>
    match w.write with
    | some ⟨_,.writing _ _⟩ => some (w.setStage (.returned false))
    | _ => none
  | .rename failed =>
    match w.write with
    | some ⟨s,.writing _ sent⟩ =>
      if sent = (codec.encode s).length then
        if failed then some (w.setStage (.returned false))
        else some ({ w with file := w.tmp, tmp := none }.setStage (.returned true))
      else none
    | _ => none
  | .dies => if w.write.any StatusWrite.inProgress then some (w.setStage .died) else none
  | .read => some { w with reads := w.reads ++ [.opening] }
  | .openFile j =>
    match w.reads[j]?,w.file with
    | some .opening,some k => some (w.setRead j (.reading k []))
    | some .opening,none => some (w.setRead j (.returned none))
    | _,_ => none
  | .fetch j n =>
    match w.reads[j]? with
    | some (.reading k got) =>
      let bytes := (w.inodes[k]?).getD []
      if 0 < n ∧ got.length < bytes.length then
        some (w.setRead j (.reading k (got ++ (bytes.drop got.length).take n)))
      else none
    | _ => none
  | .fetchEnd j =>
    match w.reads[j]? with
    | some (.reading k got) =>
      if ((w.inodes[k]?).getD []).length ≤ got.length then
        some (w.setRead j (.returned (codec.decode got)))
      else none
    | _ => none
  | .fetchFails j =>
    match w.reads[j]? with
    | some (.reading _ _) => some (w.setRead j .failed)
    | _ => none

end StatusDir

/-- A status register: the value, and the answer of each read once it has been made. -/
structure StatusRegister where
  value : Option Status
  reads : List (Option (Option Status))
  deriving DecidableEq, Repr

inductive StatusRegisterEvent
  | write (s : Status)
  | call
  | read (j : ℕ)
  deriving DecidableEq, Repr

namespace StatusRegister

def empty : StatusRegister := ⟨none,[]⟩

def step (a : StatusRegister) : StatusRegisterEvent → Option StatusRegister
  | .write s => some { a with value := some s }
  | .call => some { a with reads := a.reads ++ [none] }
  | .read j =>
    match a.reads[j]? with
    | some none => some { a with reads := a.reads.set j (some a.value) }
    | _ => none

end StatusRegister

namespace StatusDir

/-- A call takes effect at its rename, a read at its open. -/
def effects (w : StatusDir) : StatusDirEvent → List StatusRegisterEvent
  | .rename false => (w.write.map fun c => .write c.status).toList
  | .read => [.call]
  | .openFile j => [.read j]
  | _ => []

/-- A read and its answer in the register. -/
def Answers (codec : StatusCodec) (inodes : List (List UInt8)) :
    ReadStage → Option (Option Status) → Prop
  | .opening,answer => answer = none
  | .reading k got,answer => ∃ s, answer = some (some s) ∧ inodes[k]? = some (codec.encode s) ∧
      got <+: codec.encode s
  | .returned r,answer => ∃ value, answer = some value ∧
      r = value.bind fun s => codec.decode (codec.encode s)
  | .failed,answer => answer ≠ none

/-- The files and the register. A file that has had its name is not written any more. -/
structure Tracks (codec : StatusCodec) (w : StatusDir) (a : StatusRegister) : Prop where
  value : a.value.map codec.encode = w.file.bind fun k => w.inodes[k]?
  named : ∀ k, w.file = some k → k < w.inodes.length
  tmp : ∀ k, w.tmp = some k → k < w.inodes.length ∧ w.file ≠ some k ∧
    ∀ got, .reading k got ∉ w.reads
  writing : ∀ s k sent, w.write = some ⟨s,.writing k sent⟩ →
    w.tmp = some k ∧ w.inodes[k]? = some ((codec.encode s).take sent)
  length : w.reads.length = a.reads.length
  reads : ∀ (j : ℕ) stage answer, w.reads[j]? = some stage → a.reads[j]? = some answer →
    Answers codec w.inodes stage answer

variable {codec : StatusCodec} {w w' : StatusDir} {e : StatusDirEvent}

/-- What a step can do, and what is to be seen of it. -/
inductive Move (codec : StatusCodec) (w : StatusDir) :
    StatusDirEvent → List StatusRegisterEvent → StatusDir → Prop
  | call {s} : Move codec w (.call s) [] { w with write := some ⟨s,.opening⟩ }
  | truncates {s k} : w.write = some ⟨s,.opening⟩ → w.tmp = some k → Move codec w (.create false) []
      { w with inodes := w.inodes.set k [], write := some ⟨s,.writing k 0⟩ }
  | creates {s} : w.write = some ⟨s,.opening⟩ → w.tmp = none → Move codec w (.create false) []
      { w with
        inodes := w.inodes ++ [[]], tmp := some w.inodes.length
        write := some ⟨s,.writing w.inodes.length 0⟩ }
  | push {s k sent n} : w.write = some ⟨s,.writing k sent⟩ → sent+n ≤ (codec.encode s).length →
      Move codec w (.push n) [] { w with
        inodes := w.inodes.modify k (· ++ ((codec.encode s).drop sent).take n)
        write := some ⟨s,.writing k (sent+n)⟩ }
  | renames {s k} : w.write = some ⟨s,.writing k (codec.encode s).length⟩ →
      Move codec w (.rename false) [.write s] { w with
        file := w.tmp, tmp := none, write := some ⟨s,.returned true⟩ }
  | stops {e s stage} : StatusWrite.inProgress ⟨s,stage⟩ = false →
      Move codec w e [] { w with write := some ⟨s,stage⟩ }
  | read : Move codec w .read [.call] { w with reads := w.reads ++ [.opening] }
  | opens {j k} : w.reads[j]? = some .opening → w.file = some k →
      Move codec w (.openFile j) [.read j] (w.setRead j (.reading k []))
  | absent {j} : w.reads[j]? = some .opening → w.file = none →
      Move codec w (.openFile j) [.read j] (w.setRead j (.returned none))
  | fetch {j n k got} : w.reads[j]? = some (.reading k got) →
      Move codec w (.fetch j n) [] (w.setRead j
        (.reading k (got ++ (((w.inodes[k]?).getD []).drop got.length).take n)))
  | fetchEnd {j k got} : w.reads[j]? = some (.reading k got) →
      ((w.inodes[k]?).getD []).length ≤ got.length →
      Move codec w (.fetchEnd j) [] (w.setRead j (.returned (codec.decode got)))
  | fetchFails {j k got} : w.reads[j]? = some (.reading k got) →
      Move codec w (.fetchFails j) [] (w.setRead j .failed)

theorem step_move (h : w.step codec e = some w') : Move codec w e (w.effects e) w' := by
  cases e with
  | call s =>
    simp only [step] at h
    split_ifs at h
    obtain rfl := Option.some.inj h
    exact .call
  | create failed =>
    simp only [step] at h
    split at h
    next s hwrite =>
      simp only [setStage,hwrite,Option.map_some] at h
      cases failed with
      | true =>
        obtain rfl := Option.some.inj h
        exact .stops rfl
      | false =>
        rw [if_neg Bool.false_ne_true] at h
        split at h
        next k htmp =>
          obtain rfl := Option.some.inj h
          exact .truncates hwrite htmp
        next htmp =>
          obtain rfl := Option.some.inj h
          exact .creates hwrite htmp
    next => cases h
  | push n =>
    simp only [step] at h
    split at h
    next s k sent hwrite =>
      split_ifs at h with hn
      obtain rfl := Option.some.inj h
      simp only [setStage,hwrite,Option.map_some]
      exact .push hwrite hn.2
    next => cases h
  | pushFails =>
    simp only [step] at h
    split at h
    next hwrite =>
      obtain rfl := Option.some.inj h
      simp only [setStage,hwrite,Option.map_some]
      exact .stops rfl
    next => cases h
  | rename failed =>
    simp only [step] at h
    split at h
    next s k sent hwrite =>
      simp only [setStage,hwrite,Option.map_some] at h
      split_ifs at h with hsent hfailed
      · obtain rfl := Option.some.inj h
        subst hfailed
        exact .stops rfl
      · obtain rfl := Option.some.inj h
        obtain rfl := Bool.eq_false_of_not_eq_true hfailed
        subst hsent
        simp only [effects,hwrite,Option.map_some,Option.toList_some]
        exact .renames hwrite
    next => cases h
  | dies =>
    simp only [step] at h
    split_ifs at h with hany
    obtain rfl := Option.some.inj h
    cases hwrite : w.write with
    | none =>
      rw [hwrite] at hany
      cases hany
    | some c =>
      simp only [setStage,hwrite,Option.map_some]
      exact .stops rfl
  | read =>
    obtain rfl := Option.some.inj h
    exact .read
  | openFile j =>
    simp only [step] at h
    split at h
    next k hread hfile =>
      obtain rfl := Option.some.inj h
      exact .opens hread hfile
    next hread hfile =>
      obtain rfl := Option.some.inj h
      exact .absent hread hfile
    next => cases h
  | fetch j n =>
    simp only [step] at h
    split at h
    next hread =>
      split_ifs at h
      obtain rfl := Option.some.inj h
      exact .fetch hread
    next => cases h
  | fetchEnd j =>
    simp only [step] at h
    split at h
    next hread =>
      split_ifs at h with hlen
      obtain rfl := Option.some.inj h
      exact .fetchEnd hread hlen
    next => cases h
  | fetchFails j =>
    simp only [step] at h
    split at h
    next hread =>
      obtain rfl := Option.some.inj h
      exact .fetchFails hread
    next => cases h


section Tracks
variable {a : StatusRegister} {inodes : List (List UInt8)} {stage : ReadStage} {j k : ℕ}
  {got : List UInt8} {answer : Option (Option Status)}

/-- A read minds only the file it has open. -/
theorem Answers.congr (h : Answers codec w.inodes stage answer)
    (hsame : ∀ k got, stage = .reading k got → inodes[k]? = w.inodes[k]?) :
    Answers codec inodes stage answer := by
  cases stage with
  | reading k got =>
    obtain ⟨s,hanswer,hbytes,hgot⟩ := h
    exact ⟨s,hanswer,(hsame k got rfl).trans hbytes,hgot⟩
  | opening | returned | failed => exact h

theorem Tracks.answer_of_read (h : Tracks codec w a) (hread : w.reads[j]? = some stage) :
    ∃ answer, a.reads[j]? = some answer ∧ Answers codec w.inodes stage answer := by
  have hlt : j < a.reads.length := h.length ▸ (List.getElem?_eq_some_iff.mp hread).1
  exact ⟨_,List.getElem?_eq_getElem hlt,h.reads j _ _ hread (List.getElem?_eq_getElem hlt)⟩

/-- What a reader has open is there. -/
theorem Tracks.lt_of_reading (h : Tracks codec w a) (hmem : .reading k got ∈ w.reads) :
    k < w.inodes.length := by
  obtain ⟨j,hj⟩ := List.mem_iff_getElem?.mp hmem
  obtain ⟨-,-,s,-,hbytes,-⟩ := h.answer_of_read hj
  exact (List.getElem?_eq_some_iff.mp hbytes).1

/-- The files change where no name and no reader is. -/
theorem Tracks.files (h : Tracks codec w a) {tmp : Option ℕ} {write : Option StatusWrite}
    (hsame : ∀ i < w.inodes.length, w.tmp ≠ some i → inodes[i]? = w.inodes[i]?)
    (hlen : w.inodes.length ≤ inodes.length)
    (htmp : ∀ k, tmp = some k → k < inodes.length ∧ (w.tmp = some k ∨ w.inodes.length ≤ k))
    (hwriting : ∀ s k sent, write = some ⟨s,.writing k sent⟩ →
      tmp = some k ∧ inodes[k]? = some ((codec.encode s).take sent)) :
    Tracks codec { w with inodes := inodes, tmp := tmp, write := write } a := by
  have hreading : ∀ k got, .reading k got ∈ w.reads → w.tmp ≠ some k := by
    intro k got hmem heq
    exact (h.tmp k heq).2.2 got hmem
  refine ⟨?_,?_,?_,hwriting,h.length,?_⟩
  · rw [h.value]
    cases hfile : w.file with
    | none => rfl
    | some k =>
      refine (hsame k (h.named k hfile) fun heq => ?_).symm
      exact (h.tmp k heq).2.1 hfile
  · intro k hfile
    exact Nat.lt_of_lt_of_le (h.named k hfile) hlen
  · intro k hk
    obtain ⟨hlt,hold | hnew⟩ := htmp k hk
    · exact ⟨hlt,(h.tmp k hold).2⟩
    · refine ⟨hlt,fun hfile => ?_,fun got hmem => ?_⟩
      · exact absurd (h.named k hfile) (Nat.not_lt.mpr hnew)
      · exact absurd (h.lt_of_reading hmem) (Nat.not_lt.mpr hnew)
  · intro j stage answer hread hanswer
    refine (h.reads j stage answer hread hanswer).congr fun k got hstage => ?_
    subst hstage
    have hmem := List.mem_of_getElem? hread
    exact hsame k (h.lt_of_reading hmem) (hreading k got hmem)

/-- A read goes on, and the register holds its answer. -/
theorem Tracks.goes (h : Tracks codec w a) (hanswer : Answers codec w.inodes stage answer)
    (htmp : ∀ k got, stage = .reading k got → w.tmp ≠ some k) :
    Tracks codec (w.setRead j stage) { a with reads := a.reads.set j answer } := by
  refine ⟨h.value,h.named,?_,h.writing,?_,?_⟩
  · intro k hk
    refine ⟨(h.tmp k hk).1,(h.tmp k hk).2.1,fun got hmem => ?_⟩
    rcases List.mem_or_eq_of_mem_set hmem with hmem | heq
    · exact (h.tmp k hk).2.2 got hmem
    · exact htmp k got heq.symm hk
  · simp [setRead,h.length]
  · intro i stage' answer' hread hans
    simp only [setRead,List.getElem?_set] at hread hans
    rw [← h.length] at hans
    split_ifs at hread hans
    · cases hread
      cases hans
      exact hanswer
    · exact h.reads i stage' answer' hread hans

theorem Tracks.goes_on (h : Tracks codec w a) (hread : a.reads[j]? = some answer)
    (hanswer : Answers codec w.inodes stage answer)
    (htmp : ∀ k got, stage = .reading k got → w.tmp ≠ some k) :
    Tracks codec (w.setRead j stage) a := by
  have hset : a.reads.set j answer = a.reads := by
    apply List.ext_getElem?
    intro i
    rw [List.getElem?_set]
    split_ifs with hij hlt
    · rw [← hij,hread]
    · rw [List.getElem?_eq_none]
      omega
    · rfl
  have := h.goes (j := j) hanswer htmp
  rwa [hset] at this

end Tracks

theorem tracks_empty (codec : StatusCodec) : Tracks codec empty .empty := by
  refine ⟨rfl,?_,?_,?_,rfl,?_⟩
  · intro k hk
    cases hk
  · intro k hk
    cases hk
  · intro s k sent hwrite
    cases hwrite
  · intro j stage answer hread
    cases hread

/-- The register follows every step. -/
theorem follows_step (codec : StatusCodec) :
    Refinement.Follows (step codec) effects StatusRegister.step (Tracks codec) := by
  intro w e w' a hstep h
  have hmove := step_move hstep
  generalize w.effects e = events at hmove
  cases hmove with
  | call =>
    exact Refinement.follows_silent (h.files (fun _ _ _ => rfl) (Nat.le_refl _)
      (fun k hk => ⟨(h.tmp k hk).1,.inl hk⟩) (by rintro s k sent ⟨⟩))
  | @truncates s k hwrite htmp =>
    have hlt := (h.tmp k htmp).1
    apply Refinement.follows_silent
    refine h.files (fun i _ hi => ?_) (by simp) ?_ ?_
    · refine List.getElem?_set_ne fun heq => hi ?_
      rw [← heq,htmp]
    · intro i hi
      rw [List.length_set]
      exact ⟨(h.tmp i hi).1,.inl hi⟩
    · rintro _ _ _ ⟨⟩
      exact ⟨htmp,List.getElem?_set_self hlt⟩
  | @creates s hwrite htmp =>
    apply Refinement.follows_silent
    refine h.files (fun i hi _ => List.getElem?_append_left hi) (by simp) ?_ ?_
    · rintro i ⟨⟩
      exact ⟨by simp,.inr (Nat.le_refl _)⟩
    · rintro _ _ _ ⟨⟩
      exact ⟨rfl,by simp⟩
  | @push s k sent n hwrite hn =>
    obtain ⟨htmp,hbytes⟩ := h.writing s k sent hwrite
    apply Refinement.follows_silent
    refine h.files (fun i _ hi => ?_) (by simp) ?_ ?_
    · have hne : k ≠ i := by
        rintro rfl
        exact hi htmp
      exact List.getElem?_modify_ne _ _ hne
    · intro i hi
      rw [List.length_modify]
      exact ⟨(h.tmp i hi).1,.inl hi⟩
    · rintro _ _ _ ⟨⟩
      refine ⟨htmp,?_⟩
      rw [List.getElem?_modify_eq,hbytes,List.take_add]
      rfl
  | @renames s k hwrite =>
    obtain ⟨htmp,hbytes⟩ := h.writing s k _ hwrite
    rw [List.take_length] at hbytes
    refine Refinement.follows_one rfl ⟨?_,?_,?_,?_,h.length,h.reads⟩
    · rw [htmp,Option.bind_some,hbytes]
      rfl
    · intro i hi
      exact (h.tmp i hi).1
    · rintro i ⟨⟩
    · rintro _ _ _ ⟨⟩
  | @stops e s stage hstage =>
    refine Refinement.follows_silent (h.files (fun _ _ _ => rfl) (Nat.le_refl _)
      (fun k hk => ⟨(h.tmp k hk).1,.inl hk⟩) ?_)
    rintro _ k sent ⟨⟩
    cases hstage
  | read =>
    refine Refinement.follows_one rfl ⟨h.value,h.named,?_,h.writing,?_,?_⟩
    · intro k hk
      refine ⟨(h.tmp k hk).1,(h.tmp k hk).2.1,fun got hmem => ?_⟩
      rcases List.mem_append.mp hmem with hmem | hmem
      · exact (h.tmp k hk).2.2 got hmem
      · cases List.mem_singleton.mp hmem
    · simp [h.length]
    · intro j stage answer hread hanswer
      rw [List.getElem?_append] at hread hanswer
      rw [← h.length] at hanswer
      split_ifs at hread hanswer
      · exact h.reads j stage answer hread hanswer
      · obtain rfl := List.mem_singleton.mp (List.mem_of_getElem? hread)
        exact List.mem_singleton.mp (List.mem_of_getElem? hanswer)
  | @opens j k hread hfile =>
    obtain ⟨answer,hslot,hanswer⟩ := h.answer_of_read hread
    obtain rfl : answer = none := hanswer
    have hvalue := h.value
    rw [hfile,Option.bind_some,List.getElem?_eq_getElem (h.named k hfile)] at hvalue
    obtain ⟨s,hs,hbytes⟩ := Option.map_eq_some_iff.mp hvalue
    refine Refinement.follows_one (b := { a with reads := a.reads.set j (some a.value) }) ?_ ?_
    · simp only [StatusRegister.step,hslot]
    · refine h.goes ⟨s,by rw [hs],?_,List.nil_prefix⟩ ?_
      · rw [hbytes,List.getElem?_eq_getElem]
      · rintro _ _ ⟨⟩ htmp
        exact (h.tmp k htmp).2.1 hfile
  | @absent j hread hfile =>
    obtain ⟨answer,hslot,hanswer⟩ := h.answer_of_read hread
    obtain rfl : answer = none := hanswer
    have hvalue := h.value
    rw [hfile,Option.bind_none,Option.map_eq_none_iff] at hvalue
    refine Refinement.follows_one (b := { a with reads := a.reads.set j (some a.value) }) ?_ ?_
    · simp only [StatusRegister.step,hslot]
    · exact h.goes ⟨none,congrArg some hvalue,rfl⟩ (by rintro _ _ ⟨⟩)
  | @fetch j n k got hread =>
    obtain ⟨answer,hslot,s,hs,hbytes,hgot⟩ := h.answer_of_read hread
    refine Refinement.follows_silent (h.goes_on hslot ⟨s,hs,hbytes,?_⟩ ?_)
    · obtain ⟨rest,hrest⟩ := hgot
      rw [hbytes,Option.getD_some,← hrest,List.drop_left,List.prefix_append_right_inj]
      exact List.take_prefix n rest
    · rintro _ _ ⟨⟩ htmp
      exact (h.tmp k htmp).2.2 got (List.mem_of_getElem? hread)
  | @fetchEnd j k got hread hlen =>
    obtain ⟨answer,hslot,s,hs,hbytes,hgot⟩ := h.answer_of_read hread
    rw [hbytes,Option.getD_some] at hlen
    obtain rfl := hgot.eq_of_length_le hlen
    exact Refinement.follows_silent (h.goes_on hslot ⟨some s,hs,rfl⟩ (by rintro _ _ ⟨⟩))
  | @fetchFails j k got hread =>
    obtain ⟨answer,hslot,s,hs,-⟩ := h.answer_of_read hread
    refine Refinement.follows_silent (h.goes_on hslot ?_ (by rintro _ _ ⟨⟩))
    rw [hs]
    rintro ⟨⟩

/-- Whatever stops a call of `write_status` at whatever point, a read gives what the register
gives: nothing while no call has come to its rename, else the whole text of the status that
was renamed last when the file was opened. -/
theorem status_reads_atomic (codec : StatusCodec) (es : List StatusDirEvent) (w : StatusDir)
    (hrun : Transition.exec (step codec) empty es = some w) :
    ∃ a, Transition.exec StatusRegister.step .empty
        (Refinement.trace (step codec) effects empty es) = some a ∧
      a.value.map codec.encode = w.file.bind (fun k => w.inodes[k]?) ∧
      ∀ (j : ℕ) r, w.reads[j]? = some (.returned r) → ∃ value, a.reads[j]? = some (some value) ∧
        r = value.bind fun s => codec.decode (codec.encode s) := by
  obtain ⟨a,ha,h⟩ := Refinement.exec_trace (follows_step codec) hrun (tracks_empty codec)
  refine ⟨a,ha,h.value,fun j r hread => ?_⟩
  obtain ⟨answer,hslot,value,hvalue,hr⟩ := h.answer_of_read hread
  exact ⟨value,hvalue ▸ hslot,hr⟩

/-- The text of two statuses. -/
def startingText : List UInt8 :=
  "\x7b\n  \"state\": \"starting\",\n  \"child_pid\": null,\n  \"exit_code\": null\n\x7d".toList.map
    fun c => UInt8.ofNat c.toNat

def exitedText : List UInt8 :=
  "\x7b\n  \"state\": \"exited\",\n  \"child_pid\": null,\n  \"exit_code\": 0\n\x7d".toList.map
    fun c => UInt8.ofNat c.toNat

def textCodec : StatusCodec where
  encode s := if s = .starting then startingText else exitedText
  decode bytes :=
    if bytes = startingText then some .starting
    else if bytes = exitedText then some ⟨.exited,none,some 0⟩ else none

/-- A reader opens the first status; the second one is stopped in the middle, begun again and
renamed before the reader has come to its end. -/
def stoppedRun : List StatusDirEvent :=
  [.call .starting,.create false,.push 30,.push 37,.rename false,.read,.openFile 0,.fetch 0 20,
    .call ⟨.exited,none,some 0⟩,.create false,.push 10,.dies,
    .call ⟨.exited,none,some 0⟩,.create false,.push 62,.rename false,.fetch 0 100,.fetchEnd 0]

theorem status_reads_atomic_stopped : ∃ w,
    Transition.exec (step textCodec) empty stoppedRun = some w ∧
      w.reads = [.returned (some .starting)] ∧
      ∃ a, Transition.exec StatusRegister.step .empty
          (Refinement.trace (step textCodec) effects empty stoppedRun) = some a ∧
        a.value.map textCodec.encode = w.file.bind (fun k => w.inodes[k]?) := by
  have hsome : (Transition.exec (step textCodec) empty stoppedRun).isSome = true := by
    decide +kernel
  obtain ⟨w,hrun⟩ := Option.isSome_iff_exists.mp hsome
  have hreads : (Transition.exec (step textCodec) empty stoppedRun).map reads =
      some [.returned (some .starting)] := by
    decide +kernel
  rw [hrun,Option.map_some,Option.some.injEq] at hreads
  obtain ⟨a,ha,hvalue,-⟩ := status_reads_atomic textCodec stoppedRun w hrun
  exact ⟨w,hrun,hreads,a,ha,hvalue⟩

end StatusDir
end Babysit
