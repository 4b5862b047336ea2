import Babysit.Frame
import Mathlib.Data.List.TakeWhile

/-! The control connection before and across the attach upgrade. `handleConn` reads one
JSON line through a `BufReader`; an attach request turns the reader back into the raw
read half with `into_inner`, and the reader task decodes frames from there. -/
namespace Babysit

inductive ShotFormat
  | plain
  | ansi
  | json
  deriving DecidableEq, Repr

/-- The operations of the control socket. -/
inductive Request
  | status
  | log (tail : Option ℕ) (raw : Bool)
  | screenshot (format : ShotFormat) (trim : Bool)
  | send (text : String) (newline : Bool)
  | resize (cols rows : UInt16)
  | restart
  | kill
  | attach (cols rows : UInt16) (since : Option UInt64) (protocol : UInt8)
  | detach
  deriving DecidableEq, Repr

def NEWLINE : UInt8 := 10

/-- The capacity of tokio's `BufReader`, a bound on one read of the socket. -/
def DEFAULT_BUF_SIZE : ℕ := 8192

/-- A `BufReader` after `read_line`: the line, the bytes read past it, and the reads
the socket has still to return. -/
structure BufLine where
  line : List UInt8
  buffer : List UInt8
  socket : List (List UInt8)
  deriving DecidableEq, Repr

/-- `read_line` over the results of the socket reads: it takes whole reads up to the
first one that holds a newline and keeps the rest of that one in its buffer. -/
def readLine : List (List UInt8) → BufLine
  | [] => ⟨[],[],[]⟩
  | r::rs =>
    if NEWLINE ∈ r then
      ⟨r.takeWhile (· ≠ NEWLINE) ++ [NEWLINE],(r.dropWhile (· ≠ NEWLINE)).tail,rs⟩
    else
      let rest := readLine rs
      ⟨r++rest.line,rest.buffer,rest.socket⟩

inductive ConnOutcome
  | closed
  | invalid
  | request (req : Request)
  | attached (cols rows : UInt16) (since : Option UInt64) (protocol : UInt8)
      (rd : List (List UInt8))
  deriving DecidableEq, Repr

/-- One connection up to the point where its request is known. `parse` is the JSON parser
on the line; an attach continues on the raw half alone, without the reader's buffer. -/
def handleConn (parse : List UInt8 → Option Request) (reads : List (List UInt8)) : ConnOutcome :=
  let br := readLine reads
  if br.line = [] then .closed
  else
    match parse br.line with
    | none => .invalid
    | some (.attach cols rows since protocol) => .attached cols rows since protocol br.socket
    | some req => .request req

/-- The socket reads left to the attach handler, none when the request is no attach. -/
def ConnOutcome.readHalf : ConnOutcome → List (List UInt8)
  | .attached _ _ _ _ rd => rd
  | _ => []

/-- The frames the reader task of `handle_attach` decodes until its stream ends. -/
def readerTask (rd : List (List UInt8)) : List Frame :=
  frameReader.out ReadFrame.fresh rd.flatten

/-- A client's side of one attach: its hello line, the frames it writes after it, and the
reads in which the socket delivers a first part of these bytes. -/
structure ClientStream (parse : List UInt8 → Option Request) where
  hello : List UInt8
  frames : List Frame
  reads : List (List UInt8)
  hello_line : ∃ body, hello = body ++ [NEWLINE] ∧ NEWLINE ∉ body
  hello_attach : ∃ cols rows since protocol, parse hello = some (.attach cols rows since protocol)
  frames_fit : ∀ f ∈ frames, f.Fits
  reads_bounded : ∀ r ∈ reads, r ≠ [] ∧ r.length ≤ DEFAULT_BUF_SIZE
  delivered : reads.flatten <+: hello ++ writeFrames frames

namespace ClientStream
variable {parse : List UInt8 → Option Request}

/-- The delivered bytes that follow the hello line. -/
def afterHello (c : ClientStream parse) : List UInt8 := c.reads.flatten.drop c.hello.length

/-- The reader task decodes a first part of the written frames, and it is given every
delivered byte that follows the hello newline. -/
def Intact (c : ClientStream parse) : Prop :=
  readerTask (handleConn parse c.reads).readHalf <+: c.frames ∧
    (handleConn parse c.reads).readHalf.flatten = c.afterHello

/-- No read of the socket returns bytes from both sides of the hello newline. -/
def NoReadStraddles (c : ClientStream parse) : Prop :=
  ∀ before r after, c.reads = before ++ r::after →
    (before++[r]).flatten <+: c.hello ∨ c.hello <+: before.flatten

end ClientStream

/-- Without a newline `read_line` takes everything up to the end of the stream. -/
theorem readLine_of_not_mem {reads : List (List UInt8)} (h : NEWLINE ∉ reads.flatten) :
    readLine reads = ⟨reads.flatten,[],[]⟩ := by
  induction reads with
  | nil => rfl
  | cons r rs ih =>
    simp only [List.flatten_cons,List.mem_append,not_or] at h
    simp [readLine,h.1,ih h.2]

lemma takeWhile_newline {r : List UInt8} (h : NEWLINE ∈ r) :
    r.takeWhile (· ≠ NEWLINE) ++ NEWLINE::(r.dropWhile (· ≠ NEWLINE)).tail = r := by
  induction r with
  | nil => simp at h
  | cons b r ih =>
    by_cases hb : b = NEWLINE
    · simp [hb]
    · have hr : NEWLINE ∈ r := by
        rcases List.mem_cons.mp h with he | hr
        · exact absurd he.symm hb
        · exact hr
      simpa [hb] using ih hr

/-- With a newline in the stream, `read_line` stops in the first read that holds one. -/
theorem readLine_of_mem {reads : List (List UInt8)} (h : NEWLINE ∈ reads.flatten) :
    ∃ init r body, reads = init ++ r::(readLine reads).socket ∧ NEWLINE ∉ init.flatten ∧
      NEWLINE ∉ body ∧ (readLine reads).line = body ++ [NEWLINE] ∧
      (init++[r]).flatten = (readLine reads).line ++ (readLine reads).buffer := by
  induction reads with
  | nil => simp at h
  | cons r rs ih =>
    by_cases hr : NEWLINE ∈ r
    · refine ⟨[],r,r.takeWhile (· ≠ NEWLINE),?_,by simp,?_,?_,?_⟩
      · simp [readLine,hr]
      · intro hmem
        simpa using List.mem_takeWhile_imp hmem
      · simp [readLine,hr]
      · simpa [readLine,hr] using (takeWhile_newline hr).symm
    · have hrs : NEWLINE ∈ rs.flatten := by simpa [hr] using h
      obtain ⟨init,q,body,hreads,hinit,hbody,hline,hflat⟩ := ih hrs
      refine ⟨r::init,q,r++body,?_,?_,?_,?_,?_⟩
      · simpa [readLine,hr] using hreads
      · simpa [hr] using hinit
      · simp [hr,hbody]
      · simp [readLine,hr,hline]
      · simpa [readLine,hr] using hflat

lemma prefix_flatten {xs ys : List (List UInt8)} (h : xs <+: ys) : xs.flatten <+: ys.flatten := by
  obtain ⟨zs,rfl⟩ := h
  rw [List.flatten_append]
  exact List.prefix_append _ _

lemma first_newline_unique {a b x y : List UInt8} (ha : NEWLINE ∉ a) (hb : NEWLINE ∉ b)
    (h : a ++ NEWLINE::x = b ++ NEWLINE::y) : a = b ∧ x = y := by
  induction a generalizing b with
  | nil =>
    cases b with
    | nil => simpa using h
    | cons c b =>
      simp only [List.mem_cons,not_or] at hb
      exact absurd (List.cons.inj h).1 hb.1
  | cons d a ih =>
    simp only [List.mem_cons,not_or] at ha
    cases b with
    | nil => exact absurd (List.cons.inj h).1.symm ha.1
    | cons c b =>
      simp only [List.mem_cons,not_or] at hb
      obtain ⟨rfl,htail⟩ := List.cons.inj h
      obtain ⟨rfl,hxy⟩ := ih ha.2 hb.2 htail
      exact ⟨rfl,hxy⟩

namespace ClientStream
variable {parse : List UInt8 → Option Request} {c : ClientStream parse}

lemma reads_prefix_hello (h : NEWLINE ∉ c.reads.flatten) : c.reads.flatten <+: c.hello := by
  obtain ⟨body,hbody,-⟩ := c.hello_line
  rcases List.prefix_or_prefix_of_prefix c.delivered (List.prefix_append c.hello _) with hp | hp
  · exact hp
  · exact absurd (hp.subset (by simp [hbody])) h

/-- Once the newline has arrived, the line read is the hello line; what follows it is
split between the buffer and the reads still to come. -/
lemma readLine_hello (h : NEWLINE ∈ c.reads.flatten) :
    ∃ init r, c.reads = init ++ r::(readLine c.reads).socket ∧ NEWLINE ∉ init.flatten ∧
      (readLine c.reads).line = c.hello ∧
      (init++[r]).flatten = c.hello ++ (readLine c.reads).buffer := by
  obtain ⟨body,hbody,hmem⟩ := c.hello_line
  obtain ⟨init,r,line,hreads,hinit,hline,hbr,hflat⟩ := readLine_of_mem h
  have hall : c.reads.flatten =
      line ++ NEWLINE::((readLine c.reads).buffer ++ (readLine c.reads).socket.flatten) := by
    have hcut : (init ++ r::(readLine c.reads).socket).flatten =
        (init++[r]).flatten ++ (readLine c.reads).socket.flatten := by simp
    rw [← hreads,hflat,hbr] at hcut
    simpa using hcut
  obtain ⟨rest,hrest⟩ := c.delivered
  rw [hall,hbody] at hrest
  simp only [List.append_assoc,List.cons_append,List.nil_append] at hrest
  obtain ⟨rfl,-⟩ := first_newline_unique hline hmem hrest
  exact ⟨init,r,hreads,hinit,by rw [hbr,hbody],by rw [hflat,hbr,hbody]⟩

lemma hello_prefix_reads (h : NEWLINE ∈ c.reads.flatten) : c.hello <+: c.reads.flatten := by
  obtain ⟨init,r,hreads,-,-,hflat⟩ := readLine_hello h
  have hpre : init++[r] <+: c.reads := ⟨(readLine c.reads).socket,by
    conv_rhs => rw [hreads]
    simp⟩
  exact (hflat ▸ List.prefix_append _ _ : c.hello <+: (init++[r]).flatten).trans
    (prefix_flatten hpre)

lemma afterHello_eq (h : NEWLINE ∈ c.reads.flatten) :
    c.afterHello = (readLine c.reads).buffer ++ (readLine c.reads).socket.flatten := by
  obtain ⟨init,r,hreads,-,-,hflat⟩ := readLine_hello h
  have hcut : c.reads.flatten = (init++[r]).flatten ++ (readLine c.reads).socket.flatten := by
    conv_lhs => rw [hreads]
    simp
  rw [afterHello,hcut,hflat,List.append_assoc,List.drop_left]

/-- The reads end at the newline exactly when nothing is left in the buffer. -/
lemma noReadStraddles_iff (h : NEWLINE ∈ c.reads.flatten) :
    c.NoReadStraddles ↔ (readLine c.reads).buffer = [] := by
  obtain ⟨init,r,hreads,hinit,-,hflat⟩ := readLine_hello h
  constructor
  · intro hstraddle
    rcases hstraddle init r _ hreads with hp | hp
    · rw [hflat] at hp
      have hlen := hp.length_le
      rw [List.length_append] at hlen
      exact List.eq_nil_of_length_eq_zero (by omega)
    · obtain ⟨body,hbody,-⟩ := c.hello_line
      exact absurd (hp.subset (by simp [hbody])) hinit
  · intro hbuf before q after hcut
    rw [hbuf,List.append_nil] at hflat
    have heq : before ++ q::after = (init++[r]) ++ (readLine c.reads).socket := by
      rw [← hcut]
      simpa using hreads
    have hinit : init++[r] <+: before ++ q::after := heq ▸ List.prefix_append _ _
    by_cases hlt : before.length < (init++[r]).length
    · left
      have hbefore : before++[q] <+: before ++ q::after := ⟨after,by simp⟩
      have hlen : (before++[q]).length ≤ (init++[r]).length := by simpa [Nat.lt_succ_iff] using hlt
      exact hflat ▸ prefix_flatten (List.prefix_of_prefix_length_le hbefore hinit hlen)
    · right
      have hbefore : before <+: before ++ q::after := List.prefix_append _ _
      have hlen : (init++[r]).length ≤ before.length := by omega
      exact hflat ▸ prefix_flatten (List.prefix_of_prefix_length_le hinit hbefore hlen)

lemma handleConn_readHalf (h : NEWLINE ∈ c.reads.flatten) :
    (handleConn parse c.reads).readHalf = (readLine c.reads).socket := by
  obtain ⟨cols,rows,since,protocol,hparse⟩ := c.hello_attach
  obtain ⟨-,-,-,-,hline,-⟩ := readLine_hello h
  obtain ⟨body,hbody,-⟩ := c.hello_line
  have hne : c.hello ≠ [] := by simp [hbody]
  simp [handleConn,hline,hne,hparse,ConnOutcome.readHalf]

/-- Before the newline has arrived there is nothing to decode and nothing to lose. -/
lemma intact_of_not_mem (h : NEWLINE ∉ c.reads.flatten) : c.Intact := by
  have hafter : c.afterHello = [] :=
    List.drop_eq_nil_of_le (reads_prefix_hello h).length_le
  have hhalf : (handleConn parse c.reads).readHalf = [] := by
    unfold handleConn
    rw [readLine_of_not_mem h]
    dsimp only
    split_ifs
    · rfl
    · split <;> rfl
  simp [Intact,hhalf,hafter,readerTask]

lemma noReadStraddles_of_not_mem (h : NEWLINE ∉ c.reads.flatten) : c.NoReadStraddles := by
  intro before r after hcut
  left
  refine List.IsPrefix.trans ?_ (reads_prefix_hello h)
  rw [hcut]
  simp

/-- The upgrade keeps the client's stream intact exactly when the read that delivers the
hello newline ends there: `into_inner` drops whatever the `BufReader` holds past it. -/
theorem intact_iff_noReadStraddles (c : ClientStream parse) : c.Intact ↔ c.NoReadStraddles := by
  by_cases h : NEWLINE ∈ c.reads.flatten
  · have hafter := afterHello_eq h
    rw [noReadStraddles_iff h,Intact,handleConn_readHalf h,hafter]
    constructor
    · rintro ⟨-,hbytes⟩
      exact List.append_left_eq_self.mp hbytes.symm
    · intro hbuf
      refine ⟨?_,by simp [hbuf]⟩
      obtain ⟨rest,hrest⟩ := c.delivered
      refine frameReader_out_prefix c.frames_fit ⟨rest,?_⟩
      have hdrop := congrArg (List.drop c.hello.length) hrest
      rw [List.drop_append_of_le_length (hello_prefix_reads h).length_le,List.drop_left] at hdrop
      change c.afterHello ++ rest = _ at hdrop
      rwa [hafter,hbuf,List.nil_append] at hdrop
  · exact iff_of_true (intact_of_not_mem h) (noReadStraddles_of_not_mem h)

end ClientStream

/-- The hello line of an 80 by 24 terminal. -/
def helloLine : List UInt8 :=
  "\x7b\"op\":\"attach\",\"cols\":80,\"rows\":24,\"protocol\":1\x7d\n".toList.map
    fun c => UInt8.ofNat c.toNat

def parseHello (line : List UInt8) : Option Request :=
  if line = helloLine then some (.attach 80 24 none 1) else none

theorem helloLine_ends : ∃ body, helloLine = body ++ [NEWLINE] ∧ NEWLINE ∉ body :=
  ⟨helloLine.dropLast,by decide +kernel,by decide +kernel⟩

theorem parseHello_helloLine : ∃ cols rows since protocol,
    parseHello helloLine = some (.attach cols rows since protocol) :=
  ⟨80,24,none,1,by simp [parseHello]⟩

/-- A pasted input that is itself the text of a frame. -/
def pastedFrame : Frame := ⟨C_INPUT,[1,0,0,0,1,65]⟩

theorem pastedFrame_fits : ∀ f ∈ [pastedFrame], f.Fits := by simp [Frame.Fits,pastedFrame]

/-- The first read returns the hello line together with the frame's header. -/
def coalescedReads : List (List UInt8) := [helloLine ++ [1,0,0,0,6],[1,0,0,0,1,65]]

theorem coalescedReads_bounded :
    ∀ r ∈ coalescedReads, r ≠ [] ∧ r.length ≤ DEFAULT_BUF_SIZE := by decide +kernel

theorem coalescedReads_delivered :
    coalescedReads.flatten <+: helloLine ++ writeFrames [pastedFrame] := by decide +kernel

def coalescedStream : ClientStream parseHello where
  hello := helloLine
  frames := [pastedFrame]
  reads := coalescedReads
  hello_line := helloLine_ends
  hello_attach := parseHello_helloLine
  frames_fit := pastedFrame_fits
  reads_bounded := coalescedReads_bounded
  delivered := coalescedReads_delivered

/-- The reader task takes the pasted bytes for a frame that nobody wrote. -/
theorem coalesced_hello_loses_bytes :
    readerTask (handleConn parseHello coalescedStream.reads).readHalf = [⟨C_INPUT,[65]⟩] ∧
      ¬ coalescedStream.Intact := by
  have hread : readerTask (handleConn parseHello coalescedStream.reads).readHalf =
      [⟨C_INPUT,[65]⟩] := by decide +kernel
  refine ⟨hread,fun h => ?_⟩
  have hpre := h.1
  rw [hread] at hpre
  revert hpre
  decide +kernel

end Babysit
