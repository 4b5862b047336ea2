import Babysit.Lib.Mealy
import Mathlib.Data.List.TakeWhile
import Mathlib.Tactic.Common

/-! How the POSIX shell cuts a text into words: quoting, blanks, operators, comments and
assignment words. A character keeps a mark that says whether quoting has removed its special
meaning. The inside of an expansion is not read; `Word.Expands` tells that there is one. -/
namespace PosixShell

structure Mark where
  char : Char
  quoted : Bool
  deriving DecidableEq

/-- Not an equals sign that keeps its meaning. -/
def Mark.beforeEquals (m : Mark) : Bool := m ≠ ⟨'=',false⟩

abbrev Word := List Mark

/-- A word, or one character of an operator. -/
inductive Token
  | word (w : Word)
  | operator (c : Char)
  deriving DecidableEq

inductive Quoting
  | bare
  | escaped
  | single
  | double
  | doubleEscaped
  | comment
  deriving DecidableEq

/-- The shell in the middle of a text, with the word it has begun. -/
structure Reader where
  quoting : Quoting
  word : Option Word
  deriving DecidableEq

def QUOTE : Char := '\x27'
def DOUBLE_QUOTE : Char := '\x22'
def BACKSLASH : Char := '\x5c'
def BACKQUOTE : Char := '\x60'

def isBlank (c : Char) : Bool := c ∈ [' ','\t']

def isOperator (c : Char) : Bool := c ∈ ['|','&',';','<','>','(',')','\n']

/-- What a backslash still escapes between double quotes. -/
def isDoubleEscape (c : Char) : Bool := c ∈ ['$',BACKQUOTE,DOUBLE_QUOTE,BACKSLASH]

/-- What begins an expansion: of a parameter, a command, a pathname, a home directory. -/
def beginsExpansion (c : Char) : Bool := c ∈ ['$',BACKQUOTE,'*','?','[','~']

def protect (cs : List Char) : Word := cs.map fun c => ⟨c,true⟩

def unprotected (cs : List Char) : Word := cs.map fun c => ⟨c,false⟩

namespace Reader

def fresh : Reader := ⟨.bare,none⟩

def add (r : Reader) (quoting : Quoting) (w : Word) : Reader := ⟨quoting,some (r.word.getD [] ++ w)⟩

def wordToken (r : Reader) : List Token := (r.word.map Token.word).toList

def next (r : Reader) (c : Char) : Reader :=
  match r.quoting with
  | .bare =>
    if isBlank c ∨ isOperator c then fresh
    else if c = QUOTE then r.add .single []
    else if c = DOUBLE_QUOTE then r.add .double []
    else if c = BACKSLASH then { r with quoting := .escaped }
    else if c = '#' ∧ r.word = none then { r with quoting := .comment }
    else r.add .bare [⟨c,false⟩]
  | .escaped => if c = '\n' then { r with quoting := .bare } else r.add .bare [⟨c,true⟩]
  | .single => if c = QUOTE then r.add .bare [] else r.add .single [⟨c,true⟩]
  | .double =>
    if c = DOUBLE_QUOTE then r.add .bare []
    else if c = BACKSLASH then r.add .doubleEscaped []
    else r.add .double [⟨c,c ∉ ['$',BACKQUOTE]⟩]
  | .doubleEscaped =>
    if c = '\n' then r.add .double []
    else if isDoubleEscape c then r.add .double [⟨c,true⟩]
    else r.add .double [⟨BACKSLASH,true⟩,⟨c,true⟩]
  | .comment => if c = '\n' then fresh else r

def emit (r : Reader) (c : Char) : List Token :=
  match r.quoting with
  | .bare => if isBlank c then r.wordToken else if isOperator c then r.wordToken ++ [.operator c] else []
  | .comment => if c = '\n' then [.operator c] else []
  | .escaped | .single | .double | .doubleEscaped => []

end Reader

def machine : Mealy Reader Char Token := ⟨Reader.next,Reader.emit⟩

/-- The tokens of a text; none when it ends inside a quotation. -/
def lex (text : List Char) : Option (List Token) :=
  let r := machine.state .fresh text
  if r.quoting = .bare ∨ r.quoting = .comment then some (machine.out .fresh text ++ r.wordToken)
  else none

def isNameStart (c : Char) : Bool := c.isAlpha || c = '_'

def isNameChar (c : Char) : Bool := c.isAlphanum || c = '_'

namespace Word

def Expands (w : Word) : Prop := ∃ m ∈ w, m.quoted = false ∧ beginsExpansion m.char = true

def text (w : Word) : List Char := w.map Mark.char

/-- A name, none of it quoted. -/
def isName (w : Word) : Bool :=
  w.all (fun m => !m.quoted && isNameChar m.char) && w.head?.any (isNameStart ·.char)

/-- The name and the value of an assignment word; its equals sign is not quoted either. -/
def assignment (w : Word) : Option (List Char × Word) :=
  let name := w.takeWhile Mark.beforeEquals
  let rest := w.dropWhile Mark.beforeEquals
  if isName name then rest.tail?.map fun value => (text name,value) else none

end Word

/-- A simple command without redirections. -/
structure Command where
  assignments : List (List Char × Word)
  words : List Word
  deriving DecidableEq

def wordsOf : List Token → Option (List Word)
  | [] => some []
  | .operator _::_ => none
  | .word w::tokens => (wordsOf tokens).map (w::·)

/-- The leading assignments, and the words from the command name on; none with an operator. -/
def command : List Token → Option Command
  | [] => some ⟨[],[]⟩
  | .operator _::_ => none
  | .word w::tokens =>
    match w.assignment with
    | some a => (command tokens).map fun c => { c with assignments := a::c.assignments }
    | none => (wordsOf (.word w::tokens)).map fun words => ⟨[],words⟩

def parse (text : List Char) : Option Command := (lex text).bind command

def Command.Expands (c : Command) : Prop :=
  (∃ a ∈ c.assignments, Word.Expands a.2) ∨ ∃ w ∈ c.words, Word.Expands w

@[simp] theorem protect_append (cs ds : List Char) :
    protect (cs++ds) = protect cs ++ protect ds := List.map_append

theorem not_expands_protect (cs : List Char) : ¬Word.Expands (protect cs) := by
  rintro ⟨m,hm,hbare,-⟩
  obtain ⟨c,-,rfl⟩ := List.mem_map.mp hm
  cases hbare

@[simp] theorem text_protect (cs : List Char) : Word.text (protect cs) = cs := by
  rw [Word.text,protect,List.map_map]
  exact List.map_id cs

@[simp] theorem text_unprotected (cs : List Char) : Word.text (unprotected cs) = cs := by
  rw [Word.text,unprotected,List.map_map]
  exact List.map_id cs

/-- A quoted word is never an assignment. -/
theorem assignment_protect (cs : List Char) : Word.assignment (protect cs) = none := by
  have hrest : (protect cs).dropWhile Mark.beforeEquals = [] := by
    rw [List.dropWhile_eq_nil_iff]
    intro m hm
    obtain ⟨c,-,rfl⟩ := List.mem_map.mp hm
    simp [Mark.beforeEquals]
  unfold Word.assignment
  simp only [hrest,List.tail?_nil,Option.map_none,ite_self]

/-- A name that stands unquoted before an equals sign begins an assignment. -/
theorem assignment_of_name {c : Char} {name : List Char} (value : Word) (hc : isNameStart c = true)
    (hname : ∀ d ∈ c::name, isNameChar d = true) :
    Word.assignment (unprotected (c::name) ++ ⟨'=',false⟩::value) = some (c::name,value) := by
  have hne : ∀ m ∈ unprotected (c::name), m.beforeEquals = true := by
    intro m hm
    obtain ⟨d,hd,rfl⟩ := List.mem_map.mp hm
    have hchar := hname d hd
    rw [Mark.beforeEquals,decide_eq_true_iff]
    intro heq
    obtain rfl : d = '=' := congrArg Mark.char heq
    exact absurd hchar (by decide)
  have hstop : ¬(⟨'=',false⟩ : Mark).beforeEquals = true := by decide
  have htake : (unprotected (c::name) ++ ⟨'=',false⟩::value).takeWhile Mark.beforeEquals =
      unprotected (c::name) := by
    rw [List.takeWhile_append_of_pos hne,List.takeWhile_cons_of_neg hstop,List.append_nil]
  have hdrop : (unprotected (c::name) ++ ⟨'=',false⟩::value).dropWhile Mark.beforeEquals =
      ⟨'=',false⟩::value := by
    rw [List.dropWhile_append_of_pos hne,List.dropWhile_cons_of_neg hstop]
  have hall : Word.isName (unprotected (c::name)) = true := by
    rw [Word.isName,Bool.and_eq_true,List.all_eq_true]
    refine ⟨fun m hm => ?_,hc⟩
    obtain ⟨d,hd,rfl⟩ := List.mem_map.mp hm
    rw [hname d hd]
    rfl
  unfold Word.assignment
  simp only [htake,hdrop,hall,if_true,text_unprotected,List.tail?_cons,Option.map_some]

theorem wordsOf_map_word (ws : List Word) : wordsOf (ws.map .word) = some ws := by
  induction ws with
  | nil => rfl
  | cons w ws ih => rw [List.map_cons,wordsOf,ih]; rfl

theorem command_of_word {w : Word} (hw : w.assignment = none) (ws : List Word) :
    command ((w::ws).map .word) = some ⟨[],w::ws⟩ := by
  rw [List.map_cons,command,hw]
  simp only
  rw [← List.map_cons (f := Token.word),wordsOf_map_word]
  rfl

theorem command_of_assignment {w : Word} {a : List Char × Word} (hw : w.assignment = some a)
    {tokens : List Token} {c : Command} (hc : command tokens = some c) :
    command (.word w::tokens) = some { c with assignments := a::c.assignments } := by
  rw [command,hw]
  simp only [hc,Option.map_some]

/-- Outside quotations the text adds these marks to the word it stands in, and nothing else. -/
def Reads (text : List Char) (w : Word) : Prop :=
  ∀ word, machine.state ⟨.bare,word⟩ text = ⟨.bare,some (word.getD [] ++ w)⟩ ∧
    machine.out ⟨.bare,word⟩ text = []

theorem Reads.append {text more : List Char} {w v : Word} (ht : Reads text w)
    (hm : Reads more v) : Reads (text++more) (w++v) := by
  intro word
  obtain ⟨hstate,hout⟩ := ht word
  obtain ⟨hstate',hout'⟩ := hm (some (word.getD [] ++ w))
  rw [Mealy.state_append,Mealy.out_append,hstate,hout,hstate',hout']
  simp

/-- The characters that stand for themselves wherever they stand. -/
def isPlain (c : Char) : Bool :=
  !isBlank c && !isOperator c && c ∉ [QUOTE,DOUBLE_QUOTE,BACKSLASH,'#']

theorem reads_plain {c : Char} (h : isPlain c = true) : Reads [c] [⟨c,false⟩] := by
  simp only [isPlain,Bool.and_eq_true,Bool.not_eq_true',decide_eq_true_eq,List.mem_cons,
    List.not_mem_nil,or_false,not_or] at h
  obtain ⟨⟨hblank,hoperator⟩,hquote,hdouble,hback,hhash⟩ := h
  intro word
  constructor
  · simp [machine,Mealy.state,Reader.next,Reader.add,hblank,hoperator,hquote,hdouble,hback,hhash]
  · simp [machine,Reader.emit,hblank,hoperator]

theorem reads_plain_text {cs : List Char} (hne : cs ≠ []) (h : ∀ c ∈ cs, isPlain c = true) :
    Reads cs (unprotected cs) := by
  induction cs with
  | nil => contradiction
  | cons c cs ih =>
    have hc := reads_plain (h c List.mem_cons_self)
    cases cs with
    | nil => exact hc
    | cons d cs => exact hc.append (ih (by simp) fun e he => h e (List.mem_cons_of_mem c he))

/-- A backslash makes any character but a newline stand for itself. -/
theorem reads_escaped {c : Char} (h : c ≠ '\n') : Reads [BACKSLASH,c] [⟨c,true⟩] := by
  intro word
  constructor
  · simp [machine,Mealy.state,Reader.next,Reader.add,h,isBlank,isOperator,BACKSLASH,QUOTE,
      DOUBLE_QUOTE]
  · simp [machine,Reader.emit,Reader.next,h,isBlank,isOperator,BACKSLASH,QUOTE,DOUBLE_QUOTE]

theorem single_quoted {cs : List Char} (h : QUOTE ∉ cs) (word : Word) :
    machine.state ⟨.single,some word⟩ cs = ⟨.single,some (word++protect cs)⟩ ∧
      machine.out ⟨.single,some word⟩ cs = [] := by
  induction cs generalizing word with
  | nil => exact ⟨by simp [protect],rfl⟩
  | cons c cs ih =>
    obtain ⟨hc,hcs⟩ := not_or.mp (List.mem_cons.not.mp h)
    have hnext : machine.next ⟨.single,some word⟩ c = ⟨.single,some (word++[⟨c,true⟩])⟩ := by
      simp [machine,Reader.next,Reader.add,Ne.symm hc]
    obtain ⟨hstate,hout⟩ := ih hcs (word++[⟨c,true⟩])
    rw [Mealy.state_cons,Mealy.out_cons,hnext,hstate,hout]
    exact ⟨by simp [protect],rfl⟩

/-- Between single quotes every character stands for itself. -/
theorem reads_singleQuoted {cs : List Char} (h : QUOTE ∉ cs) :
    Reads (QUOTE::cs++[QUOTE]) (protect cs) := by
  intro word
  have hopen : machine.next ⟨.bare,word⟩ QUOTE = ⟨.single,some (word.getD [])⟩ := by
    simp [machine,Reader.next,Reader.add,isBlank,isOperator,QUOTE]
  have hemit : machine.emit ⟨.bare,word⟩ QUOTE = [] := by
    simp [machine,Reader.emit,isBlank,isOperator,QUOTE]
  obtain ⟨hstate,hout⟩ := single_quoted h (word.getD [])
  rw [List.cons_append,Mealy.state_cons,Mealy.out_cons,hopen,hemit,Mealy.state_append,
    Mealy.out_append,hstate,hout]
  exact ⟨by simp [machine,Mealy.state,Reader.next,Reader.add],rfl⟩

theorem lex_of_reads {text : List Char} {w : Word} (h : Reads text w) :
    lex text = some [.word w] := by
  obtain ⟨hstate,hout⟩ := h none
  unfold lex Reader.fresh
  rw [hstate,hout]
  rfl

/-- A word and a blank: one token, and the lexer begins afresh. -/
theorem lex_of_reads_blank {text : List Char} {w : Word} (h : Reads text w) (more : List Char) :
    lex (text ++ ' '::more) = (lex more).map (.word w::·) := by
  obtain ⟨hstate,hout⟩ := h none
  have hnext : machine.next ⟨.bare,some w⟩ ' ' = .fresh := rfl
  have hemit : machine.emit ⟨.bare,some w⟩ ' ' = [.word w] := rfl
  have hstate' : machine.state .fresh (text ++ ' '::more) = machine.state .fresh more := by
    rw [Reader.fresh,Mealy.state_append,hstate]
    exact congrArg (machine.state · more) hnext
  have hout' : machine.out .fresh (text ++ ' '::more) = .word w::machine.out .fresh more := by
    rw [Reader.fresh,Mealy.out_append,hstate,hout]
    rfl
  unfold lex
  rw [hstate',hout']
  dsimp only
  split_ifs <;> rfl

/-- Words with a blank between any two are that many tokens. -/
theorem lex_intercalate {text : List Char} {w : Word} (h : Reads text w)
    {rest : List (List Char × Word)} (hrest : ∀ p ∈ rest, Reads p.1 p.2) :
    lex ([' '].intercalate (text::rest.map Prod.fst)) =
      some ((w::rest.map Prod.snd).map .word) := by
  induction rest generalizing text w with
  | nil =>
    rw [List.map_nil,List.intercalate_singleton]
    exact lex_of_reads h
  | cons p rest ih =>
    have hp := ih (hrest p List.mem_cons_self) fun q hq => hrest q (List.mem_cons_of_mem p hq)
    rw [List.map_cons,List.intercalate_cons_cons,List.append_assoc,List.singleton_append,
      lex_of_reads_blank h,hp]
    rfl

end PosixShell
