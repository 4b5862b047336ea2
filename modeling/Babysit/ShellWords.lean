import Babysit.Lib.PosixShell

/-! The command line that is handed to the remote shell. Whatever the arguments and the
terminal type contain, the shell reads them back as the words they are. -/
namespace Babysit
open PosixShell

/-- `value.replace('\'', "'\\''")`. -/
def escapeQuotes (value : List Char) : List Char :=
  value.flatMap fun c => if c = QUOTE then [QUOTE,BACKSLASH,QUOTE,QUOTE] else [c]

def shellQuote (value : List Char) : List Char :=
  if value = [] then [QUOTE,QUOTE] else QUOTE::escapeQuotes value ++ [QUOTE]

def remoteCommandWithTerm (args : List (List Char)) (term : Option (List Char)) : List Char :=
  let command := [' '].intercalate (("babysit".toList::args).map shellQuote)
  match term.filter (· ≠ []) with
  | some value => "TERM=".toList ++ shellQuote value ++ ' '::command
  | none => command

/-- The terminal type, if there is one that is not empty. -/
def passedTerm (term : Option (List Char)) : List (List Char) := (term.filter (· ≠ [])).toList

/-- The text between the quotes, behind a run that is already open. -/
theorem reads_escapeQuotes (value opened : List Char) (h : QUOTE ∉ opened) :
    Reads (QUOTE::opened ++ (escapeQuotes value ++ [QUOTE])) (protect (opened++value)) := by
  induction value generalizing opened with
  | nil =>
    rw [List.append_nil]
    exact reads_singleQuoted h
  | cons c value ih =>
    by_cases hc : c = QUOTE
    · -- the run is closed, the quote stands escaped, and a run is opened again
      subst hc
      have hreads := (reads_singleQuoted h).append
        ((reads_escaped (c := QUOTE) (by decide)).append (ih [] (by simp)))
      simpa [escapeQuotes,protect] using hreads
    · have hopened : QUOTE ∉ opened++[c] := by
        simp [h,Ne.symm hc]
      simpa [escapeQuotes,hc] using ih _ hopened

theorem reads_shellQuote (value : List Char) : Reads (shellQuote value) (protect value) := by
  have hreads := reads_escapeQuotes value [] (by simp)
  unfold shellQuote
  split_ifs with hempty
  · subst hempty
    exact hreads
  · exact hreads

/-- The assignment: a plain name, and the value quoted. -/
theorem reads_term (value : List Char) : Reads ("TERM=".toList ++ shellQuote value)
    (unprotected "TERM".toList ++ ⟨'=',false⟩::protect value) :=
  (reads_plain_text (by decide) (List.all_eq_true.mp (by decide))).append (reads_shellQuote value)

theorem lex_command (args : List (List Char)) :
    lex ([' '].intercalate (("babysit".toList::args).map shellQuote)) =
      some ((("babysit".toList::args).map protect).map .word) := by
  have hargs : ∀ p ∈ args.map fun a => (shellQuote a,protect a), Reads p.1 p.2 := by
    intro p hp
    obtain ⟨a,-,rfl⟩ := List.mem_map.mp hp
    exact reads_shellQuote a
  have h := lex_intercalate (reads_shellQuote "babysit".toList) hargs
  rw [List.map_map,List.map_map] at h
  exact h

theorem assignment_term (value : Word) :
    Word.assignment (unprotected "TERM".toList ++ ⟨'=',false⟩::value) =
      some ("TERM".toList,value) := by
  have hname : "TERM".toList = ['T','E','R','M'] := by decide
  rw [hname]
  exact assignment_of_name value (by decide) (List.all_eq_true.mp (by decide))

theorem command_protect (w : List Char) (ws : List (List Char)) :
    command (((w::ws).map protect).map .word) = some ⟨[],(w::ws).map protect⟩ :=
  command_of_word (assignment_protect w) (ws.map protect)

/-- The remote shell reads `babysit` and exactly the arguments, after one assignment of the
terminal type when there is one. Every character of them has lost its special meaning, and
no quotation is left open: the text is a simple command without operators, and nothing in
it expands. -/
theorem remote_words_survive (args : List (List Char)) (term : Option (List Char)) :
    parse (remoteCommandWithTerm args term) = some
      ⟨(passedTerm term).map fun value => ("TERM".toList,protect value),
        ("babysit".toList::args).map protect⟩ ∧
    ∀ c, parse (remoteCommandWithTerm args term) = some c → ¬c.Expands ∧
      c.assignments.map (fun a => (a.1,Word.text a.2)) = (passedTerm term).map (("TERM".toList,·)) ∧
      c.words.map Word.text = "babysit".toList::args := by
  have hparse : parse (remoteCommandWithTerm args term) = some
      ⟨(passedTerm term).map fun value => ("TERM".toList,protect value),
        ("babysit".toList::args).map protect⟩ := by
    unfold parse remoteCommandWithTerm passedTerm
    cases term.filter (· ≠ []) with
    | none =>
      simp only
      rw [lex_command,Option.bind_some,command_protect]
      rfl
    | some value =>
      simp only
      rw [lex_of_reads_blank (reads_term value),lex_command,Option.map_some,Option.bind_some,
        command_of_assignment (assignment_term _) (command_protect _ args)]
      rfl
  refine ⟨hparse,fun c hc => ?_⟩
  obtain rfl := Option.some.inj (hparse.symm.trans hc)
  refine ⟨?_,?_,?_⟩
  · rintro (⟨a,ha,hexpands⟩ | ⟨w,hw,hexpands⟩)
    · obtain ⟨value,-,rfl⟩ := List.mem_map.mp ha
      exact not_expands_protect value hexpands
    · obtain ⟨value,-,rfl⟩ := List.mem_map.mp hw
      exact not_expands_protect value hexpands
  · rw [List.map_map]
    simp [Function.comp_def]
  · rw [List.map_map]
    simp [Function.comp_def]

example : remoteCommandWithTerm ["run".toList,"it's".toList] (some "xterm".toList) =
    "TERM='xterm' 'babysit' 'run' 'it'\\''s'".toList := by decide +kernel

end Babysit
