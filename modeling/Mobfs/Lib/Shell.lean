import Mathlib.Data.List.Basic
/-!
# Words of a shell command

How a POSIX shell takes a command apart into words: blanks separate them, and backslashes
and both kinds of quotes take away the meaning of what they quote. A word is a list of
letters, each quoted or not; the expansions look at letters that are not.

The rules for quoted text are lemmas about `scan`; each holds in the middle of a word too, since
quotes neither begin nor end one.
-/

namespace Lib.Shell

/-- A letter of a word, and whether it stands for itself. -/
structure Letter where
  char : Char
  quoted : Bool
  deriving DecidableEq, Repr

inductive Quoting where
  | bare
  | escaped
  | single
  | double
  | doubleEscaped
  | comment
  deriving DecidableEq, Repr

def isBlank (c : Char) : Bool := c = ' ' || c = '\t'

/-- What ends the words of a command. -/
def isOperator (c : Char) : Bool := ['|', '&', ';', '<', '>', '(', ')', '\n'].contains c

/-- What begins an expansion inside double quotes: the dollar sign and the backquote. -/
def isActive (c : Char) : Bool := c = '$' || c = Char.ofNat 0x60

/-- The words up to the first operator, and what follows them. The second argument is the word
that is being read. Quotes that are not closed give no words. -/
def scan : Quoting → Option (List Letter) → List Char → Option (List (List Letter) × List Char)
  | .bare, word, [] => some (word.toList, [])
  | .comment, _, [] => some ([], [])
  | .escaped, _, [] | .single, _, [] | .double, _, [] | .doubleEscaped, _, [] => none
  | .bare, word, c :: text =>
    if c = '\\' then scan .escaped word text
    else if c = '\'' then scan .single (some (word.getD [])) text
    else if c = '"' then scan .double (some (word.getD [])) text
    else if isBlank c then (scan .bare none text).map fun r => (word.toList ++ r.1, r.2)
    else if isOperator c then some (word.toList, c :: text)
    else if c = '#' ∧ word = none then scan .comment none text
    else scan .bare (some (word.getD [] ++ [⟨c, false⟩])) text
  | .escaped, word, c :: text =>
    -- An escaped newline joins two lines.
    if c = '\n' then scan .bare word text else scan .bare (some (word.getD [] ++ [⟨c, true⟩])) text
  | .single, word, c :: text =>
    if c = '\'' then scan .bare word text else scan .single (some (word.getD [] ++ [⟨c, true⟩])) text
  | .double, word, c :: text =>
    if c = '"' then scan .bare word text
    else if c = '\\' then scan .doubleEscaped word text
    else scan .double (some (word.getD [] ++ [⟨c, !isActive c⟩])) text
  | .doubleEscaped, word, c :: text =>
    if c = '\n' then scan .double word text
    else if c = '"' ∨ c = '\\' ∨ isActive c then scan .double (some (word.getD [] ++ [⟨c, true⟩])) text
    else scan .double (some (word.getD [] ++ [⟨'\\', true⟩, ⟨c, true⟩])) text
  | .comment, _, c :: text => if c = '\n' then some ([], c :: text) else scan .comment none text

/-- A command has no NUL. -/
def words (text : List Char) : Option (List (List Letter) × List Char) :=
  if '\x00' ∈ text then none else scan .bare none text

/-- Begins an expansion of a word: of a variable, a command, a file name or a home directory. -/
def Letter.expands (l : Letter) : Bool := !l.quoted && (isActive l.char || ['*', '?', '[', '~'].contains l.char)

/-- The arguments, where no word is expanded. -/
def arguments (text : List Char) : Option (List (List Char) × List Char) :=
  (words text).bind fun r =>
    if r.1.any (·.any Letter.expands) then none else some (r.1.map (·.map Letter.char), r.2)

/-- The text as letters that stand for themselves. -/
def literal (text : List Char) : List Letter := text.map (⟨·, true⟩)

section Rules
variable {word : List Letter} {w : Option (List Letter)} {s text : List Char} {c : Char}

theorem literal_cons (c : Char) (s : List Char) : literal (c :: s) = ⟨c, true⟩ :: literal s := rfl

theorem map_char_literal (s : List Char) : (literal s).map Letter.char = s := by
  rw [literal, List.map_map]
  exact List.map_id s

theorem expands_literal (s : List Char) : (literal s).any Letter.expands = false := by
  simp [literal, Letter.expands]

theorem scan_quote : scan .bare w ('\'' :: text) = scan .single (some (w.getD [])) text := by
  simp [scan]

theorem scan_close : scan .single w ('\'' :: text) = scan .bare w text := by
  simp [scan]

theorem scan_single_cons (hc : c ≠ '\'') :
    scan .single (some word) (c :: text) = scan .single (some (word ++ [⟨c, true⟩])) text := by
  rw [scan, if_neg hc, Option.getD_some]

/-- What is between single quotes stands for itself. -/
theorem scan_single (hs : '\'' ∉ s) :
    scan .single (some word) (s ++ '\'' :: text) = scan .bare (some (word ++ literal s)) text := by
  induction s generalizing word with
  | nil =>
    rw [List.nil_append, scan_close, literal, List.map_nil, List.append_nil]
  | cons c s ih =>
    simp only [List.mem_cons, not_or] at hs
    rw [List.cons_append, scan_single_cons (Ne.symm hs.1), ih hs.2, literal_cons, List.append_assoc]
    rfl

theorem scan_escaped (hc : c ≠ '\n') : scan .bare w ('\\' :: c :: text) = scan .bare (some (w.getD [] ++ [⟨c, true⟩])) text := by
  rw [scan, if_pos rfl, scan, if_neg hc]

theorem scan_blank (hc : isBlank c = true) :
    scan .bare w (c :: text) = (scan .bare none text).map fun r => (w.toList ++ r.1, r.2) := by
  simp only [isBlank, Bool.or_eq_true, decide_eq_true_eq] at hc
  rcases hc with rfl | rfl <;> rfl

/-- The words end with the text, or at an operator. -/
theorem scan_end (h : ∀ c ∈ text.head?, isOperator c = true) : scan .bare w text = some (w.toList, text) := by
  cases text with
  | nil => rfl
  | cons c text =>
    have hc := h c rfl
    simp only [isOperator, List.contains_iff_mem, List.mem_cons, List.not_mem_nil, or_false] at hc
    rcases hc with rfl | rfl | rfl | rfl | rfl | rfl | rfl | rfl <;> rfl

theorem arguments_of_literal {args : List (List Char)} (h : words s = some (args.map literal, text)) :
    arguments s = some (args, text) := by
  have hany : (args.map literal).any (·.any Letter.expands) = false := by
    rw [List.any_map, List.any_eq_false]
    intro a _
    simp [expands_literal]
  have hmap : (args.map literal).map (·.map Letter.char) = args := by
    rw [List.map_map]
    exact (List.map_congr_left fun a _ => map_char_literal a).trans (List.map_id args)
  rw [arguments, h, Option.bind_some, hany, hmap]
  rfl

end Rules

/-- Three words: the quoted one has a blank, and the dollar sign in the last one is escaped. -/
example : arguments "ls 'a b'c \"\\$d\"; rm".toList = some (["ls".toList, "a bc".toList, "$d".toList], "; rm".toList) := by
  decide +kernel

/-- A variable is expanded in double quotes. -/
example : arguments "echo \"$HOME\"".toList = none := by decide +kernel

end Lib.Shell
