import Mathlib.Data.String.Basic
import Mobfs.Lib.Shell
/-!
# Commands for the builder

The arguments of a build are put in single quotes and sent to the builder as one text, which
the shell there takes apart again. A quote in an argument closes the quotes, stands escaped and opens
them anew, all in one word (`scan_shellQuote`), so the words come out as they went in.
-/

namespace Mobfs

open Lib.Shell

/-- `str::replace`, of one character. -/
def replaceChar (value : String) (c : Char) (new : String) : String :=
  String.ofList (value.toList.flatMap fun d => if d = c then new.toList else [d])

def shellQuote (value : String) : String := "'" ++ replaceChar value '\'' "'\\''" ++ "'"

def shellWords (words : List String) : String := " ".intercalate (words.map shellQuote)

section Quote
variable {s text : List Char} {w : Option (List Letter)} {word : List Letter}

/-- The characters of an argument between the quotes. -/
def escapeQuotes (s : List Char) : List Char := s.flatMap fun d => if d = '\'' then ['\'', '\\', '\'', '\''] else [d]

theorem toList_shellQuote (value : String) : (shellQuote value).toList = '\'' :: escapeQuotes value.toList ++ ['\''] := by
  simp [shellQuote, replaceChar, escapeQuotes]

/-- A quote closes the quotes, stands escaped outside, and opens them again. -/
theorem scan_quoted_quote :
    scan .single (some word) ('\'' :: '\\' :: '\'' :: '\'' :: text) = scan .single (some (word ++ [⟨'\'', true⟩])) text := by
  rw [scan_close, scan_escaped (by decide), scan_quote]
  rfl

theorem scan_escapeQuotes :
    scan .single (some word) (escapeQuotes s ++ '\'' :: text) = scan .bare (some (word ++ literal s)) text := by
  induction s generalizing word with
  | nil => exact scan_single List.not_mem_nil
  | cons c s ih =>
    rw [escapeQuotes, List.flatMap_cons, ← escapeQuotes, literal_cons]
    by_cases hc : c = '\''
    · rw [if_pos hc, hc]
      simp only [List.cons_append, List.nil_append]
      rw [scan_quoted_quote, ih, List.append_assoc]
      rfl
    · rw [if_neg hc]
      simp only [List.cons_append, List.nil_append]
      rw [scan_single_cons hc, ih, List.append_assoc]
      rfl

theorem scan_shellQuote (value : String) :
    scan .bare w ((shellQuote value).toList ++ text) = scan .bare (some (w.getD [] ++ literal value.toList)) text := by
  rw [toList_shellQuote, List.append_assoc, List.cons_append, List.singleton_append, scan_quote, scan_escapeQuotes]

end Quote

/-- The words are read back, up to the operator that follows them. -/
theorem scan_shellWords (args : List String) {text : List Char} (htext : ∀ c ∈ text.head?, isOperator c = true) :
    scan .bare none ((shellWords args).toList ++ text) = some (args.map fun a => literal a.toList, text) := by
  induction args with
  | nil => exact scan_end htext
  | cons a args ih =>
    cases args with
    | nil =>
      rw [shellWords, List.map_singleton, String.intercalate_singleton, scan_shellQuote, scan_end htext]
      rfl
    | cons b args =>
      have hspace : (shellWords (a :: b :: args)).toList ++ text =
          (shellQuote a).toList ++ ' ' :: ((shellWords (b :: args)).toList ++ text) := by
        simp [shellWords, List.append_assoc]
      rw [hspace, scan_shellQuote, scan_blank rfl, ih]
      rfl

theorem nul_not_mem_shellQuote {value : String} (h : '\x00' ∉ value.toList) : '\x00' ∉ (shellQuote value).toList := by
  rw [toList_shellQuote]
  simp only [escapeQuotes, List.cons_append, List.mem_cons, List.mem_append, List.mem_flatMap, List.not_mem_nil, or_false]
  rintro (hq | ⟨d, hd, hc⟩ | hq)
  · cases hq
  · split at hc
    · simp at hc
    · obtain rfl := List.mem_singleton.1 hc
      exact h hd
  · cases hq

theorem nul_not_mem_shellWords {args : List String} (h : ∀ a ∈ args, '\x00' ∉ a.toList) : '\x00' ∉ (shellWords args).toList := by
  induction args with
  | nil => exact List.not_mem_nil
  | cons a args ih =>
    have ha := nul_not_mem_shellQuote (h a List.mem_cons_self)
    cases args with
    | nil => rwa [shellWords, List.map_singleton, String.intercalate_singleton]
    | cons b args =>
      have hrest := ih fun c hc => h c (List.mem_cons_of_mem _ hc)
      have hspace : (shellWords (a :: b :: args)).toList = (shellQuote a).toList ++ ' ' :: (shellWords (b :: args)).toList := by
        simp [shellWords, List.append_assoc]
      rw [hspace, List.mem_append, List.mem_cons, not_or, not_or]
      exact ⟨ha, by decide, hrest⟩

theorem words_shellWords {args : List String} (hargs : ∀ a ∈ args, '\x00' ∉ a.toList) {text : List Char}
    (htext : ∀ c ∈ text.head?, isOperator c = true) (hnul : '\x00' ∉ text) :
    words ((shellWords args).toList ++ text) = some (args.map fun a => literal a.toList, text) := by
  rw [words, if_neg (by rw [List.mem_append, not_or]; exact ⟨nul_not_mem_shellWords hargs, hnul⟩), scan_shellWords args htext]

theorem arguments_shellWords {args : List String} (hargs : ∀ a ∈ args, '\x00' ∉ a.toList) {text : List Char}
    (htext : ∀ c ∈ text.head?, isOperator c = true) (hnul : '\x00' ∉ text) :
    arguments ((shellWords args).toList ++ text) = some (args.map String.toList, text) := by
  apply arguments_of_literal
  rw [words_shellWords hargs htext hnul, List.map_map]
  rfl

/-- The shell reads the arguments back from the text that is sent, at its end or before an operator:
every letter stands for itself, and nothing is expanded. -/
theorem shell_words_unchanged (args : List String) (hargs : ∀ a ∈ args, '\x00' ∉ a.toList) :
    words (shellWords args).toList = some (args.map fun a => literal a.toList, []) ∧
      arguments (shellWords args).toList = some (args.map String.toList, []) ∧
      (∀ (c : Char) (text : List Char), isOperator c = true → '\x00' ∉ c :: text →
        arguments ((shellWords args).toList ++ c :: text) = some (args.map String.toList, c :: text)) ∧
      ∀ value : String, '\x00' ∉ value.toList →
        words (shellQuote value).toList = some ([literal value.toList], []) ∧
          arguments (shellQuote value).toList = some ([value.toList], []) := by
  have hend : ∀ c ∈ ([] : List Char).head?, isOperator c = true := fun c hc => by cases hc
  have hwords {l : List String} (hl : ∀ a ∈ l, '\x00' ∉ a.toList) := words_shellWords hl hend List.not_mem_nil
  have harguments {l : List String} (hl : ∀ a ∈ l, '\x00' ∉ a.toList) := arguments_shellWords hl hend List.not_mem_nil
  simp only [List.append_nil] at hwords harguments
  refine ⟨hwords hargs, harguments hargs, fun c text hc hnul => ?_, fun value hvalue => ?_⟩
  · apply arguments_shellWords hargs _ hnul
    rintro _ ⟨⟩
    exact hc
  · have hone : ∀ a ∈ [value], '\x00' ∉ a.toList := by simpa using hvalue
    have hquote : shellWords [value] = shellQuote value := by rw [shellWords, List.map_singleton, String.intercalate_singleton]
    rw [← hquote]
    exact ⟨hwords hone, harguments hone⟩

/-- A quote, a dollar sign, an empty argument and a newline. -/
theorem shell_words_unchanged_quotes :
    arguments (shellWords ["it's", "$HOME\\", "", "a\nb"]).toList = some (["it's", "$HOME\\", "", "a\nb"].map String.toList, []) :=
  (shell_words_unchanged ["it's", "$HOME\\", "", "a\nb"] (by decide)).2.1

end Mobfs
