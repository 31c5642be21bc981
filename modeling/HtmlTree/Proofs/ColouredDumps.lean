import HtmlTree.Cli.Replay
import Mathlib.Data.List.Infix

/-!
# What the colours leave of a dump

A coloured dump is written in pieces: the codes that turn a style on and off, and what is shown
between them.  Without the codes it is the plain dump, but for one thing: a carriage return directly
before a line feed ends a line as the line feed alone does, so the return is lost.  It may come from
the data of a text or a comment, from a name or from the value of an attribute.

* `Piece`, `linePieces`, `dumpPieces`   the pieces of a line and of a dump;
* `dumpPieces_written`                  they are what is written;
* `withoutReturns`                      a text without the returns before its line feeds;
* `dumpPieces_shown`                    that is what they show of whole lines;
* `dump_complete`                       a dump consists of whole lines;
* `coloured_dump`                       **the colours add their codes only, unless there is such a
  return in the dump**.
-/

namespace HtmlTree.Cli

/-! ## pieces -/

/-- what a coloured dump is written in -/
inductive Piece where
  /-- the control sequence of a style, by its number -/
  | code (number : String)
  | text (shown : List Char)

namespace Piece

def written : Piece → List Char
  | code number => ("\x1b[" ++ number ++ "m").toList
  | text shown => shown

/-- what is left without the control sequences -/
def shown : Piece → List Char
  | code _ => []
  | text shown => shown

end Piece

/-- the codes around a line's content -/
def contentCodes (content : List Char) : String × String :=
  if "<!--".toList.isPrefixOf content then ("2", "0")
  else if "<!DOCTYPE".toList.isPrefixOf content then ("35", "39")
  else if "<".toList.isPrefixOf content then ("36", "39")
  else if "\"".toList.isPrefixOf content then ("32", "39")
  else ("33", "39")

/-- the codes of a line stand around its bar and around its content -/
def linePieces : List Char → List Piece
  | '|' :: ' ' :: rest =>
    let content := rest.dropWhile (· == ' ')
    [.code "2", .text ['|'], .code "0", .text (' ' :: rest.takeWhile (· == ' ')),
      .code (contentCodes content).1, .text content, .code (contentCodes content).2]
  | line => [.text line]

def dumpPieces (dump : List Char) : List Piece :=
  (splitLines dump).flatMap fun line => linePieces line ++ [.text ['\n']]

section
variable {line text rest : List Char}

theorem contentStyle_eq (content text : List Char) :
    contentStyle content text =
      styled (contentCodes content).1 (contentCodes content).2 text := by
  unfold contentStyle contentCodes
  split_ifs <;> rfl

theorem linePieces_written (line : List Char) :
    (linePieces line).flatMap Piece.written = colourLine line := by
  unfold linePieces
  split
  · simp [colourLine, contentStyle_eq, styled, dimmed, Piece.written]
  · rw [colourLine]
    · exact List.append_nil _
    · assumption

theorem linePieces_shown (line : List Char) : (linePieces line).flatMap Piece.shown = line := by
  unfold linePieces
  split
  · simp [Piece.shown]
  · exact List.append_nil _

/-- **The pieces are what is written.** -/
theorem dumpPieces_written (dump : List Char) :
    (dumpPieces dump).flatMap Piece.written = colourDump dump := by
  unfold dumpPieces colourDump
  rw [List.flatMap_assoc]
  refine List.flatMap_congr fun line _ => ?_
  rw [List.flatMap_append, linePieces_written]
  rfl

/-! ## lines -/

/-- a text without the carriage returns directly before its line feeds -/
def withoutReturns : List Char → List Char
  | [] => []
  | c :: rest =>
    if c = '\r' ∧ rest.head? = some '\n' then withoutReturns rest else c :: withoutReturns rest

/-- the text ends with a line feed, if it has any characters -/
def Complete (text : List Char) : Prop := ∀ c ∈ text.getLast?, c = '\n'

theorem Complete.tail (h : Complete (line ++ '\n' :: rest)) : Complete rest := by
  intro c hc
  refine h c ?_
  rw [Option.mem_def] at hc ⊢
  rw [List.getLast?_append, List.getLast?_cons, hc]
  rfl

theorem dropReturn_cons {c d : Char} :
    dropReturn (c :: d :: line) = c :: dropReturn (d :: line) := by
  unfold dropReturn
  rw [List.getLast?_cons_cons, List.dropLast_cons_cons]
  split <;> rfl

/-- a line feed ends a line along with the return before it -/
theorem withoutReturns_line (h : '\n' ∉ line) :
    withoutReturns (line ++ '\n' :: rest) = dropReturn line ++ '\n' :: withoutReturns rest := by
  induction line with
  | nil => rfl
  | cons c line ih =>
    have ih := ih fun hm => h (.tail _ hm)
    rw [List.cons_append, withoutReturns, ih]
    cases line with
    | nil =>
      by_cases hc : c = '\r'
      · rw [if_pos ⟨hc, rfl⟩, hc]
        rfl
      · rw [if_neg (hc ·.1)]
        have hkept : dropReturn [c] = [c] := if_neg fun he => hc (Option.some.inj he)
        rw [hkept]
        rfl
    | cons d line =>
      have hd : d ≠ '\n' := fun he => h (.tail _ (he ▸ .head _))
      rw [if_neg fun he => hd (Option.some.inj he.2), dropReturn_cons]
      rfl

theorem withoutReturns_length_le (text : List Char) :
    (withoutReturns text).length ≤ text.length := by
  induction text with
  | nil => exact Nat.le_refl _
  | cons c rest ih =>
    rw [withoutReturns]
    split <;> simp only [List.length_cons] <;> omega

/-- nothing is left out exactly if no return stands before a line feed -/
theorem withoutReturns_eq_self_iff (text : List Char) :
    withoutReturns text = text ↔ ¬['\r', '\n'] <:+: text := by
  induction text with
  | nil => simp [withoutReturns]
  | cons c rest ih =>
    have hprefix : ['\r', '\n'] <+: c :: rest ↔ c = '\r' ∧ rest.head? = some '\n' := by
      rw [List.cons_prefix_cons, List.singleton_prefix_iff_head?_eq_some, eq_comm]
    rw [withoutReturns, List.infix_cons_iff, hprefix]
    by_cases h : c = '\r' ∧ rest.head? = some '\n'
    · rw [if_pos h]
      refine iff_of_false (fun he => ?_) fun hno => hno (.inl h)
      have := withoutReturns_length_le rest
      have := congrArg List.length he
      rw [List.length_cons] at this
      omega
    · rw [if_neg h, List.cons_inj_right, ih, not_or, and_iff_right h]

/-- a text has a first line, or is one itself -/
theorem cutLine_cases (text : List Char) :
    cutLine text = (text, none) ∧ '\n' ∉ text ∨
      ∃ line rest, cutLine text = (line, some rest) ∧ '\n' ∉ line ∧ text = line ++ '\n' :: rest := by
  induction text with
  | nil => exact .inl ⟨rfl, List.not_mem_nil⟩
  | cons c text ih =>
    rw [cutLine]
    by_cases hc : c = '\n'
    · rw [if_pos hc]
      exact .inr ⟨[], text, rfl, List.not_mem_nil, by rw [hc]; rfl⟩
    · rw [if_neg hc]
      have hnot {l : List Char} (hl : '\n' ∉ l) : '\n' ∉ c :: l :=
        fun hm => (List.mem_cons.mp hm).elim (fun he => hc he.symm) hl
      rcases ih with ⟨hcut, hno⟩ | ⟨line, rest, hcut, hno, htext⟩
      · rw [hcut]
        exact .inl ⟨rfl, hnot hno⟩
      · rw [hcut, htext]
        exact .inr ⟨c :: line, rest, rfl, hnot hno, rfl⟩

/-- whole lines put together again, by induction on the limit, which is never met -/
theorem splitLinesUpTo_rejoined {limit : Nat} (hlimit : text.length ≤ limit) (h : Complete text) :
    (splitLinesUpTo limit text).flatMap (· ++ ['\n']) = withoutReturns text := by
  induction limit generalizing text with
  | zero =>
    rw [List.length_eq_zero_iff.mp (Nat.le_zero.mp hlimit)]
    rfl
  | succ limit ih =>
    cases text with
    | nil => rfl
    | cons c text =>
      rw [splitLinesUpTo]
      rcases cutLine_cases (c :: text) with ⟨_, hno⟩ | ⟨line, rest, hcut, hno, htext⟩
      · -- the last character of whole lines is a line feed
        have hlast := List.getLast?_eq_some_getLast (List.cons_ne_nil c text)
        have hmem := List.getLast_mem (List.cons_ne_nil c text)
        exact absurd (h _ hlast ▸ hmem) hno
      · rw [hcut, htext, withoutReturns_line hno]
        rw [htext] at h hlimit
        rw [List.length_append, List.length_cons] at hlimit
        show (dropReturn line :: splitLinesUpTo limit rest).flatMap _ = _
        rw [List.flatMap_cons, ih (by omega) h.tail, List.append_assoc]
        rfl
      · exact nofun

/-- **The pieces of whole lines show them without the returns before their line feeds.** -/
theorem dumpPieces_shown (h : Complete text) :
    (dumpPieces text).flatMap Piece.shown = withoutReturns text := by
  rw [← splitLinesUpTo_rejoined (Nat.le_refl _) h]
  unfold dumpPieces splitLines
  rw [List.flatMap_assoc]
  refine List.flatMap_congr fun line _ => ?_
  rw [List.flatMap_append, linePieces_shown]
  rfl

end

/-! ## documents -/

section
variable {t : Tree} {limit depth : Nat} {id : NodeId}

/-- every line of a subtree is made as a line, by induction on the limit -/
theorem linesFrom_eq_dumpLine {line : String} (h : line ∈ t.linesFrom limit depth id) :
    ∃ depth content, line = dumpLine depth content := by
  induction limit generalizing depth id with
  | zero => exact absurd h List.not_mem_nil
  | succ limit ih =>
    unfold Tree.linesFrom at h
    split at h
    · exact absurd h List.not_mem_nil
    · rename_i n _
      rcases List.mem_append.mp h with h | h
      · rcases List.mem_append.mp h with h | h
        · obtain ⟨content, _, rfl⟩ := List.mem_map.mp h
          exact ⟨_, content, rfl⟩
        · obtain ⟨content, _, rfl⟩ := List.mem_map.mp h
          exact ⟨_, content, rfl⟩
      · obtain ⟨child, _, h⟩ := List.mem_flatMap.mp h
        exact ih h

theorem complete_dumpLine (depth : Nat) (content : String) :
    Complete (dumpLine depth content).toList := by
  intro c hc
  unfold dumpLine at hc
  rw [String.toList_append, List.getLast?_append] at hc
  exact (Option.some.inj hc).symm

theorem Complete.append {a b : List Char} (ha : Complete a) (hb : Complete b) :
    Complete (a ++ b) := by
  intro c hc
  rw [Option.mem_def, List.getLast?_append, Option.or_eq_some_iff] at hc
  rcases hc with hc | ⟨_, hc⟩
  · exact hb c hc
  · exact ha c hc

theorem complete_join {lines : List String} (h : ∀ line ∈ lines, Complete line.toList) :
    Complete (String.join lines).toList := by
  rw [String.toList_join]
  induction lines with
  | nil => exact fun _ h => nomatch h
  | cons line lines ih =>
    rw [List.flatMap_cons]
    exact (h line (.head _)).append (ih fun l hl => h l (.tail _ hl))

/-- **A dump consists of whole lines.** -/
theorem dump_complete (t : Tree) : Complete t.dump.toList := by
  refine complete_join fun line hline => ?_
  obtain ⟨child, _, hline⟩ := List.mem_flatMap.mp hline
  obtain ⟨depth, content, rfl⟩ := linesFrom_eq_dumpLine hline
  exact complete_dumpLine depth content

end

/-- **The colours add their codes only, unless a carriage return stands before a line feed.**  A
document is printed in pieces.  Without the codes they show its dump, which is what is printed
without colours, but for the returns directly before line feeds; so they show all of it exactly if it
has none. -/
theorem coloured_dump (s : Settings) (t : Tree) :
    let pieces := dumpPieces t.dump.toList
    { s with json := false, plain := true }.render t = t.dump ∧
    { s with json := false, plain := false }.render t =
      String.ofList (pieces.flatMap Piece.written) ∧
    pieces.flatMap Piece.shown = withoutReturns t.dump.toList ∧
    (pieces.flatMap Piece.shown = t.dump.toList ↔ ¬['\r', '\n'] <:+: t.dump.toList) := by
  intro pieces
  have hshown : pieces.flatMap Piece.shown = withoutReturns t.dump.toList :=
    dumpPieces_shown (dump_complete t)
  refine ⟨rfl, ?_, hshown, ?_⟩
  · rw [dumpPieces_written]
    rfl
  · rw [hshown]
    exact withoutReturns_eq_self_iff _

/-- a text of three lines, the second of which ends with a return that is not shown -/
theorem coloured_dump_return :
    let tokens := [.doctypeNamed "html", .startTagNamed "p"] ++
      "a\nb\r\nc".toList.map Token.character ++ [.endOfFile]
    let shown (t : Tree) := String.ofList ((dumpPieces t.dump.toList).flatMap Piece.shown)
    (construct tokens).map Tree.dump =
      .ok ("| <!DOCTYPE html>\n| <html>\n|   <head>\n|   <body>\n|     <p>\n" ++
        "|       \"a\nb\r\nc\"\n") ∧
    (construct tokens).map shown =
      .ok ("| <!DOCTYPE html>\n| <html>\n|   <head>\n|   <body>\n|     <p>\n" ++
        "|       \"a\nb\nc\"\n") ∧
    (construct tokens).map shown ≠ (construct tokens).map Tree.dump := by
  intro tokens shown
  have hdump : (construct tokens).map Tree.dump =
      .ok ("| <!DOCTYPE html>\n| <html>\n|   <head>\n|   <body>\n|     <p>\n" ++
        "|       \"a\nb\r\nc\"\n") := by decide +kernel
  have hshown : (construct tokens).map shown =
      .ok ("| <!DOCTYPE html>\n| <html>\n|   <head>\n|   <body>\n|     <p>\n" ++
        "|       \"a\nb\nc\"\n") := by decide +kernel
  refine ⟨hdump, hshown, ?_⟩
  rw [hdump, hshown]
  decide +kernel

end HtmlTree.Cli
