import Cookbook.Lib.Pieces
import Cookbook.ModSecurity.Phrases.PhraseLines

/-!
# Loaded phrases

The lines of a list that are neither blank nor comments are its phrases.  A
file and a download of the same text give these phrases just when every line
is one that neither of the two loaders changes or drops.
-/

namespace Cookbook.ModSecurity.Phrases

open Cookbook.Lib.CText
open Cookbook.Lib.Pieces
open Cookbook.Lib.Words
open Cookbook.ModSecurity.Mlogc (newline writeLine)
open Cookbook.ModSecurity.Text
open Cookbook.ModSecurity.TextLines

def HasPhrase (line : Bytes) : Prop :=
  line.all isSpace = false ∧ line.head? ≠ some 0x23

instance (line : Bytes) : Decidable (HasPhrase line) :=
  inferInstanceAs (Decidable (line.all isSpace = false ∧ line.head? ≠ some 0x23))

def phraseLines (lines : List Bytes) : List Bytes :=
  (lines.filter HasPhrase).map trimmed

structure IsName (fn : Bytes) : Prop where
  nonempty : fn ≠ []
  noZero : 0 ∉ fn
  noSpace : ∀ c ∈ fn, isSpace c = false

structure LoadsPhrases (behind : Bytes) (parts : LineText) : Prop where
  file : ∀ (sources : PhraseSources) (filename fn : Bytes), IsName fn →
      ¬ HasScheme httpScheme fn → ¬ HasScheme httpsScheme fn →
        sources.openFile (sources.merge (rulefilePath filename) fn) =
            .ok { content := parts.text, error := none } →
          addedPatterns behind sources filename fn = some (.ok (some (phraseLines parts.all)))
  uri : ∀ (sources : PhraseSources) (filename fn : Bytes), IsName fn →
      HasScheme httpsScheme fn → sources.download fn = .content parts.text →
          ∃ patterns, addedPatterns behind sources filename fn =
              some (.ok (some patterns)) ∧
              ∀ pattern, pattern ∈ patterns ↔ pattern ∈ phraseLines parts.all

section

variable {behind filename fn text : Bytes} {sources : PhraseSources}

theorem addedPatterns_name (isName : IsName fn) : addedPatterns behind sources filename fn =
    loadLists behind sources filename [fn] [] := by
  have whole : cString fn = fn := cString_eq_self isName.noZero
  rw [addedPatterns, whole, if_neg isName.nonempty, words_word isName.nonempty isName.noSpace]

theorem addedPatterns_file
    (isName : IsName fn) (noHttp : ¬ HasScheme httpScheme fn)
    (noHttps : ¬ HasScheme httpsScheme fn)
    (opens : sources.openFile (sources.merge (rulefilePath filename) fn) =
        .ok { content := text, error := none }) :
    addedPatterns behind sources filename fn =
      (filePatterns behind text).map fun patterns => .ok (some patterns) := by
  rw [addedPatterns_name isName, loadLists, if_neg noHttp, if_neg noHttps, loadFile, opens]
  dsimp only
  cases filePatterns behind text <;> rfl

theorem not_http_of_https (isHttps : HasScheme httpsScheme fn) :
    ¬ HasScheme httpScheme fn := by
  rintro ⟨-, isHttp⟩
  have longer := List.prefix_of_prefix_length_le isHttp isHttps.2 (by decide)
  revert longer
  decide

theorem addedPatterns_uri
    (isName : IsName fn) (isHttps : HasScheme httpsScheme fn)
    (downloads : sources.download fn = .content text) :
    addedPatterns behind sources filename fn = some (.ok (some (uriPatterns text))) := by
  rw [addedPatterns_name isName, loadLists, if_neg (not_http_of_https isHttps),
    if_pos isHttps, downloads]
  rfl

theorem loadsPhrases_iff_patterns (parts : LineText) : LoadsPhrases behind parts ↔
    filePatterns behind parts.text = some (phraseLines parts.all) ∧ ∀ pattern,
        pattern ∈ uriPatterns parts.text ↔ pattern ∈ phraseLines parts.all := by
  constructor
  · intro loads
    let sources : PhraseSources :=
      { merge := fun _ fn => fn
        openFile := fun _ => .ok { content := parts.text, error := none }
        download := fun _ => .content parts.text }
    have fileName : IsName [0x61] :=
      ⟨by decide, by decide, List.forall_mem_singleton.mpr rfl⟩
    have noSpace : (httpsScheme ++ [0x61]).all (fun c => !isSpace c) = true :=
      by decide
    rw [List.all_eq_true] at noSpace
    have uriName : IsName (httpsScheme ++ [0x61]) :=
      ⟨by decide, by decide, fun c member => by simpa using noSpace c member⟩
    constructor
    · have loaded := loads.file sources [] [0x61] fileName (by decide) (by decide) rfl
      rw [addedPatterns_file fileName (by decide) (by decide) rfl] at loaded
      obtain ⟨patterns, isFile, same⟩ := Option.map_eq_some_iff.mp loaded
      rw [isFile]
      cases same
      rfl
    · obtain ⟨patterns, loaded, same⟩ :=
        loads.uri sources [] (httpsScheme ++ [0x61]) uriName (by decide) rfl
      rw [addedPatterns_uri uriName (by decide) rfl] at loaded
      cases loaded
      exact same
  · rintro ⟨file, uri⟩
    constructor
    · intro sources filename fn isName noHttp noHttps opens
      rw [addedPatterns_file isName noHttp noHttps opens, file]
      rfl
    · intro sources filename fn isName isHttps downloads
      exact ⟨_, addedPatterns_uri isName isHttps downloads, uri⟩

end

/-- The line is read without its newline. -/
def Bare (entry : Bytes × Bool) : Prop :=
  entry.2 = false ∨ hugeStringLen ≤ entry.1.length + 1

instance (entry : Bytes × Bool) : Decidable (Bare entry) :=
  inferInstanceAs (Decidable (entry.2 = false ∨ hugeStringLen ≤ entry.1.length + 1))

def LoadsEntry (entry : Bytes × Bool) : Prop :=
  entry.1 = [] ∨ entry.1.head? = some 0x23 ∨
    Tight entry.1 ∧ 2 ≤ entry.1.length ∧ (Bare entry → ¬ Quoted entry.1)

def Settled (line : Bytes) : Prop :=
  line = [] ∨ line.head? = some 0x23 ∨ Tight line

theorem settled_of_loadsEntry
    {entry : Bytes × Bool} (loads : LoadsEntry entry) : Settled entry.1 :=
  loads.imp_right fun loads => loads.imp_right fun loads => loads.1

def entryPatterns (entry : Bytes × Bool) : List Bytes :=
  (readEntry entry).filterMap plainPattern

def linePhrases (line : Bytes) : List Bytes :=
  if HasPhrase line then [trimmed line] else []

theorem phraseLines_eq_flatMap (lines : List Bytes) :
    phraseLines lines = lines.flatMap linePhrases := by
  induction lines with
  | nil => rfl
  | cons line lines ih =>
    rw [List.flatMap_cons, ← ih, phraseLines, phraseLines, linePhrases, List.filter_cons]
    by_cases hasPhrase : HasPhrase line
    · simp [hasPhrase]
    · simp [hasPhrase]

section

variable {entry : Bytes × Bool}

theorem entryPatterns_of_tight (tight : Tight entry.1) : entryPatterns entry =
    (if Bare entry then plainPattern entry.1
      else plainPattern (writeLine entry.1)).toList := by
  obtain ⟨line, ended⟩ := entry
  have noPattern : plainPattern [newline] = none := by decide
  have nonempty : line ≠ [] := tight.nonempty
  unfold entryPatterns
  cases ended with
  | true =>
    rw [readEntry, readLine]
    by_cases fits : line.length + 1 < hugeStringLen
    · have notBare : ¬ Bare (line, true) := by
        rintro (wrong | wrong)
        · cases wrong
        · exact absurd fits (Nat.not_lt.mpr wrong)
      rw [if_pos fits, if_neg notBare, List.filterMap_cons]
      cases plainPattern (writeLine line) <;> rfl
    · have isBare : Bare (line, true) := Or.inr (Nat.not_lt.mp fits)
      rw [if_neg fits, if_pos isBare, List.filterMap_cons]
      cases plainPattern line <;> simp [noPattern]
  | false =>
    have isBare : Bare (line, false) := Or.inl rfl
    rw [readEntry, if_neg nonempty, if_pos isBare, List.filterMap_cons]
    cases plainPattern line <;> rfl

theorem entryPatterns_of_nil (empty : entry.1 = []) : entryPatterns entry = [] := by
  obtain ⟨line, ended⟩ := entry
  subst empty
  cases ended <;> decide

theorem entryPatterns_of_comment (isComment : entry.1.head? = some 0x23) :
    entryPatterns entry = [] := by
  rw [entryPatterns, List.filterMap_eq_nil_iff]
  intro buf member
  rcases mem_readEntry member with rfl | rfl | rfl
  · exact plainPattern_comment isComment
  · decide
  · refine plainPattern_comment ?_
    obtain ⟨tail, isLine⟩ := List.head?_eq_some_iff.mp isComment
    rw [isLine]
    rfl

theorem linePhrases_of_tight
    (tight : Tight entry.1) (noComment : entry.1.head? ≠ some 0x23) :
    linePhrases entry.1 = [entry.1] := by
  rw [linePhrases, if_pos ⟨tight.notBlank, noComment⟩, tight.trimmed]

theorem entryPatterns_settled (settled : Settled entry.1) :
    (entryPatterns entry).length ≤ (linePhrases entry.1).length ∧
      (entryPatterns entry = linePhrases entry.1 ↔ LoadsEntry entry) := by
  by_cases empty : entry.1 = []
  · have nothing : linePhrases entry.1 = [] := by
      rw [empty]
      rfl
    rw [entryPatterns_of_nil empty, nothing]
    exact ⟨Nat.le_refl _, iff_of_true rfl (Or.inl empty)⟩
  · by_cases isComment : entry.1.head? = some 0x23
    · have nothing : linePhrases entry.1 = [] :=
        if_neg fun hasPhrase => hasPhrase.2 isComment
      rw [entryPatterns_of_comment isComment, nothing]
      exact ⟨Nat.le_refl _, iff_of_true rfl (Or.inr (Or.inl isComment))⟩
    · have tight : Tight entry.1 := (settled.resolve_left empty).resolve_left isComment
      have loads_iff : LoadsEntry entry ↔
          2 ≤ entry.1.length ∧ (Bare entry → ¬ Quoted entry.1) := by
        constructor
        · intro loads
          exact ((loads.resolve_left empty).resolve_left isComment).2
        · intro loads
          exact Or.inr (Or.inr ⟨tight, loads⟩)
      rw [loads_iff, linePhrases_of_tight tight isComment,
        entryPatterns_of_tight tight, Option.toList_eq_singleton_iff]
      refine ⟨Option.length_toList_le, ?_⟩
      have added : Phrases.contentPattern entry.1 = some entry.1 ↔ 2 ≤ entry.1.length := by
        rw [tight.contentPattern]
        split
        · rename_i short
          have short := short.resolve_right isComment
          exact iff_of_false (Option.some_ne_none _).symm (Nat.not_le.mpr short)
        · rename_i long
          exact iff_of_true rfl (Nat.not_lt.mp fun short => long (Or.inl short))
      by_cases isBare : Bare entry
      · rw [if_pos isBare]
        by_cases quoted : Quoted entry.1
        · exact iff_of_false (tight.plainPattern_of_quoted quoted)
              fun loads => loads.2 isBare quoted
        · rw [tight.plainPattern_of_not_quoted quoted, added]
          exact (and_iff_left fun _ => quoted).symm
      · rw [if_neg isBare, tight.plainPattern_writeLine, added]
        exact (and_iff_left fun wrong => absurd wrong isBare).symm

end

/-! ## The lists -/

section

variable {behind : Bytes} {parts : LineText}

theorem mem_uriPatterns (noZero : 0 ∉ parts.text) (line : Bytes) :
    line ∈ uriPatterns parts.text ↔ line ∈ parts.all ∧ line ≠ [] ∧ line.head? ≠ some 0x23 := by
  rw [uriPatterns, cString_eq_self noZero, strtokLines_text, List.mem_filter,
    List.mem_filter, decide_eq_true_iff, decide_eq_true_iff, and_assoc]

theorem uriPatterns_iff (noZero : 0 ∉ parts.text) : (∀ pattern,
    pattern ∈ uriPatterns parts.text ↔ pattern ∈ phraseLines parts.all) ↔
      ∀ line ∈ parts.all, Settled line := by
  constructor
  · intro same line member
    by_cases empty : line = []
    · exact Or.inl empty
    · by_cases isComment : line.head? = some 0x23
      · exact Or.inr (Or.inl isComment)
      · have isPhrase := (same line).mp
            ((mem_uriPatterns noZero line).mpr ⟨member, empty, isComment⟩)
        obtain ⟨origin, isOrigin, rfl⟩ := List.mem_map.mp isPhrase
        have hasPhrase := of_decide_eq_true (List.mem_filter.mp isOrigin).2
        exact Or.inr (Or.inr (tight_trimmed hasPhrase.1))
  · intro settled pattern
    rw [mem_uriPatterns noZero]
    constructor
    · rintro ⟨member, nonempty, noComment⟩
      have tight : Tight pattern :=
        ((settled pattern member).resolve_left nonempty).resolve_left noComment
      refine List.mem_map.mpr ⟨pattern, ?_, tight.trimmed⟩
      exact List.mem_filter.mpr ⟨member, decide_eq_true ⟨tight.notBlank, noComment⟩⟩
    · intro isPhrase
      obtain ⟨line, isLine, rfl⟩ := List.mem_map.mp isPhrase
      obtain ⟨member, isPhrase⟩ := List.mem_filter.mp isLine
      have hasPhrase : HasPhrase line := of_decide_eq_true isPhrase
      have nonempty : line ≠ [] := by
        rintro rfl
        cases hasPhrase.1
      have tight : Tight line :=
        ((settled line member).resolve_left nonempty).resolve_left hasPhrase.2
      rw [tight.trimmed]
      exact ⟨member, nonempty, hasPhrase.2⟩

structure Literal (text : Bytes) : Prop where
  noZero : 0 ∉ text
  noBar : 0x7c ∉ text
  noBackslash : 0x5c ∉ text

theorem dropWhile_writeLine (line : Bytes) :
    (writeLine line).dropWhile isSpace ≠ [0x22] := by
  intro isQuote
  have ends := List.dropWhile_suffix isSpace (l := writeLine line)
  rw [isQuote] at ends
  obtain ⟨front, same⟩ := ends
  have last := congrArg List.getLast? same
  rw [writeLine, List.getLast?_concat, List.getLast?_concat] at last
  cases last

theorem eq_quote_of_settled {line : Bytes} (settled : Settled line)
    (isQuote : line.dropWhile isSpace = [0x22]) : line = [0x22] := by
  rcases settled with rfl | isComment | tight
  · cases isQuote
  · obtain ⟨tail, rfl⟩ := List.head?_eq_some_iff.mp isComment
    cases isQuote
  · have kept := tight.dropWhile []
    rw [List.append_nil] at kept
    exact kept.symm.trans isQuote

theorem eq_quote_of_read
    {entry : Bytes × Bool} (settled : Settled entry.1) {buf : Bytes}
    (isRead : buf ∈ readEntry entry) (isQuote : buf.dropWhile isSpace = [0x22]) :
    buf = [0x22] ∧ entry.1 = [0x22] := by
  rcases mem_readEntry isRead with rfl | rfl | rfl
  · have same := eq_quote_of_settled settled isQuote
    exact ⟨same, same⟩
  · cases isQuote
  · exact absurd isQuote (dropWhile_writeLine entry.1)

theorem mem_all {entry : Bytes × Bool} (member : entry ∈ parts.entries) :
    entry.1 ∈ parts.all := by
  rw [← parts.map_fst_entries]
  exact List.mem_map_of_mem member

theorem linePattern_entry (literal : Literal parts.text) (short : parts.Short)
    {entry : Bytes × Bool} (member : entry ∈ parts.entries) {buf : Bytes}
    (isRead : buf ∈ readEntry entry) (notQuote : buf.dropWhile isSpace ≠ [0x22]) :
    linePattern behind buf = some (plainPattern buf) := by
  have inside := parts.subset_text entry.1 (mem_all member)
  have fits : entry.1.length < hugeStringLen := short entry.1 (mem_all member)
  have isHuge : hugeStringLen = 8192 := rfl
  have literalLine : Literal entry.1 := ⟨fun isByte => literal.noZero (inside isByte),
      fun isByte => literal.noBar (inside isByte),
      fun isByte => literal.noBackslash (inside isByte)⟩
  obtain ⟨noZero, noBar, noBackslash⟩ := literalLine
  rcases mem_readEntry isRead with rfl | rfl | rfl
  · exact linePattern_plain noZero noBar noBackslash (by omega) notQuote
  · exact linePattern_plain (by decide) (by decide) (by decide) (by decide) (by decide)
  · refine linePattern_plain ?_ ?_ ?_ ?_ ?_
    · simp [writeLine, noZero, newline]
    · simp [writeLine, noBar, newline]
    · simp [writeLine, noBackslash, newline]
    · rw [writeLine, List.length_append, List.length_singleton]
      omega
    · exact notQuote

theorem filePatterns_eq (literal : Literal parts.text) (short : parts.Short)
    (notQuote : ∀ buf ∈ parts.entries.flatMap readEntry, buf.dropWhile isSpace ≠ [0x22]) :
    filePatterns behind parts.text = some (parts.entries.flatMap entryPatterns) := by
  have isRead : ∀ buf ∈ parts.entries.flatMap readEntry,
      linePattern behind buf = some (plainPattern buf) := by
    intro buf member
    obtain ⟨entry, isEntry, isRead⟩ := List.mem_flatMap.mp member
    exact linePattern_entry literal short isEntry isRead (notQuote buf member)
  have isKept (patterns : List (Option Bytes)) :
      patterns.reduceOption = patterns.filterMap id :=
    rfl
  rw [filePatterns, readLines_text parts short (Nat.le_refl _),
    mapM_eq_map isRead, Option.map_some, isKept, List.filterMap_map,
    Function.id_comp, List.filterMap_flatMap]
  rfl

/-- A phrase list is loaded, from a file and from an address, when each of its
lines is empty, a comment, or a text of two letters or more without white space
around it, which has no quotes around it when it is read without its
newline. -/
theorem loadsPhrases_iff
    (literal : Literal parts.text) (short : parts.Short) :
    LoadsPhrases behind parts ↔ ∀ entry ∈ parts.entries, LoadsEntry entry := by
  have all : phraseLines parts.all =
      parts.entries.flatMap fun entry => linePhrases entry.1 := by
    rw [← parts.map_fst_entries, phraseLines_eq_flatMap, List.flatMap_map]
  have settled_iff :
      (∀ line ∈ parts.all, Settled line) ↔ ∀ entry ∈ parts.entries, Settled entry.1 := by
    rw [← parts.map_fst_entries, List.forall_mem_map]
  rw [loadsPhrases_iff_patterns, uriPatterns_iff literal.noZero, settled_iff, all]
  constructor
  · rintro ⟨file, settled⟩
    have notQuote :
        ∀ buf ∈ parts.entries.flatMap readEntry, buf.dropWhile isSpace ≠ [0x22] := by
      intro buf member isQuote
      obtain ⟨entry, isEntry, isRead⟩ := List.mem_flatMap.mp member
      obtain ⟨rfl, -⟩ :=
        eq_quote_of_read (settled entry isEntry) isRead isQuote
      obtain ⟨found, isFound, -⟩ := Option.map_eq_some_iff.mp file
      rw [readLines_text parts short (Nat.le_refl _)] at isFound
      exact ne_none_of_mapM isFound [0x22] member (linePattern_quote behind)
    rw [filePatterns_eq literal short notQuote, Option.some_inj,
      flatMap_eq_flatMap_iff fun entry member =>
        (entryPatterns_settled (settled entry member)).1] at file
    intro entry member
    exact (entryPatterns_settled (settled entry member)).2.mp (file entry member)
  · intro loads
    have settled : ∀ entry ∈ parts.entries, Settled entry.1 :=
      fun entry member => settled_of_loadsEntry (loads entry member)
    have notQuote :
        ∀ buf ∈ parts.entries.flatMap readEntry, buf.dropWhile isSpace ≠ [0x22] := by
      intro buf member isQuote
      obtain ⟨entry, isEntry, isRead⟩ := List.mem_flatMap.mp member
      obtain ⟨-, same⟩ :=
        eq_quote_of_read (settled entry isEntry) isRead isQuote
      have loaded := loads entry isEntry
      rw [LoadsEntry, same] at loaded
      rcases loaded with wrong | wrong | ⟨-, wrong, -⟩
      · cases wrong
      · cases wrong
      · exact absurd wrong (by decide)
    refine ⟨?_, settled⟩
    rw [filePatterns_eq literal short notQuote, Option.some_inj]
    exact
      List.flatMap_congr fun entry member =>
        (entryPatterns_settled (settled entry member)).2.mpr (loads entry member)

end

/-- `ab`, a comment and `c d` without a newline at its end. -/
def threeLines : LineText where
  lines := [[0x61, 0x62], [0x23, 0x20]]
  last := [0x63, 0x20, 0x64]
  noNewline := by decide
  lastNoNewline := by decide

theorem loadsPhrases_threeLines : LoadsPhrases [] threeLines := by
  have literal : Literal threeLines.text := ⟨by decide, by decide, by decide⟩
  have short : threeLines.Short := by
    unfold LineText.Short
    decide
  refine (loadsPhrases_iff literal short).mpr ?_
  have tight : Tight [0x61, 0x62] :=
    ⟨List.cons_ne_nil _ _, by rintro c ⟨⟩; rfl, by rintro c ⟨⟩; rfl⟩
  have tightLast : Tight [0x63, 0x20, 0x64] :=
    ⟨List.cons_ne_nil _ _, by rintro c ⟨⟩; rfl, by rintro c ⟨⟩; rfl⟩
  have entries :
      threeLines.entries =
        [([0x61, 0x62], true), ([0x23, 0x20], true), ([0x63, 0x20, 0x64], false)] :=
    rfl
  rw [entries, List.forall_mem_cons, List.forall_mem_cons, List.forall_mem_singleton]
  refine ⟨?_, ?_, ?_⟩
  · exact Or.inr (Or.inr ⟨tight, by decide, by decide⟩)
  · exact Or.inr (Or.inl rfl)
  · exact Or.inr (Or.inr ⟨tightLast, by decide, by decide⟩)

/-- `a` with a newline. -/
def oneLetter : LineText where
  lines := [[0x61]]
  last := []
  noNewline := by decide
  lastNoNewline := by decide

/-- The phrase of one letter is left out of the file, and the text is one that
the loader takes. -/
theorem not_loadsPhrases_oneLetter :
    Literal oneLetter.text ∧ oneLetter.Short ∧ ¬ LoadsPhrases [] oneLetter := by
  refine ⟨⟨by decide, by decide, by decide⟩, ?_, ?_⟩
  · unfold LineText.Short
    decide
  · intro loads
    have file := ((loadsPhrases_iff_patterns oneLetter).mp loads).1
    revert file
    decide

end Cookbook.ModSecurity.Phrases
