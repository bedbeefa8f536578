import Mathlib.Data.List.Forall2
import R64.Proofs.Literals
import R64.Proofs.Progress
/-!
Strings and characters as data. What stands between quotes spells characters, each as itself or as an escape, and the
same escapes protect it from being cut. Main statement: a line of such items appends the code points of the items and
does nothing else.
-/
namespace R64

open Text (Free isQuote isBlank)

namespace Text

theorem decodeEscapes_of_ne {c : Char} (h : c ≠ '\\') (s : Text) :
    decodeEscapes (c :: s) = (decodeEscapes s).map (c :: ·) := by
  rw [decodeEscapes.eq_def]
  exact if_neg h

theorem decodeEscapes_escape (e : Char) (s : Text) :
    decodeEscapes ('\\' :: e :: s) = (unescape e).bind fun c => (decodeEscapes s).map (c :: ·) := by
  rw [decodeEscapes.eq_def]
  rfl

/-- Something holds of every text that can be read if it holds of the empty one and is kept by a character that stands
for itself and by an escape. -/
theorem decodeEscapes_induction {motive : Text → Text → Prop} (nil : motive [] [])
    (plain : ∀ c body s, c ≠ '\\' → decodeEscapes body = some s → motive body s → motive (c :: body) (c :: s))
    (escaped : ∀ e c body s, unescape e = some c → decodeEscapes body = some s → motive body s →
      motive ('\\' :: e :: body) (c :: s))
    {body s : Text} (h : decodeEscapes body = some s) : motive body s := by
  fun_induction decodeEscapes body generalizing s with
  | case1 =>
    cases h
    exact nil
  | case2 => cases h
  | case3 e rest ih =>
    obtain ⟨c, hc, hrest⟩ := Option.bind_eq_some_iff.mp h
    obtain ⟨s, hs, rfl⟩ := Option.map_eq_some_iff.mp hrest
    exact escaped e c rest s hc hs (ih hs)
  | case4 c cs hc ih =>
    obtain ⟨s, hs, rfl⟩ := Option.map_eq_some_iff.mp h
    exact plain c cs s hc hs (ih hs)

/-- Whether `quote` stands in a text without a backslash that protects it. -/
def holdsBare (quote : Char) : Text → Bool
  | [] => false
  | c :: cs =>
    if c = '\\' then
      match cs with
      | [] => false
      | _ :: rest => holdsBare quote rest
    else c == quote || holdsBare quote cs

theorem holdsBare_of_ne {c : Char} (h : c ≠ '\\') (quote : Char) (s : Text) :
    holdsBare quote (c :: s) = (c == quote || holdsBare quote s) := by
  rw [holdsBare.eq_def]
  exact if_neg h

theorem holdsBare_escape (quote e : Char) (s : Text) : holdsBare quote ('\\' :: e :: s) = holdsBare quote s := by
  rw [holdsBare.eq_def]
  rfl

/-- What can be read and holds no bare quote leaves the region open, so that nothing in it is outside. -/
theorem within_of_decodeEscapes {quote : Char} (hquote : isQuote quote) {body s : Text}
    (h : decodeEscapes body = some s) (hbare : holdsBare quote body = false) :
    (Quoting.within quote).run body = .within quote ∧ ∀ stop, Free stop (.within quote) body := by
  have hbackslash : '\\' ≠ quote := by
    rintro rfl
    exact absurd hquote (by decide)
  revert hbare
  refine decodeEscapes_induction (motive := fun body _ => holdsBare quote body = false →
    (Quoting.within quote).run body = .within quote ∧ ∀ stop, Free stop (.within quote) body) ?_ ?_ ?_ h
  · intro _
    exact ⟨rfl, fun stop => free_nil⟩
  · intro c body s hc _ ih hbare
    rw [holdsBare_of_ne hc, Bool.or_eq_false_iff, beq_eq_false_iff_ne] at hbare
    obtain ⟨hrun, hfree⟩ := ih hbare.2
    have hstep : (Quoting.within quote).step c = .within quote := by rw [Quoting.step, if_neg hbare.1, if_neg hc]
    refine ⟨?_, fun stop => ?_⟩
    · rw [Quoting.run, List.foldl_cons, hstep]
      exact hrun
    · rw [free_cons, hstep]
      exact ⟨by simp, hfree stop⟩
  · intro e c body s _ _ ih hbare
    rw [holdsBare_escape] at hbare
    obtain ⟨hrun, hfree⟩ := ih hbare
    have hstep : (Quoting.within quote).step '\\' = .escaped quote := by
      rw [Quoting.step, if_neg hbackslash, if_pos rfl]
    refine ⟨?_, fun stop => ?_⟩
    · rw [Quoting.run, List.foldl_cons, hstep]
      exact hrun
    · rw [free_cons, hstep, free_cons]
      exact ⟨by simp, by simp, hfree stop⟩

end Text

namespace Literal

def escape? : Char → Option Char
  | '\'' => some '\''
  | '"' => some '"'
  | '?' => some '?'
  | '\\' => some '\\'
  | '\x07' => some 'a'
  | '\x08' => some 'b'
  | '\x0c' => some 'f'
  | '\n' => some 'n'
  | '\r' => some 'r'
  | '\t' => some 't'
  | '\x0b' => some 'v'
  | '\x00' => some '0'
  | _ => none

theorem unescape_of_escape? {c e : Char} (h : escape? c = some e) : Text.unescape e = some c := by
  unfold escape? at h
  split at h <;> cases h <;> rfl

/-- What may stand between two quotes for a sequence of characters. A backslash and the quote are escaped, and a line
feed too, which would end the line; other characters stand for themselves or are escaped. -/
inductive Spells (quote : Char) : Text → Text → Prop
  | nil : Spells quote [] []
  | plain {c : Char} {s body : Text} :
    c ≠ '\\' → c ≠ quote → c ≠ '\n' → Spells quote s body → Spells quote (c :: s) (c :: body)
  | escaped {c e : Char} {s body : Text} :
    escape? c = some e → Spells quote s body → Spells quote (c :: s) ('\\' :: e :: body)

def enclosed (quote : Char) (body : Text) : Text := quote :: (body ++ [quote])

theorem run_enclosed {quote : Char} (hquote : isQuote quote) {body : Text}
    (h : (Quoting.within quote).run body = .within quote) : Quoting.plain.run (enclosed quote body) = .plain := by
  rw [enclosed, Quoting.run, List.foldl_cons, Text.step_of_isQuote hquote, List.foldl_append]
  change ((Quoting.within quote).run body).step quote = .plain
  rw [h, Quoting.step, if_pos rfl]

namespace Spells

variable {quote : Char} {s body : Text}

theorem decodeEscapes_eq (h : Spells quote s body) : Text.decodeEscapes body = some s := by
  induction h with
  | nil => rfl
  | plain hc _ _ _ ih => rw [Text.decodeEscapes_of_ne hc, ih, Option.map_some]
  | escaped he _ ih => rw [Text.decodeEscapes_escape, unescape_of_escape? he, ih, Option.bind_some, Option.map_some]

theorem holdsBare_eq_false (h : Spells quote s body) : Text.holdsBare quote body = false := by
  induction h with
  | nil => rfl
  | plain hc hne _ _ ih => rw [Text.holdsBare_of_ne hc, ih, Bool.or_false, beq_false_of_ne hne]
  | escaped _ _ ih => rw [Text.holdsBare_escape, ih]

theorem within (h : Spells quote s body) (hquote : isQuote quote) :
    (Quoting.within quote).run body = .within quote ∧ ∀ stop, Free stop (.within quote) body :=
  Text.within_of_decodeEscapes hquote h.decodeEscapes_eq h.holdsBare_eq_false

theorem closed_enclosed (h : Spells quote s body) (hquote : isQuote quote) :
    Quoting.plain.run (enclosed quote body) = .plain :=
  run_enclosed hquote (h.within hquote).1

/-- A quoted text is cut nowhere. -/
theorem isOperand_enclosed (h : Spells quote s body) (hquote : isQuote quote) :
    Token.IsOperand (enclosed quote body) := by
  have hne : isBlank quote = false ∧ quote ≠ ',' ∧ quote ≠ ';' := by
    rcases Text.eq_of_isQuote hquote with rfl | rfl <;> decide
  have hfree (stop : Char → Bool) (hstop : stop quote = false) : Free stop .plain (enclosed quote body) := by
    rw [enclosed, Text.free_cons, Text.step_of_isQuote hquote, Text.free_append, (h.within hquote).1, Text.free_cons]
    exact ⟨by simp [hstop], (h.within hquote).2 stop, by simp, Text.free_nil⟩
  refine Token.isOperand_iff.mpr ⟨⟨?_, ?_⟩, hfree _ (beq_false_of_ne hne.2.1), hfree _ (beq_false_of_ne hne.2.2)⟩
  · intro c hc
    obtain rfl := Option.some.inj hc
    exact hne.1
  · intro c hc
    rw [enclosed, ← List.cons_append, List.getLast?_concat] at hc
    obtain rfl := Option.some.inj hc
    exact hne.1

end Spells

def IsEnclosed (text : Text) : Prop :=
  ∃ quote s body, isQuote quote ∧ Spells quote s body ∧ text = enclosed quote body

/-- A quoted text is not read as a number. -/
theorem integerValue?_enclosed {quote : Char} (hquote : isQuote quote) (body : Text) :
    integerValue? (enclosed quote body) = none := by
  rw [← Option.not_isSome_iff_eq_none, ← isInteger_eq_isSome]
  intro hinteger
  have hmem := of_mem_isInteger hinteger (List.mem_cons_self : quote ∈ enclosed quote body)
  rcases Text.eq_of_isQuote hquote with rfl | rfl <;> revert hmem <;> decide

theorem single_enclosed_ne {quote : Char} (hquote : isQuote quote) (body : Text) (w : Word) :
    single (enclosed quote body) ≠ .ok w := by
  intro hsingle
  have hmem := of_mem_single hsingle (List.mem_cons_self : quote ∈ enclosed quote body)
  rcases Text.eq_of_isQuote hquote with rfl | rfl <;> revert hmem <;> decide

theorem exists_word_error (body : Text) : ∃ e, word (enclosed '"' body) = .error e := by
  have hcharacter : character (enclosed '"' body) = .error (.character (enclosed '"' body)) := rfl
  have hinteger : integer (enclosed '"' body) = .error (.integer (enclosed '"' body)) := by
    rw [integer_of_none (integerValue?_enclosed rfl _), hcharacter]
  rw [word, hinteger]
  cases hsingle : single (enclosed '"' body) with
  | ok w => exact absurd hsingle (single_enclosed_ne rfl body w)
  | error e => cases e <;> exact ⟨_, rfl⟩

/-- A text in double quotes is data as soon as it is a string, since it is nothing else. -/
theorem data_of_string {body : Text} {words : List Word} (h : Literal.string (enclosed '"' body) = .ok words) :
    data (enclosed '"' body) = .ok words := by
  obtain ⟨e, hword⟩ := exists_word_error body
  rw [data, hword]
  dsimp only
  rw [h]

theorem data_of_character {body : Text} {w : Word} (h : character (enclosed '\'' body) = .ok w) :
    data (enclosed '\'' body) = .ok [w] := by
  have hword : word (enclosed '\'' body) = .ok w := by
    apply word_of_integer
    rw [integer_of_none (integerValue?_enclosed rfl _), h]
  rw [data, hword]

inductive Quoted where
  | string (s : Text)
  | character (c : Char)
  deriving DecidableEq

namespace Quoted

/-- The code points of an item. A string whose last character is not zero has a zero behind it. -/
def words : Quoted → List Word
  | .string s => s.map Char.val ++ if s.getLast? = some '\x00' then [] else [0]
  | .character c => [c.val]

inductive Written : Quoted → Text → Prop
  | string {s body : Text} : Spells '"' s body → Written (.string s) (enclosed '"' body)
  | character {c : Char} {body : Text} : Spells '\'' [c] body → Written (.character c) (enclosed '\'' body)

theorem words_ne_nil (q : Quoted) : q.words ≠ [] := by
  cases q with
  | string s =>
    rw [words]
    split
    · next hlast =>
      rintro hnil
      rw [List.append_nil, List.map_eq_nil_iff] at hnil
      rw [hnil] at hlast
      cases hlast
    · simp
  | character c => exact List.cons_ne_nil c.val []

variable {q : Quoted} {text : Text}

theorem Written.isEnclosed (h : Written q text) : IsEnclosed text := by
  cases h with
  | @string s body h => exact ⟨'"', s, body, rfl, h, rfl⟩
  | @character c body h => exact ⟨'\'', [c], body, rfl, h, rfl⟩

theorem string_enclosed {s body : Text} (h : Text.decodeEscapes body = some s) :
    Literal.string (enclosed '"' body) = .ok (words (.string s)) := by
  have hlast : (s.map Char.val).getLast? = some 0 ↔ s.getLast? = some '\x00' := by
    rw [List.getLast?_map, Option.map_eq_some_iff]
    constructor
    · rintro ⟨c, hc, hzero⟩
      have hnul : c = '\x00' := Char.ext hzero
      rw [hc, hnul]
    · intro hs
      exact ⟨'\x00', hs, rfl⟩
  rw [Literal.string, enclosed, Text.between?_cons_concat, Option.bind_some, h]
  dsimp only
  rw [words]
  simp only [hlast]
  split
  · rw [List.append_nil]
  · rfl

theorem character_enclosed {c : Char} {body : Text} (h : Spells '\'' [c] body) :
    Literal.character (enclosed '\'' body) = .ok c.val := by
  rw [Literal.character, enclosed, Text.between?_cons_concat, Option.bind_some]
  cases h with
  | plain hc _ _ h =>
    cases h
    simp [hc]
  | escaped he h =>
    cases h
    simp [unescape_of_escape? he]

/-- Data is read as the words of the item that is written. -/
theorem Written.data (h : Written q text) : Literal.data text = .ok q.words := by
  cases h with
  | string h => exact data_of_string (string_enclosed h.decodeEscapes_eq)
  | character h => exact data_of_character (character_enclosed h)

end Quoted

end Literal

theorem CodeBuffer.append_append (b : CodeBuffer) (ws ws' : List Word) :
    (b.append ws).append ws' = b.append (ws ++ ws') := by
  simp [append, ← Array.toList_inj]

theorem CodeBuffer.size_append (b : CodeBuffer) (ws : List Word) : (b.append ws).size = b.size + ws.length := by
  simp [append, size, ← Array.length_toList]

namespace Assembly

open Literal (Quoted IsEnclosed)

theorem item_of_data (line : Line) (a : Assembly) {text : Text} {words : List Word}
    (h : Literal.data text = .ok words) : item line a text = { a with code := a.code.append words } := by
  rw [item, h]
  simp only [Reading.accept, reject_nil]

theorem items_of_written (line : Line) (a : Assembly) {qs : List Quoted} {texts : List Text}
    (h : List.Forall₂ Quoted.Written qs texts) :
    texts.foldl (item line) a = { a with code := a.code.append (qs.flatMap Quoted.words) } := by
  induction h generalizing a with
  | nil => simp [CodeBuffer.append]
  | cons hq _ ih =>
    rw [List.foldl_cons, item_of_data line a hq.data, ih, CodeBuffer.append_append, List.flatMap_cons]

theorem isEnclosed_of_mem {qs : List Quoted} {texts : List Text} (h : List.Forall₂ Quoted.Written qs texts)
    {text : Text} (htext : text ∈ texts) : IsEnclosed text := by
  induction h with
  | nil => cases htext
  | cons hq _ ih =>
    rcases List.mem_cons.mp htext with rfl | htext
    · exact hq.isEnclosed
    · exact ih htext

theorem isStatement_dw {texts : List Text} (h : ∀ text ∈ texts, IsEnclosed text) : Token.IsStatement ".dw" texts := by
  refine ⟨by decide, by decide, Token.unbroken_iff.mpr (by decide), ?_, ?_, ?_, ?_⟩
  · intro text htext
    obtain ⟨quote, s, body, hquote, hspells, rfl⟩ := h text htext
    exact hspells.isOperand_enclosed hquote
  · intro t ht
    rcases List.mem_cons.mp (List.dropLast_subset _ ht) with rfl | ht
    · decide
    · obtain ⟨quote, s, body, hquote, hspells, rfl⟩ := h t ht
      exact hspells.closed_enclosed hquote
  · rintro rfl
    obtain ⟨quote, s, body, -, -, hnil⟩ := h [] List.mem_cons_self
    cases hnil
  · intro text htext hcolon
    obtain ⟨quote, s, body, hquote, -, rfl⟩ := h text (List.mem_of_head? htext)
    obtain rfl : quote = ':' := Option.some.inj hcolon
    exact absurd hquote (by decide)

/-- A line of data reads its items one after another, and the words are those of the line. -/
theorem process_dw {text : Text} {texts : List Text} (h : Token.IsStatement ".dw" (text :: texts)) {a : Assembly}
    (hmacros : a.macros = .empty) (memorySize : Nat) {line : Line}
    (hline : line.text = Token.written ".dw" (text :: texts)) :
    a.process memorySize line = (((text :: texts).foldl (item line) a).segment line false a.code.size, none) := by
  have hexpand : a.macros.expand line.text = Token.written ".dw" (text :: texts) := by
    rw [hmacros, hline]
    rfl
  rw [process, hexpand, Token.tokenize_written h]
  rfl

/-- A line with strings and characters as data appends their words and records them as the words of the line; nothing
is reported and nothing else changes. -/
theorem process_quoted {qs : List Quoted} {texts : List Text} (hne : qs ≠ []) (h : List.Forall₂ Quoted.Written qs texts)
    {a : Assembly} (hmacros : a.macros = .empty) (memorySize : Nat) {line : Line}
    (hline : line.text = ".dw " ++ List.intercalate ", " texts) :
    let words := qs.flatMap Quoted.words
    let start := a.code.size
    let segment : Segment := ⟨a.origin + UInt32.ofNat start, start, start + words.length, false, line⟩
    a.process memorySize line =
      ({ a with
          code := { a.code with words := a.code.words ++ words }
          segments := a.segments.push segment }, none) := by
  intro words start segment
  have hstatement := isStatement_dw fun text htext => isEnclosed_of_mem h htext
  have hitems := items_of_written line a h
  have hsize : (a.code.append words).size = start + words.length := CodeBuffer.size_append a.code words
  cases h with
  | nil => exact absurd rfl hne
  | @cons q text qs texts hq hqs =>
    have hprocess := process_dw hstatement hmacros memorySize hline
    have hgrown : start < (a.code.append words).size := by
      have hfirst := List.length_pos_of_ne_nil q.words_ne_nil
      rw [hsize, show words = q.words ++ qs.flatMap Quoted.words from rfl, List.length_append]
      omega
    rw [hprocess, hitems, Assembly.segment, if_pos hgrown]
    dsimp only
    rw [hsize]
    rfl

/-- Separators and a quote in a string that ends in a zero of its own, a comma, and an empty string. -/
theorem process_quoted_separators :
    let qs : List Quoted := [.string [';', '"', '\n', '\x00'], .character ',', .string []]
    let texts : List Text := ["\";\\\"\\n\\0\"", "','", "\"\""]
    let a : Assembly := { empty with code := ⟨#[7], #[], #[]⟩ }
    let line : Line := ⟨"data", 1, ".dw \";\\\"\\n\\0\", ',', \"\""⟩
    List.Forall₂ Quoted.Written qs texts ∧
    (a.process 8 line).1.code.words = #[7, 59, 34, 10, 0, 44, 0] ∧ (a.process 8 line).1.diagnostics = #[] := by
  intro qs texts a line
  have hstring : Quoted.Written (.string [';', '"', '\n', '\x00']) "\";\\\"\\n\\0\"" :=
    @Quoted.Written.string _ [';', '\\', '"', '\\', 'n', '\\', '0']
      (.plain (by decide) (by decide) (by decide) (.escaped rfl (.escaped rfl (.escaped rfl .nil))))
  have hcharacter : Quoted.Written (.character ',') "','" :=
    @Quoted.Written.character ',' [','] (.plain (by decide) (by decide) (by decide) .nil)
  have hempty : Quoted.Written (.string []) "\"\"" := @Quoted.Written.string [] [] .nil
  have hwritten : List.Forall₂ Quoted.Written qs texts := .cons hstring (.cons hcharacter (.cons hempty .nil))
  have hline : line.text = ".dw " ++ List.intercalate ", " texts := rfl
  have hprocess := process_quoted (by simp [qs]) hwritten (a := a) rfl 8 hline
  rw [hprocess]
  exact ⟨hwritten, rfl, rfl⟩

end Assembly

end R64
