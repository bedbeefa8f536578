import R64.Text.Blank
import R64.Text.Quote
/-!
A source line as tokens. After the comment is cut off, a line holds any number of labels, each closed by a colon, then
at most one operation and its operands, which commas separate. A token is plain text; a label keeps its colon. Blanks,
colons, commas and semicolons inside quoted regions have no meaning.
-/
namespace R64.Token

def stripComment (line : Text) : Text := (Text.spanPlain (· == ';') .plain line).1

theorem length_after_separator {stop : Char → Bool} {rest tail : Text} {c : Char}
    (h : (Text.spanPlain stop .plain rest).2 = c :: tail) : (Text.trimStart tail).length < rest.length := by
  have h₁ := Text.length_spanPlain_snd_le stop .plain rest
  have h₂ := Text.length_trimStart_le tail
  rw [h, List.length_cons] at h₁
  omega

theorem length_after_blanks {stop : Char → Bool} {rest tail : Text} {c : Char}
    (h : Text.trimStart (Text.spanPlain stop .plain rest).2 = c :: tail) :
    (Text.trimStart tail).length < rest.length := by
  have h₁ := Text.length_trimStart_le (Text.spanPlain stop .plain rest).2
  have h₂ := Text.length_spanPlain_snd_le stop .plain rest
  have h₃ := Text.length_trimStart_le tail
  rw [h, List.length_cons] at h₁
  omega

/-- The operands in a text that holds at least one. A comma at the end is followed by one empty operand. -/
def items (rest : Text) : List Text :=
  match h : (Text.spanPlain (· == ',') .plain rest).2 with
  | [] => [Text.trimEnd (Text.spanPlain (· == ',') .plain rest).1]
  | _ :: tail =>
    have := length_after_separator h
    Text.trimEnd (Text.spanPlain (· == ',') .plain rest).1 :: items (Text.trimStart tail)
termination_by rest.length

def operands (rest : Text) : List Text := if rest = [] then [] else items rest

/-- The head of a statement ends at a blank or a colon. -/
def endsHead (c : Char) : Bool := Text.isBlank c || c == ':'

/-- The tokens of a text that starts with no blank. -/
def statement (rest : Text) : List Text :=
  if rest = [] then []
  else
    let head := (Text.spanPlain endsHead .plain rest).1
    match h : Text.trimStart (Text.spanPlain endsHead .plain rest).2 with
    | [] => [head]
    | c :: tail =>
      have := length_after_blanks h
      if c = ':' then (head ++ ":") :: statement (Text.trimStart tail)
      else head :: operands (c :: tail)
termination_by rest.length

def tokenize (line : Text) : List Text := statement (Text.trim (stripComment line))

end R64.Token
