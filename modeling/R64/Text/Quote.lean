import R64.Text
/-!
Quoted regions. A region opens at a single or a double quote and closes at the next quote of the same kind that no
backslash protects; a region may stay open to the end of the line. The same escapes stand for control characters when
the content of a quoted literal is read.
-/
namespace R64

/-- Where a reader stands relative to quoted regions. -/
inductive Quoting where
  | plain
  | within (quote : Char)
  | escaped (quote : Char)
  deriving DecidableEq

def Quoting.step : Quoting → Char → Quoting
  | .plain, c => if c = '"' ∨ c = '\'' then .within c else .plain
  | .within q, c => if c = q then .plain else if c = '\\' then .escaped q else .within q
  | .escaped q, _ => .within q

namespace Text

/-- Split before the first character outside all quoted regions that satisfies `stop`. A quote that satisfies `stop`
ends the first part and does not open a region. -/
def spanPlain (stop : Char → Bool) : Quoting → Text → Text × Text
  | _, [] => ([], [])
  | q, c :: cs =>
    if q = .plain ∧ stop c then ([], c :: cs)
    else
      let rest := spanPlain stop (q.step c) cs
      (c :: rest.1, rest.2)

theorem spanPlain_append (stop : Char → Bool) (q : Quoting) (s : Text) :
    (spanPlain stop q s).1 ++ (spanPlain stop q s).2 = s := by
  induction s generalizing q with
  | nil => rfl
  | cons c cs ih =>
    unfold spanPlain
    split
    · rfl
    · simp [ih]

theorem length_spanPlain_snd_le (stop : Char → Bool) (q : Quoting) (s : Text) :
    (spanPlain stop q s).2.length ≤ s.length := by
  have h := congrArg List.length (spanPlain_append stop q s)
  rw [List.length_append] at h
  omega

/-- The text without one pair of double quotes around it, or unchanged when it has no such pair. -/
def unquote (s : Text) : Text := (between? '"' '"' s).getD s

/-- The character that a backslash and `c` stand for. -/
def unescape : Char → Option Char
  | '\'' => some '\''
  | '"' => some '"'
  | '?' => some '?'
  | '\\' => some '\\'
  | 'a' => some '\x07'
  | 'b' => some '\x08'
  | 'f' => some '\x0c'
  | 'n' => some '\n'
  | 'r' => some '\r'
  | 't' => some '\t'
  | 'v' => some '\x0b'
  | '0' => some '\x00'
  | _ => none

/-- Replace every escape by its character. An unknown escape or a backslash at the end has no reading. -/
def decodeEscapes : Text → Option Text
  | [] => some []
  | c :: cs =>
    if c = '\\' then
      match cs with
      | [] => none
      | e :: rest => (unescape e).bind fun d => (decodeEscapes rest).map (d :: ·)
    else (decodeEscapes cs).map (c :: ·)

end Text

end R64
