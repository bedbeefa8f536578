import R64.Instruction.Table
/-!
Statements. The tokens of a line begin with any number of labels; what follows is a directive, an instruction, something
unknown, or nothing.
-/
namespace R64

inductive Directive where
  /-- enter a file -/
  | inc
  /-- go to an address -/
  | org
  /-- define a macro -/
  | macroDef
  /-- emit data -/
  | dw
  deriving DecidableEq

namespace Directive

/-- A directive begins with a dot and is written in any mixture of cases. -/
def parse? (s : Text) : Option Directive :=
  (Text.dropLead? '.' s).bind fun name =>
    if name.lower = "inc" then some .inc
    else if name.lower = "org" then some .org
    else if name.lower = "def" then some .macroDef
    else if name.lower = "dw" then some .dw
    else none

end Directive

/-- What a line asks for, apart from its labels. Names are kept as written. -/
inductive Statement where
  | blank
  | unknown (name : Text)
  | directive (d : Directive) (name : Text) (operands : List Text)
  | instruction (d : Declaration) (name : Text) (operands : List Text)
  deriving DecidableEq

namespace Statement

/-- The labels at the head of a token list, without their colons, and the tokens after them. A token is a label
exactly if it ends in a colon. -/
def splitLabels : List Text → List Text × List Text
  | [] => ([], [])
  | token :: tokens =>
    match Text.dropTrail? ':' token with
    | some label => (label :: (splitLabels tokens).1, (splitLabels tokens).2)
    | none => ([], token :: tokens)

def ofTokens : List Text → Statement
  | [] => .blank
  | name :: operands =>
    match Directive.parse? name with
    | some d => .directive d name operands
    | none =>
      match Declaration.lookup? name with
      | some d => .instruction d name operands
      | none => .unknown name

end Statement

end R64
