import R64.Literal.Error
import R64.Machine.Word
/-!
What an assembly can complain about.
-/
namespace R64

/-- A cause, with the text or the numbers that its message shows. -/
inductive Fault where
  | sourceOpen (path : Text)
  | fileRead (path : Text)
  | directiveArity (name : Text)
  | instructionArity (name : Text)
  | literal (error : LiteralError)
  | unknownOperation (name : Text)
  | invalidAddress (operand : Text)
  | directAddressing (name : Text)
  | addressOverflow (address ending : Word)
  | unresolvedSymbol (label : Text)
  | memoryOverflow (excess : Nat)
  | memorySize (size limit : Nat)
  | redefinedLabel (label : Text)
  | definedHere
  | fileCreate (path : Text)
  | fileWrite (path : Text)
  deriving DecidableEq

def Fault.message : Fault → Text
  | .sourceOpen path => "Cannot open source file `" ++ path ++ "`"
  | .fileRead path => "Failed to read line from `" ++ path ++ "`"
  | .directiveArity name => "Invalid number of operands to `" ++ name ++ "` directive"
  | .instructionArity name => "Invalid number of operands to `" ++ name ++ "` instruction"
  | .literal error => error.message
  | .unknownOperation name => "Unknown instruction `" ++ name ++ "`"
  | .invalidAddress operand => "Invalid address `" ++ operand ++ "`"
  | .directAddressing name => "`" ++ name ++ "` directive only supports direct addressing"
  | .addressOverflow address ending =>
    "Overwriting existing object code: 0x" ++ Text.hexUpper 1 address.toNat ++ " is below the current end 0x" ++
      Text.hexUpper 1 ending.toNat
  | .unresolvedSymbol label => "Cannot resolve `" ++ label ++ "`"
  | .memoryOverflow excess => "Object code exceeds memory size by " ++ Text.decimal excess ++ " words"
  | .memorySize size limit =>
    "Memory size " ++ Text.decimal size ++ " exceeds the limit of " ++ Text.decimal limit ++ " words"
  | .redefinedLabel label => "Re-defined label: `" ++ label ++ "`"
  | .definedHere => "Already defined here. The first definition is used"
  | .fileCreate path => "Failed to create file: " ++ path
  | .fileWrite path => "Failed to write file: " ++ path

end R64
