import Lisplet.Fatal
import Lisplet.Text.Span

/-!
# Read Errors

What can be wrong with a source text, and where.
-/

namespace Lisplet

inductive ReadFault where
  | unexpectedClose
  | unterminatedList
  | unterminatedString
  | invalidEscape (c : Char)
  | danglingQuote
  | badDot
  | integerOverflow (text : String)
  | invalidToken (text : String)
  /-- There is no expression where one was wanted. -/
  | empty
  /-- Something follows the one expression that was wanted. -/
  | trailingInput
  /-- The text is not to blame: reading was cut off. -/
  | fatal (cause : Fatal)
  deriving DecidableEq, Repr

def ReadFault.message : ReadFault → String
  | .unexpectedClose => "unexpected `)`"
  | .unterminatedList => "unterminated list"
  | .unterminatedString => "unterminated string"
  | .invalidEscape c => "invalid escape `\\" ++ String.singleton c ++ "` in string"
  | .danglingQuote => "`'` is not followed by an expression"
  | .badDot => "misplaced `.`"
  | .integerOverflow text => s!"integer literal out of range: {text}"
  | .invalidToken text => s!"invalid token `{text}`"
  | .empty => "expected an expression"
  | .trailingInput => "unexpected input after the expression"
  | .fatal cause => cause.message

/-- A fault and the stretch of source text to blame. -/
structure ReadError where
  fault : ReadFault
  span : Text.Span
  deriving DecidableEq, Repr

/-- A cut-off has no place in the text. -/
def ReadError.ofFatal (cause : Fatal) : ReadError := ⟨.fatal cause, ⟨0, 0⟩⟩

/-- The fatal condition behind an error, if there is one. -/
def ReadError.fatal? (e : ReadError) : Option Fatal :=
  match e.fault with
  | .fatal cause => some cause
  | _ => none

/-- Whether more input might make the text complete. -/
def ReadFault.wantsMore : ReadFault → Bool
  | .unterminatedList | .unterminatedString | .danglingQuote => true
  | _ => false

end Lisplet
