/-! # Terminal control sequences

A control sequence is an escape character, an opening bracket, parameters and a
letter. A stream that is no terminal gets text without them. -/

namespace RowTyping.Text

/-- Whether a character can be a parameter of a control sequence. -/
def isParameter (c : Char) : Bool := c.isDigit || c == ';' || c == '?'

/-- The text without its control sequences. `held` is the start of a sequence that has been read
but may still turn out to be ordinary text, last character first. -/
def dropControlsAfter (held : List Char) : List Char → List Char
  | [] => held.reverse
  | c :: l =>
    if c = '\x1b' then held.reverse ++ dropControlsAfter [c] l
    else
      match held with
      | [] => c :: dropControlsAfter [] l
      | ['\x1b'] =>
        if c = '[' then dropControlsAfter [c, '\x1b'] l else '\x1b' :: c :: dropControlsAfter [] l
      | held =>
        if isParameter c then dropControlsAfter (c :: held) l
        else if c.isAlpha then dropControlsAfter [] l
        else held.reverse ++ c :: dropControlsAfter [] l

/-- A text without its control sequences. -/
def dropControls (s : String) : String := String.ofList (dropControlsAfter [] s.toList)

end RowTyping.Text
