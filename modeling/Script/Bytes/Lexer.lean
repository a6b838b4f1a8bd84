import Script.Bytes.Checked
import Script.Token.Lexed

/-!
The lexer on bytes. It walks the bytes of a text, leaves out the byte after a backslash whatever it
belongs to, and cuts the text at the positions where it stops.
-/
namespace Script.Bytes

open Chars (byteLength isBlank isIdentStart isIdentPart)

/-- A measure of holes in bytes, which runs on the text after `${`. -/
abbrev Measure := List Char → Checked (Except LexFault Nat)

/-- The byte position of the first character of a kind. -/
def find (p : Char → Bool) : List Char → Option Nat
  | [] => none
  | c :: cs => if p c then some 0 else (· + c.utf8Size) <$> find p cs

/-- The byte position of the first `*/`. -/
def findClose : List Char → Option Nat
  | [] => none
  | '*' :: '/' :: _ => some 0
  | c :: cs => (· + c.utf8Size) <$> findClose cs

/-- Whether a numeral is a floating point number. It is cut at its exponent letter. -/
def isFloat (cs : List Char) : Checked Bool :=
  match find (fun c => c == 'e' || c == 'E') cs with
  | some pos => do
    let mantissa ← slice 0 pos cs
    let exponent ← sliceFrom (pos + 1) cs
    return Numeral.isExponentTail exponent && Numeral.isMantissa true mantissa
  | none => return Numeral.isMantissa false cs

def classify : List Char → Checked (Option NumberKind)
  | '0' :: 'b' :: ds => return if ds != [] && ds.all Numeral.isBinPart then some .bin else none
  | '0' :: 'x' :: ds => return if ds != [] && ds.all Numeral.isHexPart then some .hex else none
  | cs =>
    if cs.any (fun c => c == '.' || c == 'e' || c == 'E') then do
      return if ← isFloat cs then some .float else none
    else return if cs != [] && cs.all Numeral.isDigitPart then some .int else none

/-- The number of bytes of the text after an opener, up to and including the closer, found from byte
`i` on. -/
def scanBody (form : StringForm) (measure : Measure) (text : List Char) (i : Nat) :
    Checked (Except LexFault Nat) :=
  if i < (ofChars text).length then do
    let after ← bytesFrom i (ofChars text)
    if (ofChars form.closer).isPrefixOf after then return .ok (i + (ofChars form.closer).length)
    else
      let b ← byteAt i (ofChars text)
      if b == '\\'.toUInt8 && form.hasEscapes then scanBody form measure text (i + 2)
      else if b == '$'.toUInt8 && form.hasHoles &&
          (ofChars text)[i + 1]? == some '{'.toUInt8 then do
        let hole ← sliceFrom (i + 2) text
        match ← measure hole with
        | .ok n => scanBody form measure text (i + 2 + n)
        | .error fault => return .error fault
      else scanBody form measure text (i + 1)
  else return .error .unterminatedString
termination_by (ofChars text).length - i

/-- The comment whose opener stands at byte position `pos` of a text. -/
def comment (text : List Char) (pos : Nat) :
    Checked (Except (LexFault × Nat) (Lexeme × Nat)) := do
  let rest ← sliceFrom (pos + 2) text
  match findClose rest with
  | some n => do
    let _ ← bump text (pos + 2) (n + 2)
    return .ok (.blank, 1 + (n + 2))
  | none => return .error (.unterminatedComment, 2)

/-- The lexeme at byte position `pos` of a text, which goes on there with `c :: cs`. The answer
tells how many bytes the lexeme takes after `c`, or how many an error concerns. -/
def lexeme (measure : Measure) (text : List Char) (pos : Nat) (c : Char) (cs : List Char) :
    Checked (Except (LexFault × Nat) (Lexeme × Nat)) :=
  if isBlank c then return .ok (.blank, byteLength (cs.takeWhile isBlank))
  else if Numeral.begins (c :: cs) then do
    let run ← slice pos (pos + byteLength (Numeral.run (c :: cs))) text
    match ← classify run with
    | some kind => return .ok (.token (.number kind), byteLength run.tail)
    | none => return .error (.malformedNumber, byteLength run)
  else match StringForm.opening? (c :: cs) with
    | some form => do
      let rest ← sliceFrom (pos + byteLength form.opener) text
      match ← scanBody form measure rest 0 with
      | .ok n => do
        let _ ← bump text (pos + byteLength form.opener) n
        return .ok (.token (Lexeme.stringKind form), byteLength form.opener.tail + n)
      | .error fault => return .error (fault, byteLength form.opener)
    | none =>
      if isIdentStart c then return .ok (.token .ident, byteLength (cs.takeWhile isIdentPart))
      else match c, cs with
        | '/', '/' :: rest => return .ok (.blank, 1 + byteLength (rest.takeWhile (· != '\n')))
        | '/', '*' :: _ => comment text pos
        | _, _ =>
          match Lexeme.symbol? (c :: cs) with
          | some (kind, n) => return .ok (.token kind, byteLength (cs.take (n - 1)))
          | none => return .error (.unrecognizedCharacter, c.utf8Size)

/-- The number of bytes of a hole up to and including its closing brace. The lexemes are read from
byte position `pos` on, where `depth` braces are open. -/
def holeFrom (measure : Measure) (text : List Char) (depth pos : Nat) :
    Checked (Except LexFault Nat) :=
  if pos < byteLength text then do
    match ← sliceFrom pos text with
    | [] => .error .range
    | c :: cs =>
      match ← lexeme measure text pos c cs with
      | .error (fault, _) => return .error fault
      | .ok (.token .openBrace, n) => holeFrom measure text (depth + 1) (pos + (c.utf8Size + n))
      | .ok (.token .closeBrace, n) => do
        let depth ← sub depth 1
        if depth = 0 then return .ok (pos + (c.utf8Size + n))
        else holeFrom measure text depth (pos + (c.utf8Size + n))
      | .ok (_, n) => holeFrom measure text depth (pos + (c.utf8Size + n))
  else return .error .unterminatedString
termination_by byteLength text - pos
decreasing_by all_goals
  have := c.utf8Size_pos
  omega

/-- Measures holes that hold at most `bound` others inside one another. -/
def holeWithin : Nat → Measure
  | 0, _ => .error .depth
  | bound + 1, text => holeFrom (holeWithin bound) text 1 0

/-- The tokens of the bytes `text` from `base` to `stop` of a source, from byte position `pos` of
the text on. The token before them ends at position `prev` of the source. -/
def tokensFrom (measure : Measure) (source text : List Char) (base stop pos prev : Nat) :
    Checked Lexed :=
  if pos < byteLength text then do
    match ← sliceFrom pos text with
    | [] => .error .range
    | c :: cs =>
      match ← lexeme measure text pos c cs with
      | .error (fault, n) => do
        let range ← span (pos + base) (pos + n + base)
        return ⟨[], .error ⟨fault, range⟩⟩
      | .ok (.blank, n) => tokensFrom measure source text base stop (pos + (c.utf8Size + n)) prev
      | .ok (.token kind, n) => do
        let range ← span (pos + base) (pos + (c.utf8Size + n) + base)
        let gap ← slice prev range.start source
        let word ← slice range.start range.stop source
        let rest ← tokensFrom measure source text base stop (pos + (c.utf8Size + n)) range.stop
        let token : Token := ⟨kind, String.ofList word, range.start, gap.contains '\n'⟩
        return ⟨token :: rest.tokens, rest.last⟩
  else do
    let gap ← slice prev stop source
    return ⟨[], .ok (Token.endAt stop (gap.contains '\n'))⟩
termination_by byteLength text - pos
decreasing_by all_goals
  have := c.utf8Size_pos
  omega

/-- The tokens of the bytes from `start` to `stop` of a source. -/
def lexRange (source : List Char) (start stop : Nat) : Checked Lexed := do
  let text ← slice start stop source
  tokensFrom (holeWithin text.length) source text start stop 0 start

end Script.Bytes
