import Script.Source.Chars
import Script.Token.Fault
import Script.Token.Kind
import Script.Token.Numeral
import Script.Token.StringForm

/-!
Lexemes, the smallest pieces of a source text: blanks, comments and tokens. `scan` reads the longest
one at the front of a text. A string literal may hold `${…}` holes, and the extent of a hole is
found by reading lexemes until its closing brace, so `scan` takes the measure of holes as an
argument and `holeLength` ties the two together.
-/
namespace Script

open Chars

inductive Lexeme where
  | blank
  | token (kind : TokenKind)
deriving DecidableEq, Repr

/-- A text at which no lexeme can be read: the cause, and how many characters it concerns. -/
structure Misfit where
  fault : LexFault
  length : Nat
deriving DecidableEq, Repr

/-- A measure of holes: the number of characters after `${` up to and including its closing brace.
-/
abbrev HoleMeasure := List Char → Except LexFault Nat

namespace Lexeme

/-- The number of characters up to and including the first `*/`. -/
def commentLength : List Char → Option Nat
  | [] => none
  | '*' :: '/' :: _ => some 2
  | _ :: cs => (commentLength cs).map (· + 1)

/-- The number of characters of a literal after its opener, the closer included. The first `skip`
characters are already accounted for: they are an escaped character or a hole. -/
def bodyLength (form : StringForm) (measure : HoleMeasure) (skip : Nat) :
    List Char → Except LexFault Nat
  | [] => .error .unterminatedString
  | c :: cs =>
    match skip with
    | k + 1 => (· + 1) <$> bodyLength form measure k cs
    | 0 =>
      if form.closer.isPrefixOf (c :: cs) then .ok form.closer.length
      else if c = '\\' && form.hasEscapes then (· + 1) <$> bodyLength form measure 1 cs
      else if c = '$' && form.hasHoles then
        match cs with
        | '{' :: hole =>
          match measure hole with
          | .ok n => (· + 1) <$> bodyLength form measure (n + 1) cs
          | .error fault => .error fault
        | _ => (· + 1) <$> bodyLength form measure 0 cs
      else (· + 1) <$> bodyLength form measure 0 cs

/-- The kind of a one or two character token at the front of a text, and its length. -/
def symbol? : List Char → Option (TokenKind × Nat)
  | '=' :: '=' :: _ => some (.eq, 2)
  | '!' :: '=' :: _ => some (.ne, 2)
  | '<' :: '=' :: _ => some (.le, 2)
  | '>' :: '=' :: _ => some (.ge, 2)
  | '-' :: '>' :: _ => some (.arrow, 2)
  | '(' :: _ => some (.openParen, 1)
  | ')' :: _ => some (.closeParen, 1)
  | '{' :: _ => some (.openBrace, 1)
  | '}' :: _ => some (.closeBrace, 1)
  | '[' :: _ => some (.openBracket, 1)
  | ']' :: _ => some (.closeBracket, 1)
  | ',' :: _ => some (.comma, 1)
  | ';' :: _ => some (.semicolon, 1)
  | ':' :: _ => some (.colon, 1)
  | '.' :: _ => some (.dot, 1)
  | '=' :: _ => some (.assign, 1)
  | '<' :: _ => some (.lt, 1)
  | '>' :: _ => some (.gt, 1)
  | '+' :: _ => some (.plus, 1)
  | '-' :: _ => some (.minus, 1)
  | '*' :: _ => some (.star, 1)
  | '/' :: _ => some (.slash, 1)
  | '!' :: _ => some (.bang, 1)
  | _ => none

/-- The token kind of a string literal. -/
def stringKind : StringForm → TokenKind
  | .double | .single => .plainString
  | .multiline => .rawString
  | _ => .formattedString

/-- The longest lexeme at the front of the nonempty text `c :: cs`, with its number of characters
after `c`. A lexeme is never empty, so what is left is shorter whatever this function answers. -/
def scan (measure : HoleMeasure) (c : Char) (cs : List Char) : Except Misfit (Lexeme × Nat) :=
  if isBlank c then .ok (.blank, (cs.takeWhile isBlank).length)
  else if Numeral.begins (c :: cs) then
    let run := Numeral.run (c :: cs)
    match Numeral.classify run with
    | some kind => .ok (.token (.number kind), run.length - 1)
    | none => .error ⟨.malformedNumber, run.length⟩
  else match StringForm.opening? (c :: cs) with
    | some form =>
      match bodyLength form measure 0 ((c :: cs).drop form.opener.length) with
      | .ok n => .ok (.token (stringKind form), form.opener.length - 1 + n)
      | .error fault => .error ⟨fault, form.opener.length⟩
    | none =>
      if isIdentStart c then .ok (.token .ident, (cs.takeWhile isIdentPart).length)
      else match c, cs with
        | '/', '/' :: rest => .ok (.blank, 1 + (rest.takeWhile (· != '\n')).length)
        | '/', '*' :: rest =>
          match commentLength rest with
          | some n => .ok (.blank, 1 + n)
          | none => .error ⟨.unterminatedComment, 2⟩
        | _, _ =>
          match symbol? (c :: cs) with
          | some (kind, n) => .ok (.token kind, n - 1)
          | none => .error ⟨.unrecognizedCharacter, 1⟩

end Lexeme

/-- The number of characters up to and including the brace that closes a hole, where `braces` counts
the braces that are open inside it. Each lexeme takes a character and every inner hole lies within
its literal, so the length of the text bounds the steps. -/
def holeLengthWithin : Nat → Nat → List Char → Except LexFault Nat
  | _, _, [] => .error .unterminatedString
  | 0, _, _ :: _ => .error .unterminatedString
  | bound + 1, braces, c :: cs =>
    match Lexeme.scan (holeLengthWithin bound 0) c cs with
    | .error misfit => .error misfit.fault
    | .ok (.token .closeBrace, n) =>
      match braces with
      | 0 => .ok (n + 1)
      | k + 1 => (· + (n + 1)) <$> holeLengthWithin bound k (cs.drop n)
    | .ok (.token .openBrace, n) =>
      (· + (n + 1)) <$> holeLengthWithin bound (braces + 1) (cs.drop n)
    | .ok (_, n) => (· + (n + 1)) <$> holeLengthWithin bound braces (cs.drop n)

/-- The number of characters after `${` up to and including the brace that closes the hole. -/
def holeLength : HoleMeasure := fun cs => holeLengthWithin cs.length 0 cs

end Script
