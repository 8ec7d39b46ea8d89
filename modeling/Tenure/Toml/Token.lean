/-
  Tenure — the tokens of TOML.

  A document is read as characters in which every carriage return before a line
  feed was dropped.

  * `Token`: punctuation, blanks, comments, words and quoted texts.
  * `Token.next?`: takes the first token off the characters.  It answers with
    nothing at their end and fails where no token begins.
  * `quotedContent`: the rest of a quoted text.  Texts in single quotes are taken as
    they are, those in double quotes have escapes, and either may be written in
    triple quotes over several lines.
-/

namespace Tenure.Toml

/-- A token. -/
inductive Token
  | newline
  | blanks (written : List Char)
  | comment
  | equals
  | period
  | comma
  | colon
  | plus
  | openBrace
  | closeBrace
  | openBracket
  | closeBracket
  /-- Letters, digits, hyphens and underscores of the basic alphabet. -/
  | word (written : List Char)
  | quoted (content : List Char) (multiline : Bool)
  deriving DecidableEq, Repr

/-- Drops the carriage return of every line end, and the mark of byte order in front. -/
def foldLines : List Char → List Char
  | '\r' :: '\n' :: rest => '\n' :: foldLines rest
  | c :: rest => c :: foldLines rest
  | [] => []

/-- The characters of a document. -/
def characters (text : String) : List Char :=
  match foldLines text.toList with
  | '\ufeff' :: rest => rest
  | cs => cs

/-- Blanks within a line. -/
def isBlank (c : Char) : Bool := c = ' ' || c = '\t'

/-- Characters of a word. -/
def isWordChar (c : Char) : Bool := c.isAlphanum || c = '-' || c = '_'

/-- Characters of a comment. -/
def isCommentChar (c : Char) : Bool := c = '\t' || 0x20 ≤ c.toNat

/-- Characters that stand for themselves in a quoted text. -/
def isPlainChar (c : Char) : Bool := c = '\t' || 0x20 ≤ c.toNat && c.toNat ≠ 0x7f

/-- The value of a hexadecimal digit. -/
def hexDigit? (c : Char) : Option Nat :=
  if c.isDigit then some (c.toNat - '0'.toNat)
  else if 'a' ≤ c ∧ c ≤ 'f' then some (c.toNat - 'a'.toNat + 10)
  else if 'A' ≤ c ∧ c ≤ 'F' then some (c.toNat - 'A'.toNat + 10)
  else none

/-- The character whose number is written with so many hexadecimal digits. -/
def unicodeEscape (digits : Nat) (cs : List Char) : Option (Char × List Char) := do
  let written := cs.take digits
  guard (written.length = digits)
  let code ← written.foldlM (fun n c => do return 16 * n + (← hexDigit? c)) 0
  guard code.isValidChar
  return (Char.ofNat code, cs.drop digits)

/-- What an escape stands for, after its backslash: a character, or nothing where a line is
    continued. -/
def escaped (multiline : Bool) : List Char → Option (Option Char × List Char)
  | '"' :: rest => some (some '"', rest)
  | '\\' :: rest => some (some '\\', rest)
  | 'b' :: rest => some (some '\x08', rest)
  | 'f' :: rest => some (some '\x0c', rest)
  | 'n' :: rest => some (some '\n', rest)
  | 'r' :: rest => some (some '\r', rest)
  | 't' :: rest => some (some '\t', rest)
  | 'u' :: rest => (unicodeEscape 4 rest).map fun (c, rest) => (some c, rest)
  | 'U' :: rest => (unicodeEscape 8 rest).map fun (c, rest) => (some c, rest)
  | rest =>
    let after := rest.dropWhile isBlank
    let lineEnds := match after with
      | [] => !rest.isEmpty
      | c :: _ => c = '\n'
    if multiline && lineEnds then
      some (none, after.dropWhile fun c => isBlank c || c = '\n')
    else none

/-- The content of a quoted text up to its closing quotes, and what follows them. -/
def quotedContent (quote : Char) (multiline : Bool) : Nat → List Char →
    Option (List Char × List Char)
  | 0, _ => none
  | _ + 1, [] => none
  | fuel + 1, c :: rest =>
    let keep (c : Char) (rest : List Char) : Option (List Char × List Char) :=
      (quotedContent quote multiline fuel rest).map fun (content, rest) => (c :: content, rest)
    if c = quote then
      if !multiline then some ([], rest)
      else if rest.take 2 = [quote, quote] then
        -- up to two quotes more belong to the content
        let further := ((rest.drop 2).take 2).takeWhile (· = quote)
        some (further, rest.drop (2 + further.length))
      else keep c rest
    else if c = '\n' then
      if multiline then keep c rest else none
    else if c = '\\' ∧ quote = '"' then
      match escaped multiline rest with
      | some (some c, rest) => keep c rest
      | some (none, rest) => quotedContent quote multiline fuel rest
      | none => none
    else if isPlainChar c then keep c rest
    else none

/-- A quoted text after its first quote. -/
def quotedText (quote : Char) (cs : List Char) : Option (Token × List Char) :=
  if cs.take 2 = [quote, quote] then
    let body := match cs.drop 2 with
      | '\n' :: rest => rest
      | rest => rest
    (quotedContent quote true (body.length + 1) body).map fun (content, rest) =>
      (.quoted content true, rest)
  else
    (quotedContent quote false (cs.length + 1) cs).map fun (content, rest) =>
      (.quoted content false, rest)

namespace Token

/-- Takes the first token off some characters. -/
def next? : List Char → Option (Option Token × List Char)
  | [] => some (none, [])
  | c :: rest =>
    let single (token : Token) : Option (Option Token × List Char) := some (some token, rest)
    match c with
    | '\n' => single .newline
    | '=' => single .equals
    | '.' => single .period
    | ',' => single .comma
    | ':' => single .colon
    | '+' => single .plus
    | '{' => single .openBrace
    | '}' => single .closeBrace
    | '[' => single .openBracket
    | ']' => single .closeBracket
    | '#' => some (some .comment, rest.dropWhile isCommentChar)
    | '\'' => (quotedText '\'' rest).map fun (token, rest) => (some token, rest)
    | '"' => (quotedText '"' rest).map fun (token, rest) => (some token, rest)
    | c =>
      if isBlank c then
        some (some (.blanks ((c :: rest).takeWhile isBlank)), rest.dropWhile isBlank)
      else if isWordChar c then
        some (some (.word ((c :: rest).takeWhile isWordChar)), rest.dropWhile isWordChar)
      else none

end Token

end Tenure.Toml
