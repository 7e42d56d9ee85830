set_option autoImplicit false

/-!
# Reading JSON

A strict reader of JSON texts. Numbers are checked for their form and not kept. A string whose
escapes leave half of a surrogate pair has a form but no text, so its text is optional.
-/
namespace ModuleIR.Text

inductive Json where
  | null
  | bool (value : Bool)
  | number
  | string (text : Option String)
  | array (elements : List Json)
  | object (members : List (Option String × Json))
  deriving Repr, Inhabited

namespace Json

def isSpace (c : Char) : Bool := c == ' ' || c == '\n' || c == '\t' || c == '\r'

def dropSpace (cs : List Char) : List Char := cs.dropWhile isSpace

def hexValue? (c : Char) : Option Nat :=
  if '0' ≤ c && c ≤ '9' then some (c.toNat - 48)
  else if 'a' ≤ c && c ≤ 'f' then some (c.toNat - 87)
  else if 'A' ≤ c && c ≤ 'F' then some (c.toNat - 55)
  else none

def simpleEscape? : Char → Option Char
  | '"' => some '"'
  | '\\' => some '\\'
  | '/' => some '/'
  | 'b' => some '\x08'
  | 'f' => some '\x0c'
  | 'n' => some '\n'
  | 'r' => some '\r'
  | 't' => some '\t'
  | _ => none

/-- The codes of a string up to its closing quote, and the rest of the text. Only escapes give codes
of surrogates. -/
def codes : List Char → Option (List Nat × List Char)
  | [] => none
  | '"' :: rest => some ([], rest)
  | '\\' :: 'u' :: a :: b :: c :: d :: rest => do
    let code := (((← hexValue? a) * 16 + (← hexValue? b)) * 16 + (← hexValue? c)) * 16 +
      (← hexValue? d)
    let (others, after) ← codes rest
    return (code :: others, after)
  | '\\' :: e :: rest => do
    let c ← simpleEscape? e
    let (others, after) ← codes rest
    return (c.toNat :: others, after)
  | c :: rest =>
    if c == '\\' || c.toNat < 0x20 then none
    else do
      let (others, after) ← codes rest
      return (c.toNat :: others, after)

def isHighSurrogate (code : Nat) : Bool := 0xd800 ≤ code && code ≤ 0xdbff

def isLowSurrogate (code : Nat) : Bool := 0xdc00 ≤ code && code ≤ 0xdfff

/-- The characters that codes stand for, if every surrogate is half of a pair. -/
def decode : List Nat → Option (List Char)
  | [] => some []
  | [code] => if isHighSurrogate code || isLowSurrogate code then none else some [Char.ofNat code]
  | code :: next :: rest =>
    if isHighSurrogate code then
      if isLowSurrogate next then
        (decode rest).map
          (Char.ofNat (0x10000 + (code - 0xd800) * 0x400 + (next - 0xdc00)) :: ·)
      else none
    else if isLowSurrogate code then none
    else (decode (next :: rest)).map (Char.ofNat code :: ·)

def stringBody (cs : List Char) : Option (Option String × List Char) := do
  let (found, rest) ← codes cs
  return ((decode found).map String.ofList, rest)

def dropDigits (cs : List Char) : List Char := cs.dropWhile Char.isDigit

def digits1 : List Char → Option (List Char)
  | c :: rest => if c.isDigit then some (dropDigits rest) else none
  | [] => none

def wholePart : List Char → Option (List Char)
  | '0' :: rest =>
    match rest with
    | c :: _ => if c.isDigit then none else some rest
    | [] => some rest
  | cs => digits1 cs

def fractionPart : List Char → Option (List Char)
  | '.' :: rest => digits1 rest
  | cs => some cs

def exponentPart (cs : List Char) : Option (List Char) :=
  match cs with
  | c :: rest =>
    if c == 'e' || c == 'E' then
      match rest with
      | '+' :: more => digits1 more
      | '-' :: more => digits1 more
      | _ => digits1 rest
    else some cs
  | [] => some cs

def dropNumber (cs : List Char) : Option (List Char) := do
  let unsigned := match cs with
    | '-' :: rest => rest
    | _ => cs
  exponentPart (← fractionPart (← wholePart unsigned))

mutual

def value : Nat → List Char → Option (Json × List Char)
  | 0, _ => none
  | depth + 1, cs =>
    match dropSpace cs with
    | '\x7b' :: rest =>
      match dropSpace rest with
      | '\x7d' :: after => some (.object [], after)
      | _ => (members depth rest).map fun (found, after) => (.object found, after)
    | '[' :: rest =>
      match dropSpace rest with
      | ']' :: after => some (.array [], after)
      | _ => (elements depth rest).map fun (found, after) => (.array found, after)
    | '"' :: rest => (stringBody rest).map fun (text, after) => (.string text, after)
    | 'n' :: 'u' :: 'l' :: 'l' :: rest => some (.null, rest)
    | 't' :: 'r' :: 'u' :: 'e' :: rest => some (.bool true, rest)
    | 'f' :: 'a' :: 'l' :: 's' :: 'e' :: rest => some (.bool false, rest)
    | rest => (dropNumber rest).map fun after => (.number, after)

def elements : Nat → List Char → Option (List Json × List Char)
  | 0, _ => none
  | depth + 1, cs => do
    let (first, rest) ← value depth cs
    match dropSpace rest with
    | ',' :: more =>
      let (others, after) ← elements depth more
      return (first :: others, after)
    | ']' :: after => return ([first], after)
    | _ => none

def members : Nat → List Char → Option (List (Option String × Json) × List Char)
  | 0, _ => none
  | depth + 1, cs => do
    match dropSpace cs with
    | '"' :: quoted =>
      let (key, rest) ← stringBody quoted
      match dropSpace rest with
      | ':' :: valueText =>
        let (first, rest) ← value depth valueText
        match dropSpace rest with
        | ',' :: more =>
          let (others, after) ← members depth more
          return ((key, first) :: others, after)
        | '\x7d' :: after => return ([(key, first)], after)
        | _ => none
      | _ => none
    | _ => none

end

/-- Reads a whole text. Each nested call consumes a character at least, two calls apart. -/
def read? (text : String) : Option Json :=
  let cs := text.toList
  match value (2 * cs.length + 2) cs with
  | some (found, rest) => if (dropSpace rest).isEmpty then some found else none
  | none => none

end Json
end ModuleIR.Text
