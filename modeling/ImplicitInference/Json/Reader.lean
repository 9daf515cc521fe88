import ImplicitInference.Json.Basic
import ImplicitInference.Number.Numeral

/-!
Reading documents from text. Each reader takes the characters that are left and gives back what it
read with the characters after it. The text must be one document between blanks; numbers have no
leading zeros and strings no raw control characters. What is well formed but cannot be represented
becomes an unreadable part and not an error. The caller says how a numeral becomes a number.
-/

namespace ImplicitInference.Json

def isBlank (c : Char) : Bool := c == ' ' || c == '\n' || c == '\t' || c == '\r'

def skipBlanks (cs : List Char) : List Char := cs.dropWhile isBlank

def readDigits (cs : List Char) : Option (List Nat × List Char) :=
  let digits := cs.takeWhile Char.isDigit
  if digits.isEmpty then none
  else some (digits.map fun c => c.toNat - 48, cs.dropWhile Char.isDigit)

def readWhole (cs : List Char) : Option (List Nat × List Char) := do
  let (digits, rest) ← readDigits cs
  if digits.head? == some 0 && digits.length != 1 then none else some (digits, rest)

def readFraction : List Char → Option (Option (List Nat) × List Char)
  | '.' :: cs => do
    let (digits, rest) ← readDigits cs
    some (some digits, rest)
  | cs => some (none, cs)

def readExponent : List Char → Option (Option Int × List Char)
  | c :: cs =>
    if c == 'e' || c == 'E' then do
      let (negative, cs) := match cs with
        | '-' :: r => (true, r)
        | '+' :: r => (false, r)
        | r => (false, r)
      let (digits, rest) ← readDigits cs
      let size : Int := (digits.foldl (10 * · + ·) 0 : Nat)
      some (some (if negative then -size else size), rest)
    else some (none, c :: cs)
  | [] => some (none, [])

def readNumber (number : Numeral → Option Number) (cs : List Char) :
    Option (Json × List Char) := do
  let (negative, cs) := match cs with
    | '-' :: r => (true, r)
    | r => (false, r)
  let (whole, cs) ← readWhole cs
  let (fraction, cs) ← readFraction cs
  let (exponent, cs) ← readExponent cs
  let numeral : Numeral := ⟨negative, whole, fraction.getD [], exponent.getD 0⟩
  if !negative && fraction.isNone && exponent.isNone && numeral.digits < Nat.pow 2 64 then
    some (natural numeral.digits, cs)
  else some ((number numeral).elim unreadable real, cs)

def hexValue (c : Char) : Option Nat :=
  if c.isDigit then some (c.toNat - 48)
  else if 'a' ≤ c && c ≤ 'f' then some (c.toNat - 87)
  else if 'A' ≤ c && c ≤ 'F' then some (c.toNat - 55)
  else none

def shortEscape (c : Char) : Option Nat :=
  match c with
  | '"' => some 0x22
  | '\\' => some 0x5c
  | '/' => some 0x2f
  | 'b' => some 0x08
  | 'f' => some 0x0c
  | 'n' => some 0x0a
  | 'r' => some 0x0d
  | 't' => some 0x09
  | _ => none

def readUnits : List Char → Option (List Nat × List Char)
  | [] => none
  | '\\' :: 'u' :: a :: b :: c :: d :: rest => do
    let unit := 4096 * (← hexValue a) + 256 * (← hexValue b) + 16 * (← hexValue c) + (← hexValue d)
    let (units, rest) ← readUnits rest
    some (unit :: units, rest)
  | '\\' :: c :: rest => do
    let unit ← shortEscape c
    let (units, rest) ← readUnits rest
    some (unit :: units, rest)
  | c :: rest =>
    if c == '"' then some ([], rest)
    else if c == '\\' || c.toNat < 0x20 then none
    else do
      let (units, rest) ← readUnits rest
      some (c.toNat :: units, rest)

def isHighSurrogate (n : Nat) : Bool := 0xd800 ≤ n && n < 0xdc00

def isLowSurrogate (n : Nat) : Bool := 0xdc00 ≤ n && n < 0xe000

/-- The characters that units write, unless half a surrogate pair is among them. -/
def joinUnits : List Nat → Option (List Char)
  | [] => some []
  | high :: low :: rest =>
    if isHighSurrogate high then
      if isLowSurrogate low then
        (joinUnits rest).map (Char.ofNat (0x10000 + 1024 * (high - 0xd800) + (low - 0xdc00)) :: ·)
      else none
    else if isLowSurrogate high then none
    else (joinUnits (low :: rest)).map (Char.ofNat high :: ·)
  | [unit] =>
    if isHighSurrogate unit || isLowSurrogate unit then none else some [Char.ofNat unit]

def readString (cs : List Char) : Option (Option String × List Char) := do
  let (units, rest) ← readUnits cs
  some ((joinUnits units).map String.ofList, rest)

def readWord : List Char → List Char → Option (List Char)
  | [], cs => some cs
  | w :: word, c :: cs => if w == c then readWord word cs else none
  | _ :: _, [] => none

def enclose (room : Nat) (content : Option Json) : Json :=
  if room = 0 then unreadable else content.getD unreadable

section Parts

variable (number : Numeral → Option Number)

mutual
/-- A document; `room` is how many more levels of arrays and objects may be opened. -/
def readValue : (fuel room : Nat) → List Char → Option (Json × List Char)
  | 0, _, _ => none
  | fuel + 1, room, cs =>
    match skipBlanks cs with
    | '[' :: rest =>
      match skipBlanks rest with
      | ']' :: rest => some (enclose room (some (array [])), rest)
      | rest => do
        let (items, rest) ← readItems fuel (room - 1) rest
        some (enclose room (some (array items)), rest)
    | '\x7b' :: rest =>
      match skipBlanks rest with
      | '\x7d' :: rest => some (enclose room (some (object [])), rest)
      | rest => do
        let (members, rest) ← readMembers fuel (room - 1) rest
        some (enclose room (members.map object), rest)
    | '"' :: rest => do
      let (s, rest) ← readString rest
      some (s.elim unreadable string, rest)
    | 'n' :: rest => (readWord ['u', 'l', 'l'] rest).map fun rest => (null, rest)
    | 't' :: rest => (readWord ['r', 'u', 'e'] rest).map fun rest => (bool true, rest)
    | 'f' :: rest => (readWord ['a', 'l', 's', 'e'] rest).map fun rest => (bool false, rest)
    | rest => readNumber number rest
def readItems : (fuel room : Nat) → List Char → Option (List Json × List Char)
  | 0, _, _ => none
  | fuel + 1, room, cs => do
    let (item, rest) ← readValue fuel room cs
    match skipBlanks rest with
    | ',' :: rest => do
      let (items, rest) ← readItems fuel room rest
      some (item :: items, rest)
    | ']' :: rest => some ([item], rest)
    | _ => none
/-- The members of an object from the first one to the closing brace; none inside if a name cannot
be read. -/
def readMembers : (fuel room : Nat) → List Char → Option (Option (List (String × Json)) × List Char)
  | 0, _, _ => none
  | fuel + 1, room, cs =>
    match skipBlanks cs with
    | '"' :: rest => do
      let (name, rest) ← readString rest
      match skipBlanks rest with
      | ':' :: rest => do
        let (item, rest) ← readValue fuel room rest
        let member := name.map fun name => (name, item)
        match skipBlanks rest with
        | ',' :: rest => do
          let (members, rest) ← readMembers fuel room rest
          some (member.bind fun member => members.map (member :: ·), rest)
        | '\x7d' :: rest => some (member.map ([·]), rest)
        | _ => none
      | _ => none
    | _ => none
end

end Parts

/-- The document that a whole text writes. Levels beyond `room` are unreadable. -/
def parse? (number : Numeral → Option Number) (room : Nat) (text : String) : Option Json := do
  let cs := text.toList
  let (document, rest) ← readValue number (2 * cs.length + 2) room cs
  if (skipBlanks rest).isEmpty then some document else none

end ImplicitInference.Json
