import ImplicitInference.Json.Basic
import ImplicitInference.Number.Layout

/-!
Writing documents as text, on one line or with two blanks of indentation a level.
-/

namespace ImplicitInference.Json

def escaped (c : Char) : String :=
  if c = '"' then "\\\""
  else if c = '\\' then "\\\\"
  else if c = '\x08' then "\\b"
  else if c = '\x0c' then "\\f"
  else if c = '\n' then "\\n"
  else if c = '\r' then "\\r"
  else if c = '\t' then "\\t"
  else if c.toNat < 0x10 then "\\u000" ++ String.ofList (Nat.toDigits 16 c.toNat)
  else if c.toNat < 0x20 then "\\u00" ++ String.ofList (Nat.toDigits 16 c.toNat)
  else c.toString

def quoted (s : String) : String := "\"" ++ String.join (s.toList.map escaped) ++ "\""

mutual
def compact : Json → String
  | null => "null"
  | bool b => if b then "true" else "false"
  | natural n => toString n
  | real x => Layout.document.render x
  | string s => quoted s
  | array items => "[" ++ ",".intercalate (compactItems items) ++ "]"
  | object members => "\x7b" ++ ",".intercalate (compactMembers members) ++ "\x7d"
  | unreadable => "null"
def compactItems : List Json → List String
  | [] => []
  | j :: rest => j.compact :: compactItems rest
def compactMembers : List (String × Json) → List String
  | [] => []
  | (name, j) :: rest => (quoted name ++ ":" ++ j.compact) :: compactMembers rest
end

private def newline (level : Nat) : String :=
  "\n" ++ String.ofList (List.replicate (2 * level) ' ')

def block (level : Nat) (opening closing : String) (lines : List String) : String :=
  opening ++ newline (level + 1) ++ ("," ++ newline (level + 1)).intercalate lines
    ++ newline level ++ closing

mutual
/-- The text of a document with one item or member a line. -/
def pretty (level : Nat) : Json → String
  | array [] => "[]"
  | array (j :: rest) => block level "[" "]" (prettyItems (level + 1) (j :: rest))
  | object [] => "\x7b\x7d"
  | object (m :: rest) => block level "\x7b" "\x7d" (prettyMembers (level + 1) (m :: rest))
  | j => j.compact
def prettyItems (level : Nat) : List Json → List String
  | [] => []
  | j :: rest => pretty level j :: prettyItems level rest
def prettyMembers (level : Nat) : List (String × Json) → List String
  | [] => []
  | (name, j) :: rest => (quoted name ++ ": " ++ pretty level j) :: prettyMembers level rest
end

end ImplicitInference.Json
