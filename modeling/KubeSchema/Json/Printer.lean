import KubeSchema.Text.Quoted
import KubeSchema.Json.Basic

/-!
# Writing JSON values

One printer, `Json.render`, and four formats for it:

* `Format.compact`: no blanks, and no character outside printable ASCII;
* `Format.indented`: the same characters, each entry on a line of its own, two blanks deeper than its parent;
* `Format.canonical`: no blanks, and only quotes, backslashes and controls escaped (used after sorting the members);
* `Format.literal`: how a value is shown inside a message.
-/

namespace KubeSchema

/-! ## Texts -/

namespace Json

/-- The escapes of one letter. -/
def letterEscape? (c : Char) : Option Char :=
  if c = '\x22' ∨ c = '\\' then some c
  else if c = '\n' then some 'n'
  else if c = '\r' then some 'r'
  else if c = '\t' then some 't'
  else if c = '\x08' then some 'b'
  else if c = '\x0c' then some 'f'
  else none

/-- The UTF-16 code units of a code point. -/
def codeUnits (n : Nat) : List Nat :=
  if n < 0x10000 then [n] else [0xD800 + (n - 0x10000) / 0x400, 0xDC00 + (n - 0x10000) % 0x400]

/-- A character as an escape of each of its code units. -/
def unitEscape (c : Char) : List Char := (codeUnits c.toNat).flatMap (fun u => '\\' :: 'u' :: Numeral.hex 4 u)

/-- A character of a JSON text; `plain` says which ones need no escape. -/
def escapedChar (plain : Char → Bool) (c : Char) : List Char :=
  match letterEscape? c with
  | some l => ['\\', l]
  | none => if plain c then [c] else unitEscape c

/-- A JSON text in its quotes. -/
def escapedText (plain : Char → Bool) (s : List Char) : List Char :=
  '\x22' :: s.flatMap (escapedChar plain) ++ ['\x22']

/-- Printable ASCII. -/
def isPlainAscii (c : Char) : Bool := 0x20 ≤ c.toNat && c.toNat ≤ 0x7E

/-- Every character but the controls below the blank. -/
def isNoControl (c : Char) : Bool := 0x20 ≤ c.toNat

end Json

/-! ## Formats -/

/-- How values are written. -/
structure Format where
  null : String
  yes : String
  no : String
  special : Double.SpecialNames
  /-- A text in its quotes. -/
  text : List Char → List Char
  colon : List Char
  /-- What stands inside the brackets of a filled container, before its first and after its last entry. -/
  edge : (depth : Nat) → List Char
  /-- What follows a comma. -/
  gap : (depth : Nat) → List Char

namespace Format

/-- Names and numbers as JSON has them. -/
def compact : Format where
  null := "null"
  yes := "true"
  no := "false"
  special := ⟨"NaN", "Infinity"⟩
  text := Json.escapedText Json.isPlainAscii
  colon := [':']
  edge := fun _ => []
  gap := fun _ => []

/-- A new line at a depth. -/
def newLine (depth : Nat) : List Char := '\n' :: List.replicate (2 * depth) ' '

/-- Entries on lines of their own. -/
def indented : Format := { compact with colon := [':', ' '], edge := newLine, gap := newLine }

/-- Texts as they are, as far as JSON admits. -/
def canonical : Format := { compact with text := Json.escapedText Json.isNoControl }

/-- Values inside messages. -/
def literal : Format where
  null := "None"
  yes := "True"
  no := "False"
  special := ⟨"nan", "inf"⟩
  text := Text.quoted
  colon := [':', ' ']
  edge := fun _ => []
  gap := fun _ => [' ']

end Format

/-! ## Values -/

mutual

/-- A value as it is written at a depth of nesting. -/
def Json.render (f : Format) (depth : Nat) : Json → List Char
  | .null => f.null.toList
  | .bool true => f.yes.toList
  | .bool false => f.no.toList
  | .int n => Numeral.signed n
  | .double d => d.render f.special
  | .str s => f.text s.toList
  | .arr [] => ['[', ']']
  | .arr (x :: xs) =>
    '[' :: f.edge (depth + 1) ++ x.render f (depth + 1) ++ renderItems f (depth + 1) xs ++ f.edge depth ++ [']']
  | .obj [] => ['{', '}']
  | .obj ((k, x) :: xs) =>
    '{' :: f.edge (depth + 1) ++ f.text k.toList ++ f.colon ++ x.render f (depth + 1) ++
      renderMembers f (depth + 1) xs ++ f.edge depth ++ ['}']
  termination_by structural v => v

/-- Further items, each after a comma. -/
def renderItems (f : Format) (depth : Nat) : List Json → List Char
  | [] => []
  | x :: xs => ',' :: f.gap depth ++ x.render f depth ++ renderItems f depth xs
  termination_by structural v => v

/-- Further members, each after a comma. -/
def renderMembers (f : Format) (depth : Nat) : List (String × Json) → List Char
  | [] => []
  | (k, x) :: xs =>
    ',' :: f.gap depth ++ f.text k.toList ++ f.colon ++ x.render f depth ++ renderMembers f depth xs
  termination_by structural v => v

end

namespace Json

/-- A value on one line without blanks. -/
def compact (v : Json) : String := String.ofList (v.render .compact 0)

/-- A value with each entry on a line of its own. -/
def indented (v : Json) : String := String.ofList (v.render .indented 0)

/-- A text that values have in common exactly if they are alike. -/
def canonical (v : Json) : String := String.ofList (v.sorted.render .canonical 0)

/-- A value inside a message. -/
def literal (v : Json) : String := String.ofList (v.render .literal 0)

example : compact (.obj [("b", .arr [.int 1, .null]), ("a", .str "é")]) =
    "\x7b\"b\":[1,null],\"a\":\"\\u00e9\"\x7d" := by decide +kernel

example : canonical (.obj [("b", .arr [.int 1, .null]), ("a", .str "é")]) =
    "\x7b\"a\":\"é\",\"b\":[1,null]\x7d" := by decide +kernel

example : literal (.obj [("b", .arr [.int 1, .null])]) = "\x7b'b': [1, None]\x7d" := by decide +kernel

end Json

end KubeSchema
