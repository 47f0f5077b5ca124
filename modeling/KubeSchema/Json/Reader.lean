import KubeSchema.Json.Number

/-!
# Reading JSON documents

A pushdown machine takes a document one character at a time. The stack holds, for every container around the value
being read, what came before that value; the mode says what may come next. So reading is a fold, and what a machine
does with the text of a value does not depend on what surrounds it.

Blanks are spaces, tabs, line feeds and carriage returns. A name that is repeated in an object keeps its first place
and takes its last value. `NaN`, `Infinity` and `-Infinity` are numbers. Texts hold no raw control characters, and
their escapes denote whole characters: a surrogate that has no partner is refused.

* `Json.parse`: the value of a document, or what is wrong with it and where.
-/

namespace KubeSchema.Json

/-! ## Errors -/

/-- What can be wrong with a document. -/
inductive Problem
  | byteOrderMark
  | valueExpected
  | nameExpected
  | colonExpected
  | commaExpected
  | extraData
  | unterminatedText
  | controlCharacter
  | invalidEscape
  | invalidUnicodeEscape
  | loneSurrogate
  deriving DecidableEq, Repr

/-- What is wrong, and how many characters precede the place. -/
structure ParseError where
  problem : Problem
  position : Nat
  deriving DecidableEq, Repr

def Problem.message : Problem → String
  | .byteOrderMark => "Unexpected UTF-8 BOM (decode using utf-8-sig)"
  | .valueExpected => "Expecting value"
  | .nameExpected => "Expecting property name enclosed in double quotes"
  | .colonExpected => "Expecting ':' delimiter"
  | .commaExpected => "Expecting ',' delimiter"
  | .extraData => "Extra data"
  | .unterminatedText => "Unterminated string starting at"
  | .controlCharacter => "Invalid control character at"
  | .invalidEscape => "Invalid \\escape"
  | .invalidUnicodeEscape => "Invalid \\uXXXX escape"
  | .loneSurrogate => "Lone surrogate"

/-- The message of an error in a text: the problem and the place as line, column and offset. -/
def ParseError.message (e : ParseError) (text : String) : String :=
  let before := text.toList.take e.position
  let line := before.count '\n' + 1
  let column := (before.reverse.takeWhile (· ≠ '\n')).length + 1
  e.problem.message ++ s!": line {line} column {column} (char {e.position})"

/-! ## States -/

/-- What surrounds a value that is being read. -/
inductive Frame
  /-- The items before it, latest first. -/
  | item (before : List Json)
  /-- The members before it, and its name. -/
  | member (before : List (String × Json)) (name : String)
  deriving DecidableEq, Repr

/-- How far an escape inside a text has come. -/
inductive Escape
  | none
  | backslash
  /-- Some of the four digits of a code unit, and their value. -/
  | unit (digits value : Nat)
  deriving DecidableEq, Repr

/-- What a text is read for. -/
inductive TextUse
  | value
  | name (before : List (String × Json))
  deriving DecidableEq, Repr

/-- What may come next. -/
inductive Mode
  | value
  | firstItem
  | afterItem (items : List Json)
  | firstName
  | name (before : List (String × Json))
  | colon (before : List (String × Json)) (name : String)
  | afterMember (members : List (String × Json))
  | document (v : Json)
  /-- The rest of a word that stands for a value. -/
  | word (start : Nat) (rest : List Char) (v : Json)
  /-- The characters of a number, latest first. -/
  | number (start : Nat) (chars : List Char)
  /-- The characters of a text, latest first, and a high surrogate that waits for its partner. -/
  | text (start : Nat) (use : TextUse) (chars : List Char) (high : Option Nat) (escape : Escape)
  deriving DecidableEq, Repr

/-- A state of the machine. -/
structure State where
  stack : List Frame
  mode : Mode
  deriving DecidableEq, Repr

/-- Puts a finished value into its container. -/
def deliver (v : Json) : List Frame → State
  | [] => ⟨[], .document v⟩
  | .item before :: stack => ⟨stack, .afterItem (v :: before)⟩
  | .member before name :: stack => ⟨stack, .afterMember (Members.set before name v)⟩

/-! ## Steps -/

def isBlank (c : Char) : Bool := c = ' ' || c = '\t' || c = '\n' || c = '\r'

/-- The characters that numbers consist of. -/
def isNumberChar (c : Char) : Bool := c.isDigit || c = '-' || c = '+' || c = '.' || c = 'e' || c = 'E'

/-- The first character of a value. -/
def begin (pos : Nat) (stack : List Frame) (c : Char) : Except ParseError State :=
  if c = '\x22' then .ok ⟨stack, .text pos .value [] none .none⟩
  else if c = '[' then .ok ⟨stack, .firstItem⟩
  else if c = '\x7b' then .ok ⟨stack, .firstName⟩
  else if c = 'n' then .ok ⟨stack, .word pos ['u', 'l', 'l'] .null⟩
  else if c = 't' then .ok ⟨stack, .word pos ['r', 'u', 'e'] (.bool true)⟩
  else if c = 'f' then .ok ⟨stack, .word pos ['a', 'l', 's', 'e'] (.bool false)⟩
  else if c = 'N' then .ok ⟨stack, .word pos ['a', 'N'] (.double .nan)⟩
  else if c = 'I' then .ok ⟨stack, .word pos "nfinity".toList (.double (.infinite false))⟩
  else if c = '-' ∨ c.isDigit then .ok ⟨stack, .number pos [c]⟩
  else .error ⟨.valueExpected, pos⟩

/-- A character between names and values. -/
def stepBetween (pos : Nat) (stack : List Frame) (mode : Mode) (c : Char) : Except ParseError State :=
  if isBlank c then .ok ⟨stack, mode⟩
  else
    match mode with
    | .firstItem => if c = ']' then .ok (deliver (.arr []) stack) else begin pos (.item [] :: stack) c
    | .afterItem items =>
      if c = ',' then .ok ⟨.item items :: stack, .value⟩
      else if c = ']' then .ok (deliver (.arr items.reverse) stack)
      else .error ⟨.commaExpected, pos⟩
    | .firstName =>
      if c = '\x22' then .ok ⟨stack, .text pos (.name []) [] none .none⟩
      else if c = '\x7d' then .ok (deliver (.obj []) stack)
      else .error ⟨.nameExpected, pos⟩
    | .name before =>
      if c = '\x22' then .ok ⟨stack, .text pos (.name before) [] none .none⟩
      else .error ⟨.nameExpected, pos⟩
    | .colon before name =>
      if c = ':' then .ok ⟨.member before name :: stack, .value⟩ else .error ⟨.colonExpected, pos⟩
    | .afterMember members =>
      if c = ',' then .ok ⟨stack, .name members⟩
      else if c = '\x7d' then .ok (deliver (.obj members) stack)
      else .error ⟨.commaExpected, pos⟩
    | .document _ => .error ⟨.extraData, pos⟩
    | _ => begin pos stack c

/-- The end of a number: what its characters leave over is read as if it came after the number. -/
def endNumber (start : Nat) (stack : List Frame) (chars : List Char) : Except ParseError State :=
  match readNumber chars.reverse with
  | none => .error ⟨.valueExpected, start⟩
  | some (v, rest) =>
    let s := deliver v stack
    match rest with
    | [] => .ok s
    | c :: _ => stepBetween (start + chars.length - rest.length) s.stack s.mode c

/-- The end of a text. -/
def endText (stack : List Frame) (use : TextUse) (chars : List Char) : State :=
  let s := String.ofList chars.reverse
  match use with
  | .value => deliver (.str s) stack
  | .name before => ⟨stack, .colon before s⟩

/-- The character that an escape of one letter denotes. -/
def unescape? (c : Char) : Option Char :=
  if c = '\x22' ∨ c = '\\' ∨ c = '/' then some c
  else if c = 'n' then some '\n'
  else if c = 'r' then some '\r'
  else if c = 't' then some '\t'
  else if c = 'b' then some '\x08'
  else if c = 'f' then some '\x0c'
  else none

def isHighSurrogate (u : Nat) : Bool := 0xD800 ≤ u && u < 0xDC00

def isLowSurrogate (u : Nat) : Bool := 0xDC00 ≤ u && u < 0xE000

/-- What a code unit adds to a text: a character, or a surrogate that waits for its partner. -/
def takeUnit (chars : List Char) (high : Option Nat) (u : Nat) : Option (List Char × Option Nat) :=
  match high with
  | some h =>
    if isLowSurrogate u then some (Char.ofNat (0x10000 + (h - 0xD800) * 0x400 + (u - 0xDC00)) :: chars, none)
    else none
  | none =>
    if isHighSurrogate u then some (chars, some u)
    else if isLowSurrogate u then none
    else some (Char.ofNat u :: chars, none)

/-- A character of a text. -/
def stepText (pos start : Nat) (stack : List Frame) (use : TextUse) (chars : List Char) (high : Option Nat)
    (escape : Escape) (c : Char) : Except ParseError State :=
  match escape with
  | .none =>
    if c = '\\' then .ok ⟨stack, .text start use chars high .backslash⟩
    else if high.isSome then .error ⟨.loneSurrogate, pos⟩
    else if c = '\x22' then .ok (endText stack use chars)
    else if c.toNat < 0x20 then .error ⟨.controlCharacter, pos⟩
    else .ok ⟨stack, .text start use (c :: chars) none .none⟩
  | .backslash =>
    if c = 'u' then .ok ⟨stack, .text start use chars high (.unit 0 0)⟩
    else
      match unescape? c with
      | none => .error ⟨.invalidEscape, pos - 1⟩
      | some d =>
        if high.isSome then .error ⟨.loneSurrogate, pos - 1⟩
        else .ok ⟨stack, .text start use (d :: chars) none .none⟩
  | .unit digits value =>
    match Numeral.hexDigit? c with
    | none => .error ⟨.invalidUnicodeEscape, pos - digits - 1⟩
    | some d =>
      if digits < 3 then .ok ⟨stack, .text start use chars high (.unit (digits + 1) (value * 16 + d))⟩
      else
        match takeUnit chars high (value * 16 + d) with
        | none => .error ⟨.loneSurrogate, pos - 4⟩
        | some (chars, high) => .ok ⟨stack, .text start use chars high .none⟩

/-- One character. -/
def step (pos : Nat) (s : State) (c : Char) : Except ParseError State :=
  match s.mode with
  | .text start use chars high escape => stepText pos start s.stack use chars high escape c
  | .word start (d :: rest) v =>
    if c ≠ d then .error ⟨.valueExpected, start⟩
    else if rest.isEmpty then .ok (deliver v s.stack)
    else .ok ⟨s.stack, .word start rest v⟩
  | .number start chars =>
    if c = 'I' ∧ chars = ['-'] then .ok ⟨s.stack, .word start "nfinity".toList (.double (.infinite true))⟩
    else if isNumberChar c then .ok ⟨s.stack, .number start (c :: chars)⟩
    else do
      let t ← endNumber start s.stack chars
      stepBetween pos t.stack t.mode c
  | mode => stepBetween pos s.stack mode c

/-- A run of characters, the first of them at a position. -/
def run (pos : Nat) (s : State) : List Char → Except ParseError State
  | [] => .ok s
  | c :: cs => do run (pos + 1) (← step pos s c) cs

/-- The end of a document. -/
def finish (pos : Nat) (s : State) : Except ParseError Json := do
  let s ← match s.mode with
    | .number start chars => endNumber start s.stack chars
    | _ => .ok s
  match s.mode with
  | .document v => .ok v
  | .afterItem _ | .afterMember _ => .error ⟨.commaExpected, pos⟩
  | .firstName | .name _ => .error ⟨.nameExpected, pos⟩
  | .colon _ _ => .error ⟨.colonExpected, pos⟩
  | .text _ _ _ _ (.unit digits _) => .error ⟨.invalidUnicodeEscape, pos - digits - 1⟩
  | .text start _ _ _ _ => .error ⟨.unterminatedText, start⟩
  | .word start _ _ => .error ⟨.valueExpected, start⟩
  | _ => .error ⟨.valueExpected, pos⟩

/-- The value of a document given as characters. -/
def read (cs : List Char) : Except ParseError Json :=
  if cs.head? = some '\ufeff' then .error ⟨.byteOrderMark, 0⟩
  else do finish cs.length (← run 0 ⟨[], .value⟩ cs)

/-- The value of a document. -/
def parse (text : String) : Except ParseError Json := read text.toList

theorem run_append (pos : Nat) (s : State) (as bs : List Char) :
    run pos s (as ++ bs) = run pos s as >>= fun t => run (pos + as.length) t bs := by
  induction as generalizing pos s with
  | nil => rfl
  | cons a as ih =>
    simp only [List.cons_append, run, List.length_cons]
    cases step pos s a with
    | error e => rfl
    | ok t => simpa [bind, Except.bind, Nat.add_assoc, Nat.add_comm 1] using ih (pos + 1) t

end KubeSchema.Json
