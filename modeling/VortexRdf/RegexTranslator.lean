/-
The translation of a regular expression's pattern.

A pattern is read from the left, one construct at a time, and written in the other dialect as it
is read; what is not of the allow-list grammar is refused.

* `Translator` — what is left of the pattern, what is written, and what was seen;
* `Translator.number`, `braces`, `quantifier` — the quantifiers;
* `Translator.cls` — the classes;
* `Translator.alternation`, `sequence`, `atom` — the descent over groups;
* `Translation.of` — the translation.
-/
import VortexRdf.RegexTrees

namespace RegexFilter

/-! ### Tables -/

/-- The class shorthands as class items of the other dialect. -/
def SHORTHANDS : List (Char × String) :=
  [('d', "0-9"),
    ('D', "\\x00-\\x2F\\x3A-\\x7F"),
    ('w', "0-9A-Z_a-z"),
    ('W', "\\x00-\\x2F\\x3A-\\x40\\x5B-\\x5E\\x60\\x7B-\\x7F"),
    ('s', "\\t-\\r\\x1C-\\x20"),
    ('S', "\\x00-\\x08\\x0E-\\x1B\\x21-\\x7F")]

/-- The class items of the shorthand `\letter`, if it is one. -/
def shorthand (letter : Char) : Option (List Char) :=
  (SHORTHANDS.lookup letter).map String.toList

def ESCAPABLE : List Char := ".*+?()[]\x7b\x7d|^$\\/-".toList

def RUST_META : List Char := "\\.+*?()|[]\x7b\x7d^$#&-~".toList

def MAX_REPEAT : ℕ := 1000

def MAX_GROUP_DEPTH : ℕ := 64

/-! ### The translator -/

structure Translator where
  chars : List Char
  out : List Char
  unicodeSensitive : Bool
  hasDollar : Bool
  hasNonBoundary : Bool
  depth : ℕ

/-- Why a translation stops: the pattern is refused, or the descent was given too little fuel. -/
inductive Halt where
  | refused
  | exhausted
deriving DecidableEq

abbrev Step := Except Halt

inductive ClassItem where
  | char (c : Char)
  | shorthand (items : List Char)

def escaped (c : Char) : List Char := if c ∈ RUST_META then ['\\', c] else [c]

namespace Translator

/-- The translator with `rest` left and `text` written. -/
def wrote (t : Translator) (rest text : List Char) : Translator :=
  { t with chars := rest, out := t.out ++ text }

/-! ### Quantifiers -/

/-- A number a `u32` holds. -/
def checked (n : ℕ) : Step ℕ := if n < 4294967296 then .ok n else .error .refused

/-- The digits read, how many, and what follows them. -/
def numberLoop : List Char → ℕ → ℕ → Step (ℕ × ℕ × List Char)
  | [], n, digits => .ok (n, digits, [])
  | c :: cs, n, digits =>
    if c.isDigit then do
      let tens ← checked (n * 10)
      let n ← checked (tens + (c.toNat - '0'.toNat))
      numberLoop cs n (digits + 1)
    else .ok (n, digits, c :: cs)

def number (chars : List Char) : Step (ℕ × List Char) := do
  let (n, digits, rest) ← numberLoop chars 0 0
  if 0 < digits ∧ n ≤ MAX_REPEAT then .ok (n, rest) else .error .refused

/-- What stands in braces, after the opening one. -/
def braces (t : Translator) : Step Translator := do
  let (lo, rest) ← number t.chars
  match rest with
  | '}' :: rest => .ok (t.wrote rest ('{' :: (Nat.toDigits 10 lo ++ ['}'])))
  | ',' :: '}' :: rest => .ok (t.wrote rest ('{' :: (Nat.toDigits 10 lo ++ [',', '}'])))
  | ',' :: rest => do
    let (hi, rest) ← number rest
    match rest with
    | '}' :: rest =>
      if hi < lo then .error .refused
      else .ok (t.wrote rest
        ('{' :: (Nat.toDigits 10 lo ++ ',' :: (Nat.toDigits 10 hi ++ ['}']))))
    | _ => .error .refused
  | _ => .error .refused

def lazyMarked (t : Translator) : Translator :=
  match t.chars with
  | '?' :: rest => t.wrote rest ['?']
  | _ => t

/-- No second quantifier follows. -/
def noQuantifier (t : Translator) : Step Translator :=
  match t.chars with
  | [] => .ok t
  | c :: _ => if ['*', '+', '?', '{'].contains c then .error .refused else .ok t

/-- What follows a count. -/
def quantified (t : Translator) : Step Translator := noQuantifier (lazyMarked t)

def quantifier (quantifiable : Bool) (t : Translator) : Step Translator :=
  match t.chars with
  | [] => .ok t
  | c :: rest =>
    if ['*', '+', '?'].contains c then
      if quantifiable then quantified (t.wrote rest [c]) else .error .refused
    else if c = '{' then
      if quantifiable then do
        let t ← braces { t with chars := rest }
        quantified t
      else .error .refused
    else .ok t

/-! ### Classes -/

/-- A `-` opens a range where it is not followed by the class's end. -/
def dashStartsRange : List Char → Bool
  | '-' :: c :: _ => c ≠ ']'
  | _ => false

def classEscape (t : Translator) : Step (ClassItem × Translator) :=
  match t.chars with
  | [] => .error .refused
  | e :: rest =>
    match shorthand e with
    | some items => .ok (.shorthand items, { t with chars := rest, unicodeSensitive := true })
    | none =>
      if e ∈ ESCAPABLE then .ok (.char e, { t with chars := rest }) else .error .refused

/-- A range's end, after the `-`. -/
def rangeEnd (t : Translator) : Step (Char × Translator) :=
  match t.chars with
  | [] => .error .refused
  | c :: rest =>
    if c = '\\' then do
      let (item, t) ← classEscape { t with chars := rest }
      match item with
      | .char hi => .ok (hi, t)
      | .shorthand _ => .error .refused
    else if c = '[' ∨ c = ']' ∨ c = '-' then .error .refused
    else .ok (c, { t with chars := rest })

/-- What `c`, once read, opens an item as. -/
def classOpen (c : Char) (t : Translator) : Step (ClassItem × Translator) :=
  if c = '\\' then t.classEscape else .ok (.char c, t)

def classItem (t : Translator) : ClassItem → Step Translator
  | .shorthand text =>
    if dashStartsRange t.chars then .error .refused else .ok (t.wrote t.chars text)
  | .char lo =>
    if dashStartsRange t.chars then do
      let (hi, t) ← rangeEnd { t with chars := t.chars.tail }
      if hi < lo then .error .refused
      else .ok (t.wrote t.chars (escaped lo ++ '-' :: escaped hi))
    else .ok (t.wrote t.chars (escaped lo))

/-- An item, which `c` opens. -/
def readItem (c : Char) (t : Translator) : Step Translator := do
  let (item, t) ← classOpen c t
  t.classItem item

/-- The characters of which two in a row make a set operator. -/
def SET_OPERATORS : List Char := ['&', '-', '~', '|']

def classLoop : ℕ → ℕ → Translator → Step Translator
  | 0, _, _ => .error .exhausted
  | fuel + 1, items, t =>
    match t.chars with
    | [] => .error .refused
    | c :: rest =>
      if c = ']' ∧ 0 < items then .ok (t.wrote rest [']'])
      else if c = ']' ∨ c = '[' then .error .refused
      else if c ∈ SET_OPERATORS ∧ rest.head? = some c then .error .refused
      else do
        let t ← readItem c { t with chars := rest }
        classLoop fuel (items + 1) t

def negationMarked (t : Translator) : Translator :=
  match t.chars with
  | '^' :: rest => t.wrote rest ['^']
  | _ => t

/-- A class, after its bracket. -/
def cls (t : Translator) : Step Translator :=
  let t := negationMarked (t.wrote t.chars ['['])
  if t.chars.head? = some ']' then .error .refused
  else classLoop (t.chars.length + 1) 0 t

/-! ### Atoms -/

/-- An escape, after its backslash; whether a quantifier may follow. -/
def escape (t : Translator) : Step (Bool × Translator) :=
  match t.chars with
  | [] => .error .refused
  | e :: rest =>
    match shorthand e with
    | some items =>
      .ok (true, { t.wrote rest ('[' :: (items ++ [']'])) with unicodeSensitive := true })
    | none =>
      if e = 'b' ∨ e = 'B' then
        .ok (false, { t.wrote rest ['\\', e] with
          unicodeSensitive := true
          hasNonBoundary := t.hasNonBoundary || e == 'B' })
      else if e = 'A' then .ok (false, t.wrote rest ['\\', 'A'])
      else if e ∈ ESCAPABLE then .ok (true, t.wrote rest (escaped e))
      else .error .refused

/-- An atom that is no group, which `c` opens. -/
def simpleAtom (c : Char) (t : Translator) : Step (Bool × Translator) :=
  if c = '[' then do
    let t ← t.cls
    .ok (true, t)
  else if c = '.' then .ok (true, t.wrote t.chars ['.'])
  else if c = '^' then .ok (false, t.wrote t.chars ['^'])
  else if c = '$' then .ok (false, { t.wrote t.chars ['$'] with hasDollar := true })
  else if c = '\\' then t.escape
  else if ['*', '+', '?', '{'].contains c then .error .refused
  else .ok (true, t.wrote t.chars (escaped c))

/-- A group's beginning, after its parenthesis. -/
def openGroup (t : Translator) : Step Translator :=
  match t.chars with
  | '?' :: ':' :: rest => .ok (t.wrote rest ['(', '?', ':'])
  | '?' :: _ => .error .refused
  | _ => .ok (t.wrote t.chars ['('])

def closeGroup (t : Translator) : Step (Bool × Translator) :=
  match t.chars with
  | ')' :: rest => .ok (true, { t.wrote rest [')'] with depth := t.depth - 1 })
  | _ => .error .refused

mutual

def alternation : ℕ → Translator → Step Translator
  | 0, _ => .error .exhausted
  | fuel + 1, t => do
    let t ← sequence fuel t
    match t.chars with
    | '|' :: rest => alternation fuel (t.wrote rest ['|'])
    | _ => .ok t

def sequence : ℕ → Translator → Step Translator
  | 0, _ => .error .exhausted
  | fuel + 1, t =>
    match t.chars with
    | [] => .ok t
    | c :: _ =>
      if c = '|' ∨ c = ')' then .ok t
      else do
        let (quantifiable, t) ← atom fuel t
        let t ← quantifier quantifiable t
        sequence fuel t

/-- One atom; whether a quantifier may follow it. -/
def atom : ℕ → Translator → Step (Bool × Translator)
  | 0, _ => .error .exhausted
  | fuel + 1, t =>
    match t.chars with
    | [] => .error .refused
    | c :: rest =>
      if c = '(' then
        if MAX_GROUP_DEPTH < t.depth + 1 then .error .refused
        else do
          let t ← openGroup { t with chars := rest, depth := t.depth + 1 }
          let t ← alternation fuel t
          closeGroup t
      else simpleAtom c { t with chars := rest }

end

end Translator

/-- A pattern in the other dialect, and what it uses. -/
structure Translation where
  rust : List Char
  unicodeSensitive : Bool
  hasDollar : Bool
  hasNonBoundary : Bool
deriving DecidableEq

namespace Translation

def start (pattern : List Char) : Translator := ⟨pattern, [], false, false, false, 0⟩

/-- Three calls for a character, at most. -/
def fuelFor (pattern : List Char) : ℕ := 3 * pattern.length + 2

/-- The translation, or why there is none. -/
def run (pattern : List Char) : Step Translation := do
  let t ← Translator.alternation (fuelFor pattern) (start pattern)
  if t.chars = [] then .ok ⟨t.out, t.unicodeSensitive, t.hasDollar, t.hasNonBoundary⟩
  else .error .refused

def of (pattern : List Char) : Option Translation := (run pattern).toOption

end Translation

end RegexFilter
