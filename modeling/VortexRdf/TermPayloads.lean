/-
Chunks of terms as they cross to Java: each distinct term's text once, and an entry for each
position that names its term.

* `Limits.new`, `Payload.push` — what a chunk may hold, and a distinct term added;
* `Payload.read` — the term of an entry, as the Java side reads it;
* `encodeDistinct`, `encodeCodes`, `encodeLookup` — a chunk of a dictionary's codes;
* `encodeShared` — a chunk of quads whose terms are shared pointers;
* `Pace`, `sendAll` — the rows the next chunk offers, and a read sent chunk by chunk.
-/
import VortexRdf.Sharing
import VortexRdf.WindowBatches

namespace TermPayloads

open Dictionary Programs Sharing Store Terms
open Columns (saturatingMul)

/-! ### 32-bit numbers -/

/-- `i32::MAX` -/
def I32_MAX : ℕ := 2 ^ 31 - 1

/-- `n as i32` -/
def asI32 (n : ℕ) : ℤ := (n : ℤ).bmod (2 ^ 32)

def subI32 (a b : ℤ) : ℤ := (a - b).bmod (2 ^ 32)

/-! ### Limits -/

/-- How much one chunk may hold: its rows (codes, for a lookup), the bytes of its distinct
terms, and the length past which a term travels alone. -/
structure Limits where
  rows : ℕ
  chunkBytes : ℕ
  largeTerm : ℕ
  deriving DecidableEq

/-- `checked_mul` of a `usize`. -/
def checkedMul (a b : ℕ) : Option ℕ := if a * b ≤ usizeMax then some (a * b) else none

def Limits.new (rows chunkBytes largeTerm : ℕ) : Except VortexRdfError Limits :=
  let valid := decide (1 ≤ rows ∧ rows ≤ I32_MAX / 4) && decide (1 ≤ largeTerm) &&
    decide (chunkBytes ≤ I32_MAX) && (checkedMul largeTerm 4).any fun row => decide (row ≤ chunkBytes)
  if valid then .ok ⟨rows, chunkBytes, largeTerm⟩
  else .error (.invalidInput [.text (s!"chunk limits out of range: {rows} rows, {chunkBytes} bytes, " ++
    s!"terms over {largeTerm} bytes on their own")])

/-! ### Chunks -/

/-- One chunk: its shared text, where each of the text's terms starts and ends, an entry for
each position and the terms that travel alone. -/
structure Payload where
  text : Str
  bounds : List ℤ
  terms : List ℤ
  large : List Str

/-- The entry of a position without a term. -/
def NONE : ℤ := -1

namespace Payload

def empty : Payload := ⟨[], [], [], []⟩

/-- The bytes of the distinct terms, large ones included. -/
def bytes (p : Payload) : ℕ := p.text.length + (p.large.map List.length).sum

/-- A distinct term added, and its entry. -/
def push (p : Payload) (term : Str) (largeTerm : ℕ) : Payload × ℤ :=
  if largeTerm < term.length then
    let large := p.large ++ [term]
    ({ p with large := large }, subI32 (-1) (asI32 large.length))
  else
    let text := p.text ++ term
    let bounds := p.bounds ++ [asI32 p.text.length, asI32 text.length]
    ({ p with text := text, bounds := bounds }, asI32 (bounds.length / 2 - 1))

/-- The chunk with each position's entry, from its slot. -/
def withTerms (p : Payload) (slots : List ℕ) (entries : List ℤ) : Payload :=
  { p with terms := slots.map fun slot => entries.getD slot NONE }

/-- The text between two bounds, which must lie in it. -/
def textBetween (p : Payload) (start stop : ℤ) : Option Str :=
  if 0 ≤ start ∧ start ≤ stop ∧ stop ≤ p.text.length then
    some ((p.text.drop start.toNat).take (stop - start).toNat)
  else none

/-- A distinct term of the shared text. -/
def distinct (p : Payload) (k : ℕ) : Option Str :=
  p.bounds[2 * k]?.bind fun start => p.bounds[2 * k + 1]?.bind fun stop => p.textBetween start stop

/-- The term of an entry, if it has one; none where the entry points outside the chunk. -/
def read (p : Payload) (entry : ℤ) : Option (Option Str) :=
  if 0 ≤ entry then (p.distinct entry.toNat).map some
  else if entry = -1 then some none
  else p.large[(-2 - entry).toNat]?.map some

end Payload

/-! ### The dictionary's terms -/

inductive DictAccess where
  | resident (dict : TermDictionary)
  | fileBacked (fb : WindowedDict)

def DictAccess.terms : DictAccess → List Str
  | resident dict => dict.terms
  | fileBacked fb => fb.terms

/-- A dictionary's terms, each of a length that fits the 32 bits a string array has for it. -/
structure DictReader where
  access : DictAccess
  term_lt : ∀ t ∈ access.terms, t.length < 2 ^ 32

namespace DictReader

def terms (dict : DictReader) : List Str := dict.access.terms

/-- What the reads of a file keep is the file's. -/
def Faithful (dict : DictReader) (s : ReadState) : Prop :=
  match dict.access with
  | .resident _ => True
  | .fileBacked fb => ReadState.Faithful fb.toFileBackedDict s

def decodeManyWith (dict : DictReader) (codes : List TermCode) : Reads (List (ℕ × Option Str)) :=
  match dict.access with
  | .resident dict => pure (dict.decodeManyWith codes)
  | .fileBacked fb => fb.decodeManyWith codes

end DictReader

/-! ### Distinct terms decoded -/

/-- A chunk's distinct terms while they are visited: the chunk, each code's entry and term
length, the bytes so far and whether a code was outside the dictionary. -/
structure Decoding where
  payload : Payload
  entries : List ℤ
  lengths : List ℕ
  bytes : ℕ
  missed : Bool

def Decoding.new (len : ℕ) : Decoding :=
  ⟨.empty, List.replicate len NONE, List.replicate len 0, 0, false⟩

/-- A distinct code's term visited: copied within the budget, only measured past it. -/
def Decoding.visit (largeTerm budget : ℕ) (d : Decoding) : ℕ × Option Str → Decoding
  | (i, some term) =>
    let bytes := d.bytes + term.length
    let lengths := d.lengths.set i term.length
    if bytes ≤ budget then
      let pushed := d.payload.push term largeTerm
      { d with bytes := bytes, lengths := lengths, payload := pushed.1, entries := d.entries.set i pushed.2 }
    else { d with bytes := bytes, lengths := lengths }
  | (_, none) => { d with missed := true }

/-- A chunk's distinct terms decoded; the payload is complete unless they passed the budget. -/
structure Decoded where
  payload : Payload
  entries : List ℤ
  lengths : List ℕ
  passed : Bool
  missed : Bool

def decode (dict : DictReader) (distinct : List TermCode) (largeTerm budget : ℕ) : Reads Decoded := do
  let visits ← dict.decodeManyWith distinct
  let d := visits.foldl (Decoding.visit largeTerm budget) (.new distinct.length)
  return ⟨d.payload, d.entries, d.lengths, decide (budget < d.bytes), d.missed⟩

/-! ### Rows that fit -/

/-- A slot's term counted at the position that made it. -/
def countSlot (lengths : List ℕ) (counted : ℕ × ℕ) (slot : ℕ) : ℕ × ℕ :=
  if slot = counted.1 then (counted.1 + 1, counted.2 + lengths.getD counted.1 0) else counted

def fittingLoop (width : ℕ) (lengths : List ℕ) (budget : ℕ) : ℕ → List ℕ → ℕ → ℕ × ℕ → Option ℕ
  | 0, _, _, _ => none
  | fuel + 1, slots, row, counted =>
    if slots = [] then none
    else
      let counted := (slots.take width).foldl (countSlot lengths) counted
      if budget < counted.2 then some (max row 1)
      else fittingLoop width lengths budget fuel (slots.drop width) (row + 1) counted

/-- How many rows from the first keep their distinct terms within the budget, at least one. -/
def fittingRows (slots : List ℕ) (width : ℕ) (lengths : List ℕ) (budget : ℕ) : ℕ :=
  (fittingLoop width lengths budget (slots.length + 1) slots 0 (0, 0)).getD (slots.length / width)

/-! ### A dictionary's codes -/

/-- The slots the kept positions use are the first ones. -/
def usedSlots (slots : List ℕ) : ℕ := (slots.max?.map fun slot => slot + 1).getD 0

/-- The first positions, `W` to a row, as one chunk, with the positions it holds and whether
one of them holds a code outside the dictionary. -/
def encodeDistinct (W : ℕ) (dict : DictReader) (positions : ℕ) (code : ℕ → TermCode)
    (limits : Limits) : Reads (Payload × ℕ × Bool) :=
  if positions = 0 then pure (.empty, 0, false)
  else do
    let (distinct, slots) := distinctCodes W ((List.range positions).map code)
    let first ← decode dict distinct limits.largeTerm limits.chunkBytes
    if first.passed = false then
      return (first.payload.withTerms slots first.entries, positions, first.missed)
    else
      let kept := W * fittingRows slots W first.lengths limits.chunkBytes
      let used := usedSlots (slots.take kept)
      let second ← decode dict (distinct.take used) limits.largeTerm usizeMax
      return (second.payload.withTerms (slots.take kept) second.entries, kept, second.missed)

/-- Four columns of codes, equally long. -/
structure CodeColumns where
  columns : List (List TermCode)
  rows : ℕ
  four : columns.length = 4
  equal : ∀ column ∈ columns, column.length = rows

namespace CodeColumns

/-- The code at a position, row by row. -/
def codeAt (columns : CodeColumns) (position : ℕ) : TermCode :=
  (columns.columns.getD (position % 4) []).getD (position / 4) 0

theorem equal_drop (columns : CodeColumns) (row : ℕ) :
    ∀ column ∈ columns.columns.map (List.drop row), column.length = columns.rows - row := by
  intro column hcolumn
  obtain ⟨whole, hwhole, rfl⟩ := List.mem_map.mp hcolumn
  rw [List.length_drop, columns.equal whole hwhole]

/-- The rows from one on. -/
def drop (columns : CodeColumns) (row : ℕ) : CodeColumns :=
  ⟨columns.columns.map (List.drop row), columns.rows - row,
    (List.length_map _).trans columns.four, columns.equal_drop row⟩

end CodeColumns

/-- The rows from the first, as one chunk, and the rows it holds. -/
def encodeCodes (dict : DictReader) (columns : CodeColumns) (limits : Limits) : Reads (Payload × ℕ) := do
  let rows := min columns.rows limits.rows
  let (payload, positions, missed) ← encodeDistinct 4 dict (4 * rows) columns.codeAt limits
  if missed then
    Prog.lift (.error (.deserialization [.text "a matched row holds a code outside the dictionary"]))
  else return (payload, positions / 4)

/-- The codes from the first, as one chunk, and the codes it holds. -/
def encodeLookup (dict : DictReader) (codes : List TermCode) (limits : Limits) : Reads (Payload × ℕ) := do
  let count := min codes.length limits.rows
  let (payload, held, _) ← encodeDistinct 1 dict count (fun position => codes.getD position 0) limits
  return (payload, held)

/-! ### Shared terms -/

/-- A pointer to a shared term. -/
abbrev Arc : Type := ℕ

/-- What each pointer points to, and how many hold it. -/
structure ArcHeap where
  text : Arc → Str
  strongCount : Arc → ℕ

structure SharedQuad where
  s : Arc
  p : Arc
  o : Arc
  g : Arc

def SharedQuad.terms (quad : SharedQuad) : List Arc := [quad.s, quad.p, quad.o, quad.g]

/-- The key of a term that more than one hold. -/
def ArcHeap.shared (heap : ArcHeap) (term : Arc) : Option Arc :=
  if 1 < heap.strongCount term then some term else none

/-- A chunk while rows are added: the entries of the terms sent by pointer, the bytes of its
distinct terms and its rows. -/
structure Sending where
  payload : Payload
  sent : Arc → Option ℤ
  bytes : ℕ
  held : ℕ

def Sending.new : Sending := ⟨.empty, fun _ => none, 0, 0⟩

namespace Sending

/-- A distinct term pushed. -/
def add (heap : ArcHeap) (largeTerm : ℕ) (s : Sending) (term : Arc) : Sending × ℤ :=
  let pushed := s.payload.push (heap.text term) largeTerm
  ({ s with bytes := s.bytes + (heap.text term).length, payload := pushed.1 }, pushed.2)

/-- A key's entry, which is found or is that of the term pushed for it. -/
def entryOr (heap : ArcHeap) (largeTerm : ℕ) (s : Sending) (key term : Arc) : Sending × ℤ :=
  match s.sent key with
  | some entry => (s, entry)
  | none =>
    let added := s.add heap largeTerm term
    ({ added.1 with sent := Function.update added.1.sent key (some added.2) }, added.2)

/-- A term's entry: the one it was sent as before the row, else its key's, else a new one. -/
def entryOf (heap : ArcHeap) (largeTerm : ℕ) (s : Sending) (term : Arc) : Option ℤ → Sending × ℤ
  | some entry => (s, entry)
  | none =>
    match heap.shared term with
    | some key => s.entryOr heap largeTerm key term
    | none => s.add heap largeTerm term

def appendEntry (s : Sending) (entry : ℤ) : Sending :=
  { s with payload := { s.payload with terms := s.payload.terms ++ [entry] } }

def putTerm (heap : ArcHeap) (largeTerm : ℕ) (s : Sending) (term : Arc × Option ℤ) : Sending :=
  let found := s.entryOf heap largeTerm term.1 term.2
  found.1.appendEntry found.2

/-- A row's terms, each with the entry it was sent as before. -/
def sentAs (heap : ArcHeap) (s : Sending) (quad : SharedQuad) : List (Arc × Option ℤ) :=
  quad.terms.map fun term => (term, (heap.shared term).bind s.sent)

/-- The bytes of a row's terms that were not sent before, each position's by itself. -/
def newBytes (heap : ArcHeap) (terms : List (Arc × Option ℤ)) : ℕ :=
  ((terms.filter fun term => term.2.isNone).map fun term => (heap.text term.1).length).sum

end Sending

def sendRows (heap : ArcHeap) (limits : Limits) : List SharedQuad → Sending → Sending
  | [], s => s
  | quad :: rest, s =>
    let terms := s.sentAs heap quad
    if 0 < s.held ∧ limits.chunkBytes < s.bytes + Sending.newBytes heap terms then s
    else
      let row := terms.foldl (Sending.putTerm heap limits.largeTerm) s
      sendRows heap limits rest { row with held := row.held + 1 }

/-- The rows from the first, as one chunk, and the rows it holds. -/
def encodeShared (heap : ArcHeap) (rows : List SharedQuad) (limits : Limits) : Payload × ℕ :=
  let sending := sendRows heap limits (rows.take limits.rows) .new
  (sending.payload, sending.held)

/-! ### The pace of a read -/

/-- The rows a read's next chunk offers, under the read's limits. -/
structure Pace where
  limits : Limits
  rows : ℕ

/-- The rows after a chunk that held some of those offered. -/
def paced (rows offered held bytes chunkBytes : ℕ) : ℕ :=
  if held < offered then max held 1
  else if bytes ≤ chunkBytes / 2 then saturatingMul rows 2
  else rows

namespace Pace

def new (limits : Limits) : Pace := ⟨limits, limits.rows⟩

/-- The limits the next chunk is encoded under. -/
def nextLimits (pace : Pace) : Limits := { pace.limits with rows := pace.rows }

def learn (pace : Pace) (left held bytes : ℕ) : Pace :=
  let offered := min left pace.rows
  { pace with rows := min (paced pace.rows offered held bytes pace.limits.chunkBytes) pace.limits.rows }

/-- The codes a lookup's next slice offers. -/
def nextSlice (offered held bytes chunkBytes : ℕ) : ℕ := paced offered offered held bytes chunkBytes

end Pace

/-! ### A read sent chunk by chunk -/

/-- A read of `total` rows sent from one of them on: the chunks, or none when the steps run
out. A step gives a chunk, its rows and the state the next one starts from. -/
def sendAll {σ : Type} (step : σ → ℕ → Reads ((Payload × ℕ) × σ)) (total : ℕ) :
    ℕ → σ → ℕ → Reads (Option (List Payload))
  | 0, _, _ => pure none
  | fuel + 1, state, row =>
    if row < total then do
      let ((payload, held), state) ← step state row
      let rest ← sendAll step total fuel state (row + held)
      return rest.map (payload :: ·)
    else pure (some [])

/-- A chunk encoded from a row on, and the pace after it. -/
def paceStep (encode : ℕ → Limits → Reads (Payload × ℕ)) (total : ℕ) (pace : Pace) (row : ℕ) :
    Reads ((Payload × ℕ) × Pace) := do
  let (payload, held) ← encode row pace.nextLimits
  return ((payload, held), pace.learn (total - row) held payload.bytes)

def sendCodes (dict : DictReader) (columns : CodeColumns) (limits : Limits) (fuel : ℕ) :
    Reads (Option (List Payload)) :=
  sendAll (paceStep (fun row => encodeCodes dict (columns.drop row)) columns.rows) columns.rows fuel
    (.new limits) 0

def sendShared (heap : ArcHeap) (quads : List SharedQuad) (limits : Limits) (fuel : ℕ) :
    Reads (Option (List Payload)) :=
  sendAll (paceStep (fun row limits => pure (encodeShared heap (quads.drop row) limits)) quads.length)
    quads.length fuel (.new limits) 0

def sendLookup (dict : DictReader) (codes : List TermCode) (limits : Limits) (fuel : ℕ) :
    Reads (Option (List Payload)) :=
  sendAll (paceStep (fun row => encodeLookup dict (codes.drop row)) codes.length) codes.length fuel
    (.new limits) 0

/-- A slice of a lookup whose caller cuts them: the codes offered, under limits for as many. -/
def sliceStep (dict : DictReader) (codes : List TermCode) (limits : Limits) (slice row : ℕ) :
    Reads ((Payload × ℕ) × ℕ) := do
  let offered := min slice (codes.length - row)
  let (payload, held) ← encodeLookup dict ((codes.drop row).take offered)
    { limits with rows := max offered 1 }
  let next := Pace.nextSlice offered held payload.bytes limits.chunkBytes
  return ((payload, held), min limits.rows next)

def sendSlices (dict : DictReader) (codes : List TermCode) (limits : Limits) (fuel : ℕ) :
    Reads (Option (List Payload)) :=
  sendAll (sliceStep dict codes limits) codes.length fuel limits.rows 0

end TermPayloads
