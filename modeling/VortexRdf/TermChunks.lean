/-
Term dictionaries, resident and file-backed.

A dictionary's sorted terms lie in chunks: those of a resident one are in memory, a
file-backed one's are windows of its file.  A code is a term's rank.

* `checkCode`, `chunkOf` — a code's rank, and the chunk and place a rank falls in;
* `TermDictionary`, `DictCursor.strAt` — the resident dictionary and its reads;
* `FileBackedDict`, `decodeMany` — the windows of a file, and the terms of an ascending
  list of codes;
* `HeldWindows` — the windows one chunk's decode reads in place.

What the file layer answers is a parameter: whether a window's read would wait, and
the bytes its chunk is charged.
-/
import VortexRdf.AscendingLists
import VortexRdf.RowSelection
import VortexRdf.Terms

namespace Dictionary

open Ascending Store Terms

/-- A code of the dictionary: a `u64`. -/
abbrev TermCode : Type := ℕ

/-- `TermCode::MAX` -/
def TERM_CODE_MAX : TermCode := 2 ^ 64 - 1

/-- The terms of a chunk. -/
abbrev TermChunk : Type := List Str

/-- The term at a place of a chunk; one past its end is not asked for. -/
def TermChunk.strAt (chunk : TermChunk) (place : ℕ) : Str := chunk.getD place []

/-! ### Codes and chunks -/

/-- The rank of `code` among `len` terms. -/
def codeRank (code : TermCode) (len : ℕ) : Option ℕ := if code < len then some code else none

def checkCode (code : TermCode) (len : ℕ) : Except VortexRdfError ℕ :=
  match codeRank code len with
  | some rank => .ok rank
  | none => .error (.deserialization [.text ("Term code " ++ toString code ++
      " out of dictionary bounds (" ++ toString len ++ ")")])

/-- Where each chunk starts, the first at `start`. -/
def startsFrom : ℕ → List TermChunk → List ℕ
  | _, [] => []
  | start, chunk :: chunks => start :: startsFrom (start + chunk.length) chunks

def chunkOf (starts : List ℕ) (i : ℕ) : ℕ × ℕ :=
  let chunk := partitionPoint (· ≤ i) starts - 1
  (chunk, i - starts.getD chunk 0)

/-! ### The resident dictionary -/

structure TermDictionary where
  chunks : List TermChunk
  len_le : chunks.flatten.length ≤ usizeMax

namespace TermDictionary

def terms (dict : TermDictionary) : List Str := dict.chunks.flatten

def starts (dict : TermDictionary) : List ℕ := startsFrom 0 dict.chunks

end TermDictionary

/-- A cursor's read of the term at `i`: the start table is asked only when there is
more than one chunk. -/
def DictCursor.strAt (dict : TermDictionary) (i : ℕ) : Str :=
  match dict.chunks with
  | [first] => first.strAt i
  | chunks =>
    let (chunk, place) := chunkOf dict.starts i
    (chunks.getD chunk []).strAt place

/-! ### The file-backed dictionary -/

def WINDOW_ENTRY_OVERHEAD : ℕ := 4 <<< 10

/-- The windows of a file, and what its layer answers while one chunk is decoded. -/
structure FileBackedDict where
  windows : List TermChunk
  len_le : windows.flatten.length ≤ usizeMax
  /-- A window's read has had to wait. -/
  readsWait : Bool
  /-- The window's read would wait. -/
  waits : ℕ → Bool
  /-- The bytes the window's chunk holds on the heap. -/
  heapBytes : ℕ → ℕ
  budget : ℕ

namespace FileBackedDict

variable (fb : FileBackedDict)

def terms : List Str := fb.windows.flatten

def starts : List ℕ := startsFrom 0 fb.windows

def windowChunk (w : ℕ) : TermChunk := fb.windows.getD w []

/-- The window's chunk, when it needs no waiting. -/
def windowChunkNow (w : ℕ) : Option TermChunk := if fb.waits w then none else some (fb.windowChunk w)

def charge (w : ℕ) : ℕ := saturatingAdd (fb.heapBytes w) WINDOW_ENTRY_OVERHEAD

/-- The first code not above the one before it, with that one. -/
def outOfOrder : List TermCode → Option (TermCode × TermCode)
  | a :: b :: rest => if b ≤ a then some (a, b) else outOfOrder (b :: rest)
  | _ => none

def checkCandidates (codes : List TermCode) (len : ℕ) : Except VortexRdfError Unit :=
  match outOfOrder codes with
  | some (a, b) => .error (.invalidInput [.text ("codes must be sorted and unique: " ++
      toString b ++ " follows " ++ toString a)])
  | none =>
    match (codes.head?.toList ++ codes.getLast?.toList).find? (fun code => (codeRank code len).isNone) with
    | some code => .error (.invalidInput [.text ("code " ++ toString code ++
        " is outside the dictionary (" ++ toString len ++ " terms)")])
    | none => .ok ()

/-- The visits of the codes from one window to the next, at most one window a code. -/
def visitLoop : ℕ → List TermCode → Except VortexRdfError (List Str)
  | _, [] => .ok []
  | 0, _ :: _ => .ok []  -- not reached: the number of codes bounds the turns
  | fuel + 1, code :: codes =>
    let w := (chunkOf fb.starts code).1
    let start := fb.starts.getD w 0
    let stop := start + (fb.windowChunk w).length
    let run := partitionPoint (· < stop) (code :: codes)
    if run = 0 then
      .error (.invalidOperation [.text ("code " ++ toString code ++ " lies outside window " ++
        toString w)])
    else
      (visitLoop fuel ((code :: codes).drop run)).map fun terms =>
        ((code :: codes).take run).map (fun code => (fb.windowChunk w).strAt (code - start)) ++ terms

def visitTerms (codes : List TermCode) : Except VortexRdfError (List Str) := do
  checkCandidates codes fb.terms.length
  fb.visitLoop codes.length codes

def decodeMany (codes : List TermCode) : Except VortexRdfError (List Str) :=
  match codes.getLast? with
  | none => .ok []
  | some max => do
    let _ ← checkCode max fb.terms.length
    fb.visitTerms codes

end FileBackedDict

/-! ### Windows read in place -/

/-- The windows a chunk's decode has taken, and what they are charged. -/
structure HeldWindows where
  held : ℕ → Option TermChunk
  charged : ℕ
  gaveUp : Bool

namespace HeldWindows

def giveUp (held : HeldWindows) (why : String) : VortexRdfError × HeldWindows :=
  (.invalidOperation [.text ("in-place decode given up: " ++ why)], { held with gaveUp := true })

def take (fb : FileBackedDict) (held : HeldWindows) (w : ℕ) :
    Except VortexRdfError Unit × HeldWindows :=
  match fb.windowChunkNow w with
  | none =>
    let (error, held) := held.giveUp "a window read would wait"
    (.error error, held)
  | some chunk =>
    let charged := saturatingAdd held.charged (fb.charge w)
    if fb.budget < charged then
      let (error, held) := held.giveUp "the chunk's windows outgrow the window cache"
      (.error error, held)
    else
      (.ok (), { held with charged := charged, held := Function.update held.held w (some chunk) })

def strAt (fb : FileBackedDict) (code : TermCode) (held : HeldWindows) :
    Except VortexRdfError Str × HeldWindows :=
  match checkCode code fb.terms.length with
  | .error error => (.error error, held)
  | .ok rank =>
    let (w, place) := chunkOf fb.starts rank
    match held.held w with
    | some chunk => (.ok (chunk.strAt place), held)
    | none =>
      match held.take fb w with
      | (.error error, held) => (.error error, held)
      | (.ok (), held) => (.ok (((held.held w).getD []).strAt place), held)

end HeldWindows

/-- A hold on the windows for one chunk's decode; none once a read has waited. -/
def FileBackedDict.holdWindows (fb : FileBackedDict) : Option HeldWindows :=
  if fb.readsWait then none else some ⟨fun _ => none, 0, false⟩

end Dictionary
