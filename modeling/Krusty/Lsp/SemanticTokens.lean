import Krusty.Lib.Json
import Krusty.Lsp.LineIndex

/-! Semantic-token frames: the tokens of a range, delta encoded into pages of bounded size. -/
namespace Krusty.Lsp.SemanticTokens

open Json

def RESPONSE_PAGE_BYTES : ℕ := 256 * 1024

def MAX_RESPONSE_PAGES : ℕ := 32

def SERVER_CANCELLED : Int64 := -32802

/-- Line, start and length in UTF-16 units, and the type with the modifiers above it. -/
structure Entry where
  line : UInt32
  start : UInt32
  length : UInt32
  packed : UInt32

structure Range where
  startLine : UInt32
  startCharacter : UInt32
  endLine : UInt32
  endCharacter : UInt32

/-- A place in the text, ordered by its line first. -/
abbrev Place := ℕ ×ₗ ℕ

namespace Entry

def startPlace (entry : Entry) : Place := toLex (entry.line.toNat, entry.start.toNat)

/-- The end of a token, in a column of 32 bits. -/
def endPlace (entry : Entry) : Place :=
  toLex (entry.line.toNat, min (entry.start.toNat + entry.length.toNat) U32_MAX)

end Entry

namespace Range

def startPlace (range : Range) : Place := toLex (range.startLine.toNat, range.startCharacter.toNat)

def endPlace (range : Range) : Place := toLex (range.endLine.toNat, range.endCharacter.toNat)

end Range

/-- `slice::partition_point` of a slice that the predicate splits in two. -/
def partitionPoint {α : Type} (p : α → Bool) (xs : List α) : ℕ := (xs.takeWhile p).length

def selectEntries (entries : List Entry) : Option Range → List Entry
  | none => entries
  | some range =>
    let first := partitionPoint (fun entry => entry.endPlace ≤ range.startPlace) entries
    let count := partitionPoint (fun entry => entry.startPlace < range.endPlace) (entries.drop first)
    (entries.drop first).take count

def jsonU32Len (number : UInt32) : ℕ := if number = 0 then 1 else Nat.log 10 number.toNat + 1

def saturatingAddUsize (a b : ℕ) : ℕ := min (a + b) USIZE_MAX

def semanticTokenJsonCost (token : List UInt32) (pageEmpty : Bool) : ℕ :=
  let digits := (token.map jsonU32Len).sum
  let commas := token.length - 1
  saturatingAddUsize (saturatingAddUsize (if pageEmpty then 0 else 1) digits) commas

/-- The variables of the loop over the entries. -/
structure Paging where
  pages : List (List UInt32)
  page : List UInt32
  used : ℕ
  previousLine : UInt32
  previousStart : UInt32

/-- The five numbers of a token after the token before it. -/
def encodeToken (previousLine previousStart : UInt32) (entry : Entry) : List UInt32 :=
  let deltaLine := entry.line - previousLine
  let deltaStart := if deltaLine = 0 then entry.start - previousStart else entry.start
  [deltaLine, deltaStart, entry.length, entry.packed &&& 0xff, entry.packed >>> 8]

namespace Paging

def start : Paging := ⟨[], [], 2, 0, 0⟩

/-- One entry: on the page, or on a new one if the page is full. -/
def encodeEntry (budget maxPages : ℕ) (s : Paging) (entry : Entry) : Option Paging :=
  let token := encodeToken s.previousLine s.previousStart entry
  let cost := semanticTokenJsonCost token s.page.isEmpty
  if budget < saturatingAddUsize s.used cost then
    if s.page.isEmpty ∨ s.pages.length + 1 = maxPages then none
    else
      let cost := semanticTokenJsonCost token true
      if budget < saturatingAddUsize 2 cost then none
      else some ⟨s.pages ++ [s.page], token, saturatingAddUsize 2 cost, entry.line, entry.start⟩
  else some ⟨s.pages, s.page ++ token, saturatingAddUsize s.used cost, entry.line, entry.start⟩

/-- The pages, the one that is being filled among them. -/
def finish (maxPages : ℕ) (s : Paging) : Option (List (List UInt32)) :=
  if s.page.isEmpty ∧ s.pages.isEmpty then some [s.page]
  else if ¬s.page.isEmpty then
    if s.pages.length = maxPages then none else some (s.pages ++ [s.page])
  else some s.pages

end Paging

def encodePages (entries : List Entry) (budget maxPages : ℕ) : Option (List (List UInt32)) :=
  if maxPages = 0 ∨ budget < 2 then none
  else (entries.foldlM (Paging.encodeEntry budget maxPages) .start).bind (Paging.finish maxPages)

/-! ### Messages -/

def key (name : String) : List Char := name.toList

def text (name : String) : Value := .string name.toList

def resultMessage (id result : Value) : Value :=
  .object [(key "id", id), (key "jsonrpc", text "2.0"), (key "result", result)]

def progressMessage (token value : Value) : Value :=
  .object [(key "jsonrpc", text "2.0"), (key "method", text "$/progress"),
    (key "params", .object [(key "token", token), (key "value", value)])]

def tooLarge (id : Value) : Value :=
  .object [(key "error", .object [(key "code", .number (.negInt SERVER_CANCELLED)),
      (key "message", text "response exceeds the editor page limit")]),
    (key "id", id), (key "jsonrpc", text "2.0")]

/-- `{"data": data}`. -/
def dataObject (data : List UInt32) : Value := .object [(key "data", .numbers data)]

def jsonLen (value : Value) : ℕ := (toVec value).length

def dataBudget (emptyFrame : Value) : Option ℕ :=
  let frame := jsonLen emptyFrame
  if RESPONSE_PAGE_BYTES < frame then none else some (RESPONSE_PAGE_BYTES - frame + 2)

def messages (id : Value) (entries : List Entry) (range : Option Range) (token : Option Value) : List Value :=
  let entries := selectEntries entries range
  match dataBudget (resultMessage id (dataObject [])) with
  | none => [tooLarge id]
  | some resultBudget =>
    match encodePages entries resultBudget 1 with
    | some pages => [resultMessage id (dataObject (pages.head?.getD []))]
    | none =>
      match token with
      | none => [tooLarge id]
      | some token =>
        match dataBudget (progressMessage token (dataObject [])) with
        | none => [tooLarge id]
        | some progressBudget =>
          match encodePages entries progressBudget MAX_RESPONSE_PAGES with
          | some pages =>
            pages.map (fun page => progressMessage token (dataObject page)) ++ [resultMessage id (dataObject [])]
          | none => [tooLarge id]

end Krusty.Lsp.SemanticTokens
