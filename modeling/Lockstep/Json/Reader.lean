/-
# Reading a JSON text

The reader goes over the tokens once with the open arrays and objects on a
stack, so that no nesting is too deep for it.

Key definitions: `Json.Reader`, `Json.Reader.step`, `Json.read?`.
-/
import Lockstep.Json.Token

namespace Lockstep.Json

/-- An open array with its items, or an open object with its members and the
key of the one that is being read; the last read is the first in the list. -/
inductive Frame where
  | array (items : List Json)
  | object (members : List (Option String × Json)) (key : Option String)

/-- What may follow. -/
inductive Expect where
  | value
  | itemOrEnd
  | keyOrEnd
  | key
  | colon
  | next

/-- A document that is being read: what may follow and the open containers,
innermost first; or the finished document. -/
inductive Reader where
  | within (expect : Expect) (frames : List Frame)
  | finished (document : Json)

namespace Reader

def start : Reader := within .value []

/-- A complete value goes into the innermost container. -/
def place (v : Json) : List Frame → Reader
  | [] => finished v
  | .array items :: frames => within .next (.array (v :: items) :: frames)
  | .object members key :: frames => within .next (.object ((key, v) :: members) key :: frames)

/-- A token where a value may start. -/
def value (frames : List Frame) : Token → Option Reader
  | .null => some (place .null frames)
  | .bool b => some (place (.bool b) frames)
  | .number n => some (place (.number n) frames)
  | .string s => some (place (.string s) frames)
  | .openArray => some (within .itemOrEnd (.array [] :: frames))
  | .openObject => some (within .keyOrEnd (.object [] none :: frames))
  | _ => none

/-- A token where a key may start. -/
def key : List Frame → Token → Option Reader
  | .object members _ :: frames, .string s => some (within .colon (.object members s :: frames))
  | _, _ => none

/-- A token that closes the innermost container. -/
def close : List Frame → Token → Option Reader
  | .array items :: frames, .closeArray => some (place (.array items.reverse) frames)
  | .object members _ :: frames, .closeObject => some (place (.object members.reverse) frames)
  | _, _ => none

/-- A token after an item or member: a comma and then another, or the end. -/
def next : List Frame → Token → Option Reader
  | .array items :: frames, .comma => some (within .value (.array items :: frames))
  | .object members k :: frames, .comma => some (within .key (.object members k :: frames))
  | frames, token => close frames token

def step : Reader → Token → Option Reader
  | within .value frames, token => value frames token
  | within .itemOrEnd frames, token => (close frames token).or (value frames token)
  | within .keyOrEnd frames, token => (close frames token).or (key frames token)
  | within .key frames, token => key frames token
  | within .colon frames, .colon => some (within .value frames)
  | within .colon _, _ => none
  | within .next frames, token => next frames token
  | finished _, _ => none

/-- The document, if it is finished. -/
def document? : Reader → Option Json
  | finished v => some v
  | within _ _ => none

end Reader

/-- The document of a text; none if the text is no JSON. -/
def read? (s : String) : Option Json := do
  let tokens ← Token.read? s.toList
  let reader ← tokens.foldlM Reader.step Reader.start
  reader.document?

end Lockstep.Json
