import PacketFilter.Json.Lexeme

/-!
# JSON values

The tree of a JSON text. Lexemes are read with a stack of the arrays and objects that are still open.
Main content: `parse?` and `render`.
-/

namespace PacketFilter

/-- A JSON value. The members of an object keep their order, and names may repeat. -/
inductive Json where
  | null
  | bool (value : Bool)
  | integer (value : Int)
  | decimal (text : List Char)
  | string (pieces : List Json.Piece)
  | array (items : List Json)
  | object (members : List (List Json.Piece × Json))

namespace Json

/-! ## Reading -/

/-- An array or an object that is still open: its items or members so far, last first, and the name of the
    member that is being read. -/
inductive Frame where
  | array (items : List Json)
  | object (members : List (List Piece × Json)) (name : List Piece)

mutual

/-- Reads a value inside the open frames. -/
def readValue? (frames : List Frame) : List Lexeme → Option Json
  | .null :: rest => readRest? frames .null rest
  | .bool value :: rest => readRest? frames (.bool value) rest
  | .integer value :: rest => readRest? frames (.integer value) rest
  | .decimal text :: rest => readRest? frames (.decimal text) rest
  | .string pieces :: rest => readRest? frames (.string pieces) rest
  | .openBracket :: .closeBracket :: rest => readRest? frames (.array []) rest
  | .openBracket :: lexeme :: rest => readValue? (.array [] :: frames) (lexeme :: rest)
  | .openBrace :: .closeBrace :: rest => readRest? frames (.object []) rest
  | .openBrace :: .string name :: .colon :: rest => readValue? (.object [] name :: frames) rest
  | _ => none

/-- Reads what follows a value inside the open frames. -/
def readRest? (frames : List Frame) (value : Json) : List Lexeme → Option Json
  | [] =>
    match frames with
    | [] => some value
    | _ => none
  | .comma :: .string name :: .colon :: rest =>
    match frames with
    | .object members last :: outer => readValue? (.object ((last, value) :: members) name :: outer) rest
    | _ => none
  | .comma :: rest =>
    match frames with
    | .array items :: outer => readValue? (.array (value :: items) :: outer) rest
    | _ => none
  | .closeBracket :: rest =>
    match frames with
    | .array items :: outer => readRest? outer (.array (value :: items).reverse) rest
    | _ => none
  | .closeBrace :: rest =>
    match frames with
    | .object members last :: outer => readRest? outer (.object ((last, value) :: members).reverse) rest
    | _ => none
  | _ => none

end

/-- Reads a text as one value. -/
def parse? (text : String) : Option Json := do
  let lexemes ← Lexeme.scan? .between text.toList
  readValue? [] lexemes

/-! ## Writing -/

mutual

/-- The lexemes of a value. -/
def lexemes : Json → List Lexeme
  | null => [.null]
  | bool value => [.bool value]
  | integer value => [.integer value]
  | decimal text => [.decimal text]
  | string pieces => [.string pieces]
  | array items => .openBracket :: itemLexemes items ++ [.closeBracket]
  | object members => .openBrace :: memberLexemes members ++ [.closeBrace]

/-- The lexemes of the items of an array, with commas between. -/
def itemLexemes : List Json → List Lexeme
  | [] => []
  | [item] => lexemes item
  | item :: items => lexemes item ++ .comma :: itemLexemes items

/-- The lexemes of the members of an object, with commas between. -/
def memberLexemes : List (List Piece × Json) → List Lexeme
  | [] => []
  | [(name, value)] => .string name :: .colon :: lexemes value
  | (name, value) :: members => .string name :: .colon :: lexemes value ++ .comma :: memberLexemes members

end

/-- The compact text of a value. -/
def render (value : Json) : String := String.ofList (value.lexemes.flatMap Lexeme.write)

end Json

end PacketFilter
