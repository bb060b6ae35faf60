import RowFormat.Json.Document

namespace RowFormat

namespace Json

mutual

/-- How many arrays and objects lie within each other at most. -/
def depth : Json → Nat
  | .array items => itemsDepth items + 1
  | .object entries => entriesDepth entries + 1
  | _ => 0

def itemsDepth : List Json → Nat
  | [] => 0
  | item :: items => max item.depth (itemsDepth items)

def entriesDepth : List (String × Json) → Nat
  | [] => 0
  | (_, value) :: entries => max value.depth (entriesDepth entries)

end

def Blank (cs : List Char) : Prop := ∀ c ∈ cs, c = ' ' ∨ c = '\t' ∨ c = '\n' ∨ c = '\r'

/-- The text between two quotes. Each backslash takes the character after it along, whatever that
is, and no quote is left over. -/
inductive Raw : List Char → Prop
  | nil : Raw []
  | plain {c : Char} {cs : List Char} : c ≠ '"' → c ≠ '\\' → Raw cs → Raw (c :: cs)
  | escaped {c : Char} {cs : List Char} : Raw cs → Raw ('\\' :: c :: cs)

/-- The texts of a token. -/
inductive Lexeme : JsonToken → List Char → Prop
  | objectStart : Lexeme .objectStart ['\x7b']
  | objectEnd : Lexeme .objectEnd ['\x7d']
  | arrayStart : Lexeme .arrayStart ['[']
  | arrayEnd : Lexeme .arrayEnd [']']
  | colon : Lexeme .colon [':']
  | comma : Lexeme .comma [',']
  | null : Lexeme .null "null".toList
  | true : Lexeme (.bool Bool.true) "true".toList
  | false : Lexeme (.bool Bool.false) "false".toList
  | number {first : Char} {cs : List Char} {value : Binary64} :
      first = '-' ∨ first.isDigit → (∀ c ∈ cs, c.isDigit ∨ c ∈ ['.', 'e', 'E', '+', '-']) →
      Binary64.read (first :: cs) = .ok value → Lexeme (.number value) (first :: cs)
  | plain {raw : List Char} : Raw raw → '\\' ∉ raw →
      Lexeme (.string (String.ofList raw)) ('"' :: raw ++ ['"'])
  | escaped {raw : List Char} {text : String} : Raw raw → '\\' ∈ raw →
      unescape (String.ofList raw) = .ok text → Lexeme (.string text) ('"' :: raw ++ ['"'])

/-- A token with the space before it. -/
def Spaced (t : JsonToken) (text : List Char) : Prop :=
  ∃ blank lexeme, Blank blank ∧ Lexeme t lexeme ∧ text = blank ++ lexeme

mutual

/-- The texts of a value. -/
inductive Spells : Json → List Char → Prop
  | null {text : List Char} : Spaced .null text → Spells .null text
  | bool {value : Bool} {text : List Char} : Spaced (.bool value) text → Spells (.bool value) text
  | number {value : Binary64} {text : List Char} :
      Spaced (.number value) text → Spells (.number value) text
  | string {value : String} {text : List Char} :
      Spaced (.string value) text → Spells (.string value) text
  | emptyArray {start close : List Char} :
      Spaced .arrayStart start → Spaced .arrayEnd close → Spells (.array []) (start ++ close)
  | array {start text rest : List Char} {item : Json} {items : List Json} :
      Spaced .arrayStart start → Spells item text → SpellsItems items rest →
      Spells (.array (item :: items)) (start ++ (text ++ rest))
  | emptyObject {start close : List Char} :
      Spaced .objectStart start → Spaced .objectEnd close → Spells (.object []) (start ++ close)
  | object {start text rest : List Char} {entry : String × Json} {entries : List (String × Json)} :
      Spaced .objectStart start → SpellsEntry entry text → SpellsEntries entries rest →
      Spells (.object (entry :: entries)) (start ++ (text ++ rest))

/-- What follows the first item of an array. -/
inductive SpellsItems : List Json → List Char → Prop
  | close {close : List Char} : Spaced .arrayEnd close → SpellsItems [] close
  | next {comma text rest : List Char} {item : Json} {items : List Json} :
      Spaced .comma comma → Spells item text → SpellsItems items rest →
      SpellsItems (item :: items) (comma ++ (text ++ rest))

inductive SpellsEntry : String × Json → List Char → Prop
  | entry {name colon text : List Char} {key : String} {value : Json} :
      Spaced (.string key) name → Spaced .colon colon → Spells value text →
      SpellsEntry (key, value) (name ++ (colon ++ text))

/-- What follows the first member of an object. -/
inductive SpellsEntries : List (String × Json) → List Char → Prop
  | close {close : List Char} : Spaced .objectEnd close → SpellsEntries [] close
  | next {comma text rest : List Char} {entry : String × Json} {entries : List (String × Json)} :
      Spaced .comma comma → SpellsEntry entry text → SpellsEntries entries rest →
      SpellsEntries (entry :: entries) (comma ++ (text ++ rest))

end

/-- Whether a text holds the document and nothing else. -/
def Renders (v : Json) (text : String) : Prop :=
  ∃ body blank, Spells v body ∧ Blank blank ∧ text.toList = body ++ blank

end Json

end RowFormat
