/-!
# JSON text

Values as JSON text, once without any white space (`Json.compact`) and once laid out over lines
(`Json.pretty`). Fields keep their order. A text escapes the quotation mark, the backslash and the
control characters below U+0020, and nothing else.
-/

namespace BrokerWire

/-- A JSON value with whole numbers. -/
inductive Json where
  | null
  | number (n : Int)
  | text (s : String)
  | list (items : List Json)
  | object (fields : List (String × Json))

namespace Json

/-- A character inside a quoted text. -/
def escapeChar (c : Char) : String :=
  if c = '"' then "\\\""
  else if c = '\\' then "\\\\"
  else if c = '\x08' then "\\b"
  else if c = '\x0c' then "\\f"
  else if c = '\n' then "\\n"
  else if c = '\r' then "\\r"
  else if c = '\t' then "\\t"
  else if c < ' ' then
    "\\u00" ++ String.singleton (Nat.digitChar (c.toNat / 16)) ++
      String.singleton (Nat.digitChar (c.toNat % 16))
  else String.singleton c

/-- Writes a quoted text behind `out`. -/
def quoteOnto (out : String) (s : String) : String :=
  (s.foldl (fun out c => out ++ escapeChar c) (out ++ "\"")) ++ "\""

mutual

/-- Writes a value without white space behind `out`. -/
def compactOnto (out : String) : Json → String
  | null => out ++ "null"
  | number n => out ++ toString n
  | text s => quoteOnto out s
  | list items => compactItems (out ++ "[") "" items ++ "]"
  | object fields => compactFields (out ++ "\x7b") "" fields ++ "\x7d"

/-- Writes list items behind `out`, the first of them behind `lead`. -/
def compactItems (out lead : String) : List Json → String
  | [] => out
  | item :: items => compactItems (compactOnto (out ++ lead) item) "," items

/-- Writes fields behind `out`, the first of them behind `lead`. -/
def compactFields (out lead : String) : List (String × Json) → String
  | [] => out
  | (key, value) :: fields =>
    compactFields (compactOnto (quoteOnto (out ++ lead) key ++ ":") value) "," fields

end

/-- A value as text without white space. -/
def compact (value : Json) : String := compactOnto "" value

mutual

/-- Writes a value over lines behind `out`; `newline` starts a line at the value's depth. -/
def prettyOnto (out newline : String) : Json → String
  | null => out ++ "null"
  | number n => out ++ toString n
  | text s => quoteOnto out s
  | list [] => out ++ "[]"
  | list items =>
    let inner := newline ++ "  "
    prettyItems (out ++ "[") inner inner items ++ newline ++ "]"
  | object [] => out ++ "\x7b\x7d"
  | object fields =>
    let inner := newline ++ "  "
    prettyFields (out ++ "\x7b") inner inner fields ++ newline ++ "\x7d"

/-- Writes list items behind `out`, the first of them behind `lead`. -/
def prettyItems (out newline lead : String) : List Json → String
  | [] => out
  | item :: items =>
    prettyItems (prettyOnto (out ++ lead) newline item) newline ("," ++ newline) items

/-- Writes fields behind `out`, the first of them behind `lead`. -/
def prettyFields (out newline lead : String) : List (String × Json) → String
  | [] => out
  | (key, value) :: fields =>
    prettyFields (prettyOnto (quoteOnto (out ++ lead) key ++ ": ") newline value) newline
      ("," ++ newline) fields

end

/-- A value as text with two spaces more on each line for each level, and one item or field a
line. -/
def pretty (value : Json) : String := prettyOnto "" "\n" value

end Json

end BrokerWire
