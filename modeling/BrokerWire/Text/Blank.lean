/-!
# White space

The characters with the Unicode property White_Space, texts without them at either end, and lists
of names that commas separate, with white space allowed around each name.
-/

namespace BrokerWire

/-- The characters with the Unicode property White_Space. -/
def isBlank (c : Char) : Bool :=
  ('\x09' ≤ c && c ≤ '\x0d') || c = ' ' || c = '\x85' || c = '\xa0' || c = '\u1680' ||
    ('\u2000' ≤ c && c ≤ '\u200a') || c = '\u2028' || c = '\u2029' || c = '\u202f' ||
    c = '\u205f' || c = '\u3000'

/-- The characters from the first to the last that is not white space. -/
def trimBlanks (cs : List Char) : List Char :=
  ((cs.dropWhile isBlank).reverse.dropWhile isBlank).reverse

/-- The stretches of a list between occurrences of a separator; always one more than those. -/
def segments (separator : Char) : List Char → List (List Char)
  | [] => [[]]
  | c :: cs =>
    if c = separator then [] :: segments separator cs
    else
      match segments separator cs with
      | [] => [[c]]
      | segment :: rest => (c :: segment) :: rest

/-- What a list of names separated by commas names: each stretch between commas without the white
space around it, where anything but white space is left. -/
def namesIn (text : String) : List String :=
  (((segments ',' text.toList).map trimBlanks).filter (· ≠ [])).map String.ofList

theorem segments_ne_nil (separator : Char) (cs : List Char) : segments separator cs ≠ [] := by
  cases cs with
  | nil => simp [segments]
  | cons c cs =>
    unfold segments
    split
    · simp
    · split <;> simp

end BrokerWire
