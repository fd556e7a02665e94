/-!
# Internet addresses

Version 4 and version 6 addresses, read from their textual forms and written in canonical form: a
version 6 address leaves out its longest run of zero groups, the first of several, when there are
two or more of them, and ends in dotted form when it stands for a version 4 address.
-/

namespace BrokerWire

/-- A version 4 address. -/
structure Ipv4 where
  /-- The first octet. -/
  a : UInt8
  /-- The second octet. -/
  b : UInt8
  /-- The third octet. -/
  c : UInt8
  /-- The fourth octet. -/
  d : UInt8
  deriving DecidableEq, Repr

/-- A version 6 address. -/
structure Ipv6 where
  /-- Its eight groups of 16 bits. -/
  groups : Vector UInt16 8
  deriving DecidableEq, Repr

/-- An address of either version. -/
inductive IpAddress where
  | v4 (address : Ipv4)
  | v6 (address : Ipv6)
  deriving DecidableEq, Repr

/-! ### Reading -/

namespace Address

/-- The value of a character as a digit of a number system. -/
def digitIn? (radix : Nat) (c : Char) : Option Nat :=
  let value :=
    if c.isDigit then c.toNat - '0'.toNat
    else if 'a' ≤ c ∧ c ≤ 'f' then c.toNat - 'a'.toNat + 10
    else if 'A' ≤ c ∧ c ≤ 'F' then c.toNat - 'A'.toNat + 10
    else radix
  if value < radix then some value else none

/-- The digits in front of a text, as their number and their value, and what follows them. -/
def digits (radix : Nat) : Nat → Nat → List Char → Nat × Nat × List Char
  | count, value, [] => (count, value, [])
  | count, value, c :: cs =>
    match digitIn? radix c with
    | some d => digits radix (count + 1) (value * radix + d) cs
    | none => (count, value, c :: cs)

/-- A decimal number below 256 of at most three digits and without leading zeros. -/
def octet? (cs : List Char) : Option (UInt8 × List Char) :=
  match digits 10 0 0 cs with
  | (count, value, rest) =>
    if count = 0 ∨ 3 < count ∨ 255 < value then none
    else if 1 < count ∧ cs.head? = some '0' then none
    else some (UInt8.ofNat value, rest)

/-- A hexadecimal number of at most four digits. -/
def group? (cs : List Char) : Option (UInt16 × List Char) :=
  match digits 16 0 0 cs with
  | (count, value, rest) =>
    if count = 0 ∨ 4 < count then none else some (UInt16.ofNat value, rest)

/-- A decimal number below 65536. -/
def port? (cs : List Char) : Option (UInt16 × List Char) :=
  match digits 10 0 0 cs with
  | (count, value, rest) =>
    if count = 0 ∨ 65535 < value then none else some (UInt16.ofNat value, rest)

/-- What follows a given character. -/
def behind? (c : Char) : List Char → Option (List Char)
  | [] => none
  | x :: rest => if x = c then some rest else none

/-- Four octets with dots between them. -/
def ipv4? (cs : List Char) : Option (Ipv4 × List Char) := do
  let (a, cs) ← octet? cs
  let (b, cs) ← octet? (← behind? '.' cs)
  let (c, cs) ← octet? (← behind? '.' cs)
  let (d, cs) ← octet? (← behind? '.' cs)
  return (⟨a, b, c, d⟩, cs)

/-- A pair of octets as a group. -/
def groupOf (high low : UInt8) : UInt16 :=
  UInt16.ofNat (high.toNat * 256 + low.toNat)

/-- Groups with colons between them, at most `limit` and as many as there are, with what follows
them. Two groups at the end may be written as a version 4 address; the flag tells whether they
are. -/
def groups (first : Bool) : Nat → List Char → List UInt16 × Bool × List Char
  | 0, cs => ([], false, cs)
  | limit + 1, cs =>
    let start := if first then some cs else behind? ':' cs
    let embedded := if limit = 0 then none else start.bind ipv4?
    match embedded with
    | some (⟨a, b, c, d⟩, rest) => ([groupOf a b, groupOf c d], true, rest)
    | none =>
      match start.bind group? with
      | none => ([], false, cs)
      | some (g, rest) =>
        let (gs, dotted, rest) := groups false limit rest
        (g :: gs, dotted, rest)

/-- Eight groups, or fewer with a double colon for those that are left out. -/
def ipv6? (cs : List Char) : Option (Ipv6 × List Char) := do
  let (head, dotted, cs) := groups true 8 cs
  let (all, cs) ←
    if head.length = 8 then some (head, cs)
    else if dotted then none
    else do
      let cs ← behind? ':' (← behind? ':' cs)
      let (tail, _, cs) := groups true (7 - head.length) cs
      some (head ++ List.replicate (8 - head.length - tail.length) 0 ++ tail, cs)
  if h : all.length = 8 then
    some (⟨⟨all.toArray, by simpa using h⟩⟩, cs)
  else none

/-- The value of a reading that leaves nothing over. -/
def whole? (read : List Char → Option (α × List Char)) (text : String) : Option α :=
  match read text.toList with
  | some (a, []) => some a
  | _ => none

end Address

/-- The address that a text spells. -/
def IpAddress.ofText? (text : String) : Option IpAddress :=
  match Address.whole? Address.ipv4? text with
  | some address => some (.v4 address)
  | none => (Address.whole? Address.ipv6? text).map .v6

/-! ### Writing -/

/-- Four octets with dots between them. -/
def Ipv4.text (address : Ipv4) : String :=
  ".".intercalate
    ([address.a, address.b, address.c, address.d].map fun octet => toString octet.toNat)

namespace Ipv6

/-- The version 4 address that the last two groups stand for, if the address is a mapped one. -/
def mapped? (address : Ipv6) : Option Ipv4 :=
  match address.groups.toList with
  | [0, 0, 0, 0, 0, 0xFFFF, high, low] =>
    some ⟨(high >>> 8).toUInt8, high.toUInt8, (low >>> 8).toUInt8, low.toUInt8⟩
  | _ => none

/-- A group in hexadecimal digits. -/
def groupText (group : UInt16) : String :=
  String.ofList (Nat.toDigits 16 group.toNat)

/-- Groups with colons between them. -/
def groupsText (groups : List UInt16) : String :=
  ":".intercalate (groups.map groupText)

/-- The number of zero groups in front. -/
def leadingZeros (groups : List UInt16) : Nat :=
  (groups.takeWhile (· = 0)).length

/-- The canonical form. -/
def text (address : Ipv6) : String :=
  match address.mapped? with
  | some inner => "::ffff:" ++ inner.text
  | none =>
    let groups := address.groups.toList
    let runs := (List.range 8).map fun i => leadingZeros (groups.drop i)
    let longest := runs.foldl max 0
    if longest < 2 then groupsText groups
    else
      let start := runs.idxOf longest
      groupsText (groups.take start) ++ "::" ++ groupsText (groups.drop (start + longest))

end Ipv6

/-- The canonical form. -/
def IpAddress.text : IpAddress → String
  | .v4 address => address.text
  | .v6 address => address.text

end BrokerWire
