import BrokerWire.BigEndian

/-!
# CRC-32

The reflected CRC-32 with the polynomial `0xEDB88320`, once as its definition, one bit at a time
(`Checksum.bitwise`), and once as it is computed, eight bytes at a time from eight tables
(`Checksum.crc32`).
-/

namespace BrokerWire

namespace Checksum

/-- The generator, bit 0 standing for the highest power. -/
def polynomial : UInt32 := 0xEDB88320

/-- Divides one bit out of the register. -/
def bitStep (register : UInt32) : UInt32 :=
  if register &&& 1 = 1 then (register >>> 1) ^^^ polynomial else register >>> 1

/-- Divides `n` bits out of the register. -/
def bitSteps : Nat → UInt32 → UInt32
  | 0, register => register
  | n + 1, register => bitSteps n (bitStep register)

/-- Takes one byte into the register, bit by bit. -/
def bitwiseByte (register : UInt32) (b : UInt8) : UInt32 :=
  bitSteps 8 (register ^^^ b.toUInt32)

/-- The CRC-32 of a byte string by its definition: all bits of the register set at the start, one
division step a bit, and the complement at the end. -/
def bitwise (bytes : Bytes) : UInt32 :=
  ~~~(bytes.foldl bitwiseByte 0xFFFFFFFF)

/-! ### Tables -/

/-- One register for each byte. -/
abbrev Table := Vector UInt32 256

/-- The entry of a table for a byte. -/
def Table.entry (table : Table) (b : UInt8) : UInt32 :=
  table.get ⟨b.toNat, b.toNat_lt⟩

/-- What a byte contributes when it is the last one taken. -/
def baseTable : Table := Vector.ofFn fun i => bitSteps 8 (UInt32.ofNat i.val)

/-- What a byte contributes when one more byte follows than for the given table. -/
def nextTable (table : Table) : Table :=
  table.map fun (r : UInt32) => baseTable.entry r.toUInt8 ^^^ (r >>> 8)

/-- The eight tables: table `k` is for a byte that `k` bytes follow. -/
structure Tables where
  /-- No byte follows. -/
  t0 : Table
  /-- One byte follows. -/
  t1 : Table
  /-- Two bytes follow. -/
  t2 : Table
  /-- Three bytes follow. -/
  t3 : Table
  /-- Four bytes follow. -/
  t4 : Table
  /-- Five bytes follow. -/
  t5 : Table
  /-- Six bytes follow. -/
  t6 : Table
  /-- Seven bytes follow. -/
  t7 : Table

/-- The tables, each computed from the one before it. -/
def tables : Tables :=
  let t0 := baseTable
  let t1 := nextTable t0
  let t2 := nextTable t1
  let t3 := nextTable t2
  let t4 := nextTable t3
  let t5 := nextTable t4
  let t6 := nextTable t5
  let t7 := nextTable t6
  ⟨t0, t1, t2, t3, t4, t5, t6, t7⟩

/-- Takes one byte into the register by table. -/
def tableByte (register : UInt32) (b : UInt8) : UInt32 :=
  (register >>> 8) ^^^ tables.t0.entry (register.toUInt8 ^^^ b)

/-- Four bytes as a word, the first one lowest. -/
def littleEndian (a b c d : UInt8) : UInt32 :=
  a.toUInt32 ||| (b.toUInt32 <<< 8) ||| (c.toUInt32 <<< 16) ||| (d.toUInt32 <<< 24)

/-- Takes eight bytes, given as two words, into the register. -/
def tableBlock (register low high : UInt32) : UInt32 :=
  let mixed := register ^^^ low
  tables.t7.entry mixed.toUInt8 ^^^ tables.t6.entry (mixed >>> 8).toUInt8 ^^^
    tables.t5.entry (mixed >>> 16).toUInt8 ^^^ tables.t4.entry (mixed >>> 24).toUInt8 ^^^
    tables.t3.entry high.toUInt8 ^^^ tables.t2.entry (high >>> 8).toUInt8 ^^^
    tables.t1.entry (high >>> 16).toUInt8 ^^^ tables.t0.entry (high >>> 24).toUInt8

/-- Takes bytes into the register, eight at a time while eight are left and then singly. -/
def sliced (register : UInt32) : Bytes → UInt32
  | a :: b :: c :: d :: e :: f :: g :: h :: rest =>
    sliced (tableBlock register (littleEndian a b c d) (littleEndian e f g h)) rest
  | rest => rest.foldl tableByte register

/-- The CRC-32 of a byte string. -/
def crc32 (bytes : Bytes) : UInt32 :=
  if bytes.isEmpty then 0 else ~~~(sliced 0xFFFFFFFF bytes)

/-- A checksum as it is stored, in four big-endian bytes. -/
def stored (crc : UInt32) : Bytes :=
  BigEndian.encode 4 crc.toNat

/-- The stored checksum of a byte string that has any bytes. -/
def hash? (bytes : Bytes) : Option Bytes :=
  if bytes.isEmpty then none else some (stored (crc32 bytes))

/-- The empty byte string has checksum 0 by its definition, too. -/
theorem bitwise_nil : bitwise [] = 0 := by decide

@[simp]
theorem length_stored (crc : UInt32) : (stored crc).length = 4 := BigEndian.length_encode ..

end Checksum

end BrokerWire
