import BrokerWire.Proofs.Layout
import BrokerWire.Proofs.Primitives

/-!
# Reading back what was written

Values that are written one behind the other read back as they were, wherever they stand and
whatever follows them, but for the empty text, which comes back as no text. In the other direction,
a value that is read is written as exactly the bytes that it was read off, unless it is a text, a
byte string or a list with nothing in it: for these alone there is more than one spelling.
`Primitive.readAll_writeAll` says both.
-/

namespace BrokerWire

namespace Primitive

/-- What a value is, whichever it is. -/
inductive Kind where
  | uint8
  | int8
  | int16
  | int32
  | int64
  | string
  | array
  | int32s
  deriving DecidableEq, Repr

/-- The kind of a value. -/
def kind : Primitive → Kind
  | uint8 _ => .uint8
  | int8 _ => .int8
  | int16 _ => .int16
  | int32 _ => .int32
  | int64 _ => .int64
  | string _ => .string
  | array _ => .array
  | int32s _ => .int32s

/-- What comes back of a value: of an empty text, no text. -/
def stated : Primitive → Primitive
  | string text => string (BrokerWire.stated text)
  | value => value

/-- A value with nothing in it, which still is there. -/
def IsEmpty : Primitive → Prop
  | string text => text = some ""
  | array bytes => bytes = some []
  | int32s xs => xs = []
  | _ => False

/-- Writes values, one behind the other. -/
def writeAll (values : List Primitive) : Encoder Unit := values.forM write

namespace Kind

/-- Reads a value of the kind. A signed byte is read as an unsigned one. -/
def read : Kind → Decoder Primitive
  | uint8 => Primitive.uint8 <$> Decoder.uint8
  | int8 => (fun x => Primitive.int8 x.toInt8) <$> Decoder.uint8
  | int16 => Primitive.int16 <$> Decoder.int16
  | int32 => Primitive.int32 <$> Decoder.int32
  | int64 => Primitive.int64 <$> Decoder.int64
  | string => Primitive.string <$> Decoder.string
  | array => Primitive.array <$> Decoder.bytes
  | int32s => Primitive.int32s <$> Decoder.int32s

/-- Reads values of the kinds, one behind the other. -/
def readAll (kinds : List Kind) : Decoder (List Primitive) := kinds.mapM read

/-- Somewhere in some byte string, a value of the kind is read off exactly these bytes. -/
def Spells (kind : Kind) (bytes : Bytes) (value : Primitive) : Prop :=
  ∃ data offset size c', kind.read (.window data offset size) = .ok value c' ∧
    bytes = c'.range (Cursor.window data offset size).position c'.position

/-- The byte strings that values of a kind are read off. -/
def Layout : Kind → Bytes → Primitive → Prop
  | uint8, bytes, value => ∃ x, bytes = [x] ∧ value = .uint8 x
  | int8, bytes, value => ∃ x : UInt8, bytes = [x] ∧ value = .int8 x.toInt8
  | int16, bytes, value => ∃ x, bytes = BigEndian.ofInt16 x ∧ value = .int16 x
  | int32, bytes, value => ∃ x, bytes = BigEndian.ofInt32 x ∧ value = .int32 x
  | int64, bytes, value => ∃ x, bytes = BigEndian.ofInt64 x ∧ value = .int64 x
  | string, bytes, value => ∃ text, BrokerWire.Layout.Text bytes text ∧ value = .string text
  | array, bytes, value => ∃ array, BrokerWire.Layout.Array bytes array ∧ value = .array array
  | int32s, bytes, value =>
    ∃ xs, BrokerWire.Layout.Counted (fun bytes x => bytes = BigEndian.ofInt32 x) bytes xs ∧
      value = .int32s xs

end Kind

variable {value : Primitive} {values : List Primitive} {bytes : Bytes} {b b' : FrameBuffer}

/-! ### Written and read -/

/-- A value that can be written reads back. -/
theorem reads_kind (h : value.emission.failure = none)
    (hcount : ∀ xs, value = .int32s xs → xs.length < lengthLimit) :
    value.kind.read.Reads value.emission.bytes value.stated := by
  cases value with
  | uint8 x => exact (Decoder.reads_uint8 x).map _
  | int8 x =>
    have hread := (Decoder.reads_uint8 x.toUInt8).map fun y => Primitive.int8 y.toInt8
    rwa [Int8.toInt8_toUInt8] at hread
  | int16 x => exact (Decoder.reads_int16 x).map _
  | int32 x => exact (Decoder.reads_int32 x).map _
  | int64 x => exact (Decoder.reads_int64 x).map _
  | string text => exact (Decoder.reads_string h).map _
  | array bytes => exact (Decoder.reads_bytes h).map _
  | int32s xs =>
    have hxs := Decoder.reads_repeated (g := id) fun x (_ : x ∈ xs) => Decoder.reads_int32 x
    rw [List.map_id] at hxs
    exact ((Decoder.reads_count (hcount xs rfl)).bind hxs).map _

/-- Values that can be written read back, one behind the other. -/
theorem reads_readAll (h : ∀ value ∈ values, value.emission.failure = none)
    (hcounts : ∀ xs, .int32s xs ∈ values → xs.length < lengthLimit) :
    (Kind.readAll (values.map kind)).Reads (values.flatMap (·.emission.bytes))
      (values.map stated) := by
  induction values with
  | nil => exact Decoder.reads_pure []
  | cons value values ih =>
    obtain ⟨hvalue, hvalues⟩ := List.forall_mem_cons.mp h
    have hfirst := reads_kind hvalue fun xs hxs => hcounts xs (hxs ▸ List.mem_cons_self ..)
    have hrest := ih hvalues fun xs hxs => hcounts xs (List.mem_cons_of_mem _ hxs)
    rw [Kind.readAll, List.map_cons, List.mapM_cons]
    exact hfirst.bind (hrest.map (value.stated :: ·))

/-- Values that are written, none of which is refused, stand one behind the other. -/
theorem eq_append_of_writeAll (h : writeAll values b = .ok () b') :
    (∀ value ∈ values, value.emission.failure = none) ∧
      b' = b.append (values.flatMap (·.emission.bytes)) := by
  have hemits : (writeAll values).Emits (Emission.each emission values) :=
    Encoder.Emits.forM fun value _ => value.emits_write
  rw [hemits b, Emission.onto] at h
  split at h
  · next hfailure =>
    have hnone := Emission.failure_each.mp hfailure
    rw [Emission.bytes_each hnone] at h
    cases h
    exact ⟨hnone, rfl⟩
  · contradiction

/-- Values that are written read back from where the first one begins. -/
theorem readAll_window {size : Nat} (tail : Bytes)
    (hcounts : ∀ xs, .int32s xs ∈ values → xs.length < lengthLimit)
    (hwrite : writeAll values b = .ok () b') (hsize : b'.size ≤ b.size + size) :
    Kind.readAll (values.map kind) (.window (b'.toList ++ tail) b.size size) =
      .ok (values.map stated)
        (.window (b'.toList ++ tail) b'.size (b.size + size - b'.size)) := by
  obtain ⟨hvalues, rfl⟩ := eq_append_of_writeAll hwrite
  have hreads := reads_readAll hvalues hcounts
  generalize values.flatMap (·.emission.bytes) = written at hreads hsize
  rw [FrameBuffer.size_append] at hsize
  have hstart := Cursor.window_append b.toList (written ++ tail) size
  have hstop := Cursor.window_append (b.append written).toList tail
    (b.size + size - (b.append written).size)
  rw [FrameBuffer.length_toList] at hstart hstop
  have htake : (written ++ tail).take size = written ++ tail.take (size - written.length) := by
    rw [List.take_append, List.take_of_length_le (by omega)]
  have hleft : b.size + size - (b.size + written.length) = size - written.length := by omega
  rw [hstop, FrameBuffer.toList_append, FrameBuffer.size_append, List.append_assoc, hstart,
    htake, hleft]
  exact hreads _ _ _

end Primitive

/-! ### Read and written -/

namespace Decoder

theorem recognizes_uint8 : uint8.Recognizes fun bytes x => bytes = [x] := by
  have hlength (x : UInt8) : ([x] : Bytes).length = 1 := rfl
  refine recognizes_integer hlength (fun x => ?_) ?_
  · simp [BigEndian.decode]
  · intro bytes hbytes
    obtain ⟨x, rfl⟩ := List.length_eq_one_iff.mp hbytes
    simp [BigEndian.decode]

/-- A value is read off the bytes between two places of the cursor. -/
theorem Recognizes.exists_of_eq_ok {d : Decoder α} {layout : Bytes → α → Prop}
    (h : d.Recognizes layout) {c c' : Cursor} {a : α} (hok : d c = .ok a c') :
    ∃ bytes rest, layout bytes a ∧ c.rest = bytes ++ rest ∧
      c' = ⟨c.buffer, c.position + bytes.length, rest⟩ := by
  obtain ⟨bytes, hlayout, hrest⟩ := h.spelled hok
  have hreads := h.reads hlayout c.buffer c.position c'.rest
  rw [← hrest, hok] at hreads
  exact ⟨bytes, c'.rest, hlayout, hrest, (EStateM.Result.ok.inj hreads).2⟩

end Decoder

namespace Primitive

variable {kind : Kind}

theorem Kind.recognizes_read (kind : Kind) : kind.read.Recognizes kind.Layout := by
  cases kind with
  | uint8 => exact Decoder.recognizes_uint8.map _
  | int8 => exact Decoder.recognizes_uint8.map _
  | int16 => exact Decoder.recognizes_int16.map _
  | int32 => exact Decoder.recognizes_int32.map _
  | int64 => exact Decoder.recognizes_int64.map _
  | string => exact Decoder.recognizes_string.map _
  | array => exact Decoder.recognizes_bytes.map _
  | int32s => exact (Decoder.recognizes_counted Decoder.recognizes_int32).map _

/-- A text that is not empty is read off its own spelling. -/
theorem emission_of_text {text : Option String} (h : Layout.Text bytes text)
    (hempty : text ≠ some "") : Emission.string text = ⟨bytes, none⟩ := by
  cases h with
  | absent => rfl
  | empty => exact absurd rfl hempty
  | text size text hsize hlength =>
    have hmax : ¬size.toNatClampNeg > Int16.maxValue.toNatClampNeg :=
      Nat.not_lt_of_le (Nat.le_of_lt_succ size.toNatClampNeg_lt)
    have hne : ¬(Utf8.encode text).isEmpty := by
      rw [List.isEmpty_iff, Decoder.encode_eq_nil]
      exact fun hnone => hempty (congrArg some hnone)
    simp only [Emission.string, Option.getD_some, hlength, if_neg hmax, if_neg hne,
      Int16.ofNat_toNatClampNeg size (Int16.le_of_lt hsize)]

/-- A byte string that is not empty is read off its own spelling. -/
theorem emission_of_array {array : Option Bytes} (h : Layout.Array bytes array)
    (hempty : array ≠ some []) : Emission.array array = ⟨bytes, none⟩ := by
  cases h with
  | absent => rfl
  | empty => exact absurd rfl hempty
  | bytes size array hsize hlength =>
    have hmax : ¬size.toNatClampNeg > Int32.maxValue.toNatClampNeg :=
      Nat.not_lt_of_le (Nat.le_of_lt_succ size.toNatClampNeg_lt)
    simp only [Emission.array, hlength, if_neg hmax,
      Int32.ofNat_toNatClampNeg size (Int32.le_of_lt hsize)]

theorem eq_flatMap_of_each {f : α → Bytes} {as : List α}
    (h : Layout.Each (fun bytes a => bytes = f a) bytes as) : bytes = as.flatMap f := by
  induction h with
  | nil => rfl
  | cons ha has ih => rw [List.flatMap_cons, ha, ih]

/-- A list that is not empty is read off its own spelling. -/
theorem bytes_of_counted {f : α → Bytes} {as : List α}
    (h : Layout.Counted (fun bytes a => bytes = f a) bytes as) (hempty : as ≠ []) :
    bytes = BigEndian.ofInt32 (Int32.ofNat as.length) ++ as.flatMap f := by
  obtain ⟨count, hcount, has⟩ := h
  have hpos : 0 ≤ count := by
    refine Int32.not_lt.mp fun hneg => hempty (List.length_eq_zero_iff.mp ?_)
    rw [hcount, Int32.toNatClampNeg_eq_zero_iff]
    exact Int32.le_of_lt hneg
  rw [eq_flatMap_of_each has, hcount, Int32.ofNat_toNatClampNeg count hpos]

/-- A value that is not empty is read off its own spelling. -/
theorem emission_of_layout (h : kind.Layout bytes value) (hempty : ¬value.IsEmpty) :
    value.emission = ⟨bytes, none⟩ := by
  cases kind with
  | int8 =>
    obtain ⟨x, rfl, rfl⟩ := h
    rw [emission, UInt8.toUInt8_toInt8]
  | string =>
    obtain ⟨text, htext, rfl⟩ := h
    exact emission_of_text htext hempty
  | array =>
    obtain ⟨array, harray, rfl⟩ := h
    exact emission_of_array harray hempty
  | int32s =>
    obtain ⟨xs, hxs, rfl⟩ := h
    rw [emission, ← bytes_of_counted hxs hempty]
  | _ =>
    obtain ⟨x, rfl, rfl⟩ := h
    rfl

/-- A value that is not empty is written as the bytes that it was read off. -/
theorem write_of_spells (h : kind.Spells bytes value) (hempty : ¬value.IsEmpty)
    (b : FrameBuffer) : value.write b = .ok () (b.append bytes) := by
  obtain ⟨data, offset, size, c', hread, rfl⟩ := h
  obtain ⟨bytes, rest, hlayout, hrest, rfl⟩ := kind.recognizes_read.exists_of_eq_ok hread
  -- the window ends within the byte string, so what has been read stands in it at the place
  have hprefix : bytes <+: data.drop (min offset data.length) := by
    refine List.IsPrefix.trans ⟨rest, ?_⟩ (List.take_prefix size _)
    exact hrest.symm
  have hrange : (data.drop (min offset data.length)).take
      (min offset data.length + bytes.length - min offset data.length) = bytes := by
    rw [Nat.add_sub_cancel_left]
    exact (List.prefix_iff_eq_take.mp hprefix).symm
  rw [value.emits_write b, emission_of_layout hlayout hempty]
  exact congrArg (fun bytes => EStateM.Result.ok () (b.append bytes)) hrange.symm

/-- Values that are written, one behind the other and behind anything, read back from where the
first one begins, whatever follows the last one: an empty text comes back as no text, and all others
as they were. The cursor is then right behind the last one. And the other way round: a value
that is read is written as the bytes that it was read off, and so it can be read off no others,
unless it is empty. -/
theorem readAll_writeAll {size : Nat} (tail : Bytes)
    (hcounts : ∀ xs, .int32s xs ∈ values → xs.length < lengthLimit)
    (hwrite : writeAll values b = .ok () b') (hsize : b'.size ≤ b.size + size) :
    let data := b'.toList ++ tail
    Kind.readAll (values.map Primitive.kind) (.window data b.size size) =
      .ok (values.map stated) (.window data b'.size (b.size + size - b'.size)) ∧
    (∀ (kind : Kind) bytes value, kind.Spells bytes value → ¬value.IsEmpty →
      ∀ b : FrameBuffer, value.write b = .ok () (b.append bytes)) ∧
    ∀ (kind : Kind) bytes bytes' value, kind.Spells bytes value → kind.Spells bytes' value →
      ¬value.IsEmpty → bytes = bytes' := by
  intro data
  refine ⟨readAll_window tail hcounts hwrite hsize, fun kind bytes value => write_of_spells,
    fun kind bytes bytes' value h h' hempty => ?_⟩
  -- both are what is written of the value
  have hsame := (write_of_spells h hempty .empty).symm.trans (write_of_spells h' hempty .empty)
  have hbuffers := congrArg FrameBuffer.toList (EStateM.Result.ok.inj hsame).2
  simpa using hbuffers

/-- One value of every kind, and the two texts that are written alike. -/
def mixedValues : List Primitive :=
  [.uint8 255, .int8 (-128), .int16 (-1), .int32 (-2), .int64 (-3), .string (some "hé"),
    .string none, .string (some ""), .array (some [0, 255]), .int32s [1, -1]]

/-- What `mixedValues` are written as. -/
def mixedBytes : Bytes :=
  [255, 128, 255, 255, 255, 255, 255, 254, 255, 255, 255, 255, 255, 255, 255, 253,
    0, 3, 104, 195, 169, 255, 255, 255, 255, 0, 0, 0, 2, 0, 255,
    0, 0, 0, 2, 0, 0, 0, 1, 255, 255, 255, 255]

/-- The values behind one byte and in front of another, which lies outside of what is read. The
three bytes of the one text are read off these bytes only. -/
theorem readAll_writeAll_mixed :
    writeAll mixedValues ⟨#[9]⟩ = .ok () ⟨(9 :: mixedBytes).toArray⟩ ∧
      Kind.readAll (mixedValues.map Primitive.kind) (.window (9 :: mixedBytes ++ [7]) 1 43) =
        .ok [.uint8 255, .int8 (-128), .int16 (-1), .int32 (-2), .int64 (-3), .string (some "hé"),
          .string none, .string none, .array (some [0, 255]), .int32s [1, -1]]
          (.window (9 :: mixedBytes ++ [7]) 44 0) ∧
      ∀ bytes, Kind.string.Spells bytes (.string (some "hé")) → bytes = [0, 3, 104, 195, 169] := by
  have hwrite : writeAll mixedValues ⟨#[9]⟩ = .ok () ⟨(9 :: mixedBytes).toArray⟩ := rfl
  have hcounts : ∀ xs, Primitive.int32s xs ∈ mixedValues → xs.length < lengthLimit := by
    intro xs hxs
    obtain rfl : xs = [1, -1] := by simpa [mixedValues] using hxs
    decide
  have hsize : (⟨(9 :: mixedBytes).toArray⟩ : FrameBuffer).size ≤ 1 + 43 := by decide
  obtain ⟨hread, -, hunique⟩ := readAll_writeAll [7] hcounts hwrite hsize
  refine ⟨hwrite, hread, fun bytes hbytes => ?_⟩
  have hspells : Kind.string.Spells [0, 3, 104, 195, 169] (.string (some "hé")) :=
    ⟨[0, 3, 104, 195, 169], 0, 5, ⟨[0, 3, 104, 195, 169], 5, []⟩, rfl, rfl⟩
  refine hunique .string _ _ _ hbytes hspells fun hempty => ?_
  exact absurd (Option.some.inj hempty) (by decide)

end Primitive

end BrokerWire
