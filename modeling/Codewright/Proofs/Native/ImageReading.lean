import Codewright.Native.Executable
import Codewright.Proofs.Native.Decoding

/-!
# Executable files can be read

A reader of portable executables for 64 bits. It knows where the format puts every number, relative
to the start of the header that holds it, and finds the headers by the numbers in the file: the
first header points to the second one, which says how long the third one is, and the header of the
section stands behind that.

The headers of a written file are a table of fields (`headerFields`), which are numbers with their
widths. The field at an offset is looked up there (`fieldAt?`), and it is what is read from the file
(`numberAt?_executable`). So the reader finds the code and its point of entry wherever the sizes fit
into four bytes.
-/

namespace Codewright.Native

open Bytecode (ofLittleEndian)

/-! ## The reader -/

/-- The bytes at an offset, if the file has as many. -/
def bytesAt? (file : List UInt8) (offset count : Nat) : Option (List UInt8) :=
  if offset + count ≤ file.length then some ((file.drop offset).take count) else none

/-- The number in the bytes at an offset, the lowest one first. -/
def numberAt? (file : List UInt8) (offset width : Nat) : Option Nat :=
  (bytesAt? file offset width).map ofLittleEndian

/-- A number that has to stand at an offset. -/
def expect? (file : List UInt8) (offset width value : Nat) : Option Unit :=
  if numberAt? file offset width = some value then some () else none

/-- A section: bytes of the file, and where they belong in memory. -/
structure Segment where
  name : List UInt8
  size : Nat
  address : Nat
  rawStart : Nat
  raw : List UInt8
  flags : Nat

/-- What the headers of a file with one section say. Addresses are relative to the base of the
image. -/
structure Image where
  entry : Nat
  fileAlignment : Nat
  size : Nat
  headersSize : Nat
  headersEnd : Nat
  text : Segment

/-- The byte of the section that belongs at an address. -/
def Image.byteAt? (i : Image) (address : Nat) : Option UInt8 :=
  if i.text.address ≤ address then i.text.raw[address - i.text.address]? else none

/-- The section whose header starts at an offset. -/
def readSegment? (file : List UInt8) (start : Nat) : Option Segment := do
  let name ← bytesAt? file start 8
  let size ← numberAt? file (start + 8) 4
  let address ← numberAt? file (start + 12) 4
  let rawSize ← numberAt? file (start + 16) 4
  let rawStart ← numberAt? file (start + 20) 4
  let flags ← numberAt? file (start + 36) 4
  let raw ← bytesAt? file rawStart rawSize
  some { name, size, address, rawStart, raw, flags }

/-- A file of one section for this processor. -/
def readImage? (file : List UInt8) : Option Image := do
  expect? file 0 2 0x5A4D
  let start ← numberAt? file 0x3C 4
  expect? file start 4 0x4550
  expect? file (start + 4) 2 0x8664
  expect? file (start + 6) 2 1
  let optionalSize ← numberAt? file (start + 20) 2
  let optional := start + 24
  expect? file optional 2 0x20B
  let entry ← numberAt? file (optional + 16) 4
  let fileAlignment ← numberAt? file (optional + 36) 4
  let size ← numberAt? file (optional + 56) 4
  let headersSize ← numberAt? file (optional + 60) 4
  let directories ← numberAt? file (optional + 108) 4
  -- The directory is the end of the optional header.
  if 112 + 8 * directories ≤ optionalSize then
    let text ← readSegment? file (optional + optionalSize)
    some
      { entry, fileAlignment, size, headersSize, text
        headersEnd := optional + optionalSize + 40 }
  else none

theorem bytesAt?_append (before bytes rest : List UInt8) :
    bytesAt? (before ++ (bytes ++ rest)) before.length bytes.length = some bytes := by
  rw [bytesAt?, if_pos (by simp), List.drop_left, List.take_left]

/-! ## Fields -/

/-- Numbers with these widths and values, one behind the other. -/
def layout (fields : List (Nat × Nat)) : List UInt8 := fields.flatMap fun f => field f.1 f.2

/-- The width and value of the field that starts at an offset. -/
def fieldAt? : List (Nat × Nat) → Nat → Option (Nat × Nat)
  | [], _ => none
  | f :: fields, offset =>
    if offset = 0 then some f else if f.1 ≤ offset then fieldAt? fields (offset - f.1) else none

@[simp] theorem length_field (width value : Nat) : (field width value).length = width :=
  length_wordBytes ..

theorem ofLittleEndian_field {width value : Nat} (hwidth : width ≤ 8) (h : value < 256 ^ width) :
    ofLittleEndian (field width value) = value := by
  have hword : value < 2 ^ 64 := h.trans_le (Nat.pow_le_pow_right (by decide) hwidth)
  rw [field, ofLittleEndian_wordBytes, Nat.toUInt64_eq, UInt64.toNat_ofNat_of_lt' hword,
    Nat.mod_eq_of_lt h]

theorem field_zero (width : Nat) : field width 0 = List.replicate width 0 := by
  unfold field
  induction width with
  | zero => rfl
  | succ width ih => exact congrArg (0 :: ·) ih

theorem zeroFilled_eq {length count : Nat} {bytes : List UInt8}
    (h : bytes.length + count = length) : zeroFilled length bytes = bytes ++ field count 0 := by
  rw [zeroFilled, field_zero, ← h, Nat.add_sub_cancel_left]

theorem layout_nil : layout [] = [] := rfl

theorem layout_cons (width value : Nat) (fields : List (Nat × Nat)) :
    layout ((width, value) :: fields) = field width value ++ layout fields :=
  rfl

theorem layout_append (fields fields' : List (Nat × Nat)) :
    layout (fields ++ fields') = layout fields ++ layout fields' :=
  List.flatMap_append

theorem exists_of_fieldAt? {fields : List (Nat × Nat)} {offset width value : Nat}
    (h : fieldAt? fields offset = some (width, value)) :
    ∃ before rest, layout fields = before ++ (field width value ++ rest) ∧
        before.length = offset := by
  induction fields generalizing offset with
  | nil => cases h
  | cons f fields ih =>
    rw [fieldAt?] at h
    split_ifs at h with hzero hle
    · cases h
      exact ⟨[], layout fields, rfl, hzero.symm⟩
    · obtain ⟨before, rest, hlayout, hlength⟩ := ih h
      refine ⟨field f.1 f.2 ++ before, rest, ?_, ?_⟩
      · rw [layout_cons, hlayout, List.append_assoc]
      · rw [List.length_append, length_field, hlength]
        omega

/-! ## The headers -/

def legacyFields : List (Nat × Nat) :=
  [(2, 0x5A4D), (58, 0), (4, headerStart), (5, 0x21CD4C01B8), (59, 0)]

def fileFields : List (Nat × Nat) :=
  [(4, 0x4550), (2, 0x8664), (2, 1), (4, 0), (4, 0), (4, 0), (2, optionalHeaderSize), (2, 0x23)]

def optionalFields (codeSize entry : Nat) : List (Nat × Nat) :=
  [(2, 0x20B), (2, 0), (4, rawSize codeSize), (4, 0), (4, 0), (4, textStart + entry),
    (4, textStart),
    (8, imageBase), (4, fileAlignment), (4, fileAlignment), (2, 6), (2, 0), (2, 0), (2, 0), (2, 6),
    (2, 0), (4, 0), (4, textStart + rawSize codeSize), (4, textStart), (4, 0), (2, 3), (2, 0x100),
    (8, 0x100000), (8, 0x1000), (8, 0x100000), (8, 0x1000), (4, 0), (4, directoryEntries),
    (8 * directoryEntries, 0)]

def sectionFields (codeSize : Nat) : List (Nat × Nat) :=
  [(8, 0x747865742E), (4, codeSize), (4, textStart), (4, rawSize codeSize), (4, textStart), (4, 0),
    (4, 0), (2, 0), (2, 0), (4, 0x60000020)]

/-- The fields of all headers, and what is left before the code. -/
def headerFields (codeSize entry : Nat) : List (Nat × Nat) :=
  legacyFields ++ fileFields ++ optionalFields codeSize entry ++
    sectionFields codeSize ++ [(592, 0)]

theorem legacyHeader_eq : legacyHeader = layout legacyFields := by decide +kernel

theorem fileHeader_eq : fileHeader = layout fileFields := by decide +kernel

theorem optionalHeader_eq (codeSize entry : Nat) :
    optionalHeader codeSize entry = layout (optionalFields codeSize entry) := by
  have hzeros : [0, 0] = field 2 0 := rfl
  have hlength : 112 + 8 * directoryEntries = optionalHeaderSize := rfl
  rw [optionalHeader, hzeros,
    zeroFilled_eq (by simpa only [List.length_append, length_field] using hlength)]
  simp only [optionalFields, layout_cons, layout_nil, List.append_assoc, List.append_nil]

theorem field_text : field 8 0x747865742E = [0x2E, 0x74, 0x65, 0x78, 0x74, 0, 0, 0] := by
  decide +kernel

theorem sectionHeader_eq (codeSize : Nat) :
    sectionHeader codeSize = layout (sectionFields codeSize) := by
  simp only [sectionHeader, sectionFields, layout_cons, layout_nil, field_text, List.append_assoc,
    List.append_nil]

attribute [local simp] headerFields legacyFields fileFields optionalFields sectionFields
    fieldAt? headerStart
  textStart fileAlignment optionalHeaderSize directoryEntries

theorem length_headerFields (codeSize entry : Nat) : (layout (headerFields codeSize entry)).length =
    textStart := by
  simp [layout]

theorem headers_eq (codeSize entry : Nat) :
    headers codeSize entry = layout (headerFields codeSize entry) := by
  have hlength := length_headerFields codeSize entry
  have hsplit (fields : List (Nat × Nat)) : layout (fields ++ [(592, 0)]) = layout fields ++
      field 592 0 := by
    rw [layout_append, layout_cons, layout_nil, List.append_nil]
  rw [headerFields, hsplit, List.length_append, length_field] at hlength
  rw [headers, legacyHeader_eq, fileHeader_eq, optionalHeader_eq, sectionHeader_eq, ← layout_append,
    ← layout_append, ← layout_append, zeroFilled_eq hlength, headerFields, hsplit]

section Fields

variable {code : List UInt8} {entry offset width value : Nat}

theorem bytesAt?_executable (h : fieldAt? (headerFields code.length entry) offset =
    some (width, value)) :
    bytesAt? (executable code entry) offset width = some (field width value) := by
  obtain ⟨before, rest, hlayout, rfl⟩ := exists_of_fieldAt? h
  have hbytes := bytesAt?_append before (field width value)
    (rest ++ zeroFilled (rawSize code.length) code)
  rw [length_field] at hbytes
  rw [executable, headers_eq, hlayout]
  simpa only [List.append_assoc] using hbytes

theorem numberAt?_executable (h : fieldAt? (headerFields code.length entry) offset =
    some (width, value)) (hwidth : width ≤ 8 := by decide)
    (hvalue : value < 256 ^ width := by decide) :
    numberAt? (executable code entry) offset width = some value := by
  rw [numberAt?, bytesAt?_executable h, Option.map_some, ofLittleEndian_field hwidth hvalue]

end Fields

variable (code : List UInt8) (entry : Nat)

/-! ## Reading a file -/

theorem rawSize_spec (codeSize : Nat) : fileAlignment ∣ rawSize codeSize ∧
    max codeSize 1 ≤ rawSize codeSize ∧
    rawSize codeSize < max codeSize 1 + fileAlignment := by
  unfold rawSize fileAlignment
  refine ⟨Nat.dvd_mul_left .., ?_, ?_⟩ <;> omega

theorem length_zeroFilled {length : Nat} {bytes : List UInt8} (h : bytes.length ≤ length) :
    (zeroFilled length bytes).length = length := by
  rw [zeroFilled, List.length_append, List.length_replicate, Nat.add_sub_cancel' h]

theorem length_executable : (executable code entry).length = textStart + rawSize code.length := by
  have hle := (rawSize_spec code.length).2.1
  rw [executable, List.length_append, headers_eq, length_headerFields, length_zeroFilled (by omega)]

theorem bytesAt?_text : bytesAt? (executable code entry) textStart (rawSize code.length) =
    some (zeroFilled (rawSize code.length) code) := by
  have hle := (rawSize_spec code.length).2.1
  have hbytes := bytesAt?_append (headers code.length entry) (zeroFilled (rawSize code.length) code)
    []
  rwa [headers_eq, length_headerFields, length_zeroFilled (by omega), List.append_nil,
    ← headers_eq] at hbytes

/-- What the headers of a written file say. -/
def writtenImage : Image where
  entry := 0x400 + entry
  fileAlignment := 0x200
  size := 0x400 + rawSize code.length
  headersSize := 0x400
  headersEnd := 0x1B0
  text :=
    { name := [0x2E, 0x74, 0x65, 0x78, 0x74, 0, 0, 0], size := code.length, address := 0x400,
      rawStart := 0x400
      raw := zeroFilled (rawSize code.length) code, flags := 0x60000020 }

variable {code entry}

theorem readSegment?_executable (hcode : code.length ≤ 2 ^ 31) :
    readSegment? (executable code entry) 0x188 = some (writtenImage code entry).text := by
  obtain ⟨-, -, hraw⟩ := rawSize_spec code.length
  unfold fileAlignment at hraw
  have hname : bytesAt? (executable code entry) 0x188 8 = some (field 8 0x747865742E) :=
    bytesAt?_executable (by simp)
  have hsize : numberAt? (executable code entry) 0x190 4 = some code.length :=
    numberAt?_executable (by simp) (by decide) (by omega)
  have haddress : numberAt? (executable code entry) 0x194 4 = some 0x400 :=
    numberAt?_executable (by simp)
  have hrawSize : numberAt? (executable code entry) 0x198 4 = some (rawSize code.length) :=
    numberAt?_executable (by simp) (by decide) (by omega)
  have hrawStart : numberAt? (executable code entry) 0x19C 4 = some 0x400 :=
    numberAt?_executable (by simp)
  have hflags : numberAt? (executable code entry) 0x1AC 4 = some 0x60000020 :=
    numberAt?_executable (by simp)
  have htext : bytesAt? (executable code entry) 0x400 (rawSize code.length) = _ :=
    bytesAt?_text code entry
  simp only [readSegment?, Option.bind_eq_bind, Option.bind_eq_some_iff]
  exact ⟨_, hname, _, hsize, _, haddress, _, hrawSize, _, hrawStart, _, hflags, _,
    htext, by rw [field_text]; rfl⟩

theorem readImage?_executable (hcode : code.length ≤ 2 ^ 31) (hentry : entry ≤ code.length) :
    readImage? (executable code entry) = some (writtenImage code entry) := by
  obtain ⟨-, -, hraw⟩ := rawSize_spec code.length
  unfold fileAlignment at hraw
  have hletters : numberAt? (executable code entry) 0 2 = some 0x5A4D :=
    numberAt?_executable (by simp)
  have hstart : numberAt? (executable code entry) 0x3C 4 = some 0x80 :=
    numberAt?_executable (by simp)
  have hsignature : numberAt? (executable code entry) 0x80 4 = some 0x4550 :=
    numberAt?_executable (by simp)
  have hmachine : numberAt? (executable code entry) 0x84 2 = some 0x8664 :=
    numberAt?_executable (by simp)
  have hsections : numberAt? (executable code entry) 0x86 2 = some 1 :=
    numberAt?_executable (by simp)
  have hoptionalSize : numberAt? (executable code entry) 0x94 2 = some 240 :=
    numberAt?_executable (by simp)
  have hmagic : numberAt? (executable code entry) 0x98 2 = some 0x20B :=
    numberAt?_executable (by simp)
  have hpoint : numberAt? (executable code entry) 0xA8 4 = some (0x400 + entry) :=
    numberAt?_executable (by simp) (by decide) (by omega)
  have halignment : numberAt? (executable code entry) 0xBC 4 = some 0x200 :=
    numberAt?_executable (by simp)
  have hsize : numberAt? (executable code entry) 0xD0 4 = some (0x400 + rawSize code.length) :=
    numberAt?_executable (by simp) (by decide) (by omega)
  have hheadersSize : numberAt? (executable code entry) 0xD4 4 = some 0x400 :=
    numberAt?_executable (by simp)
  have hdirectories : numberAt? (executable code entry) 0x104 4 = some 16 :=
    numberAt?_executable (by simp)
  simp only [readImage?, Option.bind_eq_bind, Option.bind_eq_some_iff]
  refine ⟨(), if_pos hletters, 0x80, hstart, (), if_pos hsignature, (), if_pos hmachine, (),
    if_pos hsections,
    240, hoptionalSize, (), if_pos hmagic, _, hpoint, _, halignment, _, hsize, _, hheadersSize, 16,
      hdirectories, ?_⟩
  rw [if_pos (by decide), readSegment?_executable hcode]
  rfl

theorem byteAt?_writtenImage (h : entry < code.length) :
    (writtenImage code entry).byteAt? (writtenImage code entry).entry = some code[entry] :=
  calc (writtenImage code entry).byteAt? (writtenImage code entry).entry
      = (zeroFilled (rawSize code.length) code)[0x400 + entry - 0x400]? :=
        if_pos (Nat.le_add_right ..)
    _ = some code[entry] := by
      rw [Nat.add_sub_cancel_left, zeroFilled, List.getElem?_append_left h,
        List.getElem?_eq_getElem h]

/-- A written file is read: its headers end before the code, its one section holds the code and
zeros behind it, and the point of entry is the byte of the code that was asked for. -/
theorem executable_read_back (code : List UInt8) (entry : Nat) (hcode : code.length ≤ 2 ^ 31)
    (hentry : entry < code.length ∨ code = [] ∧ entry = 0) :
    ∃ i : Image, readImage? (executable code entry) = some i ∧
      -- The name is `.text`, and what has it can be read and executed.
      i.text.name = [0x2E, 0x74, 0x65, 0x78, 0x74, 0, 0, 0] ∧ i.text.flags = 0x60000020 ∧
      i.text.address ≤ i.entry ∧ i.entry < i.text.address + i.text.raw.length ∧
      (∀ h : entry < code.length, i.entry < i.text.address + i.text.size ∧
        i.byteAt? i.entry = some code[entry]) ∧
      i.text.raw = code ++ List.replicate (i.text.raw.length - code.length) 0 ∧
      i.fileAlignment = 0x200 ∧ 0x200 ∣ i.text.raw.length ∧
        i.text.raw.length < max code.length 1 + 0x200 ∧
      i.text.rawStart = i.text.address ∧
      i.size = 0x400 + i.text.raw.length ∧ (executable code entry).length = 0x400 +
        i.text.raw.length ∧
      i.headersSize = 0x400 ∧ i.headersEnd < 0x400 := by
  obtain ⟨hdvd, hle, hlt⟩ := rawSize_spec code.length
  have hpoint : entry ≤ code.length := hentry.elim Nat.le_of_lt fun h => h.2 ▸ Nat.zero_le _
  have hlength : (writtenImage code entry).text.raw.length = rawSize code.length :=
    length_zeroFilled (by omega)
  refine ⟨writtenImage code entry, readImage?_executable hcode hpoint, rfl, rfl,
    Nat.le_add_right .., ?_,
    fun h => ⟨Nat.add_lt_add_left h _, byteAt?_writtenImage h⟩, ?_, rfl, ?_, ?_, rfl, ?_,
      ?_, rfl, ?_⟩
  · rw [hlength]
    refine Nat.add_lt_add_left ?_ 0x400
    rcases hentry with h | ⟨-, rfl⟩ <;> omega
  · rw [hlength]
    rfl
  · exact hlength ▸ hdvd
  · exact hlength ▸ hlt
  · rw [hlength]
    rfl
  · rw [hlength]
    exact length_executable code entry
  · show 0x1B0 < 0x400
    decide

theorem executable_read_back_small :
    (∃ i : Image, readImage? (executable [0x90, 0xC3] 1) = some i ∧ i.byteAt? i.entry = some 0xC3) ∧
    ∃ i : Image, readImage? (executable [] 0) = some i ∧
        i.entry < i.text.address + i.text.raw.length := by
  constructor
  · obtain ⟨i, hread, -, -, -, -, hbyte, -⟩ := executable_read_back [0x90, 0xC3] 1 (by decide)
      (.inl (by decide))
    exact ⟨i, hread, (hbyte (by decide)).2⟩
  · obtain ⟨i, hread, -, -, -, hlt, -⟩ := executable_read_back [] 0 (by decide) (.inr ⟨rfl, rfl⟩)
    exact ⟨i, hread, hlt⟩

end Codewright.Native
