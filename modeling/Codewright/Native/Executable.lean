import Codewright.Native.Emit

/-!
# Executable files

Machine code as a 64-bit portable executable: a minimal header for old systems, the file header, the
optional header, one section for the code, and the code itself, filled up with zeros. The code
starts at the same offset in the file and in memory. Nothing is imported and nothing is relocated.
-/

namespace Codewright.Native

/-- The parts of a file are multiples of this size. -/
def fileAlignment : Nat := 0x200

/-- Where the code starts, in the file and in memory. -/
def textStart : Nat := 0x400

def headerStart : Nat := 0x80

def imageBase : Nat := 0x140000000

/-- The number of entries of the directory in the optional header, all empty. -/
def directoryEntries : Nat := 16

def optionalHeaderSize : Nat := 112 + 8 * directoryEntries

/-- The lowest `count` bytes of a number, the lowest one first. -/
def field (count n : Nat) : List UInt8 := wordBytes count n.toUInt64

/-- Bytes filled up with zeros to a length. -/
def zeroFilled (length : Nat) (bytes : List UInt8) : List UInt8 :=
  bytes ++ List.replicate (length - bytes.length) 0

def rawSize (codeSize : Nat) : Nat :=
  (max codeSize 1 + (fileAlignment - 1)) / fileAlignment * fileAlignment

/-- The header for old systems: its letters, a pointer to the file header, and a program that
ends. -/
def legacyHeader : List UInt8 :=
  zeroFilled headerStart
    (zeroFilled 0x3C [0x4D, 0x5A] ++ field 4 headerStart ++ [0xB8, 0x01, 0x4C, 0xCD, 0x21])

/-- The file header: one section; executable, for large addresses and without relocations. -/
def fileHeader : List UInt8 :=
  [0x50, 0x45, 0, 0] ++ field 2 0x8664 ++ field 2 1 ++ field 4 0 ++ field 4 0 ++ field 4 0
    ++ field 2 optionalHeaderSize ++ field 2 0x23

/-- The optional header: sizes, the point of entry, versions, and the sizes of stack and heap. -/
def optionalHeader (codeSize entry : Nat) : List UInt8 :=
  zeroFilled optionalHeaderSize <|
    field 2 0x20B ++ [0, 0] ++ field 4 (rawSize codeSize) ++ field 4 0 ++ field 4 0
      ++ field 4 (textStart + entry) ++ field 4 textStart
      ++ field 8 imageBase ++ field 4 fileAlignment ++ field 4 fileAlignment
      ++ field 2 6 ++ field 2 0 ++ field 2 0 ++ field 2 0 ++ field 2 6 ++ field 2 0 ++ field 4 0
      ++ field 4 (textStart + rawSize codeSize) ++ field 4 textStart ++ field 4 0
      ++ field 2 3 ++ field 2 0x100
      ++ field 8 0x100000 ++ field 8 0x1000 ++ field 8 0x100000 ++ field 8 0x1000
      ++ field 4 0 ++ field 4 directoryEntries

/-- The header of the section for code, which may be read and executed. -/
def sectionHeader (codeSize : Nat) : List UInt8 :=
  [0x2E, 0x74, 0x65, 0x78, 0x74, 0, 0, 0] ++ field 4 codeSize ++ field 4 textStart
    ++ field 4 (rawSize codeSize) ++ field 4 textStart ++ field 4 0 ++ field 4 0 ++ field 2 0
    ++ field 2 0 ++ field 4 0x60000020

/-- The headers for code of a size that is entered at an offset. -/
def headers (codeSize entry : Nat) : List UInt8 :=
  zeroFilled textStart
    (legacyHeader ++ fileHeader ++ optionalHeader codeSize entry ++ sectionHeader codeSize)

/-- The file for code that is entered at an offset. -/
def executable (code : List UInt8) (entry : Nat) : List UInt8 :=
  headers code.length entry ++ zeroFilled (rawSize code.length) code

def Program.executable (p : Program) : List UInt8 := Native.executable p.code.toList p.entry

end Codewright.Native
