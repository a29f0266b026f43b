import Polyglot.Machine.Fault
import Polyglot.Machine.Memory
import Polyglot.Text.Padding

/-!
# Programs

A program is a data section and a code section, both made of words. Loaded, the
two stand one after the other from address four on – address zero is the null
pointer – and execution starts at the first word of code.

The file form of a program is a stream of words, the lowest byte first: the
number of data words, the number of code *bytes*, then the two sections. The
two units of the header are as they are: reading checks both of them against
the length of what follows, so that every accepted file is the file of its own
program.
-/

namespace Polyglot.Machine

/-- The address at which programs are loaded. -/
def loadAddress : Nat := 4

/-- A program. -/
structure Program where
  /-- The data section. -/
  data : List UInt32
  /-- The code section. -/
  code : List UInt32
  deriving DecidableEq, Repr

namespace Program

/-- The program with nothing in it. -/
def empty : Program := ⟨[], []⟩

/-- Bytes as words, the last of them filled up with zeros. -/
def wordsOfBytes : List UInt8 → List UInt32
  | [] => []
  | [b₀] => [wordOfBytes b₀ 0 0 0]
  | [b₀, b₁] => [wordOfBytes b₀ b₁ 0 0]
  | [b₀, b₁, b₂] => [wordOfBytes b₀ b₁ b₂ 0]
  | b₀ :: b₁ :: b₂ :: b₃ :: rest => wordOfBytes b₀ b₁ b₂ b₃ :: wordsOfBytes rest

/-- The program with data given as bytes, filled up with zeros to a whole word. -/
def ofDataBytes (data : List UInt8) (code : List UInt32) : Program :=
  ⟨wordsOfBytes data, code⟩

/-- The size of the data section in bytes. -/
def dataSize (p : Program) : Nat := p.data.length * 4

/-- The size of the loaded program in bytes. -/
def imageSize (p : Program) : Nat := (p.data.length + p.code.length) * 4

/-- The address of the first instruction of the loaded program. -/
def entryPoint (p : Program) : Nat := loadAddress + p.dataSize

/-- The bytes of the loaded program. -/
def image (p : Program) : List UInt8 :=
  (p.data ++ p.code).flatMap wordBytes

/-- The words of the file form: the header and the two sections. -/
def fileWords (p : Program) : List UInt32 :=
  UInt32.ofNat p.data.length :: UInt32.ofNat (p.code.length * 4) :: (p.data ++ p.code)

/-- The file form of a program. -/
def toBytes (p : Program) : List UInt8 :=
  p.fileWords.flatMap wordBytes

/-- The program of a file. -/
def ofBytes (bytes : List UInt8) : Except Fault Program :=
  if bytes.length % 4 ≠ 0 then .error (.malformedProgram (.partialWord bytes.length))
  else
    match wordsOfBytes bytes with
    | dataWords :: codeBytes :: body =>
      if codeBytes.toNat % 4 ≠ 0 then .error (.malformedProgram (.partialCode codeBytes.toNat))
      else if dataWords.toNat + codeBytes.toNat / 4 ≠ body.length then
        .error (.malformedProgram
          (.bodySize dataWords.toNat codeBytes.toNat body.length))
      else .ok ⟨body.take dataWords.toNat, body.drop dataWords.toNat⟩
    | _ => .error (.malformedProgram .missingHeader)

/-- The words of the file form in hexadecimal, one on a line. -/
def toHex (p : Program) : String :=
  "\n".intercalate (p.fileWords.map fun w => Text.hex 8 w.toNat)

/-- The words of a section with the addresses they are loaded at. -/
def addressed (start : Nat) : List UInt32 → List (Nat × UInt32)
  | [] => []
  | w :: ws => (start, w) :: addressed (start + 4) ws

/-- One line of a listing. -/
def listingLine (address : Nat) (text : String) : String :=
  Text.padLeft 6 (toString address) ++ ": " ++ text ++ "\n"

/-- A listing of the program, with the code taken apart. -/
def listing (p : Program) : String :=
  ".data\n"
    ++ String.join ((addressed loadAddress p.data).map fun (address, w) =>
        listingLine address (Text.hex 8 w.toNat))
    ++ ".code\n"
    ++ String.join ((addressed p.entryPoint p.code).map fun (address, w) =>
        listingLine address <|
          match Instruction.decode w with
          | .ok i => i.text
          | .error _ => Text.hex 8 w.toNat ++ " ???")

end Program

end Polyglot.Machine
