import StageArchive.Symbol.Namespace
/-!
# Opcodes

An entity stream is a list of instructions, each an opcode byte with at most one operand. One table
says what operand an opcode takes; encoding, decoding, relinking and listing all follow it.
-/

namespace StageArchive

/-- What an operand is. -/
inductive OperandKind where
  /-- An index into a namespace of the symbol table. -/
  | symbol (space : Namespace)
  /-- A number of bytes. -/
  | count
  /-- A word of fixed width. -/
  | word
  /-- As many bytes as the length register says. -/
  | bytes
  /-- The number of an asset: of a local name before relinking, of a container's media after. -/
  | asset
  deriving DecidableEq, Repr

namespace OperandKind

/-- Whether the operand is written as an index. -/
def isIndex : OperandKind → Bool
  | .symbol _ | .count | .asset => true
  | .word | .bytes => false

/-- The name of a kind. -/
def name : OperandKind → String
  | .symbol space => "symbol:" ++ space.name
  | .count => "count"
  | .word => "word"
  | .bytes => "bytes"
  | .asset => "asset"

end OperandKind

/-- An operation of an entity stream. -/
inductive Opcode where
  /-- Ends the stream. -/
  | finish
  | beginGroup
  | endGroup
  | actor
  | endActor
  | role
  | endRole
  /-- Attaches a set to the current actor. -/
  | bindSet
  /-- The instance name of the innermost open entity. -/
  | name
  | flags
  /-- Points the offset register at a property. -/
  | setOffset
  /-- Puts a number of bytes in the length register. -/
  | setLength
  /-- Gives the property at the offset register its bytes. -/
  | copy
  /-- Gives the property at the offset register an asset. -/
  | copyMediaRef
  deriving DecidableEq, Repr

namespace Opcode

/-- Every opcode, in the order of their bytes. -/
def all : List Opcode :=
  [.finish, .beginGroup, .endGroup, .actor, .endActor, .role, .endRole, .bindSet, .name, .flags,
    .setOffset, .setLength, .copy, .copyMediaRef]

/-- The byte that stands for an opcode. -/
def toByte : Opcode → UInt8
  | .finish => 0x80
  | .beginGroup => 0x81
  | .endGroup => 0x82
  | .actor => 0x83
  | .endActor => 0x84
  | .role => 0x85
  | .endRole => 0x86
  | .bindSet => 0x87
  | .name => 0x88
  | .flags => 0x89
  | .setOffset => 0x8a
  | .setLength => 0x8b
  | .copy => 0x8c
  | .copyMediaRef => 0x8d

/-- The opcode that a byte stands for. -/
def ofByte? (byte : UInt8) : Option Opcode :=
  all.find? (·.toByte == byte)

/-- The name of an opcode in listings and messages. -/
def label : Opcode → String
  | .finish => "End"
  | .beginGroup => "BeginGroup"
  | .endGroup => "EndGroup"
  | .actor => "Actor"
  | .endActor => "EndActor"
  | .role => "Role"
  | .endRole => "EndRole"
  | .bindSet => "BindSet"
  | .name => "Name"
  | .flags => "Flags"
  | .setOffset => "SetOffset"
  | .setLength => "SetLength"
  | .copy => "Copy"
  | .copyMediaRef => "CopyMediaRef"

/-- The opcode with the given name. -/
def ofLabel? (label : String) : Option Opcode :=
  all.find? (·.label == label)

/-- The operand that an opcode takes. -/
def operand? : Opcode → Option OperandKind
  | .finish | .endGroup | .endActor | .endRole => none
  | .beginGroup => some (.symbol .groupClass)
  | .actor => some (.symbol .actorClass)
  | .role => some (.symbol .roleClass)
  | .bindSet | .name => some (.symbol .instances)
  | .flags => some .word
  | .setOffset => some (.symbol .property)
  | .setLength => some .count
  | .copy => some .bytes
  | .copyMediaRef => some .asset

/-- Every opcode is listed. -/
theorem mem_all (opcode : Opcode) : opcode ∈ all := by
  cases opcode <;> decide

/-- The byte of an opcode stands for it. -/
@[simp]
theorem ofByte?_toByte (opcode : Opcode) : ofByte? opcode.toByte = some opcode := by
  cases opcode <;> decide

end Opcode

end StageArchive
