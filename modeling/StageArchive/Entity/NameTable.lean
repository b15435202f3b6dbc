import StageArchive.Instruction.Fault
import StageArchive.Text.Encoding
/-!
# Name tables

The names of an entity's media follow its stream, each with a zero byte after it. Padding may add
one more zero byte at the end, which would be an empty name, so a table never ends in one.
-/

namespace StageArchive.NameTable

/-- The names of a list as a table. -/
def encode (names : List String) : Bytes :=
  names.flatMap fun name => Text.utf8 name ++ [0]

/-- The bytes before the first zero byte and those after it. -/
def splitName : Bytes → Option (Bytes × Bytes)
  | [] => none
  | byte :: rest =>
    if byte = 0 then some ([], rest)
    else (splitName rest).map fun (name, others) => (byte :: name, others)

theorem length_splitName {bytes name rest : Bytes} (h : splitName bytes = some (name, rest)) :
    bytes.length = name.length + 1 + rest.length := by
  induction bytes generalizing name rest with
  | nil => cases h
  | cons byte bytes ih =>
    unfold splitName at h
    split at h
    · cases h
      simp
      omega
    · obtain ⟨⟨found, others⟩, hsplit, heq⟩ := Option.map_eq_some_iff.mp h
      cases heq
      simp [ih hsplit]
      omega

/-- The names of a table whose first byte is at an offset. -/
def decode (offset : Nat) (bytes : Bytes) : Except StreamFault (List String) :=
  if bytes = [] ∨ bytes = [0] then .ok []
  else
    match h : splitName bytes with
    | none => .error (.unterminatedName offset)
    | some (name, rest) =>
      match Text.ofUtf8? name with
      | none => .error (.invalidName offset)
      | some text =>
        have := length_splitName h
        (decode (offset + name.length + 1) rest).map (text :: ·)
termination_by bytes.length

end StageArchive.NameTable
