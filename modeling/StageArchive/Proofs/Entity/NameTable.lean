import StageArchive.Entity.NameTable
import StageArchive.Proofs.Text
/-!
# Which name tables can be read back

A table separates its names by zero bytes, so a name that holds a zero character comes apart into
several, and an empty name at the end is taken for padding. `decode_encode_eq_ok_iff` says that nothing
else goes wrong, and `decode_encode_append` that padding behind a table is passed over.
`exists_decode_encode` says what happens to names with zero characters: the table can still be read,
but no name that is read from it holds one.
-/

namespace StageArchive.NameTable

@[simp]
theorem encode_nil : encode [] = [] := rfl

@[simp]
theorem encode_cons (name : String) (names : List String) :
    encode (name :: names) = Text.utf8 name ++ 0 :: encode names := by
  simp [encode]

/-- A name without zero bytes ends at the first zero byte after it. -/
theorem splitName_append {name : Bytes} (rest : Bytes) (h : 0 ∉ name) :
    splitName (name ++ 0 :: rest) = some (name, rest) := by
  induction name with
  | nil => rfl
  | cons byte name ih =>
      obtain ⟨hbyte, hname⟩ := List.ne_and_not_mem_of_not_mem_cons h
      rw [List.cons_append, splitName, if_neg (Ne.symm hbyte), ih hname]
      rfl

/-- A table without bytes, or with only a zero byte, has no names. -/
theorem decode_of_empty (offset : Nat) {bytes : Bytes} (h : bytes = [] ∨ bytes = [0]) :
    decode offset bytes = .ok [] := by
  rw [decode, if_pos h]

/-- The first name of a table is read before the others, unless nothing but padding is there. -/
theorem decode_append (offset : Nat) {name : String} {rest : Bytes} (hzero : '\x00' ∉ name.toList)
    (hmore : name ≠ "" ∨ rest ≠ []) :
    decode offset (Text.utf8 name ++ 0 :: rest) =
      (decode (offset + (Text.utf8 name).length + 1) rest).map (name :: ·) := by
  have hsplit := splitName_append rest (mt Text.zero_mem_utf8.mp hzero)
  have hthere : ¬ (Text.utf8 name ++ 0 :: rest = [] ∨ Text.utf8 name ++ 0 :: rest = [0]) := by
    intro hparts
    rcases hparts with hempty | hpad
    · exact absurd hempty (by simp)
    · obtain ⟨hname, hrest⟩ := List.append_eq_singleton_iff.mp hpad |>.resolve_right (by simp)
      rcases hmore with hmore | hmore
      · exact hmore (Text.utf8_eq_nil.mp hname)
      · exact hmore (List.cons.inj hrest).2
  rw [decode, if_neg hthere]
  split
  · rename_i hnone
    rw [hsplit] at hnone
    cases hnone
  · rename_i first others hsome
    rw [hsplit] at hsome
    cases hsome
    rw [Text.ofUtf8?_utf8]

/-- Names without zero characters are read back in front of padding. Without padding the last of them may
not be empty. -/
theorem decode_encode_append (offset : Nat) {names : List String} {pad : Bytes}
    (hzero : ∀ name ∈ names, '\x00' ∉ name.toList) (hpad : pad = [] ∨ pad = [0])
    (hlast : pad = [] → names.getLast? ≠ some "") :
    decode offset (encode names ++ pad) = .ok names := by
  induction names generalizing offset with
  | nil => exact decode_of_empty offset hpad
  | cons name names ih =>
      have hothers : pad = [] → names.getLast? ≠ some "" := by
        intro hnone
        cases names with
        | nil => exact nofun
        | cons next rest => simpa using hlast hnone
      have hmore : name ≠ "" ∨ encode names ++ pad ≠ [] := by
        by_cases hrest : encode names ++ pad = []
        · obtain ⟨hnames, hnone⟩ := List.append_eq_nil_iff.mp hrest
          cases names with
          | nil => exact .inl fun hname => hlast hnone (by rw [hname]; rfl)
          | cons next rest => simp at hnames
        · exact .inr hrest
      rw [encode_cons, List.append_assoc, List.cons_append,
        decode_append offset (hzero name (List.mem_cons_self ..)) hmore,
        ih _ (fun other hother => hzero other (List.mem_cons_of_mem _ hother)) hothers]
      rfl

/-- Names without zero characters, the last of them not empty, are read back. -/
theorem decode_encode (offset : Nat) {names : List String}
    (hzero : ∀ name ∈ names, '\x00' ∉ name.toList) (hlast : names.getLast? ≠ some "") :
    decode offset (encode names) = .ok names := by
  have hread := decode_encode_append offset hzero (.inl rfl) fun _ => hlast
  rwa [List.append_nil] at hread

/-- Characters of which the last is the zero character are a table that can be read, and the names
in it hold no zero characters. -/
theorem exists_decode_of_terminated (offset : Nat) (characters : List Char)
    (hend : ∀ c ∈ characters.getLast?, c = '\x00') :
    ∃ names, decode offset (Text.charBytes characters) = .ok names ∧
      ∀ name ∈ names, '\x00' ∉ name.toList := by
  by_cases hpad : Text.charBytes characters = [] ∨ Text.charBytes characters = [0]
  · exact ⟨[], decode_of_empty offset hpad, nofun⟩
  -- The first zero character ends a name, and a shorter table follows it.
  · have hne : characters ≠ [] := by
      rintro rfl
      exact hpad (.inl rfl)
    have hmem : '\x00' ∈ characters := by
      have hlast := List.getLast?_eq_some_getLast hne
      rw [← hend _ (Option.mem_def.mpr hlast)]
      exact List.getLast_mem hne
    obtain ⟨name, rest, rfl, hname⟩ := List.eq_append_cons_of_mem hmem
    have hbytes : Text.charBytes (name ++ '\x00' :: rest) =
        Text.utf8 (String.ofList name) ++ 0 :: Text.charBytes rest := by
      rw [Text.utf8_eq_charBytes, String.toList_ofList]
      simp [Text.charBytes, String.utf8EncodeChar]
    have hrest : ∀ c ∈ rest.getLast?, c = '\x00' := by
      intro c hc
      apply hend c
      cases rest with
      | nil => cases hc
      | cons next rest => simpa using hc
    obtain ⟨names, hnames, hzero⟩ :=
      exists_decode_of_terminated (offset + (Text.utf8 (String.ofList name)).length + 1) rest hrest
    have hfirst : '\x00' ∉ (String.ofList name).toList := by
      rwa [String.toList_ofList]
    have hmore : String.ofList name ≠ "" ∨ Text.charBytes rest ≠ [] := by
      by_cases hempty : String.ofList name = ""
      · refine .inr fun hnone => hpad (.inr ?_)
        rw [hbytes, hnone, hempty, Text.utf8_eq_nil.mpr rfl]
        rfl
      · exact .inl hempty
    refine ⟨String.ofList name :: names, ?_, ?_⟩
    · rw [hbytes, decode_append offset hfirst hmore, hnames]
      rfl
    · intro other hother
      cases hother with
      | head => exact hfirst
      | tail _ hother => exact hzero other hother
termination_by characters.length

/-- Any table of names can be read, and the names in it hold no zero characters. -/
theorem exists_decode_encode (offset : Nat) (names : List String) :
    ∃ decoded, decode offset (encode names) = .ok decoded ∧
      ∀ name ∈ decoded, '\x00' ∉ name.toList := by
  have hbytes : encode names = Text.charBytes (names.flatMap fun name => name.toList ++ ['\x00']) := by
    induction names with
    | nil => rfl
    | cons name names ih =>
        rw [encode_cons, ih, Text.utf8_eq_charBytes]
        simp [Text.charBytes, String.utf8EncodeChar]
  rw [hbytes]
  apply exists_decode_of_terminated
  intro c hc
  rcases List.eq_nil_or_concat names with rfl | ⟨front, last, rfl⟩
  · cases hc
  · rw [List.concat_eq_append, List.flatMap_append, List.flatMap_singleton, ← List.append_assoc,
      List.getLast?_concat] at hc
    exact (Option.some.inj hc).symm

/-- Exactly the names without zero characters of which the last is not empty are read back. -/
theorem decode_encode_eq_ok_iff {offset : Nat} {names : List String} :
    decode offset (encode names) = .ok names ↔
      (∀ name ∈ names, '\x00' ∉ name.toList) ∧ names.getLast? ≠ some "" := by
  refine ⟨fun h => ?_, fun ⟨hzero, hlast⟩ => decode_encode offset hzero hlast⟩
  obtain ⟨decoded, hdecoded, hzero⟩ := exists_decode_encode offset names
  obtain rfl : names = decoded := Except.ok.inj (h.symm.trans hdecoded)
  refine ⟨hzero, fun hlast => ?_⟩
  -- An empty name at the end is the zero byte that padding is.
  obtain ⟨front, rfl⟩ := List.getLast?_eq_some_iff.mp hlast
  have htable : encode (front ++ [""]) = encode front ++ [0] := by
    rw [encode, List.flatMap_append]
    rfl
  have hfront := decode_encode_append offset
    (fun name hname => hzero name (List.mem_append_left _ hname)) (.inr rfl) nofun
  rw [htable, hfront] at h
  simpa using Except.ok.inj h

end StageArchive.NameTable
