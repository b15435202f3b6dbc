import StageArchive.Emit.Value
import StageArchive.Proofs.Entity.NameTable
import StageArchive.Proofs.Outcome
import StageArchive.Proofs.Word
/-!
# Property values can be read back

The bytes of a value do not say of which kind it is, but a reader who knows the kind, and the variants
of an enumeration, finds the value in them. Each part of a value is taken from the front of what is left
of the bytes, whatever lies behind it: `Taking.Takes` says so of a part, and `takes_encode` of a value
with scalars that are kept as they are. So no two values of a kind have the same bytes, as long as the
positions of variants fit in a word.
-/

namespace StageArchive

/-- A step that takes something from the front of bytes and leaves what is behind it. -/
abbrev Taking (α : Type) := StateT Bytes Option α

namespace Taking

variable {α β : Type}

/-- Takes a word. -/
def word (order : ByteOrder) : Taking UInt32 := fun bytes =>
  (order.word? bytes 0).map fun word => (word, bytes.drop 4)

/-- Takes a text that ends in a zero byte. -/
def text : Taking String := fun bytes =>
  (NameTable.splitName bytes).bind fun (name, rest) =>
    (Text.ofUtf8? name).map fun text => (text, rest)

/-- Takes a number of items, one after the other. -/
def items (item : Taking α) : (count : Nat) → Taking (List α)
  | 0 => return []
  | count + 1 => do
    let first ← item
    return first :: (← items item count)

/-- Takes items of which the number is known. -/
def vector (item : Taking α) (count : Nat) : Taking (Vector α count) := do
  let found ← items item count
  if h : found.length = count then return ⟨found.toArray, h⟩ else failure

/-- Takes items behind a word with their number. -/
def counted (order : ByteOrder) (item : Taking α) : Taking (List α) := do
  items item (← word order).toNat

/-- What is taken from bytes of which nothing is left. -/
def whole? (taking : Taking α) (bytes : Bytes) : Option α :=
  match (taking bytes : Option (α × Bytes)) with
  | some (value, []) => some value
  | _ => none

/-- Bytes are taken as a value, whatever is behind them. -/
def Takes (taking : Taking α) (bytes : Bytes) (value : α) : Prop :=
  ∀ rest, taking (bytes ++ rest) = some (value, rest)

/-- Bytes that are taken as a value are the whole of it. -/
theorem Takes.whole?_eq {taking : Taking α} {bytes : Bytes} {value : α}
    (h : taking.Takes bytes value) : taking.whole? bytes = some value := by
  have hwhole := h []
  rw [List.append_nil] at hwhole
  rw [whole?, hwhole]

/-- Nothing is taken for a value that is known. -/
theorem takes_pure (value : α) : Takes (pure value) [] value := fun _ => rfl

/-- What is taken next is behind what is taken first. -/
theorem Takes.bind {first : Taking α} {next : α → Taking β} {front back : Bytes} {value : α}
    {result : β} (hfirst : first.Takes front value) (hnext : (next value).Takes back result) :
    (first >>= next).Takes (front ++ back) result := by
  intro rest
  rw [List.append_assoc]
  show (first (front ++ (back ++ rest))).bind (fun found => next found.1 found.2) = _
  rw [hfirst]
  exact hnext rest

/-- A change to what is taken takes nothing more. -/
theorem Takes.map {taking : Taking α} {bytes : Bytes} {value : α} (change : α → β)
    (h : taking.Takes bytes value) : (change <$> taking).Takes bytes (change value) := by
  intro rest
  show (taking (bytes ++ rest)).bind _ = _
  rw [h]
  rfl

/-- The bytes of a word are taken as the word. -/
theorem takes_word (order : ByteOrder) (value : UInt32) :
    (word order).Takes (order.encode value) value := by
  intro rest
  rw [word, ByteOrder.word?_encode, List.drop_left' (ByteOrder.length_encode order value)]
  rfl

/-- The bytes of a text without a zero character are taken as the text. -/
theorem takes_text {value : String} (h : '\x00' ∉ value.toList) :
    text.Takes (Text.utf8 value ++ [0]) value := by
  intro rest
  rw [List.append_assoc, List.singleton_append, text,
    NameTable.splitName_append rest (mt Text.zero_mem_utf8.mp h)]
  show (Text.ofUtf8? (Text.utf8 value)).map _ = _
  rw [Text.ofUtf8?_utf8]
  rfl

/-- The bytes of items are taken as the items when those of each are taken as the item. -/
theorem takes_items {item : Taking α} {encode : α → Bytes} {list : List α}
    (h : ∀ value ∈ list, item.Takes (encode value) value) :
    (items item list.length).Takes (list.flatMap encode) list := by
  induction list with
  | nil => exact takes_pure []
  | cons value list ih =>
      obtain ⟨hvalue, hlist⟩ := List.forall_mem_cons.mp h
      exact hvalue.bind ((ih hlist).map (value :: ·))

/-- The same for items of which the number is known. -/
theorem takes_vector {item : Taking α} {encode : α → Bytes} {count : Nat} (values : Vector α count)
    (h : ∀ value, item.Takes (encode value) value) :
    (vector item count).Takes (values.toList.flatMap encode) values := by
  have hlength : values.toList.length = count := Vector.length_toList
  have hitems : (items item values.toList.length).Takes _ values.toList :=
    takes_items fun value _ => h value
  rw [hlength] at hitems
  have hbuilt : Takes (if h : values.toList.length = count then
      return (⟨values.toList.toArray, h⟩ : Vector α count) else failure) [] values := by
    rw [dif_pos hlength]
    exact takes_pure values
  rw [← List.append_nil (values.toList.flatMap encode)]
  exact hitems.bind hbuilt

/-- The same for items behind a word that can count them. -/
theorem takes_counted {order : ByteOrder} {item : Taking α} {encode : α → Bytes} {list : List α}
    (hcount : list.length < 2 ^ 32) (h : ∀ value ∈ list, item.Takes (encode value) value) :
    (counted order item).Takes (order.encode (UInt32.ofNat list.length) ++ list.flatMap encode)
      list := by
  refine (takes_word order _).bind ?_
  rw [UInt32.toNat_ofNat_of_lt' hcount]
  exact takes_items h

end Taking

/-- What a reader has to know about a value to read it: its kind, and the variants of an enumeration. -/
inductive ValueLayout where
  | int
  | scalar
  | vector2
  | vector3
  | vector4
  | rotation
  | transform
  | string
  | enumeration (variants : List String)
  | intArray
  | scalarArray
  | vector2Array
  | vector3Array
  | vector4Array
  | stringArray
  | mediaRef
  deriving DecidableEq, Repr

namespace ValueLayout

/-- The number of bytes of a value of which the layout says it. -/
def length? : ValueLayout → Option Nat
  | int | scalar | enumeration _ => some 4
  | vector2 => some 8
  | vector3 => some 12
  | vector4 | rotation => some 16
  | transform => some 48
  | string | intArray | scalarArray | vector2Array | vector3Array | vector4Array | stringArray
  | mediaRef => none

/-- Takes a scalar that is kept as it is. -/
def takeScalar (order : ByteOrder) : Taking Scalar :=
  Scalar.mk <$> Taking.word order

/-- Takes a row of scalars. -/
def takeRow (order : ByteOrder) (count : Nat) : Taking (Row count) :=
  Taking.vector (takeScalar order) count

/-- Takes a signed word. -/
def takeInt (order : ByteOrder) : Taking Int32 :=
  UInt32.toInt32 <$> Taking.word order

/-- Takes the value at a position among some variants. -/
def takeVariant (order : ByteOrder) (variants : List String) : Taking String := do
  match variants[(← Taking.word order).toNat]? with
  | some chosen => return chosen
  | none => failure

/-- Takes a value of a layout. A reference to a medium is no bytes. -/
def take (order : ByteOrder) : ValueLayout → Taking Value
  | int => .int <$> takeInt order
  | scalar => .scalar <$> takeScalar order
  | vector2 => .vector2 <$> takeRow order 2
  | vector3 => .vector3 <$> takeRow order 3
  | vector4 => .vector4 <$> takeRow order 4
  | rotation => .rotation <$> takeRow order 4
  | transform => .transform <$> Taking.vector (takeRow order 3) 4
  | string => .string <$> Taking.text
  | enumeration variants => .enumeration variants <$> takeVariant order variants
  | intArray => .intArray <$> Taking.counted order (takeInt order)
  | scalarArray => .scalarArray <$> Taking.counted order (takeScalar order)
  | vector2Array => .vector2Array <$> Taking.counted order (takeRow order 2)
  | vector3Array => .vector3Array <$> Taking.counted order (takeRow order 3)
  | vector4Array => .vector4Array <$> Taking.counted order (takeRow order 4)
  | stringArray => .stringArray <$> Taking.counted order Taking.text
  | mediaRef => failure

/-- The value of a layout that is spelled by bytes. -/
def decode? (order : ByteOrder) (layout : ValueLayout) (bytes : Bytes) : Option Value :=
  (layout.take order).whole? bytes

section Takes

variable {order : ByteOrder}

/-- The bytes of a signed word are taken as the signed word. -/
theorem takes_int (value : Int32) : (takeInt order).Takes (Value.encodeInt order value) value :=
  (Taking.takes_word order _).map UInt32.toInt32

/-- The bytes of a scalar that is kept as it is are taken as the scalar. -/
theorem takes_scalar (value : Scalar) :
    (takeScalar order).Takes (order.encode (ScalarEncoding.float.encode value)) value :=
  (Taking.takes_word order _).map Scalar.mk

/-- The bytes of a row are taken as the row. -/
theorem takes_row {count : Nat} (row : Row count) :
    (takeRow order count).Takes (Value.encodeScalars order .float row.toList) row :=
  Taking.takes_vector row takes_scalar

/-- The position of a variant is taken as the variant. -/
theorem takes_variant {variants : List String} {chosen : String} {position : Nat}
    (hposition : position < 2 ^ 32) (h : variants[position]? = some chosen) :
    (takeVariant order variants).Takes (order.encode (UInt32.ofNat position)) chosen := by
  have hchosen : Taking.Takes (match variants[(UInt32.ofNat position).toNat]? with
      | some chosen => return chosen
      | none => failure) [] chosen := by
    rw [UInt32.toNat_ofNat_of_lt' hposition, h]
    exact Taking.takes_pure chosen
  rw [← List.append_nil (order.encode _)]
  exact (Taking.takes_word order _).bind hchosen

end Takes

end ValueLayout

namespace Value

/-- The layout of a value. -/
def layout : Value → ValueLayout
  | .int _ => .int
  | .scalar _ => .scalar
  | .vector2 _ => .vector2
  | .vector3 _ => .vector3
  | .vector4 _ => .vector4
  | .rotation _ => .rotation
  | .transform _ => .transform
  | .string _ => .string
  | .enumeration variants _ => .enumeration variants
  | .intArray _ => .intArray
  | .scalarArray _ => .scalarArray
  | .vector2Array _ => .vector2Array
  | .vector3Array _ => .vector3Array
  | .vector4Array _ => .vector4Array
  | .stringArray _ => .stringArray
  | .mediaRef _ => .mediaRef

/-- The number of elements of a list. -/
def elementCount? : Value → Option Nat
  | .intArray values => some values.length
  | .scalarArray values => some values.length
  | .vector2Array rows => some rows.length
  | .vector3Array rows => some rows.length
  | .vector4Array rows => some rows.length
  | .stringArray texts => some texts.length
  | _ => none

/-- The texts that are part of the bytes of a value. The variants of an enumeration are not. -/
def texts : Value → List String
  | .string text => [text]
  | .stringArray texts => texts
  | _ => []

/-- Whether every variant of an enumeration is found at a position that fits in a word. -/
def HasWordPositions (value : Value) : Prop :=
  ∀ variants, value.layout = .enumeration variants →
    ∀ variant ∈ variants, variants.idxOf variant < 2 ^ 32

/-- Why a value is refused: a list has more elements than a word can count, a text has a zero character, or
an enumeration has no such variant. -/
inductive Refused : Value → ValueFault → Prop
  | tooLong {value : Value} {count : Nat} (hcount : value.elementCount? = some count)
      (hlong : 2 ^ 32 ≤ count) : Refused value (.tooLong count)
  | interiorZero {value : Value} {text : String}
      (hshort : ∀ count, value.elementCount? = some count → count < 2 ^ 32)
      (htext : text ∈ value.texts) (hzero : '\x00' ∈ text.toList) : Refused value .interiorZero
  | unknownVariant {variants : List String} {chosen : String} (h : chosen ∉ variants) :
      Refused (.enumeration variants chosen) (.unknownVariant chosen variants)

/-- A list without texts is refused for its length alone. -/
theorem refused_iff_of_elementCount {value : Value} {fault : ValueFault} {count : Nat}
    (hcount : value.elementCount? = some count) (htexts : value.texts = []) :
    value.Refused fault ↔ 2 ^ 32 ≤ count ∧ fault = .tooLong count := by
  constructor
  · rintro (⟨hother, hlong⟩ | ⟨-, htext, -⟩ | hchosen)
    · cases hcount.symm.trans hother
      exact ⟨hlong, rfl⟩
    · rw [htexts] at htext
      cases htext
    · cases hcount
  · rintro ⟨hlong, rfl⟩
    exact .tooLong hcount hlong

section Counting

variable {α : Type} {order : ByteOrder} {items : List α}

/-- The length of a list is encoded when it fits in a word. -/
theorem encodeCount_eq_ok {bytes : Bytes} : encodeCount order items = .ok bytes ↔
    items.length < 2 ^ 32 ∧ bytes = order.encode (UInt32.ofNat items.length) := by
  unfold encodeCount
  split
  · rename_i hshort
    exact ⟨fun h => ⟨hshort, (Except.ok.inj h).symm⟩, fun h => congrArg Except.ok h.2.symm⟩
  · rename_i hlong
    exact ⟨nofun, fun h => absurd h.1 hlong⟩

/-- It is refused otherwise. -/
theorem encodeCount_eq_error {fault : ValueFault} : encodeCount order items = .error fault ↔
    2 ^ 32 ≤ items.length ∧ fault = .tooLong items.length := by
  unfold encodeCount
  split
  · rename_i hshort
    exact ⟨nofun, fun h => absurd hshort (Nat.not_lt.mpr h.1)⟩
  · rename_i hlong
    exact ⟨fun h => ⟨Nat.not_lt.mp hlong, (Except.error.inj h).symm⟩,
      fun h => congrArg Except.error h.2.symm⟩

variable {encodeItem : α → Bytes}

/-- A list is its length and its items when the length fits in a word. -/
theorem encodeList_eq_ok {found : EncodedValue} :
    encodeList order encodeItem items = .ok found ↔ items.length < 2 ^ 32 ∧
      found = .bytes (order.encode (UInt32.ofNat items.length) ++ items.flatMap encodeItem) := by
  rw [encodeList, bind_eq_ok]
  constructor
  · rintro ⟨_, hcount, h⟩
    obtain ⟨hshort, rfl⟩ := encodeCount_eq_ok.mp hcount
    exact ⟨hshort, (Except.ok.inj h).symm⟩
  · rintro ⟨hshort, rfl⟩
    exact ⟨_, encodeCount_eq_ok.mpr ⟨hshort, rfl⟩, rfl⟩

/-- It is refused otherwise. -/
theorem encodeList_eq_error {fault : ValueFault} :
    encodeList order encodeItem items = .error fault ↔
      2 ^ 32 ≤ items.length ∧ fault = .tooLong items.length := by
  rw [encodeList, bind_eq_error, encodeCount_eq_error]
  constructor
  · rintro (h | ⟨_, -, h⟩)
    · exact h
    · cases h
  · exact .inl

end Counting

/-- A text is refused for a zero character, and ends in a zero byte otherwise. -/
theorem encodeText_eq (text : String) :
    encodeText text = if '\x00' ∈ text.toList then .error .interiorZero
      else .ok (Text.utf8 text ++ [0]) := by
  simp only [encodeText, List.contains_iff_mem]

/-- Texts are refused for a zero character in one of them, and are one after the other otherwise. -/
theorem encodeTexts_eq (texts : List String) :
    encodeTexts texts = if ∃ text ∈ texts, '\x00' ∈ text.toList then .error .interiorZero
      else .ok (texts.flatMap fun text => Text.utf8 text ++ [0]) := by
  induction texts with
  | nil => simp [encodeTexts]
  | cons text texts ih =>
      rw [encodeTexts, encodeText_eq, ih]
      by_cases htext : '\x00' ∈ text.toList
      · have hhere : ∃ other ∈ text :: texts, '\x00' ∈ other.toList :=
          ⟨text, List.mem_cons_self .., htext⟩
        rw [if_pos hhere, if_pos htext]
        rfl
      · by_cases htexts : ∃ other ∈ texts, '\x00' ∈ other.toList
        · have hthere : ∃ other ∈ text :: texts, '\x00' ∈ other.toList :=
            htexts.imp fun _ h => ⟨List.mem_cons_of_mem _ h.1, h.2⟩
          rw [if_pos hthere, if_pos htexts, if_neg htext]
          rfl
        · have hnowhere : ¬ ∃ other ∈ text :: texts, '\x00' ∈ other.toList := by
            simp only [List.mem_cons, exists_eq_or_imp]
            exact not_or_intro htext htexts
          rw [if_neg hnowhere, if_neg htexts, if_neg htext]
          rfl

/-- Exactly the values that are refused have no encoding, whatever the order and the encoding of
scalars. -/
theorem encode_eq_error {order : ByteOrder} {encoding : ScalarEncoding} {value : Value}
    {fault : ValueFault} : value.encode order encoding = .error fault ↔ value.Refused fault := by
  cases value with
  | string text =>
      rw [encode, map_eq_error, encodeText_eq]
      constructor
      · intro h
        split at h
        · rename_i hzero
          cases h
          exact .interiorZero nofun (List.mem_singleton_self text) hzero
        · cases h
      · rintro (⟨hcount, -⟩ | ⟨-, htext, hzero⟩ | _)
        · cases hcount
        · rw [List.mem_singleton.mp htext] at hzero
          rw [if_pos hzero]
  | stringArray texts =>
      rw [encode, bind_eq_error]
      constructor
      · rintro (hcount | ⟨_, hcount, h⟩)
        · obtain ⟨hlong, rfl⟩ := encodeCount_eq_error.mp hcount
          exact .tooLong rfl hlong
        · obtain ⟨hshort, -⟩ := encodeCount_eq_ok.mp hcount
          rcases bind_eq_error.mp h with htexts | ⟨_, -, h⟩
          · rw [encodeTexts_eq] at htexts
            split at htexts
            · rename_i hzero
              obtain ⟨text, htext, hzero⟩ := hzero
              cases htexts
              refine .interiorZero (fun count hcount => ?_) htext hzero
              cases hcount
              exact hshort
            · cases htexts
          · cases h
      · rintro (⟨hcount, hlong⟩ | ⟨hshort, htext, hzero⟩ | _)
        · cases hcount
          exact .inl (encodeCount_eq_error.mpr ⟨hlong, rfl⟩)
        · refine .inr ⟨_, encodeCount_eq_ok.mpr ⟨hshort _ rfl, rfl⟩, bind_eq_error.mpr (.inl ?_)⟩
          rw [encodeTexts_eq, if_pos ⟨_, htext, hzero⟩]
  | enumeration variants chosen =>
      rw [encode]
      constructor
      · intro h
        split at h
        · rename_i hnone
          cases h
          exact .unknownVariant (List.idxOf?_eq_none_iff.mp hnone)
        · cases h
      · rintro (⟨hcount, -⟩ | ⟨-, htext, -⟩ | hchosen)
        · cases hcount
        · cases htext
        · rw [List.idxOf?_eq_none_iff.mpr hchosen]
  | intArray | scalarArray | vector2Array | vector3Array | vector4Array =>
      exact encodeList_eq_error.trans (refused_iff_of_elementCount rfl rfl).symm
  -- No other value holds elements, a text or a choice, so none is refused.
  | int | scalar | vector2 | vector3 | vector4 | rotation | transform | mediaRef =>
      constructor
      · intro h
        cases h
      · rintro (⟨hcount, -⟩ | ⟨-, htext, -⟩ | _)
        · cases hcount
        · cases htext

/-- A value is the name of a medium, or its bytes refer to none. -/
theorem medium?_of_encode {order : ByteOrder} {encoding : ScalarEncoding} {value : Value}
    {encoded : EncodedValue} (h : value.encode order encoding = .ok encoded) :
    (∃ name, encoded = .asset name ∧ value.medium? = some name) ∨
      ∃ bytes, encoded = .bytes bytes ∧ value.medium? = none := by
  cases value with
  | mediaRef name =>
      cases h
      exact .inl ⟨name, rfl, rfl⟩
  | string text =>
      obtain ⟨bytes, -, rfl⟩ := map_eq_ok.mp h
      exact .inr ⟨bytes, rfl, rfl⟩
  | stringArray texts =>
      obtain ⟨count, -, h⟩ := bind_eq_ok.mp h
      obtain ⟨bytes, -, h⟩ := bind_eq_ok.mp h
      cases h
      exact .inr ⟨_, rfl, rfl⟩
  | enumeration variants chosen =>
      simp only [encode] at h
      split at h
      · cases h
      · cases h
        exact .inr ⟨_, rfl, rfl⟩
  | intArray | scalarArray | vector2Array | vector3Array | vector4Array =>
      exact .inr ⟨_, (encodeList_eq_ok.mp h).2, rfl⟩
  | int | scalar | vector2 | vector3 | vector4 | rotation | transform =>
      cases h
      exact .inr ⟨_, rfl, rfl⟩

/-- Only a reference to a medium refers to one. -/
theorem layout_of_medium? {value : Value} {name : String} (h : value.medium? = some name) :
    value.layout = .mediaRef := by
  cases value with
  | mediaRef => rfl
  | _ => cases h

variable {order : ByteOrder} {value : Value} {bytes : Bytes}

/-- The bytes of a text are taken as the text. -/
theorem takes_encodeText {text : String} (h : encodeText text = .ok bytes) :
    Taking.text.Takes bytes text := by
  rw [encodeText_eq] at h
  split at h
  · cases h
  · rename_i hzero
    cases h
    exact Taking.takes_text hzero

/-- The bytes of a value, with scalars kept as they are, are taken as the value by its layout. -/
theorem takes_encode (hpositions : value.HasWordPositions)
    (h : value.encode order .float = .ok (.bytes bytes)) :
    (value.layout.take order).Takes bytes value := by
  -- A layout takes the parts of a value in the order in which they were put together.
  cases value with
  | int value =>
      cases h
      exact (ValueLayout.takes_int value).map Value.int
  | scalar value =>
      cases h
      rw [encodeScalars, List.flatMap_singleton]
      exact (ValueLayout.takes_scalar value).map Value.scalar
  | vector2 row =>
      cases h
      exact (ValueLayout.takes_row row).map Value.vector2
  | vector3 row =>
      cases h
      exact (ValueLayout.takes_row row).map Value.vector3
  | vector4 row =>
      cases h
      exact (ValueLayout.takes_row row).map Value.vector4
  | rotation row =>
      cases h
      exact (ValueLayout.takes_row row).map Value.rotation
  | transform rows =>
      cases h
      exact (Taking.takes_vector rows ValueLayout.takes_row).map Value.transform
  | string text =>
      obtain ⟨_, htext, h⟩ := map_eq_ok.mp h
      cases h
      exact (takes_encodeText htext).map Value.string
  | enumeration variants chosen =>
      rw [encode] at h
      split at h
      · cases h
      · rename_i position hposition
        cases h
        obtain ⟨hlength, hchosen, -⟩ := List.idxOf?_eq_some_iff.mp hposition
        have hfits := hpositions variants rfl chosen (hchosen ▸ List.getElem_mem hlength)
        have hfirst : variants.idxOf chosen = position :=
          (List.findIdx?_eq_some_iff_findIdx_eq.mp hposition).2
        rw [hfirst] at hfits
        exact (ValueLayout.takes_variant hfits
          (List.getElem?_eq_some_iff.mpr ⟨hlength, hchosen⟩)).map (Value.enumeration variants)
  | intArray values =>
      obtain ⟨hshort, h⟩ := encodeList_eq_ok.mp h
      cases h
      exact (Taking.takes_counted hshort fun value _ => ValueLayout.takes_int value).map Value.intArray
  | scalarArray values =>
      obtain ⟨hshort, h⟩ := encodeList_eq_ok.mp h
      cases h
      exact (Taking.takes_counted hshort fun value _ => ValueLayout.takes_scalar value).map Value.scalarArray
  | vector2Array rows =>
      obtain ⟨hshort, h⟩ := encodeList_eq_ok.mp h
      cases h
      exact (Taking.takes_counted hshort fun row _ => ValueLayout.takes_row row).map Value.vector2Array
  | vector3Array rows =>
      obtain ⟨hshort, h⟩ := encodeList_eq_ok.mp h
      cases h
      exact (Taking.takes_counted hshort fun row _ => ValueLayout.takes_row row).map Value.vector3Array
  | vector4Array rows =>
      obtain ⟨hshort, h⟩ := encodeList_eq_ok.mp h
      cases h
      exact (Taking.takes_counted hshort fun row _ => ValueLayout.takes_row row).map Value.vector4Array
  | stringArray texts =>
      obtain ⟨_, hcount, h⟩ := bind_eq_ok.mp h
      obtain ⟨_, htexts, h⟩ := bind_eq_ok.mp h
      cases h
      obtain ⟨hshort, rfl⟩ := encodeCount_eq_ok.mp hcount
      rw [encodeTexts_eq] at htexts
      split at htexts
      · cases htexts
      · rename_i hzero
        cases htexts
        exact (Taking.takes_counted hshort fun text htext =>
          Taking.takes_text fun h => hzero ⟨text, htext, h⟩).map Value.stringArray
  | mediaRef name => cases h

/-- Scalars take four bytes each. -/
theorem length_encodeScalars (order : ByteOrder) (encoding : ScalarEncoding) (values : List Scalar) :
    (encodeScalars order encoding values).length = 4 * values.length := by
  simp only [encodeScalars, List.length_flatMap, ByteOrder.length_encode, List.map_const',
    List.sum_replicate_nat, Nat.mul_comm]

/-- A value of which the layout says the length has that length. -/
theorem length_encode {encoding : ScalarEncoding} {length : Nat}
    (h : value.encode order encoding = .ok (.bytes bytes))
    (hlength : value.layout.length? = some length) : bytes.length = length := by
  cases value with
  | int value =>
      cases h
      cases hlength
      exact ByteOrder.length_encode order _
  | scalar | vector2 | vector3 | vector4 | rotation =>
      cases h
      cases hlength
      rw [length_encodeScalars]
      simp
  | transform rows =>
      cases h
      cases hlength
      simp [length_encodeScalars, List.length_flatMap, List.map_const']
  | enumeration variants chosen =>
      cases hlength
      rw [encode] at h
      split at h
      · cases h
      · cases h
        exact ByteOrder.length_encode order _
  | string | intArray | scalarArray | vector2Array | vector3Array | vector4Array | stringArray
  | mediaRef => cases hlength

/-- The bytes of a list start with the number of its elements, which fits in a word. -/
theorem count_encode {encoding : ScalarEncoding} {count : Nat}
    (h : value.encode order encoding = .ok (.bytes bytes))
    (hcount : value.elementCount? = some count) :
    count < 2 ^ 32 ∧ ∃ elements, bytes = order.encode (UInt32.ofNat count) ++ elements := by
  cases value with
  | intArray | scalarArray | vector2Array | vector3Array | vector4Array =>
      obtain ⟨hshort, h⟩ := encodeList_eq_ok.mp h
      cases h
      cases hcount
      exact ⟨hshort, _, rfl⟩
  | stringArray texts =>
      obtain ⟨_, hlength, h⟩ := bind_eq_ok.mp h
      obtain ⟨elements, -, h⟩ := bind_eq_ok.mp h
      cases h
      cases hcount
      obtain ⟨hshort, rfl⟩ := encodeCount_eq_ok.mp hlength
      exact ⟨hshort, elements, rfl⟩
  | int | scalar | vector2 | vector3 | vector4 | rotation | transform | string | enumeration
  | mediaRef => cases hcount

/-- A value other than a reference to a medium is decodable when scalars are kept as they are. It is
refused exactly for a list that is too long to be counted, a zero character in a text that it stores or a
variant that its enumeration does not have, and otherwise has bytes. These have the length of its layout,
or start with the number of elements of a list. When the positions of variants fit in a word, the bytes are
read back by the layout alone: no other value of the layout has them. -/
theorem encode_float_decodable (order : ByteOrder) (value : Value)
    (hlayout : value.layout ≠ .mediaRef) :
    (∀ fault, value.encode order .float = .error fault ↔ value.Refused fault) ∧
      ((∃ bytes, value.encode order .float = .ok (.bytes bytes)) ↔
        ∀ fault, ¬ value.Refused fault) ∧
      ∀ bytes, value.encode order .float = .ok (.bytes bytes) →
        (∀ length, value.layout.length? = some length → bytes.length = length) ∧
        (∀ count, value.elementCount? = some count →
          count < 2 ^ 32 ∧ ∃ elements, bytes = order.encode (UInt32.ofNat count) ++ elements) ∧
        (value.HasWordPositions →
          value.layout.decode? order bytes = some value ∧
          ∀ other : Value, other.layout = value.layout →
            other.encode order .float = .ok (.bytes bytes) → other = value) := by
  refine ⟨fun fault => encode_eq_error, ?_, fun bytes h => ⟨fun length => length_encode h,
    fun count => count_encode h, fun hpositions => ?_⟩⟩
  · simp only [← @encode_eq_error order .float]
    cases hencode : value.encode order .float with
    | error fault => exact ⟨fun ⟨_, h⟩ => (nomatch h), fun h => absurd rfl (h fault)⟩
    | ok found =>
        refine ⟨fun _ _ => nofun, fun _ => ?_⟩
        cases found with
        | bytes bytes => exact ⟨bytes, rfl⟩
        | asset name =>
            rcases medium?_of_encode hencode with ⟨_, -, hmedium⟩ | ⟨_, h, -⟩
            · exact absurd (layout_of_medium? hmedium) hlayout
            · cases h
  · have hread := (takes_encode hpositions h).whole?_eq
    refine ⟨hread, fun other hsame hbytes => ?_⟩
    have hothers : other.HasWordPositions := fun variants hvariants =>
      hpositions variants (hsame ▸ hvariants)
    have hfound := (takes_encode hothers hbytes).whole?_eq
    rw [hsame, hread] at hfound
    exact (Option.some.inj hfound).symm

/-- No other texts have the bytes of these two, the second of them empty. -/
theorem encode_float_decodable_texts :
    (stringArray ["a", ""]).encode .little .float = .ok (.bytes [2, 0, 0, 0, 0x61, 0, 0]) ∧
      ∀ other : Value, other.layout = .stringArray →
        other.encode .little .float = .ok (.bytes [2, 0, 0, 0, 0x61, 0, 0]) →
        other = stringArray ["a", ""] := by
  have hencode : (stringArray ["a", ""]).encode .little .float =
      .ok (.bytes [2, 0, 0, 0, 0x61, 0, 0]) :=
    rfl
  obtain ⟨-, -, hbytes⟩ := encode_float_decodable .little (stringArray ["a", ""]) nofun
  obtain ⟨-, -, hother⟩ := hbytes _ hencode
  exact ⟨hencode, (hother nofun).2⟩

/-- The variant at the end of an enumeration, behind a number of variants that are one text. -/
theorem idxOf?_last (count : Nat) :
    ("a" :: List.replicate count "b" ++ ["c"]).idxOf? "c" = some (count + 1) := by
  have hothers : (List.replicate count "b" ++ ["c"]).idxOf? "c" = some count := by
    induction count with
    | zero => rfl
    | succ count ih =>
        rw [List.replicate_succ, List.cons_append, List.idxOf?_cons, ih]
        rfl
  rw [List.cons_append, List.idxOf?_cons, hothers]
  rfl

/-- A zero character in the variants of an enumeration is not refused, a list is refused for its length as
well, and two values of an enumeration with very many variants can have the same bytes. -/
theorem encode_float_ambiguous :
    (enumeration ["a\x00"] "a\x00").encode .big .float = .ok (.bytes [0, 0, 0, 0]) ∧
      (intArray (List.replicate (2 ^ 32) 0)).encode .big .float = .error (.tooLong (2 ^ 32)) ∧
      ∃ variants, (enumeration variants "a").encode .big .float = .ok (.bytes [0, 0, 0, 0]) ∧
        (enumeration variants "c").encode .big .float = .ok (.bytes [0, 0, 0, 0]) := by
  refine ⟨rfl, ?_, "a" :: List.replicate (2 ^ 32 - 1) "b" ++ ["c"], ?_, ?_⟩
  · have hlength : (List.replicate (2 ^ 32) (0 : Int32)).length = 2 ^ 32 := List.length_replicate
    generalize List.replicate (2 ^ 32) (0 : Int32) = values at hlength ⊢
    exact encodeList_eq_error.mpr ⟨Nat.le_of_eq hlength.symm, by rw [hlength]⟩
  · generalize List.replicate (2 ^ 32 - 1) "b" = others
    have hfirst : ("a" :: others ++ ["c"]).idxOf? "a" = some 0 := by simp [List.idxOf?_cons]
    rw [encode, hfirst]
    rfl
  · have hlast := idxOf?_last (2 ^ 32 - 1)
    generalize List.replicate (2 ^ 32 - 1) "b" = others at hlast ⊢
    rw [encode, hlast]
    rfl

end Value

end StageArchive
