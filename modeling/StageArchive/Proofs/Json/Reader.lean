import StageArchive.Json.Reader
import StageArchive.Proofs.Json.Token
/-!
# A printed document is read back

Where a value is due, the tokens of a document leave the machine behind that document, whatever
containers are open. Together with the tokens of printed text this is `parse?_print`.
-/

namespace StageArchive.Json

/-- A machine reads some tokens and is left in a state. -/
def Reads (start : Reader) (tokens : List Token) (after : Reader) : Prop :=
  tokens.foldlM Reader.step start = some after

namespace Reads

variable {start middle after : Reader} {first second : List Token}

/-- A token is read before others. -/
theorem cons {token : Token} (hstep : start.step token = some middle)
    (h : Reads middle first after) : Reads start (token :: first) after := by
  show (start.step token).bind _ = _
  rw [hstep]
  exact h

/-- What is read in two parts is read at once. -/
theorem append (hfirst : Reads start first middle) (hsecond : Reads middle second after) :
    Reads start (first ++ second) after := by
  rw [Reads, List.foldlM_append, hfirst]
  exact hsecond

end Reads

/-- Members as they are read, the last one first. -/
def readMembers (members : List (String × Json)) : List (Key × Json) :=
  (members.map fun (name, value) => (some name, value)).reverse

/-- Members that were read all have keys. -/
theorem mapM_readMembers {change : Option String × Json → Option (String × Json)}
    (h : ∀ name value, change (some name, value) = some (name, value))
    (members : List (String × Json)) : (readMembers members).reverse.mapM change = some members := by
  rw [readMembers, List.reverse_reverse]
  induction members with
  | nil => rfl
  | cons member members ih =>
      rw [List.map_cons, List.mapM_cons, h, ih]
      rfl

/-- Members that are read in reverse order form their object. -/
theorem objectOf_readMembers (members : List (String × Json)) :
    objectOf (readMembers members).reverse = .object members := by
  rw [objectOf, mapM_readMembers fun _ _ => rfl]

mutual

/-- The tokens of a document are read as the document. -/
theorem reads_tokensOf (json : Json) (h : IsPlain json) (frames : List Frame) (fresh : Bool) :
    Reads ⟨frames, .value fresh⟩ (tokensOf json) ⟨frames, .after json⟩ := by
  cases json with
  | null | bool | number | text => rfl
  | array items =>
      cases items with
      | nil => rfl
      | cons item items =>
          obtain ⟨hitem, hitems⟩ := h
          have hfirst := reads_tokensOf item hitem (.item [] :: frames) true
          -- The array keeps its items in reverse order until it is closed.
          obtain ⟨before, last, hothers, hread⟩ := reads_itemTokens items hitems frames [] item
          have hclose : Reader.step ⟨.item before :: frames, .after last⟩ .closeBracket =
              some ⟨frames, .after (.array (item :: items))⟩ := by
            show some (Reader.mk frames (.after (.array (last :: before).reverse))) = _
            rw [hread, List.reverse_append, List.reverse_reverse]
            rfl
          exact .cons rfl ((hfirst.append hothers).append (.cons hclose rfl))
  | object members =>
      cases members with
      | nil => rfl
      | cons member members =>
          obtain ⟨key, value⟩ := member
          obtain ⟨hvalue, hmembers⟩ := h
          have hfirst := reads_tokensOf value hvalue (.member [] (some key) :: frames) false
          obtain ⟨before, name, last, hothers, hread⟩ :=
            reads_memberTokens members hmembers frames [] key value
          have hclose : Reader.step ⟨.member before name :: frames, .after last⟩ .closeBrace =
              some ⟨frames, .after (.object ((key, value) :: members))⟩ := by
            show some (Reader.mk frames (.after (objectOf ((name, last) :: before).reverse))) = _
            rw [hread, List.nil_append, objectOf_readMembers]
          exact .cons rfl (.cons rfl (.cons rfl
            ((hfirst.append hothers).append (.cons hclose rfl))))
  | broken => exact h.elim

/-- The items after the first are read behind it. -/
theorem reads_itemTokens (items : List Json) (h : ArePlain items) (frames : List Frame)
    (earlier : List Json) (item : Json) :
    ∃ before last,
      Reads ⟨.item earlier :: frames, .after item⟩ (itemTokens items)
        ⟨.item before :: frames, .after last⟩ ∧
      last :: before = items.reverse ++ item :: earlier := by
  cases items with
  | nil => exact ⟨earlier, item, rfl, rfl⟩
  | cons next items =>
      obtain ⟨hnext, hitems⟩ := h
      have hfirst := reads_tokensOf next hnext (.item (item :: earlier) :: frames) false
      obtain ⟨before, last, hothers, hread⟩ :=
        reads_itemTokens items hitems frames (item :: earlier) next
      refine ⟨before, last, .cons rfl (hfirst.append hothers), ?_⟩
      rw [hread, List.reverse_cons, List.append_assoc]
      rfl

/-- The members after the first are read behind it. -/
theorem reads_memberTokens (members : List (String × Json)) (h : HavePlain members)
    (frames : List Frame) (earlier : List (String × Json)) (key : String) (value : Json) :
    ∃ before name last,
      Reads ⟨.member (readMembers earlier) (some key) :: frames, .after value⟩
        (memberTokens members) ⟨.member before name :: frames, .after last⟩ ∧
      (name, last) :: before = readMembers (earlier ++ (key, value) :: members) := by
  have hread : (some key, value) :: readMembers earlier =
      readMembers (earlier ++ [(key, value)]) := by
    rw [readMembers, readMembers, List.map_append, List.reverse_append]
    rfl
  cases members with
  | nil => exact ⟨_, _, value, rfl, hread⟩
  | cons member members =>
      obtain ⟨next, content⟩ := member
      obtain ⟨hcontent, hmembers⟩ := h
      have hfirst := reads_tokensOf content hcontent
        (.member (readMembers (earlier ++ [(key, value)])) (some next) :: frames) false
      obtain ⟨before, name, last, hothers, hall⟩ :=
        reads_memberTokens members hmembers frames (earlier ++ [(key, value)]) next content
      have hcomma : Reader.step ⟨.member (readMembers earlier) (some key) :: frames, .after value⟩
          .comma = some ⟨frames, .key (readMembers (earlier ++ [(key, value)])) false⟩ := by
        rw [← hread]
        rfl
      refine ⟨before, name, last,
        .cons hcomma (.cons rfl (.cons rfl (hfirst.append hothers))), ?_⟩
      rw [hall, List.append_assoc]
      rfl

end

/-- A printed document is read back, whatever blanks the layout puts in. -/
theorem parse?_print {layout : Layout} (hlayout : layout.IsBlank) {json : Json}
    (h : IsPlain json) : parse? (String.ofList (print layout 0 json)) = some json := by
  have hreads := reads_tokensOf json h [] false
  rw [parse?, String.toList_ofList, tokens?_print hlayout 0 h]
  show ((tokensOf json).foldlM Reader.step Reader.start).bind Reader.finish = _
  rw [show List.foldlM Reader.step Reader.start _ = _ from hreads]
  rfl

/-- A document that is printed with an item a line is read back. -/
theorem parse?_pretty {json : Json} (h : IsPlain json) : parse? json.pretty = some json :=
  parse?_print Layout.isBlank_indented h

/-- Items that are documents of plain values are plain. -/
theorem arePlain_map {α : Type} {toJson : α → Json} (h : ∀ value, IsPlain (toJson value))
    (values : List α) : ArePlain (values.map toJson) := by
  induction values with
  | nil => trivial
  | cons value values ih => exact ⟨h value, ih⟩

/-- Members whose values are documents of plain values are plain. -/
theorem havePlain_map {α : Type} {name : α → String} {toJson : α → Json}
    (h : ∀ value, IsPlain (toJson value)) (values : List α) :
    HavePlain (values.map fun value => (name value, toJson value)) := by
  induction values with
  | nil => trivial
  | cons value values ih => exact ⟨h value, ih⟩

end StageArchive.Json
