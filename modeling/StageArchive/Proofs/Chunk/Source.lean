import StageArchive.Chunk.Source
import StageArchive.Proofs.Chunk.Sink
import StageArchive.Proofs.Word
/-!
# What reading chunks finds in a file

A step of reading is described by the bytes that lie ahead of the position: it returns what they
spell and moves past them. `childrenFrom_of_follow` says that chunks written one after another are
met one after another, and `openRoot_of_data` that a root form is entered whatever byte order was
assumed before.
-/

namespace StageArchive

namespace Source

/-- The source a number of bytes further on. -/
def advance (source : Source) (count : Nat) : Source :=
  { source with position := source.position + count }

/-- What lies ahead after the first bytes are passed. -/
theorem rest_advance {source : Source} {front others : Bytes} {count : Nat}
    (h : source.rest = front ++ others) (hcount : front.length = count) :
    (source.advance count).rest = others := by
  show source.data.drop (source.position + count) = others
  rw [← List.drop_drop]
  show source.rest.drop count = others
  rw [h, ← hcount, List.drop_left]

end Source

namespace Chunk

/-- The bytes with which a chunk begins: its tag, its size and the second tag of a form. -/
def head (order : ByteOrder) (chunk : Chunk) : Bytes :=
  chunk.tag.bytes ++ order.encode chunk.size ++
    match chunk.subtype with
    | some subtype => subtype.bytes
    | none => []

/-- Whether a chunk has a second tag exactly when it is a form. -/
def IsRegular (chunk : Chunk) : Prop :=
  chunk.subtype.isSome = chunk.tag.isForm

/-- The content of a chunk begins behind its head. -/
theorem length_head (order : ByteOrder) (chunk : Chunk) :
    chunk.offset + (chunk.head order).length = chunk.content := by
  obtain ⟨tag, subtype, offset, size⟩ := chunk
  cases subtype with
  | none => simp [head, content, body, headerLength]
  | some subtype =>
      simp [head, content, body, headerLength]

/-- Chunks that are written one after another, the first at an offset, with their bytes. -/
inductive Follow (order : ByteOrder) : Nat → List Chunk → Bytes → Prop
  | nil (offset : Nat) : Follow order offset [] []
  | cons {offset : Nat} {chunk : Chunk} {others : List Chunk} {content bytes : Bytes}
      (hregular : chunk.IsRegular) (hoffset : chunk.offset = offset)
      (hfinish : chunk.content + content.length = chunk.finish)
      (hothers : Follow order chunk.finish others bytes) :
      Follow order offset (chunk :: others) (chunk.head order ++ content ++ bytes)

/-- The chunk at an offset with a body that is no form. -/
def ofBody (name : Tag) (payload : Bytes) (offset : Nat) : Chunk :=
  ⟨name, none, offset, UInt32.ofNat (padded payload).length⟩

/-- The bytes of a chunk with a body that is no form are its head and the padded body. -/
theorem chunkBytes_eq (order : ByteOrder) (name : Tag) (payload : Bytes) (start : Nat) :
    chunkBytes order name payload = head order (ofBody name payload start) ++ padded payload := by
  simp only [chunkBytes, head, ofBody, List.append_nil]

/-- A chunk with a body that fits ends behind the padded body. -/
theorem finish_ofBody {name : Tag} {payload : Bytes} {offset : Nat}
    (hfits : (padded payload).length < 2 ^ 32) :
    (ofBody name payload offset).finish = offset + 8 + (padded payload).length :=
  congrArg (offset + 8 + ·) (UInt32.toNat_ofNat_of_lt' hfits)

/-- The content of a chunk with a body that fits is the padded body. -/
theorem contentLength_ofBody {name : Tag} {payload : Bytes} {offset : Nat}
    (hfits : (padded payload).length < 2 ^ 32) :
    (ofBody name payload offset).contentLength = (padded payload).length := by
  have hcontent : (ofBody name payload offset).content = offset + 8 := rfl
  rw [contentLength, finish_ofBody hfits, hcontent, Nat.add_sub_cancel_left]

/-- A chunk with a body that is no form comes before others that follow it. -/
theorem Follow.cons_chunkBytes {order : ByteOrder} {name : Tag} {payload bytes : Bytes}
    {start : Nat} {others : List Chunk} (hform : name.isForm = false)
    (hfits : (padded payload).length < 2 ^ 32)
    (hothers : Follow order (start + (chunkBytes order name payload).length) others bytes) :
    Follow order start (ofBody name payload start :: others)
      (chunkBytes order name payload ++ bytes) := by
  have hregular : (ofBody name payload start).IsRegular := hform.symm
  have hfinish := @finish_ofBody name payload start hfits
  rw [length_chunkBytes, ← Nat.add_assoc, ← hfinish] at hothers
  rw [chunkBytes_eq order name payload start]
  exact .cons hregular rfl hfinish.symm hothers

end Chunk

namespace Reading

/-- Four bytes one by one. -/
theorem exists_four {bytes : Bytes} (h : bytes.length = 4) :
    ∃ first second third fourth, bytes = [first, second, third, fourth] := by
  rcases bytes with _ | ⟨first, _ | ⟨second, _ | ⟨third, _ | ⟨fourth, _ | ⟨fifth, rest⟩⟩⟩⟩⟩
  all_goals simp at h
  exact ⟨first, second, third, fourth, rfl⟩

/-- Bytes that lie ahead are read. -/
theorem bytes_of_rest {source : Source} {front others : Bytes} {count : Nat}
    (h : source.rest = front ++ others) (hcount : front.length = count) :
    bytes count source = (.ok front, source.advance count) := by
  have hfits : count ≤ source.rest.length := by
    rw [h, List.length_append, hcount]
    omega
  have htake : source.rest.take count = front := by
    rw [h, ← hcount, List.take_left]
  show (ite (count ≤ source.rest.length) _ _ : Reading Bytes) source = _
  rw [if_pos hfits, ← htake]
  rfl

/-- A tag that lies ahead is read. -/
theorem tag_of_rest {source : Source} {name : Tag} {others : Bytes}
    (h : source.rest = name.bytes ++ others) : tag source = (.ok name, source.advance 4) :=
  run_bind_of_eq (bytes_of_rest h rfl)

/-- A word that lies ahead is read. -/
theorem word_of_rest {source : Source} {value : UInt32} {others : Bytes}
    (h : source.rest = source.order.encode value ++ others) :
    word source = (.ok value, source.advance 4) := by
  have hread := bytes_of_rest h (ByteOrder.length_encode ..)
  have hword := ByteOrder.word?_encode source.order value []
  rw [List.append_nil] at hword
  rw [word, run_bind_of_eq hread]
  show ((.ok (((source.advance 4).order.word? (source.order.encode value) 0).getD 0) :
    Except ChunkFault UInt32), source.advance 4) = _
  rw [show (source.advance 4).order = source.order from rfl, hword]
  rfl

/-- Bytes that are read lay ahead. -/
theorem rest_of_bytes {source after : Source} {count : Nat} {found : Bytes}
    (h : bytes count source = (.ok found, after)) :
    source.rest = found ++ after.rest ∧ found.length = count ∧ after = source.advance count := by
  have hrun : bytes count source = if count ≤ source.rest.length then
      (.ok (source.rest.take count), source.advance count)
    else (.error .unexpectedEnd, { source with position := source.data.length }) := by
    show (ite (count ≤ source.rest.length) _ _ : Reading Bytes) source = _
    split <;> rfl
  rw [hrun] at h
  split at h
  · rename_i hfits
    cases h
    refine ⟨?_, by rw [List.length_take, Nat.min_eq_left hfits], rfl⟩
    show source.rest = source.rest.take count ++ source.data.drop (source.position + count)
    rw [← List.drop_drop]
    exact (List.take_append_drop ..).symm
  · cases h

/-- A tag that is read lay ahead. -/
theorem rest_of_tag {source after : Source} {name : Tag} (h : tag source = (.ok name, after)) :
    source.rest = name.bytes ++ after.rest ∧ after = source.advance 4 := by
  obtain ⟨four, middle, hbytes, h⟩ := run_bind_eq_ok.mp h
  obtain ⟨hrest, hlength, hafter⟩ := rest_of_bytes hbytes
  obtain ⟨first, second, third, fourth, rfl⟩ := exists_four hlength
  cases h
  exact ⟨hrest, hafter⟩

/-- A word that is read lay ahead. -/
theorem rest_of_word {source after : Source} {value : UInt32}
    (h : word source = (.ok value, after)) :
    source.rest = source.order.encode value ++ after.rest ∧ after = source.advance 4 := by
  obtain ⟨four, middle, hbytes, h⟩ := run_bind_eq_ok.mp h
  obtain ⟨hrest, hlength, rfl⟩ := rest_of_bytes hbytes
  obtain ⟨first, second, third, fourth, rfl⟩ := exists_four hlength
  cases h
  refine ⟨?_, rfl⟩
  rw [hrest]
  exact congrArg (· ++ _) (ByteOrder.encode_decode source.order first second third fourth).symm

/-- A chunk whose head lies ahead is entered. -/
theorem header_of_rest {source : Source} {chunk : Chunk} {others : Bytes}
    (hregular : chunk.IsRegular) (hoffset : chunk.offset = source.position)
    (h : source.rest = chunk.head source.order ++ others) :
    header source = (.ok chunk, { source with position := chunk.content }) := by
  obtain ⟨name, subtype, offset, size⟩ := chunk
  obtain rfl : offset = source.position := hoffset
  have hregular : subtype.isSome = name.isForm := hregular
  simp only [Chunk.head, List.append_assoc] at h
  have hname := tag_of_rest h
  have hafterName := Source.rest_advance h (Tag.length_bytes name)
  have hsize := word_of_rest hafterName
  have hafterSize := Source.rest_advance hafterName (ByteOrder.length_encode ..)
  rw [header, run_bind_of_eq (run_position source), run_bind_of_eq hname, run_bind_of_eq hsize]
  cases subtype with
  | none =>
      rw [if_neg (by rw [← hregular]; decide)]
      rfl
  | some subtype =>
      have hform : name.isForm = true := hregular.symm
      rw [if_pos hform, run_bind_of_eq (tag_of_rest hafterSize)]
      rfl

/-- A chunk that is no form is entered by its tag. -/
theorem descend_of_chunkBytes {source : Source} {name : Tag} {payload others : Bytes}
    (hform : name.isForm = false)
    (hrest : source.rest = chunkBytes source.order name payload ++ others) :
    descend name source = (.ok (.ofBody name payload source.position),
      { source with position := source.position + Chunk.headerLength }) := by
  rw [Chunk.chunkBytes_eq _ _ _ source.position, List.append_assoc] at hrest
  have hregular : (Chunk.ofBody name payload source.position).IsRegular := hform.symm
  rw [descend, run_bind_of_eq (header_of_rest hregular rfl hrest)]
  exact congrFun (if_pos rfl) _

/-- The head of a chunk that is entered lay ahead. -/
theorem rest_of_header {source after : Source} {chunk : Chunk}
    (h : header source = (.ok chunk, after)) :
    source.rest = chunk.head source.order ++ after.rest ∧ chunk.IsRegular ∧
      after = { source with position := chunk.content } := by
  have hoffset := offset_of_header h
  rw [header, run_bind_of_eq (run_position source)] at h
  obtain ⟨name, afterName, hname, h⟩ := run_bind_eq_ok.mp h
  obtain ⟨size, afterSize, hsize, h⟩ := run_bind_eq_ok.mp h
  obtain ⟨hrest, rfl⟩ := rest_of_tag hname
  obtain ⟨hrestName, rfl⟩ := rest_of_word hsize
  by_cases hform : name.isForm = true
  · rw [if_pos hform] at h
    obtain ⟨subtype, afterSubtype, hsubtype, h⟩ := run_bind_eq_ok.mp h
    obtain ⟨hrestSize, rfl⟩ := rest_of_tag hsubtype
    cases h
    refine ⟨?_, hform.symm, rfl⟩
    rw [hrest, hrestName, hrestSize]
    simp only [Chunk.head, List.append_assoc]
    rfl
  · rw [if_neg hform] at h
    cases h
    refine ⟨?_, (Bool.eq_false_iff.mpr hform).symm, rfl⟩
    rw [hrest, hrestName]
    simp only [Chunk.head, List.append_assoc]
    rfl

/-- The head of a chunk that is entered by its tag lay ahead. -/
theorem rest_of_descend {source after : Source} {chunk : Chunk} {expected : Tag}
    (h : descend expected source = (.ok chunk, after)) :
    chunk.tag = expected ∧ chunk.offset = source.position ∧
      source.rest = chunk.head source.order ++ after.rest := by
  obtain ⟨found, entered, hheader, h⟩ := run_bind_eq_ok.mp h
  split at h
  · rename_i htag
    cases h
    exact ⟨htag, offset_of_header hheader, (rest_of_header hheader).1⟩
  · cases h

/-- The head of a form that is entered by its tags lay ahead. -/
theorem rest_of_descendForm {source after : Source} {chunk : Chunk} {expected subtype : Tag}
    (h : descendForm expected subtype source = (.ok chunk, after)) :
    chunk.tag = expected ∧ chunk.subtype.getD .blank = subtype ∧ chunk.offset = source.position ∧
      source.rest = chunk.head source.order ++ after.rest := by
  obtain ⟨found, entered, hdescend, h⟩ := run_bind_eq_ok.mp h
  obtain ⟨htag, hoffset, hrest⟩ := rest_of_descend hdescend
  split at h
  · rename_i hsubtype
    cases h
    exact ⟨htag, hsubtype, hoffset, hrest⟩
  · cases h

/-- A chunk that lies ahead and ends inside another is the next one inside it. -/
theorem next?_of_rest {source : Source} {parent chunk : Chunk} {others : Bytes}
    (hregular : chunk.IsRegular) (hoffset : chunk.offset = source.position)
    (hfits : chunk.finish ≤ parent.finish)
    (h : source.rest = chunk.head source.order ++ others) :
    next? parent source = (.ok (some chunk), { source with position := chunk.content }) := by
  have hheader : ¬ parent.finish < source.position + Chunk.headerLength := by
    simp only [Chunk.finish, Chunk.body, hoffset] at hfits ⊢
    omega
  rw [next?, run_bind_of_eq (run_position source), if_neg hheader,
    run_bind_of_eq (header_of_rest hregular hoffset h), if_neg (Nat.not_lt_of_le hfits)]
  rfl

/-- A chunk that lies ahead and ends behind another is refused inside it. -/
theorem next?_of_overrun {source : Source} {parent chunk : Chunk} {others : Bytes}
    (hregular : chunk.IsRegular) (hoffset : chunk.offset = source.position)
    (hroom : source.position + Chunk.headerLength ≤ parent.finish)
    (hover : parent.finish < chunk.finish) (h : source.rest = chunk.head source.order ++ others) :
    next? parent source =
      (.error (.overrun chunk.tag chunk.offset chunk.finish parent.finish),
        { source with position := chunk.content }) := by
  rw [next?, run_bind_of_eq (run_position source), if_neg (Nat.not_lt_of_le hroom),
    run_bind_of_eq (header_of_rest hregular hoffset h), if_pos hover]
  rfl

/-- There is no next chunk where no header fits. -/
theorem next?_of_end {source : Source} {parent : Chunk}
    (h : parent.finish < source.position + Chunk.headerLength) :
    next? parent source = (.ok none, source) := by
  rw [next?, run_bind_of_eq (run_position source), if_pos h]
  rfl

/-- Entering the next chunk inside another moves to its content. -/
theorem after_of_next? {source after : Source} {parent chunk : Chunk}
    (h : next? parent source = (.ok (some chunk), after)) :
    after = { source with position := chunk.content } := by
  rw [next?, run_bind_of_eq (run_position source)] at h
  split at h
  · cases h
  · obtain ⟨found, middle, hheader, h⟩ := run_bind_eq_ok.mp h
    split at h
    · cases h
    · cases h
      exact (rest_of_header hheader).2.2

/-- There is no next chunk exactly where no header fits, and the source stays there. -/
theorem next?_eq_none {source after : Source} {parent : Chunk} :
    next? parent source = (.ok none, after) ↔
      parent.finish < source.position + Chunk.headerLength ∧ after = source := by
  constructor
  · intro h
    rw [next?, run_bind_of_eq (run_position source)] at h
    split at h
    · rename_i hend
      cases h
      exact ⟨hend, rfl⟩
    · obtain ⟨chunk, middle, -, h⟩ := run_bind_eq_ok.mp h
      split at h <;> cases h
  · rintro ⟨hend, rfl⟩
    exact next?_of_end hend

/-- The bytes of a word in one order are those of some word in another. -/
theorem exists_encode_eq (order other : ByteOrder) (word : UInt32) :
    ∃ flipped, order.encode flipped = other.encode word := by
  cases other with
  | big | little => exact ⟨_, ByteOrder.encode_decode order _ _ _ _⟩

/-- A root form is entered, whatever byte order was assumed before, and its own order holds from
then on. -/
theorem openRoot_of_data {order : ByteOrder} {size : UInt32} {data others : Bytes}
    (hdata : data = Chunk.head order ⟨.form, some (.ofOrder order), 0, size⟩ ++ others)
    (start : ByteOrder) :
    openRoot (.start start data) =
      (.ok ⟨.form, some (.ofOrder order), 0, size⟩, ⟨data, 12, order⟩) := by
  obtain ⟨assumed, hassumed⟩ := exists_encode_eq start order size
  have hrest : (Source.start start data).rest =
      Chunk.head start ⟨.form, some (.ofOrder order), 0, assumed⟩ ++ others := by
    show data.drop 0 = _
    rw [List.drop_zero, hdata, Chunk.head, Chunk.head, hassumed]
  have hregular : Chunk.IsRegular ⟨.form, some (.ofOrder order), 0, assumed⟩ := rfl
  have hheader := header_of_rest hregular rfl hrest
  have hdescend : descend .form (.start start data) =
      (.ok ⟨.form, some (.ofOrder order), 0, assumed⟩, ⟨data, 12, start⟩) := by
    rw [descend, run_bind_of_eq hheader, if_pos rfl]
    rfl
  have hsize : word ⟨data, 4, order⟩ = (.ok size, ⟨data, 8, order⟩) := by
    have hdrop : data.drop 4 = order.encode size ++ ((Tag.ofOrder order).bytes ++ others) := by
      rw [hdata, Chunk.head, List.append_assoc, List.append_assoc]
      rfl
    exact word_of_rest hdrop
  rw [openRoot, run_bind_of_eq (run_position _), run_bind_of_eq hdescend]
  cases order with
  | big | little =>
      refine run_bind_eq_ok.mpr ⟨(), ⟨data, 12, _⟩, rfl, ?_⟩
      refine run_bind_eq_ok.mpr ⟨(), ⟨data, 4, _⟩, rfl, ?_⟩
      exact run_bind_eq_ok.mpr ⟨size, _, hsize, rfl⟩

/-- The whole content of a chunk is read from inside the data. -/
theorem content_eq {source : Source} {chunk : Chunk}
    (h : chunk.content + chunk.contentLength ≤ source.data.length) :
    content chunk source =
      (.ok ((source.data.drop chunk.content).take chunk.contentLength),
        { source with position := chunk.content + chunk.contentLength }) := by
  have hrest : ({ source with position := chunk.content } : Source).rest =
      (source.data.drop chunk.content).take chunk.contentLength ++
        (source.data.drop chunk.content).drop chunk.contentLength :=
    (List.take_append_drop ..).symm
  have hlength : ((source.data.drop chunk.content).take chunk.contentLength).length =
      chunk.contentLength := by
    rw [List.length_take, List.length_drop]
    omega
  exact run_bind_eq_ok.mpr ⟨(), _, rfl, bytes_of_rest hrest hlength⟩

/-- The padded body of a chunk lies behind its tag and size. -/
theorem drop_of_chunkBytes {order : ByteOrder} {name : Tag} {payload others data : Bytes}
    {start : Nat} (h : data.drop start = chunkBytes order name payload ++ others) :
    data.drop (start + Chunk.headerLength) = padded payload ++ others := by
  have hhead : (Chunk.head order (.ofBody name payload start)).length = Chunk.headerLength := by
    simp [Chunk.head, Chunk.ofBody, Chunk.headerLength]
  rw [← List.drop_drop, h, Chunk.chunkBytes_eq order name payload start, List.append_assoc,
    List.drop_left' hhead]

/-- A chunk with a body that is no form: its head, its end and the content that is read from it. -/
theorem content_of_chunkBytes {order : ByteOrder} {name : Tag} {payload others : Bytes}
    {source : Source} {start : Nat} (hform : name.isForm = false)
    (hfits : (padded payload).length < 2 ^ 32)
    (h : source.data.drop start = chunkBytes order name payload ++ others) :
    (Chunk.ofBody name payload start).IsRegular ∧
      chunkBytes order name payload =
        (Chunk.ofBody name payload start).head order ++ padded payload ∧
      (Chunk.ofBody name payload start).content + (padded payload).length =
        (Chunk.ofBody name payload start).finish ∧
      content (.ofBody name payload start) source =
        (.ok (padded payload),
          { source with position := (Chunk.ofBody name payload start).finish }) := by
  have hcontent : (Chunk.ofBody name payload start).content = start + Chunk.headerLength := rfl
  have hfinish : (Chunk.ofBody name payload start).content + (padded payload).length =
      (Chunk.ofBody name payload start).finish :=
    (Chunk.finish_ofBody hfits).symm
  have hlength := @Chunk.contentLength_ofBody name payload start hfits
  have hdata : (Chunk.ofBody name payload start).content +
      (Chunk.ofBody name payload start).contentLength ≤ source.data.length := by
    have hdrop := congrArg List.length h
    rw [List.length_drop, List.length_append, length_chunkBytes] at hdrop
    rw [hlength, hcontent, Chunk.headerLength]
    omega
  refine ⟨hform.symm, Chunk.chunkBytes_eq order name payload start, hfinish, ?_⟩
  rw [content_eq hdata, hcontent, drop_of_chunkBytes h, hlength, List.take_left, ← hfinish,
    hcontent]

/-- Entries that lie ahead are read. -/
theorem entries_of_rest {source : Source} {list : List ContentsEntry} {others : Bytes}
    (h : source.rest = (list.flatMap fun entry =>
      source.order.encode entry.label.toUInt32 ++ source.order.encode entry.offset) ++ others) :
    entries list.length source = (.ok list, source.advance (list.length * 8)) := by
  induction list generalizing source with
  | nil => rfl
  | cons entry list ih =>
      rw [List.flatMap_cons, List.append_assoc, List.append_assoc] at h
      have hlabel : signedWord source = (.ok entry.label, source.advance 4) :=
        run_bind_of_eq (word_of_rest h)
      have hafterLabel := Source.rest_advance h (ByteOrder.length_encode ..)
      have hoffset := word_of_rest hafterLabel
      have hafterOffset := Source.rest_advance hafterLabel (ByteOrder.length_encode ..)
      have hothers := ih hafterOffset
      rw [List.length_cons, entries, run_bind_of_eq hlabel, run_bind_of_eq hoffset,
        run_bind_of_eq hothers]
      have hposition : source.position + 4 + 4 + list.length * 8 =
          source.position + (list.length + 1) * 8 := by omega
      simp only [Source.advance, ← hposition]
      rfl

/-- A table of contents is read from its bytes. -/
theorem contents_of_data {source : Source} {chunk : Chunk} {count : UInt32}
    {list : List ContentsEntry} {others : Bytes} (hcount : list.length = count.toNat)
    (hlength : contentsLength count ≤ chunk.contentLength)
    (h : source.data.drop chunk.content = contentsBytes source.order count list ++ others) :
    contents chunk source =
      (.ok list, { source with position := chunk.content + 4 + list.length * 8 }) := by
  let start : Source := { source with position := chunk.content }
  have hrest : start.rest = source.order.encode count ++ ((list.flatMap fun entry =>
      source.order.encode entry.label.toUInt32 ++ source.order.encode entry.offset) ++
        others) := by
    show source.data.drop chunk.content = _
    rw [h, contentsBytes, List.append_assoc]
  have hread := word_of_rest hrest
  have hentries := entries_of_rest (Source.rest_advance hrest (ByteOrder.length_encode ..))
  have hseek : seek chunk.content source = (.ok (), start) := rfl
  rw [contents, run_bind_of_eq hseek, run_bind_of_eq hread, if_neg (Nat.not_lt_of_le hlength),
    ← hcount]
  exact hentries

/-- The chunks inside another from the position on: each is entered and left again, up to where no
header fits. -/
def childrenFrom (parent : Chunk) (source : Source) : Except ChunkFault (List Chunk) × Source :=
  match h : next? parent source with
  | (.error fault, after) => (.error fault, after)
  | (.ok none, after) => (.ok [], after)
  | (.ok (some chunk), after) =>
    have := finish_sub_lt_of_next? h
    match childrenFrom parent { after with position := chunk.finish } with
    | (.error fault, last) => (.error fault, last)
    | (.ok others, last) => (.ok (chunk :: others), last)
termination_by parent.finish - source.position

/-- The chunks inside another by what the next step meets. -/
theorem childrenFrom_eq (parent : Chunk) (source : Source) :
    childrenFrom parent source =
      match (next? parent source : Except ChunkFault (Option Chunk) × Source) with
      | (.error fault, after) => (.error fault, after)
      | (.ok none, after) => (.ok [], after)
      | (.ok (some chunk), after) =>
        match childrenFrom parent { after with position := chunk.finish } with
        | (.error fault, last) => (.error fault, last)
        | (.ok others, last) => (.ok (chunk :: others), last) := by
  rw [childrenFrom]
  split <;> rename_i hnext
  all_goals simp only [hnext]

/-- Where there is no next chunk there are no more. -/
theorem childrenFrom_of_none {parent : Chunk} {source after : Source}
    (h : next? parent source = (.ok none, after)) :
    childrenFrom parent source = (.ok [], after) := by
  rw [childrenFrom_eq, h]

/-- The next chunk is followed by those behind it. -/
theorem childrenFrom_of_some {parent chunk : Chunk} {source after last : Source}
    {others : List Chunk} (h : next? parent source = (.ok (some chunk), after))
    (hothers : childrenFrom parent { after with position := chunk.finish } = (.ok others, last)) :
    childrenFrom parent source = (.ok (chunk :: others), last) := by
  rw [childrenFrom_eq, h]
  dsimp only
  rw [hothers]

/-- Some chunks inside another that are met one after another from a source on, each entered and left
again, and the source behind them. -/
inductive Passes (parent : Chunk) : Source → List Chunk → Source → Prop
  | nil (source : Source) : Passes parent source [] source
  | cons {source after last : Source} {chunk : Chunk} {others : List Chunk}
      (hnext : next? parent source = (.ok (some chunk), after))
      (hothers : Passes parent { after with position := chunk.finish } others last) :
      Passes parent source (chunk :: others) last

/-- Passing chunks moves the position only. -/
theorem Passes.keeps {parent : Chunk} {source last : Source} {chunks : List Chunk}
    (h : Passes parent source chunks last) : last = { source with position := last.position } := by
  induction h with
  | nil source => rfl
  | cons hnext _ ih =>
      rw [after_of_next? hnext] at ih
      exact ih

/-- As many chunks from one source on are the same chunks. -/
theorem Passes.unique {parent : Chunk} {source last other : Source} {chunks found : List Chunk}
    (h : Passes parent source chunks last) (hfound : Passes parent source found other)
    (hlength : found.length = chunks.length) : found = chunks ∧ other = last := by
  induction h generalizing found with
  | nil source =>
      obtain rfl := List.eq_nil_of_length_eq_zero hlength
      cases hfound
      exact ⟨rfl, rfl⟩
  | cons hnext hothers ih =>
      cases hfound with
      | nil => cases hlength
      | cons hnextFound hothersFound =>
          cases hnextFound.symm.trans hnext
          obtain ⟨rfl, rfl⟩ := ih hothersFound (Nat.succ.inj hlength)
          exact ⟨rfl, rfl⟩

/-- The chunks inside another are those that are met up to where no header fits. -/
theorem childrenFrom_eq_ok {parent : Chunk} {source last : Source} {chunks : List Chunk} :
    childrenFrom parent source = (.ok chunks, last) ↔
      Passes parent source chunks last ∧ parent.finish < last.position + Chunk.headerLength := by
  constructor
  · intro h
    induction source using childrenFrom.induct parent generalizing chunks with
    | case1 source fault after hnext =>
        rw [childrenFrom_eq, hnext] at h
        cases h
    | case2 source after hnext =>
        rw [childrenFrom_of_none hnext] at h
        cases h
        obtain ⟨hend, rfl⟩ := next?_eq_none.mp hnext
        exact ⟨.nil _, hend⟩
    | case3 source chunk after hnext _ fault behind hbehind =>
        rw [childrenFrom_eq, hnext] at h
        dsimp only at h
        rw [hbehind] at h
        cases h
    | case4 source chunk after hnext _ others behind hbehind ih =>
        rw [childrenFrom_of_some hnext hbehind] at h
        cases h
        obtain ⟨hpasses, hend⟩ := ih hbehind
        exact ⟨.cons hnext hpasses, hend⟩
  · rintro ⟨hpasses, hend⟩
    induction hpasses with
    | nil source => exact childrenFrom_of_none (next?_of_end hend)
    | cons hnext hothers ih => exact childrenFrom_of_some hnext (ih hend)

/-- Chunks that lie ahead one after another up to the end of a chunk, or to a little before it, are
the chunks inside it. -/
theorem childrenFrom_of_follow {order : ByteOrder} {offset : Nat} {chunks : List Chunk}
    {bytes pad : Bytes} (h : Chunk.Follow order offset chunks bytes) {source : Source}
    {parent : Chunk} (horder : source.order = order) (hoffset : source.position = offset)
    (hrest : source.rest = bytes ++ pad)
    (hfinish : parent.finish = offset + bytes.length + pad.length)
    (hpad : pad.length < Chunk.headerLength) :
    childrenFrom parent source = (.ok chunks, source.advance bytes.length) := by
  -- Each chunk leaves the reader at its end, from where the others follow.
  induction h generalizing source with
  | nil offset =>
      refine childrenFrom_of_none (next?_of_end ?_)
      rw [hfinish, hoffset, List.length_nil]
      omega
  | @cons offset chunk others content bytes hregular hchunk hcontent hothers ih =>
      have hlength : source.position + (chunk.head order ++ content).length = chunk.finish := by
        have hhead := chunk.length_head order
        rw [List.length_append]
        omega
      rw [List.length_append, ← Nat.add_assoc, ← hoffset, hlength] at hfinish
      rw [List.append_assoc] at hrest
      have hnext : next? parent source =
          (.ok (some chunk), { source with position := chunk.content }) := by
        rw [← horder, List.append_assoc] at hrest
        exact next?_of_rest hregular (hchunk.trans hoffset.symm) (by omega) hrest
      have hbehind : source.advance (chunk.head order ++ content).length =
          { source with position := chunk.finish } := by
        rw [Source.advance, hlength]
      have hafter := Source.rest_advance hrest rfl
      rw [hbehind] at hafter
      have hothers := @ih { source with position := chunk.finish } horder rfl hafter hfinish
      rw [childrenFrom_of_some hnext hothers]
      simp only [Source.advance, ← hlength, List.length_append, Nat.add_assoc]

end Reading

end StageArchive
