import StageArchive.Proofs.Chunk.Inside
import StageArchive.Proofs.Container.Sealed
/-!
# A set as a reader of the container meets it

The stream of a set is copied into the container as it stands, and a body of odd length gets a zero
byte behind it. Readers let one zero byte pass behind the end of a stream, wherever it comes from; so
a set is read back unless its file had such a byte already and the container adds another.
`finalize_set_read_back` says so of every set of every container.
-/

namespace StageArchive

namespace Reading

/-- The body of the chunk for an entry of the table of contents, which must have the given tag;
nothing if there is no such entry. -/
def entryBody? (wanted : Tag) (index : Nat) : Reading (Option Bytes) := do
  let root ← openRoot
  match ← find root .contents with
  | none => return none
  | some table =>
    match (← contents table)[index]? with
    | none => return none
    | some entry =>
      seek entry.offset.toNat
      let chunk ← descend wanted
      return some (← content chunk)

/-- A chunk that is no form and lies inside another is the next one inside it. -/
theorem next?_of_chunkBytes {source : Source} {parent : Chunk} {name : Tag}
    {payload others : Bytes} (hform : name.isForm = false)
    (hfits : (padded payload).length < 2 ^ 32)
    (hrest : source.rest = chunkBytes source.order name payload ++ others)
    (hparent : source.data.length ≤ parent.finish) :
    next? parent source = (.ok (some (.ofBody name payload source.position)),
      { source with position := source.position + Chunk.headerLength }) := by
  have hfinish := @Chunk.finish_ofBody name payload source.position hfits
  have hinside : (Chunk.ofBody name payload source.position).finish ≤ parent.finish := by
    have hlength := congrArg List.length hrest
    rw [Source.rest, List.length_drop, List.length_append, length_chunkBytes] at hlength
    omega
  rw [Chunk.chunkBytes_eq _ _ _ source.position, List.append_assoc] at hrest
  exact next?_of_rest hform.symm rfl hinside hrest

end Reading

namespace SetPayload

/-- A payload is taken apart exactly when it is its class and its stream. -/
theorem decode_eq_ok {order : ByteOrder} {bytes : Bytes} {payload : SetPayload} :
    decode order bytes = .ok payload ↔
      bytes = order.encode payload.classIndex ++ payload.stream := by
  constructor
  · intro h
    unfold decode at h
    split at h
    · cases h
    · rename_i classIndex hclass
      cases h
      exact ByteOrder.eq_encode_of_word? hclass
  · rintro rfl
    exact decode_append order payload.classIndex payload.stream

/-- The stream of a payload is read when it decodes and refers to no media. -/
theorem instructions_eq_ok {order : ByteOrder} {payload : SetPayload}
    {instructions : List Instruction} :
    payload.instructions order = .ok instructions ↔
      decodeStream order payload.stream = .ok instructions ∧
        instructions.find? (·.opcode = .copyMediaRef) = none := by
  rw [SetPayload.instructions, bind_eq_ok]
  constructor
  · intro hparts
    obtain ⟨decoded, hdecoded, h⟩ := hparts
    split at h
    · rename_i hnone
      cases h
      exact ⟨hdecoded, hnone⟩
    · cases h
  · intro hparts
    obtain ⟨hdecoded, hnone⟩ := hparts
    refine ⟨instructions, hdecoded, ?_⟩
    rw [hnone]
    rfl

/-- A stream behind which padding is put is read as before, unless it has odd length and a zero byte at
its end already. -/
theorem instructions_padding {order : ByteOrder} {payload : SetPayload}
    {instrs : List Instruction} (h : payload.instructions order = .ok instrs) :
    SetPayload.instructions
        ⟨payload.classIndex, payload.stream ++ padding payload.stream.length⟩ order =
      if payload.stream.length % 2 = 1 ∧ payload.stream = streamBytes instrs ++ [0] then
        .error (.trailingBytes (streamBytes instrs).length 2)
      else .ok instrs := by
  obtain ⟨hstream, hmedia⟩ := instructions_eq_ok.mp h
  by_cases hover : payload.stream.length % 2 = 1 ∧ payload.stream = streamBytes instrs ++ [0]
  · obtain ⟨hodd, hbyte⟩ := hover
    have hboth : payload.stream ++ padding payload.stream.length =
        streamBytes instrs ++ [0, 0] := by
      rw [padding, if_pos hodd, hbyte, List.append_assoc]
      rfl
    have hfault := @decodeStream_append order _ [0, 0] _ hstream
    rw [if_pos ⟨hodd, hbyte⟩, SetPayload.instructions]
    dsimp only
    rw [hboth, hfault]
    rfl
  · rw [if_neg hover]
    obtain ⟨hspelled, hfinished, pad, hpad, heq⟩ := decodeStream_eq_ok_iff.mp hstream
    -- At most one of the zero byte in the file and the one from the container is there.
    have hone : IsPadding (pad ++ padding payload.stream.length) := by
      rcases hpad with rfl | rfl
      · exact padding_eq _
      · have heven : ¬ payload.stream.length % 2 = 1 := fun hodd => hover ⟨hodd, heq⟩
        rw [padding, if_neg heven]
        exact .inr rfl
    refine instructions_eq_ok.mpr ⟨decodeStream_eq_ok_iff.mpr ⟨hspelled, hfinished, _, hone, ?_⟩,
      hmedia⟩
    rw [← List.append_assoc, ← heq]

/-- What is read behind padding of a payload that could be read. -/
theorem reread_padded {order : ByteOrder} {body : Bytes} {payload : SetPayload}
    {instrs : List Instruction} (hpayload : decode order body = .ok payload)
    (h : payload.instructions order = .ok instrs) :
    ∃ again, decode order (padded body) = .ok again ∧ again.classIndex = payload.classIndex ∧
      again.instructions order =
        if body.length % 2 = 1 ∧ payload.stream = streamBytes instrs ++ [0] then
          .error (.trailingBytes (streamBytes instrs).length 2)
        else .ok instrs := by
  obtain rfl := decode_eq_ok.mp hpayload
  have hparity : (order.encode payload.classIndex ++ payload.stream).length % 2 =
      payload.stream.length % 2 := by
    rw [List.length_append, ByteOrder.length_encode]
    omega
  have hpadding : padding (order.encode payload.classIndex ++ payload.stream).length =
      padding payload.stream.length := by
    simp only [padding, hparity]
  have hpadded : padded (order.encode payload.classIndex ++ payload.stream) =
      order.encode payload.classIndex ++ (payload.stream ++ padding payload.stream.length) := by
    rw [padded, hpadding, List.append_assoc]
  rw [hpadded, hparity]
  exact ⟨_, decode_append order _ _, rfl, instructions_padding h⟩

end SetPayload

namespace Assembler

namespace ImageFits

variable {order : ByteOrder} {timestamp : UInt32} {dispositions : List Disposition}

/-- The table of contents is found behind the header. -/
theorem find_contents (h : ImageFits order timestamp dispositions) :
    Reading.find (imageRoot order timestamp dispositions) .contents
        (imageSource order timestamp dispositions) =
      (.ok (some (contentsChunk order dispositions)),
        { imageSource order timestamp dispositions with position := 36 }) := by
  let opened : Source := imageSource order timestamp dispositions
  have hparent : opened.data.length ≤ (imageRoot order timestamp dispositions).finish :=
    Nat.le_of_eq h.finish_root.symm
  have hheader : Reading.next? (imageRoot order timestamp dispositions) opened =
      (.ok (some (headerChunk order timestamp)), { opened with position := 20 }) :=
    Reading.next?_of_chunkBytes rfl (by rw [length_padded_header]; decide) h.drop_root hparent
  have hfinish : (headerChunk order timestamp).finish = 28 := by
    show 12 + 8 + (UInt32.ofNat _).toNat = 28
    rw [length_padded_header]
    rfl
  have hcontents : Reading.next? (imageRoot order timestamp dispositions)
        { opened with position := 28 } =
      (.ok (some (contentsChunk order dispositions)), { opened with position := 36 }) :=
    Reading.next?_of_chunkBytes rfl h.padded_contents_lt h.drop_header hparent
  have hother : (headerChunk order timestamp).tag ≠ .contents := by
    show Tag.header ≠ Tag.contents
    decide
  have hfound : (contentsChunk order dispositions).tag = .contents := rfl
  show Reading.findFrom (imageRoot order timestamp dispositions) .contents opened = _
  rw [Reading.findFrom_of_next? hheader, if_neg hother, hfinish,
    Reading.findFrom_of_next? hcontents, if_pos hfound]

/-- The chunk that is written for an entry begins at the offset in the table of contents. -/
theorem entry_image (h : ImageFits order timestamp dispositions) {front back : List Disposition}
    {name : Tag} {body : Bytes}
    (hsplit : dispositions = front ++ .written (.body name body) :: back) :
    ∃ place < 2 ^ 32, (padded body).length < 2 ^ 32 ∧
      ((imageOffsets order dispositions).map ContentsEntry.at)[front.length]? =
        some (.at (UInt32.ofNat place)) ∧
      ∃ behind, (image order timestamp dispositions).drop place =
        chunkBytes order name body ++ behind := by
  let place := contentStart dispositions.length + (front.flatMap (·.bytes order)).length
  obtain ⟨⟨hplace, hfits⟩, -⟩ : Disposition.FitFrom order place (.written (.body name body) :: back) :=
    Disposition.FitFrom.of_append (hsplit ▸ h.chunks)
  refine ⟨place, hplace, hfits, ?_, back.flatMap (·.bytes order) ++
    padding (imageBody order timestamp dispositions).length, ?_⟩
  · rw [imageOffsets, hsplit, Disposition.offsetsFrom_append, ← hsplit, List.map_append,
      List.getElem?_append_right (by simp)]
    simp only [List.length_map, Disposition.length_offsetsFrom, Nat.sub_self]
    rfl
  · rw [← List.drop_drop, h.drop_contents, imageRest]
    generalize padding (imageBody order timestamp dispositions).length = pad
    rw [hsplit, List.flatMap_append, List.flatMap_cons, List.append_assoc, List.drop_left,
      List.append_assoc]
    rfl

/-- The body of the chunk that is written for an entry is found with its padding. -/
theorem entryBody (h : ImageFits order timestamp dispositions) {front back : List Disposition}
    {name : Tag} {body : Bytes}
    (hsplit : dispositions = front ++ .written (.body name body) :: back)
    (hform : name.isForm = false) (start : ByteOrder) :
    ∃ after, Reading.entryBody? name front.length
        (.start start (image order timestamp dispositions)) = (.ok (some (padded body)), after) := by
  obtain ⟨place, hplace, hfits, hentry, behind, hdata⟩ := h.entry_image hsplit
  let opened : Source := imageSource order timestamp dispositions
  -- Reading the table begins with going to it, from wherever the search for it has ended.
  have hcontents : Reading.contents (contentsChunk order dispositions)
      { opened with position := 36 } = _ := h.contents_image
  rw [Reading.entryBody?, run_bind_of_eq (h.openRoot_image start), run_bind_of_eq h.find_contents]
  dsimp only
  rw [run_bind_of_eq hcontents, hentry]
  dsimp only
  have hword : (ContentsEntry.at (UInt32.ofNat place)).offset.toNat = place :=
    UInt32.toNat_ofNat_of_lt' hplace
  let reached : Source := { opened with position := place }
  have hseek (position : Nat) :
      Reading.seek place { opened with position := position } = (.ok (), reached) := rfl
  have hdescend := @Reading.descend_of_chunkBytes reached name body _ hform hdata
  obtain ⟨-, -, -, hcontent⟩ := @Reading.content_of_chunkBytes order name body _
    { reached with position := place + Chunk.headerLength } place hform hfits hdata
  rw [hword]
  exact ⟨_, run_bind_eq_ok.mpr ⟨(), _, hseek _, run_bind_eq_ok.mpr ⟨_, _, hdescend,
    run_bind_eq_ok.mpr ⟨_, _, hcontent, rfl⟩⟩⟩⟩

end ImageFits

/-- The entry at an index has something become of it, behind what became of those before. -/
theorem Disposes.exists_split {assembler : Assembler} {look : Path → Except FileFault Bytes}
    {entries : List ChunkEntry} {dispositions : List Disposition} {index : Nat} {entry : ChunkEntry}
    (h : assembler.Disposes look entries dispositions) (hentry : entries[index]? = some entry) :
    ∃ front disposition back content, dispositions = front ++ disposition :: back ∧
      front.length = index ∧ look entry.source = .ok content ∧
      assembler.dispose (assembler.prepare entry content) = .ok disposition := by
  induction h generalizing index with
  | nil => cases hentry
  | @cons first content disposition entries dispositions hread hdispose hothers ih =>
      cases index with
      | zero =>
          obtain rfl := Option.some.inj hentry
          exact ⟨[], disposition, dispositions, content, rfl, rfl, hread, hdispose⟩
      | succ index =>
          obtain ⟨front, found, back, other, rfl, rfl, hparts⟩ := ih hentry
          exact ⟨disposition :: front, found, back, other, rfl, rfl, hparts⟩

/-- A set is never left out: it is written as its payload. -/
theorem exists_body_of_dispose {assembler : Assembler} {entry : ChunkEntry} {content : Bytes}
    {disposition : Disposition} (hset : entry.kind = .set)
    (h : assembler.dispose (assembler.prepare entry content) = .ok disposition) :
    ∃ body, prepareSet assembler.config.byteOrder content = .ok body ∧
      disposition = .written (.body .set body) := by
  obtain ⟨kind, source, name⟩ := entry
  obtain rfl : kind = .set := hset
  cases hprepare : prepareSet assembler.config.byteOrder content with
  | error fault =>
      simp only [prepare, hprepare] at h
      cases h
  | ok body =>
      simp only [prepare, hprepare] at h
      cases h
      exact ⟨body, rfl, rfl⟩

/-- Every set of a finished container had a file that could be read. Its body is found in the container
with the class of the file and, unless it has odd length and a zero byte behind the stream already,
with its instructions; otherwise two bytes lie behind the stream and it is refused. -/
theorem finalize_set_read_back {assembler : Assembler} {clock : UInt32} {output : Path}
    {report : AssemblyReport} {before after : FileSystem} {index : Nat} {entry : ChunkEntry}
    (h : (assembler.finalize clock output :
        ExceptT AssemblyFault (StateM FileSystem) AssemblyReport) before = (.ok report, after))
    (hentry : assembler.entries[index]? = some entry) (hset : entry.kind = .set) :
    ∃ content body payload instructions bytes reread again,
      before.read entry.source = .ok content ∧
      SetPayload.ofFile assembler.config.byteOrder content = .ok body ∧
      SetPayload.decode assembler.config.byteOrder body = .ok payload ∧
      payload.instructions assembler.config.byteOrder = .ok instructions ∧
      after.read report.output = .ok bytes ∧
      (∀ start, (Reading.entryBody? .set index (.start start bytes)).1 = .ok (some reread)) ∧
      SetPayload.decode assembler.config.byteOrder reread = .ok again ∧
      again.classIndex = payload.classIndex ∧
      again.instructions assembler.config.byteOrder =
        if body.length % 2 = 1 ∧ payload.stream = streamBytes instructions ++ [0] then
          .error (.trailingBytes (streamBytes instructions).length 2)
        else .ok instructions := by
  obtain ⟨-, admitted, dispositions, bytes, hadmits, hdisposes, hbuilds, hplace⟩ :=
    (finalize_eq_ok fun _ _ => rfl).mp h
  obtain ⟨-, rfl⟩ := Prod.mk.inj hadmits
  obtain ⟨hfits, rfl, rfl⟩ := hbuilds
  obtain ⟨front, disposition, back, content, hsplit, rfl, hread, hdispose⟩ :=
    hdisposes.exists_split hentry
  obtain ⟨body, hprepare, rfl⟩ := exists_body_of_dispose hset hdispose
  obtain ⟨_, hbody, hprepare⟩ := bind_eq_ok.mp hprepare
  obtain ⟨payload, hpayload, hprepare⟩ := bind_eq_ok.mp hprepare
  obtain ⟨instructions, hinstructions, hprepare⟩ := bind_eq_ok.mp hprepare
  cases hprepare
  obtain ⟨again, hagain, hclass, hreread⟩ := SetPayload.reread_padded hpayload hinstructions
  refine ⟨content, body, payload, instructions, _, padded body, again, hread, hbody, hpayload,
    hinstructions, FileSystem.read_of_place (FileSystem.change_eq_ok.mp hplace), ?_, hagain, hclass,
    hreread⟩
  intro start
  obtain ⟨last, hfound⟩ := hfits.entryBody hsplit rfl start
  exact congrArg Prod.fst hfound

/-- A container with one set. -/
def oneSet : Assembler :=
  ⟨.standard, [⟨.set, ⟨"s.set"⟩, "s"⟩], .empty⟩

/-- The file of the set. -/
def setFiles (content : Bytes) : FileSystem :=
  ⟨[(["w"], .directory), (["w", "s.set"], .file content)], ["w"]⟩

/-- Files can be created beside the file of the set. -/
theorem admitsFiles_setFiles (content : Bytes) :
    (setFiles content).admitsFiles ⟨"."⟩ = .ok () := by
  have hpath : FileSystem.pathFault?
      (((setFiles content).absolute ⟨"."⟩).join FileSystem.temporaryName) = none := by
    have habsolute : (setFiles content).absolute ⟨"."⟩ = (setFiles []).absolute ⟨"."⟩ := rfl
    rw [habsolute]
    rfl
  unfold FileSystem.admitsFiles
  rw [hpath]
  rfl

/-- A container with one set fits, if the set is not too long. -/
theorem imageFits_oneSet {body : Bytes} (hshort : body.length + 64 < 2 ^ 32) :
    ImageFits .big 9 [.written (.body .set body)] := by
  let dispositions : List Disposition := [.written (.body .set body)]
  have hbytes : dispositions.flatMap (·.bytes .big) = chunkBytes .big .set body :=
    List.append_nil _
  have hcount : dispositions.length = 1 := rfl
  have hinside := length_imageBody .big 9 dispositions
  rw [hbytes, length_chunkBytes, length_padded, hcount] at hinside
  have hlength := length_image .big 9 dispositions
  rw [length_padded] at hlength
  show ImageFits .big 9 dispositions
  exact .of_length (by omega)

/-- A set that can be read makes a container of its own, if it is not too long. -/
theorem exists_finalize_oneSet {content body : Bytes} (h : prepareSet .big content = .ok body)
    (hshort : content.length + 64 < 2 ^ 32) :
    ∃ report after bytes,
      (oneSet.finalize 9 ⟨"o.ppr"⟩ :
          ExceptT AssemblyFault (StateM FileSystem) AssemblyReport) (setFiles content) =
        (.ok report, after) ∧
      after.read report.output = .ok bytes ∧
      ∀ start, (Reading.entryBody? .set 0 (.start start bytes)).1 = .ok (some (padded body)) := by
  let dispositions : List Disposition := [.written (.body .set body)]
  have hprepare : oneSet.prepare ⟨.set, ⟨"s.set"⟩, "s"⟩ content = .ok (.body .set body) := by
    have hprepare : prepareSet oneSet.config.byteOrder content = .ok body := h
    simp only [prepare, hprepare]
  have hdispose : oneSet.dispose (oneSet.prepare ⟨.set, ⟨"s.set"⟩, "s"⟩ content) =
      .ok (.written (.body .set body)) := by
    rw [hprepare]
    rfl
  have hdisposes : oneSet.Disposes (setFiles content).read oneSet.entries dispositions :=
    .cons rfl hdispose .nil
  have hbody : body.length = content.length - 4 := by
    rw [eq_drop_of_prepareSet h, List.length_drop]
  have hfits : ImageFits .big 9 dispositions := imageFits_oneSet (by omega)
  have hbuilds : oneSet.Builds 9 ⟨"o.ppr"⟩ dispositions _ _ := ⟨hfits, rfl, rfl⟩
  have hplace : (setFiles content).place ⟨"o.ppr"⟩ (image .big 9 dispositions) =
      .ok ((setFiles content).insert ["w", "o.ppr"] (.file (image .big 9 dispositions))) := rfl
  have hadmits : (FileAccess.admitsFiles (directoryOf (oneSet.config.resolveOutput ⟨"o.ppr"⟩)) :
      StateM FileSystem _) (setFiles content) = (.ok (), setFiles content) := by
    have hdirectory : directoryOf (oneSet.config.resolveOutput ⟨"o.ppr"⟩) = ⟨"."⟩ := rfl
    rw [hdirectory]
    show ((setFiles content).admitsFiles ⟨"."⟩, setFiles content) = _
    rw [admitsFiles_setFiles]
  refine ⟨_, _, image .big 9 dispositions, (finalize_eq_ok fun _ _ => rfl).mpr ⟨by decide,
    setFiles content, _, _, hadmits, hdisposes, hbuilds, FileSystem.change_eq_ok.mpr hplace⟩,
    FileSystem.read_of_place hplace, ?_⟩
  intro start
  have hsplit : dispositions = [] ++ .written (.body .set body) :: [] := rfl
  obtain ⟨last, hfound⟩ := hfits.entryBody hsplit rfl start
  exact congrArg Prod.fst hfound

/-- A set of odd length without a zero byte behind its stream is read back. -/
theorem finalize_set_read_back_bareSet :
    ∃ report after instructions bytes reread again,
      (oneSet.finalize 9 ⟨"o.ppr"⟩ :
          ExceptT AssemblyFault (StateM FileSystem) AssemblyReport) (setFiles bareSet) =
        (.ok report, after) ∧
      after.read report.output = .ok bytes ∧
      (∀ start, (Reading.entryBody? .set 0 (.start start bytes)).1 = .ok (some reread)) ∧
      SetPayload.decode .big reread = .ok again ∧ again.classIndex = 7 ∧
      SetPayload.instructions ⟨7, [0x80]⟩ .big = .ok instructions ∧
      again.instructions .big = .ok instructions := by
  obtain ⟨report, after, -, h, -⟩ := exists_finalize_oneSet prepareSet_bareSet (by decide)
  have hentry : oneSet.entries[0]? = some ⟨.set, ⟨"s.set"⟩, "s"⟩ := rfl
  obtain ⟨content, body, payload, instructions, bytes, reread, again, hcontent, hbody, hpayload,
    hinstructions, hread, hreread, hagain, hclass, hsame⟩ := finalize_set_read_back h hentry rfl
  cases hcontent
  cases hbody
  cases hpayload
  have hbare : ¬ ([0x80] = streamBytes instructions ++ [0]) := by
    intro heq
    have hlast := congrArg List.getLast? heq
    rw [List.getLast?_concat] at hlast
    exact absurd hlast (by decide)
  rw [if_neg fun hover => hbare hover.2] at hsame
  exact ⟨report, after, instructions, bytes, reread, again, h, hread, hreread, hagain, hclass,
    hinstructions, hsame⟩

/-- The file of a set of odd length with a zero byte behind its stream. -/
def oddPaddedSet : Bytes :=
  [0, 0, 0, 7, 0, 0, 0, 7, 0x88, 0x80, 0]

/-- A set of odd length with a zero byte behind its stream goes into a container and is refused when
it is read from there. -/
theorem finalize_set_refused :
    ∃ body report after bytes reread again,
      prepareSet .big oddPaddedSet = .ok body ∧
      (oneSet.finalize 9 ⟨"o.ppr"⟩ :
          ExceptT AssemblyFault (StateM FileSystem) AssemblyReport) (setFiles oddPaddedSet) =
        (.ok report, after) ∧
      after.read report.output = .ok bytes ∧
      (∀ start, (Reading.entryBody? .set 0 (.start start bytes)).1 = .ok (some reread)) ∧
      SetPayload.decode .big reread = .ok again ∧
      again.instructions .big = .error (.trailingBytes 2 2) := by
  let named : Instruction := .ofIndex 0 .name (.symbol .instances) 0
  let finish : Instruction := ⟨1, .finish, none, [0x80]⟩
  have hspelled : Spelled .big .blank 0 [named, finish] :=
    ⟨rfl, Instruction.spelled_ofIndex rfl rfl, rfl, rfl, trivial⟩
  have hfinished : IsFinished [named, finish] := by
    refine ⟨[named], finish, rfl, rfl, ?_⟩
    intro instruction hmem
    obtain rfl := List.mem_singleton.mp hmem
    show Opcode.name ≠ .finish
    simp
  have hstream : decodeStream .big [0x88, 0x80, 0] = .ok [named, finish] :=
    decodeStream_eq_ok_iff.mpr ⟨hspelled, hfinished, [0], .inr rfl, rfl⟩
  have hinstructions : SetPayload.instructions ⟨7, [0x88, 0x80, 0]⟩ .big = .ok [named, finish] :=
    SetPayload.instructions_eq_ok.mpr ⟨hstream, rfl⟩
  have hprepare : prepareSet .big oddPaddedSet = .ok (oddPaddedSet.drop 4) :=
    bind_eq_ok.mpr ⟨_, rfl, bind_eq_ok.mpr ⟨⟨7, [0x88, 0x80, 0]⟩, rfl,
      bind_eq_ok.mpr ⟨_, hinstructions, rfl⟩⟩⟩
  obtain ⟨report, after, bytes, h, hread, hreread⟩ := exists_finalize_oneSet hprepare (by decide)
  have hpayload : SetPayload.decode .big (oddPaddedSet.drop 4) = .ok ⟨7, [0x88, 0x80, 0]⟩ := rfl
  obtain ⟨again, hagain, -, hrefused⟩ := SetPayload.reread_padded hpayload hinstructions
  exact ⟨_, report, after, bytes, _, again, hprepare, h, hread, hreread, hagain, hrefused⟩

end Assembler

end StageArchive
