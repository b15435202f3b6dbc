import StageArchive.Proofs.Container.Reading
import StageArchive.Proofs.Entity.Relinking
import StageArchive.Proofs.FileSystem
import StageArchive.Proofs.Media
/-!
# A container is what its table of contents says

A reader that enters the root form of a finished container meets the header, the table of contents
and then the entries that were written, in order. `Assembler.Accounts` goes through the entries, the
table, these chunks and the report together: each entry is either left out, with a zero in the table
and a reason in the report, or its offset in the table and the report is that of the next chunk,
which carries the entry. Every assembly that succeeds leaves such a file.
-/

namespace StageArchive

/-- A linked payload says what an entity's payload says, with the container's numbers of the media,
and no names follow it. -/
def IsLinkedFrom (order : ByteOrder) (assets : NameIndex) (payload linked : EntityPayload) : Prop :=
  linked.header = payload.header ∧ linked.names = [] ∧
    ∃ original instructions, payload.instructions order = .ok original ∧
      linked.instructions order = .ok instructions ∧
      instructions.map (·.skeleton) = original.map (·.skeleton) ∧
      assetOperands instructions = (assetOperands original).map
        (·.bind fun number => (payload.mediumName? number).bind assets.number?)

namespace Assembler

/-- A chunk carries an entry with the given file: a medium's file as it stands, a set's file without
the length in front, or a group's or scene's payload linked to the media. The last two may be
followed by a zero byte. -/
def Carries (assembler : Assembler) (opened : Source) (entry : ChunkEntry) (content : Bytes)
    (chunk : Chunk) : Prop :=
  chunk.tag = entry.kind.tag ∧
    match entry.kind with
    | .media => ∃ others, opened.data.drop chunk.offset = content ++ others ∧
        chunk.finish = chunk.offset + content.length
    | .set => ∃ pad after, IsPadding pad ∧
        Reading.content chunk opened = (.ok (content.drop 4 ++ pad), after)
    | .group | .scene => ∃ body pad after payload linked, IsPadding pad ∧
        Reading.content chunk opened = (.ok (body ++ pad), after) ∧
        EntityPayload.decode assembler.config.byteOrder content = .ok payload ∧
        EntityPayload.decode assembler.config.byteOrder (body ++ pad) = .ok linked ∧
        linked.nameTableOffset.toNat = body.length ∧
        IsLinkedFrom assembler.config.byteOrder assembler.assets payload linked

/-- Entries, the table of contents, the chunks that are there and the report account for each
other. -/
inductive Accounts (assembler : Assembler) (look : Path → Except FileFault Bytes)
    (opened : Source) : List ChunkEntry → List ContentsEntry → List Chunk → List WrittenChunk →
      List SkippedChunk → Prop
  | nil : Accounts assembler look opened [] [] [] [] []
  | written {entry : ChunkEntry} {content : Bytes} {chunk : Chunk} {offset : UInt32}
      {entries : List ChunkEntry} {contents : List ContentsEntry} {chunks : List Chunk}
      {written : List WrittenChunk} {skipped : List SkippedChunk}
      (hread : look entry.source = .ok content) (hoffset : offset.toNat = chunk.offset)
      (hpresent : offset ≠ 0) (hcarries : assembler.Carries opened entry content chunk)
      (hothers : Accounts assembler look opened entries contents chunks written skipped) :
      Accounts assembler look opened (entry :: entries) (⟨0, offset⟩ :: contents)
        (chunk :: chunks) (⟨entry.kind, entry.name, offset⟩ :: written) skipped
  | skipped {entry : ChunkEntry} {reason : String}
      {entries : List ChunkEntry} {contents : List ContentsEntry} {chunks : List Chunk}
      {written : List WrittenChunk} {skipped : List SkippedChunk}
      (hothers : Accounts assembler look opened entries contents chunks written skipped) :
      Accounts assembler look opened (entry :: entries) (⟨0, 0⟩ :: contents) chunks written
        (⟨entry.kind, entry.name, reason⟩ :: skipped)

/-- Only an entry that could be prepared is written. -/
theorem prepare_of_dispose {assembler : Assembler} {outcome : Except AssemblyFault PreparedChunk}
    {prepared : PreparedChunk} (h : assembler.dispose outcome = .ok (.written prepared)) :
    outcome = .ok prepared := by
  cases outcome with
  | ok chunk =>
      cases h
      rfl
  | error fault =>
      unfold dispose at h
      dsimp only at h
      split at h <;> cases h

/-- A set is prepared as its file without the length in front. -/
theorem eq_drop_of_prepareSet {order : ByteOrder} {content body : Bytes}
    (h : prepareSet order content = .ok body) : body = content.drop 4 := by
  obtain ⟨inside, hinside, h⟩ := bind_eq_ok.mp h
  obtain ⟨payload, -, h⟩ := bind_eq_ok.mp h
  obtain ⟨instructions, -, h⟩ := bind_eq_ok.mp h
  cases h
  unfold SetPayload.ofFile at hinside
  split at hinside
  · cases hinside
  · split at hinside
    · cases hinside
      rfl
    · cases hinside

/-- A linked entity says what the entity says, also behind a zero byte. -/
theorem exists_isLinkedFrom {order : ByteOrder} {assets : NameIndex} {content body pad : Bytes}
    (h : relinkEntity order assets content = .ok body) (hpad : IsPadding pad) :
    ∃ payload linked, EntityPayload.decode order content = .ok payload ∧
      EntityPayload.decode order (body ++ pad) = .ok linked ∧
      linked.nameTableOffset.toNat = body.length ∧ IsLinkedFrom order assets payload linked := by
  obtain ⟨payload, original, hpayload, hstream⟩ := exists_decoded_of_relinkEntity h
  obtain ⟨hmedia, hfits, rfl⟩ := (relinkEntity_eq_ok_iff hpayload hstream).mp h
  obtain ⟨linked, hlinked, hheader, hnames, hoffset, hinstructions⟩ :=
    decode_linked (hmedia.decodeStream_eq hstream) hpad hfits
  exact ⟨payload, linked, hpayload, hlinked, hoffset, hheader, hnames, original, _, hstream,
    hinstructions, hmedia.tells hstream⟩

/-- What is written for an entry of a kind with the given file. -/
inductive Prepares (assembler : Assembler) (content : Bytes) : ChunkKind → PreparedChunk → Prop
  | media {media : MediaList}
      (hmedia : MediaList.decode assembler.config.byteOrder content = .ok media) :
      Prepares assembler content .media (.whole content)
  | entity {kind : ChunkKind} {body : Bytes} (hkind : kind = .group ∨ kind = .scene)
      (hbody : relinkEntity assembler.config.byteOrder assembler.assets content = .ok body) :
      Prepares assembler content kind (.body kind.tag body)
  | set {body : Bytes} (hbody : prepareSet assembler.config.byteOrder content = .ok body) :
      Prepares assembler content .set (.body .set body)

/-- An entry is prepared when its medium can be read, its entity linked or its set read. -/
theorem prepare_eq_ok {assembler : Assembler} {entry : ChunkEntry} {content : Bytes}
    {prepared : PreparedChunk} :
    assembler.prepare entry content = .ok prepared ↔
      assembler.Prepares content entry.kind prepared := by
  obtain ⟨kind, source, name⟩ := entry
  constructor
  · intro h
    cases kind with
    | media =>
        unfold prepare at h
        dsimp only at h
        split at h
        · cases h
        · rename_i media hmedia
          cases h
          exact .media hmedia
    | group | scene =>
        unfold prepare at h
        dsimp only at h
        split at h
        · cases h
        · rename_i body hbody
          cases h
          exact .entity (by simp) hbody
    | set =>
        unfold prepare at h
        dsimp only at h
        split at h
        · cases h
        · rename_i body hbody
          cases h
          exact .set hbody
  · intro h
    change assembler.Prepares content kind prepared at h
    cases h with
    | media hmedia => simp only [prepare, hmedia]
    | entity hkind hbody => rcases hkind with rfl | rfl <;> simp only [prepare, hbody]
    | set hbody => simp only [prepare, hbody]

/-- The chunk that is written for an entry carries it. -/
theorem exists_carries {assembler : Assembler} {entry : ChunkEntry} {content others : Bytes}
    {prepared : PreparedChunk} {opened : Source} {start : Nat}
    (h : assembler.prepare entry content = .ok prepared) (hfits : prepared.Fits)
    (hdata : opened.data.drop start = prepared.bytes assembler.config.byteOrder ++ others) :
    ∃ (chunk : Chunk) (inside : Bytes), chunk.IsRegular ∧ chunk.offset = start ∧
      prepared.bytes assembler.config.byteOrder =
        chunk.head assembler.config.byteOrder ++ inside ∧
      chunk.content + inside.length = chunk.finish ∧
      assembler.Carries opened entry content chunk := by
  obtain ⟨kind, source, name⟩ := entry
  have hprepares : assembler.Prepares content kind prepared := prepare_eq_ok.mp h
  cases hprepares with
  | media hmedia =>
      -- A media list is copied as it is, so its own header is the header of the chunk.
      obtain ⟨size, inside, hcontent, hsize⟩ := MediaList.eq_head_of_decode hmedia
      let chunk : Chunk := ⟨.list, some .mediaList, start, size⟩
      have hcontent : content = chunk.head assembler.config.byteOrder ++ inside := hcontent
      have hhead : start + (chunk.head assembler.config.byteOrder).length = chunk.content :=
        chunk.length_head assembler.config.byteOrder
      have hfinish : chunk.finish = start + 8 + size.toNat := rfl
      have hoffset : chunk.offset = start := rfl
      have hlength := congrArg List.length hcontent
      rw [List.length_append] at hlength
      exact ⟨chunk, inside, rfl, rfl, hcontent, by omega, rfl, others, hdata, by omega⟩
  | @entity _ body hkind hbody =>
      have hform : kind.tag.isForm = false := by
        rcases hkind with rfl | rfl <;> rfl
      obtain ⟨hregular, hhead, hfinish, hcontent⟩ :=
        Reading.content_of_chunkBytes hform hfits hdata
      obtain ⟨payload, linked, hpayload, hlinked, hoffset, hfrom⟩ :=
        exists_isLinkedFrom hbody (padding_eq body.length)
      refine ⟨_, padded body, hregular, rfl, hhead, hfinish, rfl, ?_⟩
      rcases hkind with rfl | rfl <;>
        exact ⟨body, padding body.length, _, payload, linked, padding_eq body.length, hcontent,
          hpayload, hlinked, hoffset, hfrom⟩
  | set hbody =>
      obtain rfl := eq_drop_of_prepareSet hbody
      obtain ⟨hregular, hhead, hfinish, hcontent⟩ :=
        Reading.content_of_chunkBytes rfl hfits hdata
      exact ⟨_, padded (content.drop 4), hregular, rfl, hhead, hfinish, rfl,
        padding (content.drop 4).length, _, padding_eq _, hcontent⟩

/-- Entries whose chunks lie one after another are accounted for. -/
theorem Disposes.exists_accounts {assembler : Assembler} {look : Path → Except FileFault Bytes}
    {entries : List ChunkEntry} {dispositions : List Disposition} {opened : Source} {start : Nat}
    {others : Bytes} (h : assembler.Disposes look entries dispositions) (hstart : 0 < start)
    (hfit : Disposition.FitFrom assembler.config.byteOrder start dispositions)
    (hdata : opened.data.drop start =
      dispositions.flatMap (·.bytes assembler.config.byteOrder) ++ others) :
    ∃ chunks, Chunk.Follow assembler.config.byteOrder start chunks
        (dispositions.flatMap (·.bytes assembler.config.byteOrder)) ∧
      assembler.Accounts look opened entries
        ((Disposition.offsetsFrom assembler.config.byteOrder start dispositions).map .at) chunks
        (writtenChunks (entries.zip (dispositions.zip
          (Disposition.offsetsFrom assembler.config.byteOrder start dispositions))))
        (skippedChunks (entries.zip dispositions)) := by
  -- The chunk of each entry that is written begins where the one before it ends.
  induction h generalizing start with
  | nil => exact ⟨[], .nil start, .nil⟩
  | @cons entry content disposition entries dispositions hread hdispose hothers ih =>
      rw [List.flatMap_cons, List.append_assoc] at hdata
      obtain ⟨hfits, hfit⟩ := hfit
      have hrest : opened.data.drop
          (start + (disposition.bytes assembler.config.byteOrder).length) =
            dispositions.flatMap (·.bytes assembler.config.byteOrder) ++ others := by
        rw [← List.drop_drop, hdata, List.drop_left]
      obtain ⟨chunks, hfollow, haccounts⟩ := ih (Nat.add_pos_left hstart _) hfit hrest
      cases disposition with
      | skipped reason => exact ⟨chunks, hfollow, .skipped haccounts⟩
      | written prepared =>
          obtain ⟨hoffset, hfits⟩ := hfits
          obtain ⟨chunk, inside, hregular, rfl, hbytes, hfinish, hcarries⟩ :=
            exists_carries (prepare_of_dispose hdispose) hfits hdata
          have hword := UInt32.toNat_ofNat_of_lt' hoffset
          -- No chunk lies at the beginning, so an offset is never mistaken for an absent entry.
          have hpresent : UInt32.ofNat chunk.offset ≠ 0 := by
            intro hzero
            rw [hzero] at hword
            exact absurd hword (Nat.ne_of_lt hstart)
          have hbehind : chunk.offset + (prepared.bytes assembler.config.byteOrder).length =
              chunk.finish := by
            have hhead := chunk.length_head assembler.config.byteOrder
            rw [hbytes, List.length_append]
            omega
          refine ⟨chunk :: chunks, ?_, .written hread hword hpresent hcarries haccounts⟩
          rw [List.flatMap_cons]
          have hfollow : Chunk.Follow assembler.config.byteOrder chunk.finish chunks
              (dispositions.flatMap (·.bytes assembler.config.byteOrder)) := hbehind ▸ hfollow
          have hall := Chunk.Follow.cons hregular rfl hfinish hfollow
          rwa [← hbytes] at hall

/-- What a reader meets in the file of a container, and what the report says about it. -/
def IsSealed (assembler : Assembler) (look : Path → Except FileFault Bytes) (bytes : Bytes)
    (report : AssemblyReport) : Prop :=
  ∃ root opened header contents chunks last entries after,
    (∀ start, Reading.openRoot (.start start bytes) = (.ok root, opened)) ∧
    root.finish = bytes.length ∧ report.size = bytes.length ∧
    Reading.childrenFrom root opened = (.ok (header :: contents :: chunks), last) ∧
    last.position ≤ bytes.length ∧ bytes.length ≤ last.position + 1 ∧
    header.tag = .header ∧ contents.tag = .contents ∧
    Reading.contents contents opened = (.ok entries, after) ∧
    assembler.Accounts look opened assembler.entries entries chunks report.written report.skipped

/-- A container that is built from what becomes of its entries is sealed. -/
theorem isSealed_of_builds {assembler : Assembler} {look : Path → Except FileFault Bytes}
    {clock : UInt32} {output : Path} {dispositions : List Disposition} {bytes : Bytes}
    {report : AssemblyReport} (hdisposes : assembler.Disposes look assembler.entries dispositions)
    (h : assembler.Builds clock output dispositions bytes report) :
    assembler.IsSealed look bytes report := by
  obtain ⟨hfits, rfl, rfl⟩ := h
  have hstart : 0 < contentStart dispositions.length := by
    rw [contentStart]
    omega
  obtain ⟨chunks, hfollow, haccounts⟩ :=
    @Disposes.exists_accounts assembler look assembler.entries dispositions
      (imageSource assembler.config.byteOrder (assembler.config.headerTimestamp clock)
        dispositions) _ _ hdisposes hstart hfits.chunks hfits.drop_contents
  obtain ⟨last, hchildren, hbelow, habove⟩ := hfits.childrenFrom_image hfollow
  exact ⟨_, _, _, _, chunks, last, _, _, hfits.openRoot_image, hfits.finish_root, rfl,
    hchildren, hbelow, habove, rfl, rfl, hfits.contents_image, haccounts⟩

/-- A container is finished when files can be created where it goes, something becomes of every
entry, the container can be built and its file put in place. -/
theorem finalize_eq_ok {σ : Type} [FileAccess (StateM σ)] {assembler : Assembler}
    {look : σ → Path → Except FileFault Bytes}
    (hlook : ∀ path state, (FileAccess.read path : StateM σ _) state = (look state path, state))
    {clock : UInt32} {output : Path} {before after : σ} {report : AssemblyReport} :
    (assembler.finalize clock output : ExceptT AssemblyFault (StateM σ) AssemblyReport) before =
        (.ok report, after) ↔
      assembler.entries.length < 2 ^ 32 ∧
        ∃ admitted dispositions bytes,
          (FileAccess.admitsFiles (directoryOf (assembler.config.resolveOutput output)) :
            StateM σ _) before = (.ok (), admitted) ∧
          assembler.Disposes (look admitted) assembler.entries dispositions ∧
          assembler.Builds clock (assembler.config.resolveOutput output) dispositions bytes
            report ∧
          (FileAccess.place (assembler.config.resolveOutput output) bytes : StateM σ _) admitted =
            (.ok (), after) := by
  rw [finalize_eq_ok_iff_makeInSteps hlook]
  refine and_congr_right fun _ => ?_
  constructor
  · rintro ⟨admitted, bytes, hadmits, hmade, hplace⟩
    obtain ⟨dispositions, hdisposes, hbuilds⟩ := makeInSteps_eq_ok.mp hmade
    exact ⟨admitted, dispositions, bytes, hadmits, hdisposes, hbuilds, hplace⟩
  · rintro ⟨admitted, dispositions, bytes, hadmits, hdisposes, hbuilds, hplace⟩
    exact ⟨admitted, bytes, hadmits, makeInSteps_eq_ok.mpr ⟨dispositions, hdisposes, hbuilds⟩,
      hplace⟩

/-- Every assembly that succeeds leaves a file that is sealed, and the report is on that file. -/
theorem finalize_sealed {assembler : Assembler} {clock : UInt32} {output : Path}
    {report : AssemblyReport} {before after : FileSystem}
    (h : (assembler.finalize clock output :
        ExceptT AssemblyFault (StateM FileSystem) AssemblyReport) before = (.ok report, after)) :
    ∃ bytes, after.read report.output = .ok bytes ∧
      assembler.IsSealed before.read bytes report := by
  obtain ⟨-, admitted, dispositions, bytes, hadmits, hdisposes, hbuilds, hplace⟩ :=
    (finalize_eq_ok fun _ _ => rfl).mp h
  obtain ⟨-, rfl⟩ := Prod.mk.inj hadmits
  have houtput : report.output = assembler.config.resolveOutput output := by
    obtain ⟨-, -, rfl⟩ := hbuilds
    rfl
  refine ⟨bytes, ?_, isSealed_of_builds hdisposes hbuilds⟩
  rw [houtput]
  exact FileSystem.read_of_place (FileSystem.change_eq_ok.mp hplace)

/-- A media list of odd length without references. -/
def oddMedia : Bytes :=
  Tag.list.bytes ++ [0, 0, 0, 25] ++ Tag.mediaList.bytes ++ Tag.info.bytes ++ [0, 0, 0, 12] ++
    List.replicate 13 0

/-- The file of a set whose stream only ends. -/
def bareSet : Bytes :=
  [0, 0, 0, 5, 0, 0, 0, 7, 0x80]

/-- The files of a medium and a set. -/
def twoFiles : FileSystem :=
  ⟨[(["w"], .directory), (["w", "a.mrfl"], .file oddMedia), (["w", "s.set"], .file bareSet)],
    ["w"]⟩

/-- A container with a medium and a set. -/
def twoEntries : Assembler :=
  ⟨.standard, [⟨.media, ⟨"a.mrfl"⟩, "a"⟩, ⟨.set, ⟨"s.set"⟩, "s"⟩], .ofList ["a"]⟩

/-- What becomes of the medium and the set. -/
def twoDispositions : List Disposition :=
  [.written (.whole oddMedia), .written (.body .set (bareSet.drop 4))]

/-- The set can be read. -/
theorem prepareSet_bareSet : prepareSet .big bareSet = .ok (bareSet.drop 4) := by
  have hstream : decodeStream .big [0x80] = .ok [⟨0, .finish, none, [0x80]⟩] :=
    decodeStream_eq_ok_iff.mpr
      ⟨⟨rfl, rfl, trivial⟩, ⟨[], _, rfl, rfl, nofun⟩, [], .inl rfl, rfl⟩
  have hinstructions : SetPayload.instructions ⟨7, [0x80]⟩ .big =
      .ok [⟨0, .finish, none, [0x80]⟩] := by
    rw [SetPayload.instructions, hstream]
    rfl
  exact bind_eq_ok.mpr ⟨_, rfl, bind_eq_ok.mpr ⟨⟨7, [0x80]⟩, rfl,
    bind_eq_ok.mpr ⟨_, hinstructions, rfl⟩⟩⟩

/-- A medium of odd length and behind it a set whose body is padded. -/
theorem finalize_sealed_odd :
    ∃ report after bytes,
      (twoEntries.finalize 9 ⟨"o.ppr"⟩ :
          ExceptT AssemblyFault (StateM FileSystem) AssemblyReport) twoFiles =
        (.ok report, after) ∧
      report.written = [⟨.media, "a", 56⟩, ⟨.set, "s", 89⟩] ∧ report.size = 104 ∧
      after.read report.output = .ok bytes ∧ twoEntries.IsSealed twoFiles.read bytes report := by
  have hdisposes : twoEntries.Disposes twoFiles.read twoEntries.entries twoDispositions := by
    have hset : twoEntries.prepare ⟨.set, ⟨"s.set"⟩, "s"⟩ bareSet =
        .ok (.body .set (bareSet.drop 4)) := by
      have hprepare : prepareSet twoEntries.config.byteOrder bareSet = .ok (bareSet.drop 4) :=
        prepareSet_bareSet
      simp only [prepare, hprepare]
    have hdispose : twoEntries.dispose (twoEntries.prepare ⟨.set, ⟨"s.set"⟩, "s"⟩ bareSet) =
        .ok (.written (.body .set (bareSet.drop 4))) := by
      rw [hset]
      rfl
    exact .cons rfl rfl (.cons rfl hdispose .nil)
  have hfits : ImageFits .big 9 twoDispositions := by
    refine ⟨by decide, by decide, ⟨⟨by decide, trivial⟩, ⟨by decide, ?_⟩, trivial⟩,
      by decide +kernel⟩
    show List.length _ < _
    decide
  have hbuilds : twoEntries.Builds 9 ⟨"o.ppr"⟩ twoDispositions _ _ := ⟨hfits, rfl, rfl⟩
  have hsize : (image .big 9 twoDispositions).length = 104 := by decide +kernel
  have hadmits : twoFiles.admitsFiles ⟨"."⟩ = .ok () := rfl
  have hplace (bytes : Bytes) : twoFiles.place ⟨"o.ppr"⟩ bytes =
      .ok (twoFiles.insert ["w", "o.ppr"] (.file bytes)) := rfl
  have h : (twoEntries.finalize 9 ⟨"o.ppr"⟩ :
      ExceptT AssemblyFault (StateM FileSystem) AssemblyReport) twoFiles = _ :=
    (finalize_eq_ok fun _ _ => rfl).mpr ⟨by decide, twoFiles, _, _, Prod.ext hadmits rfl,
      hdisposes, hbuilds, FileSystem.change_eq_ok.mpr (hplace _)⟩
  obtain ⟨bytes, hread, hsealed⟩ := finalize_sealed h
  exact ⟨_, _, bytes, h, rfl, hsize, hread, hsealed⟩

end Assembler

end StageArchive
