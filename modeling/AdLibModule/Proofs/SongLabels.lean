import AdLibModule.Proofs.Failure

/-! The labels of a module: its checksum, and the number of patterns that it declares. The song keeps
both, and nothing else depends on them: no size of a block, no event and no error. -/

namespace AdLibModule

namespace Read

variable {α β : Type}

theorem ofExcept_map (result : Except DecodeError α) (f : α → β) :
    ofExcept (result.map f) = f <$> ofExcept result := by
  funext cursor
  cases result <;> rfl

theorem map_apply (f : α → β) (reading : Read α) (cursor : Cursor) :
    (f <$> reading) cursor = ((reading cursor).1.map f, (reading cursor).2) := by
  rw [← bind_pure_comp, bind_apply]
  rcases reading cursor with ⟨error | value, left⟩ <;> rfl

end Read

open Read

namespace Song

theorem looksAhead_readBlock (song : Song) (kind : BlockKind) (length : Nat) :
    (song.readBlock kind length).LooksAhead := by
  unfold readBlock
  split
  · exact looksAhead_pure song
  · exact (takes_bytes length).looksAhead.bind fun _ => (looksAhead_ofExcept _).bind fun _ =>
      looksAhead_ofExcept _

theorem looksAhead_readBlocks (song : Song) (slots : List (BlockKind × Nat)) :
    (song.readBlocks slots).LooksAhead := by
  induction slots generalizing song with
  | nil => exact looksAhead_pure song
  | cons slot slots ih =>
      obtain ⟨kind, length⟩ := slot
      exact (song.looksAhead_readBlock kind length).bind fun next => ih next

theorem looksAhead_readAfter (header : Header) : (readAfter header).LooksAhead :=
  (looksAhead_ofExcept _).bind fun version => (looksAhead_ofExcept _).bind fun _ =>
    (BlockTable.spans_read version header.container).looksAhead.bind fun _ => looksAhead_readBlocks _ _

/-! ### Labels -/

/-- The song with other labels. -/
def withLabels (song : Song) (checksum : UInt32) (patternCount : UInt8) : Song :=
  { song with checksum := checksum, patternCount := patternCount }

variable (song : Song) (checksum : UInt32) (patternCount : UInt8)

theorem map_map_eq {α : Type} (result : Except DecodeError α) {fill fill' : α → Song}
    (h : ∀ value, fill' value = (fill value).withLabels checksum patternCount) :
    result.map fill' = (result.map fill).map (·.withLabels checksum patternCount) := by
  cases result with
  | error error => rfl
  | ok value => exact congrArg Except.ok (h value)

theorem withBlock_withLabels (kind : BlockKind) (block : Array UInt8) :
    (song.withLabels checksum patternCount).withBlock kind block
      = (song.withBlock kind block).map (·.withLabels checksum patternCount) := by
  cases kind with
  | patternGroup group =>
      simp only [withBlock, withLabels]
      rcases song.grid.decodeGroup group block with ⟨error | done, grid⟩ <;> rfl
  | _ => exact map_map_eq checksum patternCount _ fun _ => rfl

theorem readBlock_withLabels (kind : BlockKind) (length : Nat) :
    (song.withLabels checksum patternCount).readBlock kind length
      = (·.withLabels checksum patternCount) <$> song.readBlock kind length := by
  unfold readBlock
  split
  · rw [map_pure]
  · simp only [map_bind, ← Read.ofExcept_map, ← withBlock_withLabels]
    rfl

theorem readBlocks_withLabels (slots : List (BlockKind × Nat)) :
    (song.withLabels checksum patternCount).readBlocks slots
      = (·.withLabels checksum patternCount) <$> song.readBlocks slots := by
  induction slots generalizing song with
  | nil => rw [readBlocks, readBlocks, map_pure]
  | cons slot slots ih =>
      obtain ⟨kind, length⟩ := slot
      rw [readBlocks, readBlocks, readBlock_withLabels, map_bind, bind_map_left]
      exact bind_congr fun next => ih next

/-- The labels of the header become those of the song. -/
theorem readAfter_withLabels (header : Header) :
    readAfter { header with checksum := checksum, patternCount := patternCount }
      = (·.withLabels checksum patternCount) <$> readAfter header := by
  unfold readAfter
  simp only [map_bind, ← readBlocks_withLabels]
  rfl

/-- Two files whose headers agree but for their labels, and go on alike. -/
theorem load_eq_map_withLabels {data data' : Array UInt8} {header header' : Header}
    {left left' : Cursor}
    (hread : Header.read (.start data) = (.ok header, left))
    (hread' : Header.read (.start data') = (.ok header', left')) (hleft : left.SameAhead left')
    (hheader : header' = { header with
      checksum := header'.checksum, patternCount := header'.patternCount }) :
    load data' = (load data).map (·.withLabels header'.checksum header'.patternCount) := by
  have hresult := (looksAhead_readAfter header left left' hleft).1
  have hlabels : readAfter header'
      = (·.withLabels header'.checksum header'.patternCount) <$> readAfter header := by
    rw [← readAfter_withLabels, ← hheader]
  rw [load_eq hread, load_eq hread', hlabels, map_apply, hresult]

end Song

/-! ### Where the labels are stored -/

namespace Header

theorem bytes_of_read {header : Header} {data : Array UInt8} {left : Cursor}
    (hread : Header.read (.start data) = (.ok header, left)) : left.bytes = data := by
  have hkeeps := failsAs_read.keeps (.start data)
  rw [hread] at hkeeps
  exact hkeeps

/-- What the fixed part of a header says, read off from the bytes of the file. -/
structure SaidAt (header : Header) (data : Array UInt8) (rest : List UInt8) : Prop where
  checksum : (data.extract header.container.magic.size (header.container.magic.size + 4)).toList
    = littleEndianBytes 4 header.checksum.toNat
  version : data[header.container.magic.size + 4]? = some header.versionNumber
  patternCount : data[header.container.magic.size + 5]? = some header.patternCount
  behind : data.toList.drop (header.container.magic.size + 6) =
    (match header.container with
      | .a2m => []
      | .a2t => [header.tempo, header.speed]) ++ rest

theorem saidAt_of_bytes {header : Header} {data : Array UInt8} {rest : List UInt8}
    (h : data.toList = header.bytes ++ rest) : header.SaidAt data rest := by
  obtain ⟨container, checksum, versionNumber, patternCount, tempo, speed⟩ := header
  constructor
  · rw [Array.toList_extract, h]
    cases container <;>
      simp [bytes, fields, Container.magic, littleEndianBytes, List.extract]
  · rw [← Array.getElem?_toList, h]
    cases container <;> simp [bytes, fields, Container.magic, littleEndianBytes]
  · rw [← Array.getElem?_toList, h]
    cases container <;> simp [bytes, fields, Container.magic, littleEndianBytes]
  · rw [h]
    cases container <;> simp [bytes, fields, Container.magic, littleEndianBytes]

variable {header header' : Header} {data data' : Array UInt8} {rest rest' : List UInt8}

/-- Two headers are the same but for their labels where their bytes are. -/
theorem SaidAt.eq_of_agree (h : header.SaidAt data rest) (h' : header'.SaidAt data' rest')
    (hstored : header.IsStored) (hstored' : header'.IsStored)
    (hcontainer : header'.container = header.container)
    (hagree : ∀ index,
      ¬ (header.container.magic.size ≤ index ∧ index < header.container.magic.size + 4) →
      index ≠ header.container.magic.size + 5 → data'[index]? = data[index]?) :
    header' = { header with checksum := header'.checksum, patternCount := header'.patternCount }
      ∧ rest' = rest := by
  have hversion : header'.versionNumber = header.versionNumber := by
    apply Option.some.inj
    rw [← h.version, ← h'.version, hcontainer]
    exact hagree _ (by omega) (by omega)
  have hbehind : data'.toList.drop (header.container.magic.size + 6)
      = data.toList.drop (header.container.magic.size + 6) := by
    apply List.ext_getElem?
    intro index
    rw [List.getElem?_drop, List.getElem?_drop, Array.getElem?_toList, Array.getElem?_toList]
    exact hagree _ (by omega) (by omega)
  have hsame := h'.behind
  rw [hcontainer, hbehind, h.behind] at hsame
  have hlast : header'.tempo = header.tempo ∧ header'.speed = header.speed ∧ rest' = rest := by
    cases hkind : header.container with
    | a2m =>
        obtain ⟨htempo, hspeed⟩ := hstored hkind
        obtain ⟨htempo', hspeed'⟩ := hstored' (hcontainer.trans hkind)
        rw [hkind] at hsame
        exact ⟨htempo'.trans htempo.symm, hspeed'.trans hspeed.symm, hsame.symm⟩
    | a2t =>
        rw [hkind] at hsame
        obtain ⟨htempo, hothers⟩ := List.cons.inj hsame
        obtain ⟨hspeed, hrest⟩ := List.cons.inj hothers
        exact ⟨htempo.symm, hspeed.symm, hrest.symm⟩
  obtain ⟨htempo, hspeed, hrest⟩ := hlast
  refine ⟨?_, hrest⟩
  rw [← hcontainer, ← hversion, ← htempo, ← hspeed]

end Header

namespace Song

/-- The labels of the song are those that are stored in the data, behind the signature of the container.
-/
structure LabelledBy (song : Song) (container : Container) (data : Array UInt8) : Prop where
  checksum : song.checksum.toNat
    = littleEndian (data.extract container.magic.size (container.magic.size + 4)).toList
  patternCount : data[container.magic.size + 5]? = some song.patternCount

theorem labelledBy_of_saidAt {song : Song} {header : Header} {data : Array UInt8} {rest : List UInt8}
    (h : header.SaidAt data rest) (hchecksum : song.checksum = header.checksum)
    (hcount : song.patternCount = header.patternCount) : song.LabelledBy header.container data where
  checksum := by
    rw [h.checksum, hchecksum]
    exact (littleEndian_littleEndianBytes header.checksum.toNat_lt).symm
  patternCount := by rw [h.patternCount, hcount]

/-- The checksum and the declared number of patterns influence nothing else. Two files of one size that
start with the same signature, hold a whole header and differ in nothing but these two fail for the same
reason, or they are decoded into songs that differ in nothing but these two, which each song has from
its own file. -/
theorem load_labels {data data' : Array UInt8} {container : Container}
    (hstarts : container.StartsIn data) (hstarts' : container.StartsIn data')
    (hheader : container.headerSize ≤ data.size) (hsize : data'.size = data.size)
    (hagree : ∀ index, ¬ (container.magic.size ≤ index ∧ index < container.magic.size + 4) →
      index ≠ container.magic.size + 5 → data'[index]? = data[index]?) :
    (∃ error, load data = .error error ∧ load data' = .error error)
      ∨ ∃ song song', load data = .ok song ∧ load data' = .ok song'
        ∧ song' = { song with checksum := song'.checksum, patternCount := song'.patternCount }
        ∧ song.LabelledBy container data ∧ song'.LabelledBy container data' := by
  obtain ⟨header, left, hread, rfl⟩ := Header.exists_read_eq hstarts hheader
  obtain ⟨header', left', hread', hcontainer⟩ := Header.exists_read_eq hstarts' (hsize.symm ▸ hheader)
  obtain ⟨_, ⟨hstored, rfl⟩, hunread⟩ := Header.decodes_read.coded hread
  obtain ⟨_, ⟨hstored', rfl⟩, hunread'⟩ := Header.decodes_read.coded hread'
  have hsaid := Header.saidAt_of_bytes hunread
  have hsaid' := Header.saidAt_of_bytes hunread'
  obtain ⟨hlabels, hrest⟩ := hsaid.eq_of_agree hsaid' hstored hstored' hcontainer hagree
  have hahead : left.SameAhead left' := by
    refine Cursor.sameAhead_of_size_eq ?_ hrest.symm
    rw [Header.bytes_of_read hread, Header.bytes_of_read hread', hsize]
  have hmap := load_eq_map_withLabels hread hread' hahead hlabels
  have hself := load_eq_map_withLabels hread hread ⟨rfl, rfl⟩ rfl
  cases hload : load data with
  | error error =>
      rw [hload] at hmap
      exact Or.inl ⟨error, rfl, hmap⟩
  | ok song =>
      rw [hload] at hmap hself
      have hsong : song = song.withLabels header.checksum header.patternCount := Except.ok.inj hself
      refine Or.inr ⟨song, _, rfl, hmap, rfl, ?_, ?_⟩
      · rw [hsong]
        exact labelledBy_of_saidAt hsaid rfl rfl
      · rw [← hcontainer]
        exact labelledBy_of_saidAt hsaid' rfl rfl

/-- The blank module with other labels. -/
def labelledFile : ModuleFile :=
  { blankFile with header := { blankFile.header with checksum := 0x12345678, patternCount := 64 } }

theorem load_labels_of_blank : ∃ song song', load blankFile.bytes.toArray = .ok song
    ∧ load labelledFile.bytes.toArray = .ok song'
    ∧ song' = { song with checksum := song'.checksum, patternCount := song'.patternCount }
    ∧ song'.checksum = 0x12345678 ∧ song'.patternCount = 64 := by
  obtain ⟨rest, hbytes, hbytes'⟩ : ∃ rest, blankFile.bytes = blankFile.header.bytes ++ rest
      ∧ labelledFile.bytes = labelledFile.header.bytes ++ rest := by
    refine ⟨blankFile.table.bytes .v4 .a2t ++ (blankFile.blocks.flatten ++ blankFile.rest), ?_, ?_⟩
    · simp only [ModuleFile.bytes, List.append_assoc]
      rfl
    · simp only [ModuleFile.bytes, List.append_assoc]
      rfl
  obtain ⟨hstarts, hheader, -⟩ := @Header.versionNumber_of_bytes _ blankFile.bytes.toArray _ hbytes
  obtain ⟨hstarts', -, -⟩ := @Header.versionNumber_of_bytes _ labelledFile.bytes.toArray _ hbytes'
  have hsize : labelledFile.bytes.toArray.size = blankFile.bytes.toArray.size := by
    rw [List.size_toArray, List.size_toArray, hbytes, hbytes', List.length_append, List.length_append]
    rfl
  have hagree : ∀ index, ¬ (15 ≤ index ∧ index < 19) → index ≠ 20 →
      labelledFile.bytes.toArray[index]? = blankFile.bytes.toArray[index]? := by
    intro index hchecksum hcount
    rw [List.getElem?_toArray, List.getElem?_toArray, hbytes, hbytes']
    have hfixed : ∀ index < 23, ¬ (15 ≤ index ∧ index < 19) → index ≠ 20 →
        labelledFile.header.bytes[index]? = blankFile.header.bytes[index]? := by decide
    by_cases hindex : index < 23
    · rw [List.getElem?_append_left hindex, List.getElem?_append_left hindex]
      exact hfixed index hindex hchecksum hcount
    · rw [List.getElem?_append_right (Nat.le_of_not_lt hindex),
        List.getElem?_append_right (Nat.le_of_not_lt hindex)]
      rfl
  obtain ⟨found, hfound⟩ := wellFormed_blankFile.exists_load
  rcases load_labels hstarts hstarts' hheader hsize hagree with
    ⟨error, herror, -⟩ | ⟨song, song', hload, hload', hsame, -, hlabels⟩
  · rw [hfound] at herror
    cases herror
  · have hbytes : labelledFile.bytes.toArray.toList = labelledFile.header.bytes ++ rest := hbytes'
    have hchecksum := hlabels.checksum
    have hcount := hlabels.patternCount
    have hstored : ((labelledFile.header.bytes ++ rest).extract 15 19) = [0x78, 0x56, 0x34, 0x12] := rfl
    have hvalue : littleEndian [0x78, 0x56, 0x34, 0x12] = (0x12345678 : UInt32).toNat := by decide
    rw [Array.toList_extract, hbytes] at hchecksum
    rw [← Array.getElem?_toList, hbytes] at hcount
    have hnumber := hchecksum.trans ((congrArg littleEndian hstored).trans hvalue)
    exact ⟨song, song', hload, hload', hsame, UInt32.toNat_inj.mp hnumber,
      (Option.some.inj hcount).symm⟩

end Song
end AdLibModule
