import AdLibModule.Load
import AdLibModule.Proofs.Grid
import AdLibModule.Proofs.PackedBlock
import AdLibModule.Proofs.SongData

/-! The parts of a song, and the blocks that fill them in. A block of the declared size is always
decoded, tells its own parts of the song and leaves all others as they were. -/

namespace AdLibModule

inductive SongPart where
  | info
  | instruments
  | instrumentMacros
  | macroTables
  | disabledColumns
  | order
  | events (group : Nat)

namespace SongPart

def Value : SongPart → Type
  | info => (String × String × List String) × UInt8 × UInt8 × Settings
  | instruments => List Instrument
  | instrumentMacros => List InstrumentMacro
  | macroTables => List MacroTable
  | disabledColumns => List DisabledColumns
  | order => Order
  | events _ => Nat → Nat → Nat → Option Event

/-- What the part is in a song. Of the events, only those of the group are told. -/
def value : (part : SongPart) → Song → part.Value
  | info, song =>
    ((song.title, song.author, song.patternNames), song.tempo, song.speed, song.settings)
  | instruments, song => song.instruments
  | instrumentMacros, song => song.instrumentMacros
  | macroTables, song => song.macroTables
  | disabledColumns, song => song.disabledColumns
  | order, song => song.order
  | events group, song => fun pattern channel row =>
    if pattern / song.grid.family.patternsPerGroup = group then
      song.grid.event? pattern channel row
    else none

end SongPart

/-- The blocks that tell this part and no other. No block tells the texts and settings alone. -/
def SongPart.ownKind : SongPart → BlockKind
  | info => .songData
  | instruments => .instruments
  | instrumentMacros => .instrumentMacros
  | macroTables => .macroTables
  | disabledColumns => .disabledColumns
  | order => .order
  | events group => .patternGroup group

/-- Blocks of the kind tell the part. The song data of a full module is all but the events. -/
def BlockKind.Fills (kind : BlockKind) (part : SongPart) : Prop :=
  kind = part.ownKind ∨ kind = .songData ∧ ∀ group, part ≠ .events group

theorem pairwise_of_nodup {kinds : List BlockKind} (hnodup : kinds.Nodup)
    (hdata : .songData ∉ kinds) :
    kinds.Pairwise fun kind other => ∀ part, ¬ (kind.Fills part ∧ other.Fills part) := by
  have hown : ∀ kind ∈ kinds, ∀ part, kind.Fills part → kind = part.ownKind := by
    rintro kind hkind part (hkind' | ⟨rfl, -⟩)
    · exact hkind'
    · exact absurd hkind hdata
  refine List.Pairwise.imp_of_mem ?_ hnodup
  rintro kind other hkind hother hne part ⟨hfills, hfills'⟩
  exact hne ((hown kind hkind part hfills).trans (hown other hother part hfills').symm)

/-- No two blocks of a module tell the same part. -/
theorem Version.pairwise_layout (version : Version) (container : Container) :
    (version.layout container).Pairwise
      fun kind other => ∀ part, ¬ (kind.Fills part ∧ other.Fills part) := by
  cases container with
  | a2m =>
      have hnodup : ((List.range version.family.groups).map BlockKind.patternGroup).Nodup := by
        cases version <;> decide
      refine List.pairwise_cons.mpr ⟨?_, pairwise_of_nodup hnodup (by simp)⟩
      rintro other hother part ⟨hfills, hfills'⟩
      obtain ⟨group, -, rfl⟩ := List.mem_map.mp hother
      rcases hfills' with hown | ⟨hown, -⟩
      · cases part with
        | events filled =>
            rcases hfills with h | ⟨-, h⟩
            · cases h
            · exact h filled rfl
        | _ => cases hown
      · cases hown
  | a2t =>
      refine pairwise_of_nodup ?_ ?_
      · cases version <;> decide
      · cases version <;> decide

theorem Version.patternGroup_mem_layout_iff (version : Version) (container : Container)
    (group : Nat) :
    .patternGroup group ∈ version.layout container ↔ group < version.family.groups := by
  have hnot : .patternGroup group ∉ version.songBlocks container := by
    cases container with
    | a2m => simp [songBlocks]
    | a2t => cases version <;> simp [songBlocks, hasMacros, number]
  simp only [layout, List.mem_append, hnot, false_or, List.mem_map, List.mem_range,
    BlockKind.patternGroup.injEq, exists_eq_right]

theorem Version.lt_groups_of_mem_zip (version : Version) {α : Type} {container : Container}
    {group : Nat} {entry : α} {entries : List α}
    (h : (.patternGroup group, entry) ∈ (version.layout container).zip entries) :
    group < version.family.groups :=
  (version.patternGroup_mem_layout_iff container group).mp (List.of_mem_zip h).1

namespace Song

/-- The song says what a block of this kind says. -/
def Tells (song : Song) (kind : BlockKind) (block : Array UInt8) : Prop :=
  match kind with
  | .songData =>
    ∃ data, (SongData.read song.version).onBytes block = .ok data ∧ song.withData data = song
  | .instruments => (Instrument.readAll song.version []).onBytes block = .ok song.instruments
  | .instrumentMacros => InstrumentMacro.readAll.onBytes block = .ok song.instrumentMacros
  | .macroTables => MacroTable.readAll.onBytes block = .ok song.macroTables
  | .disabledColumns => DisabledColumns.readAll.onBytes block = .ok song.disabledColumns
  | .order => song.order.toArray = block
  | .patternGroup group => ∀ pattern channel row,
    pattern / song.grid.family.patternsPerGroup = group → channel < song.grid.family.channels →
      row < song.grid.family.rows →
        song.grid.event? pattern channel row = some (song.grid.family.eventAt block
          (song.grid.family.eventOffset (pattern % song.grid.family.patternsPerGroup) channel row))

/-- The two songs have the same header. -/
structure SameHeader (next song : Song) : Prop where
  container : next.container = song.container
  version : next.version = song.version
  checksum : next.checksum = song.checksum
  patternCount : next.patternCount = song.patternCount
  family : next.grid.family = song.grid.family

theorem SameHeader.trans {last next song : Song} (h : last.SameHeader next)
    (h' : next.SameHeader song) : last.SameHeader song :=
  ⟨h.container.trans h'.container, h.version.trans h'.version, h.checksum.trans h'.checksum,
    h.patternCount.trans h'.patternCount, h.family.trans h'.family⟩

theorem exists_map_eq_ok {α : Type} {song : Song} {kind : BlockKind} {block : Array UInt8}
    {result : Except DecodeError α} {fill : α → Song} (hresult : ∃ value, result = .ok value)
    (htells : ∀ value, result = .ok value → (fill value).Tells kind block)
    (hheader : ∀ value, (fill value).SameHeader song)
    (hparts : ∀ value (part : SongPart), ¬ kind.Fills part →
      part.value (fill value) = part.value song) :
    ∃ next, result.map fill = .ok next ∧ next.Tells kind block ∧ next.SameHeader song
      ∧ ∀ part : SongPart, ¬ kind.Fills part → part.value next = part.value song := by
  obtain ⟨value, hvalue⟩ := hresult
  exact ⟨fill value, map_eq_ok_iff.mpr ⟨value, hvalue, rfl⟩, htells value hvalue, hheader value,
    hparts value⟩

theorem exists_withBlock_patternGroup_eq {song : Song} {group : Nat} {block : Array UInt8}
    (hblock : block.size = song.grid.family.groupSize) (hgroup : group < song.grid.family.groups) :
    ∃ next, song.withBlock (.patternGroup group) block = .ok next
      ∧ next.Tells (.patternGroup group) block ∧ next.SameHeader song
      ∧ ∀ part : SongPart, ¬ BlockKind.Fills (.patternGroup group) part →
        part.value next = part.value song := by
  obtain ⟨filled, hdecode, hfamily, hown, hothers⟩ :=
    Grid.exists_decodeGroup_eq (Nat.le_of_eq hblock.symm) hgroup
  refine ⟨{ song with grid := filled }, ?_, ?_, ⟨rfl, rfl, rfl, rfl, hfamily⟩, ?_⟩
  · rw [withBlock, hdecode]
  · rw [Tells]
    simp only [hfamily]
    exact hown
  · intro part hpart
    cases part with
    | events other =>
        funext pattern channel row
        simp only [SongPart.value, hfamily]
        by_cases hother : pattern / song.grid.family.patternsPerGroup = other
        · rw [if_pos hother, if_pos hother]
          refine hothers pattern channel row fun hsame => hpart (Or.inl ?_)
          rw [← hsame, hother]
          rfl
        · rw [if_neg hother, if_neg hother]
    | _ => rfl

/-- A block of the declared size is decoded. It tells its own parts and no other. -/
theorem exists_withBlock_eq {song : Song} {kind : BlockKind} {block : Array UInt8}
    (hfamily : song.grid.family = song.version.family)
    (hblock : block.size = song.version.blockSize kind)
    (hgroup : ∀ group, kind = .patternGroup group → group < song.version.family.groups) :
    ∃ next, song.withBlock kind block = .ok next ∧ next.Tells kind block ∧ next.SameHeader song
      ∧ ∀ part : SongPart, ¬ kind.Fills part → part.value next = part.value song := by
  have hroom := Nat.le_of_eq hblock.symm
  cases kind with
  | songData =>
      apply exists_map_eq_ok (SongData.exists_onBytes_eq_ok hblock)
      · exact fun data hdata => ⟨data, hdata, rfl⟩
      · exact fun _ => ⟨rfl, rfl, rfl, rfl, rfl⟩
      · intro data part hpart
        cases part with
        | events group => rfl
        | _ => exact absurd (Or.inr ⟨rfl, by simp⟩) hpart
  | instruments =>
      apply exists_map_eq_ok ((fetches_instruments song.version []).exists_onBytes_eq_ok hroom)
      · exact fun _ hlist => hlist
      · exact fun _ => ⟨rfl, rfl, rfl, rfl, rfl⟩
      · intro list part hpart
        cases part with
        | instruments => exact absurd (Or.inl rfl) hpart
        | _ => rfl
  | instrumentMacros =>
      apply exists_map_eq_ok (fetches_instrumentMacros.exists_onBytes_eq_ok hroom)
      · exact fun _ hlist => hlist
      · exact fun _ => ⟨rfl, rfl, rfl, rfl, rfl⟩
      · intro list part hpart
        cases part with
        | instrumentMacros => exact absurd (Or.inl rfl) hpart
        | _ => rfl
  | macroTables =>
      apply exists_map_eq_ok (fetches_macroTables.exists_onBytes_eq_ok hroom)
      · exact fun _ hlist => hlist
      · exact fun _ => ⟨rfl, rfl, rfl, rfl, rfl⟩
      · intro list part hpart
        cases part with
        | macroTables => exact absurd (Or.inl rfl) hpart
        | _ => rfl
  | disabledColumns =>
      apply exists_map_eq_ok (fetches_allDisabledColumns.exists_onBytes_eq_ok hroom)
      · exact fun _ hlist => hlist
      · exact fun _ => ⟨rfl, rfl, rfl, rfl, rfl⟩
      · intro list part hpart
        cases part with
        | disabledColumns => exact absurd (Or.inl rfl) hpart
        | _ => rfl
  | order =>
      have horder := Read.onBytes_vector hblock
      apply exists_map_eq_ok ⟨_, horder⟩
      · intro order h
        rw [← Except.ok.inj (horder.symm.trans h)]
        rfl
      · exact fun _ => ⟨rfl, rfl, rfl, rfl, rfl⟩
      · intro order part hpart
        cases part with
        | order => exact absurd (Or.inl rfl) hpart
        | _ => rfl
  | patternGroup group =>
      have hin := hgroup group rfl
      rw [← hfamily] at hin
      apply exists_withBlock_patternGroup_eq _ hin
      rw [hfamily]
      exact hblock

/-- What the song says of a block stands as long as the parts that the block tells stay. -/
theorem Tells.congr {song next : Song} {kind : BlockKind} {block : Array UInt8}
    (hsame : next.SameHeader song)
    (hparts : ∀ part : SongPart, kind.Fills part → part.value next = part.value song)
    (h : song.Tells kind block) : next.Tells kind block := by
  have hown : ∀ part : SongPart, kind = part.ownKind → part.value next = part.value song :=
    fun part hpart => hparts part (Or.inl hpart)
  cases kind with
  | songData =>
      obtain ⟨data, hdata, hsong⟩ := h
      have hall : ∀ part : SongPart, (∀ group, part ≠ .events group) →
          part.value next = part.value (song.withData data) := by
        intro part hpart
        rw [hsong]
        exact hparts part (Or.inr ⟨rfl, hpart⟩)
      have hinfo : ((next.title, next.author, next.patternNames), next.tempo, next.speed, next.settings)
          = ((data.title, data.author, data.patternNames), data.tempo, data.speed, data.settings) :=
        hall .info fun _ h => nomatch h
      have hinstruments : next.instruments = data.instruments := hall .instruments fun _ h => nomatch h
      have hmacros : next.instrumentMacros = data.instrumentMacros :=
        hall .instrumentMacros fun _ h => nomatch h
      have htables : next.macroTables = data.macroTables := hall .macroTables fun _ h => nomatch h
      have hcolumns : next.disabledColumns = data.disabledColumns :=
        hall .disabledColumns fun _ h => nomatch h
      have horder : next.order = data.order := hall .order fun _ h => nomatch h
      simp only [Prod.mk.injEq] at hinfo
      obtain ⟨⟨htitle, hauthor, hnames⟩, htempo, hspeed, hsettings⟩ := hinfo
      refine ⟨data, by rwa [hsame.version], ?_⟩
      rw [withData, ← hinstruments, ← hmacros, ← htables, ← hcolumns, ← horder, ← htitle, ← hauthor,
        ← hnames, ← htempo, ← hspeed, ← hsettings]
  | instruments =>
      show (Instrument.readAll next.version []).onBytes block = .ok (SongPart.value .instruments next)
      rw [hsame.version, hown .instruments rfl]
      exact h
  | instrumentMacros =>
      show _ = Except.ok (SongPart.value .instrumentMacros next)
      rw [hown .instrumentMacros rfl]
      exact h
  | macroTables =>
      show _ = Except.ok (SongPart.value .macroTables next)
      rw [hown .macroTables rfl]
      exact h
  | disabledColumns =>
      show _ = Except.ok (SongPart.value .disabledColumns next)
      rw [hown .disabledColumns rfl]
      exact h
  | order =>
      show Vector.toArray (SongPart.value .order next) = block
      rw [hown .order rfl]
      exact h
  | patternGroup group =>
      have hevents := hown (.events group) rfl
      intro pattern channel row hpattern hchannel hrow
      have hevent := congrFun (congrFun (congrFun hevents pattern) channel) row
      simp only [SongPart.value] at hevent
      rw [hsame.family] at hpattern hchannel hrow hevent ⊢
      rw [if_pos hpattern, if_pos hpattern] at hevent
      rw [hevent]
      exact h pattern channel row hpattern hchannel hrow

end Song
end AdLibModule
