import AdLibModule.Proofs.Aplib.Accepted
import AdLibModule.Proofs.Header
import AdLibModule.Proofs.Sixpack.Counting

/-! Packed streams tell where they end. A reading that succeeds has been decided by the bytes that it
has taken: whatever stands behind them, they give the same result, and when only a part of them is there
the reading runs out of input where that part ends. So a stream can be cut behind the bytes that were
taken, and nowhere before. -/

namespace AdLibModule

variable {α β ε ε' : Type} {unit : Nat} {fault : Nat → ε} {fault' : Nat → ε'}

/-- From `stream` the reading takes the bytes `taken` and yields `value` with `left` remaining, and
these bytes alone decide. Bytes are taken `unit` at a time, and `fault` is the failure for want of the
next ones. -/
structure Consumes (unit : Nat) (fault : Nat → ε) (reading : BitStream → Except ε (α × BitStream))
    (stream : BitStream) (taken : List UInt8) (value : α) (left : BitStream) : Prop where
  rest_eq : stream.rest = taken ++ left.rest
  position_eq : left.position = stream.position + taken.length
  dvd_length : unit ∣ taken.length
  read_append (rest : List UInt8) :
    reading { stream with rest := taken ++ rest } = .ok (value, { left with rest := rest })
  read_part (part : List UInt8) (hpart : part <+: taken) (hproper : part ≠ taken) :
    reading { stream with rest := part }
      = .error (fault (stream.position + unit * (part.length / unit)))

/-- Each run that succeeds is decided by the bytes that it takes. -/
def BitRead.SelfDelimiting (unit : Nat) (fault : Nat → StreamFault) (reading : BitRead α) : Prop :=
  ∀ (stream left : BitStream) (value : α), reading stream = .ok (value, left) →
    ∃ taken, Consumes unit fault reading stream taken value left

namespace Consumes

variable {reading : BitStream → Except ε (α × BitStream)} {stream between left : BitStream}
  {first second taken : List UInt8} {value : α}

/-- Nothing is taken, so that there is no proper part of what is taken. -/
theorem nothing (hrest : stream.rest = left.rest) (hposition : left.position = stream.position)
    (hread : ∀ rest, reading { stream with rest := rest } = .ok (value, { left with rest := rest })) :
    Consumes unit fault reading stream [] value left where
  rest_eq := hrest
  position_eq := hposition
  dvd_length := Nat.dvd_zero unit
  read_append := hread
  read_part _ hpart hproper := absurd (List.prefix_nil.mp hpart) hproper

theorem done (value : α) (stream : BitStream) :
    Consumes unit fault (fun start => .ok (value, start)) stream [] value stream :=
  .nothing rfl rfl fun _ => rfl

/-- A reading that goes on with `next` takes the bytes of both. A part of these bytes ends either before
the second reading begins, or within what the second reading takes. -/
theorem andThen {next whole : BitStream → Except ε' (β × BitStream)} {result : β}
    (hfirst : Consumes unit fault reading stream first value between)
    (hsecond : Consumes unit fault' next between second result left)
    (hok : ∀ start middle, reading start = .ok (value, middle) → whole start = next middle)
    (herror : ∀ start offset, reading start = .error (fault offset) →
      whole start = .error (fault' offset)) :
    Consumes unit fault' whole stream (first ++ second) result left where
  rest_eq := by rw [hfirst.rest_eq, hsecond.rest_eq, List.append_assoc]
  position_eq := by
    rw [hsecond.position_eq, hfirst.position_eq, List.length_append, Nat.add_assoc]
  dvd_length := by
    rw [List.length_append]
    exact Nat.dvd_add hfirst.dvd_length hsecond.dvd_length
  read_append rest := by
    rw [List.append_assoc, hok _ _ (hfirst.read_append (second ++ rest))]
    exact hsecond.read_append rest
  read_part part hpart hproper := by
    by_cases hlong : first <+: part
    · obtain ⟨more, rfl⟩ := hlong
      have hmore : more <+: second := (List.prefix_append_right_inj first).mp hpart
      have hshort : more ≠ second := fun hsame => hproper (by rw [hsame])
      have hoffset : between.position + unit * (more.length / unit)
          = stream.position + unit * ((first ++ more).length / unit) := by
        rw [hfirst.position_eq, List.length_append, Nat.add_div_of_dvd_right hfirst.dvd_length,
          Nat.mul_add, Nat.mul_div_cancel' hfirst.dvd_length, Nat.add_assoc]
      rw [hok _ _ (hfirst.read_append more), ← hoffset]
      exact hsecond.read_part more hmore hshort
    · have hwithin : part <+: first :=
        (List.prefix_or_prefix_of_prefix hpart (List.prefix_append first second)).resolve_right hlong
      have hshort : part ≠ first := by
        rintro rfl
        exact hlong (List.prefix_refl part)
      exact herror _ _ (hfirst.read_part part hwithin hshort)

/-- The bytes that are taken from a source are the first ones, as many as the position counts. -/
theorem taken_eq_take {source : Array UInt8}
    (h : Consumes unit fault reading (.start source) taken value left) :
    taken = source.toList.take left.position ∧ left.position = taken.length := by
  have hrest : source.toList = taken ++ left.rest := h.rest_eq
  have hposition : left.position = taken.length := by
    rw [h.position_eq]
    exact Nat.zero_add _
  rw [hposition, hrest, List.take_left]
  exact ⟨rfl, rfl⟩

/-- What a run over a source says about the sources that agree with it on the bytes that were taken, and
about those that hold only a part of them. -/
theorem of_start {source : Array UInt8}
    (h : Consumes unit fault reading (.start source) taken value left) :
    left.position ≤ source.size ∧ left.rest = source.toList.drop left.position
    ∧ (∀ rest, reading (.start (source.extract 0 left.position ++ rest))
        = .ok (value, { left with rest := rest.toList }))
    ∧ ∀ size, size < left.position →
        reading (.start (source.extract 0 size)) = .error (fault (unit * (size / unit))) := by
  obtain ⟨htaken, hposition⟩ := h.taken_eq_take
  have hrest : source.toList = taken ++ left.rest := h.rest_eq
  have hsize : left.position ≤ source.size := by
    rw [hposition, ← Array.length_toList, hrest, List.length_append]
    omega
  refine ⟨hsize, ?_, fun rest => ?_, fun size hless => ?_⟩
  · rw [hposition, hrest, List.drop_left]
  · rw [BitStream.start, Array.toList_append, toList_extract_zero, ← htaken]
    exact h.read_append rest.toList
  · have hlength : (source.extract 0 size).toList.length = size := by
      rw [toList_extract_zero, List.length_take_of_le]
      rw [Array.length_toList]
      omega
    have hpart : (source.extract 0 size).toList <+: taken := by
      rw [toList_extract_zero, htaken]
      exact List.take_prefix_take_left (Nat.le_of_lt hless)
    have hproper : (source.extract 0 size).toList ≠ taken := by
      intro hsame
      rw [hsame] at hlength
      omega
    have hread := h.read_part _ hpart hproper
    rw [hlength] at hread
    rw [BitStream.start]
    refine hread.trans ?_
    rw [show (BitStream.start source).position = 0 from rfl, Nat.zero_add]

end Consumes

/-! ### Readings made of readings -/

namespace BitRead.SelfDelimiting

variable {fault : Nat → StreamFault}

theorem pure (value : α) : SelfDelimiting unit fault (pure value : BitRead α) := by
  intro stream left result h
  obtain ⟨rfl, rfl⟩ := BitRead.pure_eq_ok_iff.mp h
  exact ⟨[], .nothing rfl rfl fun _ => rfl⟩

theorem throw (reason : StreamFault) : SelfDelimiting unit fault (throw reason : BitRead α) := by
  intro stream left value h
  exact nomatch h

theorem bind {reading : BitRead α} {next : α → BitRead β} (hreading : SelfDelimiting unit fault reading)
    (hnext : ∀ value, SelfDelimiting unit fault (next value)) :
    SelfDelimiting unit fault (reading >>= next) := by
  intro stream left result h
  obtain ⟨value, between, hread, hresult⟩ := BitRead.bind_eq_ok_iff.mp h
  obtain ⟨first, hfirst⟩ := hreading stream between value hread
  obtain ⟨second, hsecond⟩ := hnext value between left result hresult
  refine ⟨first ++ second, hfirst.andThen hsecond ?_ ?_⟩
  · intro start middle hstart
    show (reading start).bind (fun read => next read.1 read.2) = _
    rw [hstart]
    rfl
  · intro start offset hstart
    show (reading start).bind (fun read => next read.1 read.2) = _
    rw [hstart]
    rfl

end BitRead.SelfDelimiting

/-! ### Sixpack -/

namespace Sixpack

/-- The reading takes words of two bytes. -/
abbrev ByWords (reading : BitRead α) : Prop := reading.SelfDelimiting 2 (.exhausted .sixpack)

variable {κ : Type} [Counter κ]

/-- A proper part of a word is nothing, or its lower byte alone. -/
theorem byWords_readBit : ByWords readBit := by
  intro ⟨bytes, position, pending⟩ left bit h
  cases pending with
  | cons first pending =>
      cases h
      exact ⟨[], .nothing rfl rfl fun _ => rfl⟩
  | nil =>
      match bytes, h with
      | low :: high :: bytes, h =>
          cases h
          refine ⟨[low, high], rfl, rfl, Nat.dvd_refl 2, fun _ => rfl, ?_⟩
          intro part hpart hproper
          obtain rfl | ⟨rest, rfl, hrest⟩ := List.prefix_cons_iff.mp hpart
          · rfl
          · obtain rfl | ⟨more, rfl, hmore⟩ := List.prefix_cons_iff.mp hrest
            · have hunits : [low].length / 2 = 0 := Nat.div_eq_of_lt Nat.one_lt_two
              rw [hunits]
              rfl
            · exact absurd (by rw [List.prefix_nil.mp hmore]) hproper

theorem byWords_readNumber (width : Nat) : ByWords (readNumber width) := by
  induction width with
  | zero => exact .pure 0
  | succ width ih => exact byWords_readBit.bind fun _ => ih.bind fun _ => .pure _

omit [Counter κ] in
theorem Tree.byWords_descend (node : Tree κ) (path : List (Frame κ)) : ByWords (node.descend path) := by
  induction node generalizing path with
  | leaf symbol count => exact .pure _
  | fork count first second ihfirst ihsecond =>
      refine byWords_readBit.bind fun bit => ?_
      cases bit with
      | false => exact ihfirst _
      | true => exact ihsecond _

theorem byWords_readToken (tree : Tree κ) : ByWords (readToken tree) := by
  refine (tree.byWords_descend []).bind fun location => ?_
  cases location.symbol.meaning with
  | literal value => exact .pure _
  | stop => exact .pure _
  | copy range lengthIndex => exact (byWords_readNumber range.width).bind fun _ => .pure _

theorem exists_consumes_of_decodeFrom {limit : Nat} {tree : Tree κ} {out result : Array UInt8}
    {stream left : BitStream} (h : decodeFrom limit tree out stream = .ok (result, left)) :
    ∃ taken, Consumes 2 (fun offset => .corruptStream (.exhausted .sixpack offset))
      (decodeFrom limit tree out) stream taken result left := by
  fun_induction decodeFrom limit tree out stream with
  | case1 tree out stream fault hread => cases h
  | case2 tree out stream observed after hread =>
      cases h
      obtain ⟨taken, htaken⟩ := byWords_readToken tree _ _ _ hread
      refine ⟨_, htaken.andThen (.done result left) (fun start middle hstart => ?_)
        fun start offset hstart => ?_⟩
      · rw [decodeFrom, hstart]
      · rw [decodeFrom, hstart]
  | case3 tree out stream token observed after hread error happend => cases h
  | case4 tree out stream token observed after hread grown happend ih =>
      obtain ⟨first, hfirst⟩ := byWords_readToken tree _ _ _ hread
      obtain ⟨second, hsecond⟩ := ih h
      refine ⟨first ++ second, hfirst.andThen hsecond (fun start middle hstart => ?_)
        fun start offset hstart => ?_⟩
      · exact decodeFrom_eq_of_append hstart happend
      · rw [decodeFrom, hstart]

end Sixpack

/-! ### aPlib -/

namespace Aplib

/-- The reading takes single bytes. -/
abbrev ByBytes (reading : BitRead α) : Prop := reading.SelfDelimiting 1 (.exhausted .aplib)

/-- A reading that takes the one byte that it needs. -/
theorem consumes_one {reading : BitRead α} {bytes : List UInt8} {byte : UInt8} {position : Nat}
    {before after : List Bool} {value : α}
    (hread : ∀ rest,
      reading ⟨byte :: rest, position, before⟩ = .ok (value, ⟨rest, position + 1, after⟩))
    (hempty : reading ⟨[], position, before⟩ = .error (.exhausted .aplib position)) :
    Consumes 1 (.exhausted .aplib) reading ⟨byte :: bytes, position, before⟩ [byte] value
      ⟨bytes, position + 1, after⟩ where
  rest_eq := rfl
  position_eq := rfl
  dvd_length := Nat.dvd_refl 1
  read_append := hread
  read_part part hpart hproper := by
    obtain rfl | ⟨more, rfl, hmore⟩ := List.prefix_cons_iff.mp hpart
    · exact hempty
    · exact absurd (by rw [List.prefix_nil.mp hmore]) hproper

theorem byBytes_readByte : ByBytes readByte := by
  intro ⟨bytes, position, pending⟩ left value h
  cases bytes with
  | nil => exact nomatch h
  | cons byte bytes =>
      cases h
      exact ⟨[value], consumes_one (fun _ => rfl) rfl⟩

theorem byBytes_readBit : ByBytes readBit := by
  intro ⟨bytes, position, pending⟩ left bit h
  cases pending with
  | cons first pending =>
      cases h
      exact ⟨[], .nothing rfl rfl fun _ => rfl⟩
  | nil =>
      cases bytes with
      | nil => exact nomatch h
      | cons tag bytes =>
          cases h
          exact ⟨[tag], consumes_one (fun _ => rfl) rfl⟩

theorem byBytes_readDigits (limit leading : Nat) (hpos : 0 < leading) :
    ByBytes (readDigits limit leading hpos) := by
  induction leading, hpos using readDigits.induct limit with
  | case1 leading hpos ih =>
      rw [readDigits]
      refine byBytes_readBit.bind fun digit => ?_
      dsimp only
      split
      · exact .throw _
      · rename_i hlimit
        refine byBytes_readBit.bind fun more => ?_
        cases more with
        | false => exact .pure _
        | true => exact ih digit hlimit

theorem byBytes_readGamma (limit : Nat) : ByBytes (readGamma limit) :=
  byBytes_readDigits limit 1 _

theorem byBytes_readToken (limit : Nat) (afterMatch : Bool) : ByBytes (readToken limit afterMatch) := by
  have hgamma := byBytes_readGamma limit
  refine byBytes_readBit.bind fun isMatch => ?_
  cases isMatch with
  | false => exact byBytes_readByte.bind fun _ => .pure _
  | true =>
      refine byBytes_readBit.bind fun isShort => ?_
      cases isShort with
      | false =>
          refine hgamma.bind fun high => ?_
          split
          · exact hgamma.bind fun _ => .pure _
          · exact byBytes_readByte.bind fun _ => hgamma.bind fun _ => .pure _
      | true =>
          refine byBytes_readBit.bind fun isSingle => ?_
          cases isSingle with
          | false => exact byBytes_readByte.bind fun _ => .pure _
          | true =>
              exact byBytes_readBit.bind fun _ => byBytes_readBit.bind fun _ =>
                byBytes_readBit.bind fun _ => byBytes_readBit.bind fun _ => .pure _

theorem exists_consumes_of_decodeFrom {limit : Nat} {state : State} {result : Array UInt8}
    {stream left : BitStream} (h : decodeFrom limit state stream = .ok (result, left)) :
    ∃ taken, Consumes 1 (fun offset => .corruptStream (.exhausted .aplib offset))
      (decodeFrom limit state) stream taken result left := by
  fun_induction decodeFrom limit state stream with
  | case1 state stream fault hread => cases h
  | case2 state stream after hread =>
      cases h
      obtain ⟨taken, htaken⟩ := byBytes_readToken limit state.afterMatch _ _ _ hread
      refine ⟨_, htaken.andThen (.done state.out left) (fun start middle hstart => ?_)
        fun start offset hstart => ?_⟩
      · rw [decodeFrom, hstart]
      · rw [decodeFrom, hstart]
  | case3 state stream token after hread error happend => cases h
  | case4 state stream token after hread next happend ih =>
      obtain ⟨first, hfirst⟩ := byBytes_readToken limit state.afterMatch _ _ _ hread
      obtain ⟨second, hsecond⟩ := ih h
      refine ⟨first ++ second, hfirst.andThen hsecond (fun start middle hstart => ?_)
        fun start offset hstart => ?_⟩
      · exact decodeFrom_eq_of_append hstart happend
      · rw [decodeFrom, hstart]

/-- The reading of a whole stream: its first byte, and the tokens. -/
def decodeAll (limit : Nat) (stream : BitStream) : Except DecodeError (Array UInt8 × BitStream) :=
  match readByte stream with
  | .error fault => .error (.corruptStream fault)
  | .ok (first, stream) =>
    match put limit #[] first with
    | .error error => .error error
    | .ok out => decodeFrom limit ⟨out, 0, false⟩ stream

theorem decodeStream_eq (source : Array UInt8) (limit : Nat) :
    decodeStream source limit = decodeAll limit (.start source) := rfl

theorem exists_consumes_of_decodeAll {limit : Nat} {result : Array UInt8} {stream left : BitStream}
    (h : decodeAll limit stream = .ok (result, left)) :
    ∃ taken, Consumes 1 (fun offset => .corruptStream (.exhausted .aplib offset))
      (decodeAll limit) stream taken result left := by
  unfold decodeAll at h
  split at h
  · exact nomatch h
  · rename_i byte after hbyte
    split at h
    · exact nomatch h
    · rename_i out hput
      obtain ⟨first, hfirst⟩ := byBytes_readByte _ _ _ hbyte
      obtain ⟨second, hsecond⟩ := exists_consumes_of_decodeFrom h
      refine ⟨first ++ second, hfirst.andThen hsecond (fun start middle hstart => ?_)
        fun start offset hstart => ?_⟩
      · rw [decodeAll, hstart]
        dsimp only
        rw [hput]
      · rw [decodeAll, hstart]

end Aplib

/-! ### Whole streams -/

/-- In both packing schemes, an output that a source unpacks to has been decided by the bytes that were
taken from the source. Any bytes may stand behind these instead of those that do, and of any fewer of
them the decoder says that its input is exhausted, at the last whole word or at the last byte. -/
theorem decode_self_delimiting (source out : Array UInt8) (limit : Nat) :
    (Sixpack.decode source limit = .ok out → ∃ left : BitStream,
      Sixpack.decodeWith UInt16 source limit = .ok (out, left)
      ∧ left.position ≤ source.size ∧ left.rest = source.toList.drop left.position
      ∧ (∀ rest, Sixpack.decode (source.extract 0 left.position ++ rest) limit = .ok out)
      ∧ ∀ size, size < left.position → Sixpack.decode (source.extract 0 size) limit
          = .error (.corruptStream (.exhausted .sixpack (2 * (size / 2)))))
    ∧ (Aplib.decode source limit = .ok out → ∃ left : BitStream,
      Aplib.decodeStream source limit = .ok (out, left)
      ∧ left.position ≤ source.size ∧ left.rest = source.toList.drop left.position
      ∧ (∀ rest, Aplib.decode (source.extract 0 left.position ++ rest) limit = .ok out)
      ∧ ∀ size, size < left.position → Aplib.decode (source.extract 0 size) limit
          = .error (.corruptStream (.exhausted .aplib size))) := by
  constructor
  · intro h
    obtain ⟨⟨result, left⟩, hdecode, rfl⟩ := map_eq_ok_iff.mp h
    obtain ⟨taken, hconsumes⟩ := Sixpack.exists_consumes_of_decodeFrom hdecode
    obtain ⟨hsize, hrest, hwhole, hpart⟩ := hconsumes.of_start
    refine ⟨left, hdecode, hsize, hrest, fun rest => ?_, fun size hless => ?_⟩
    · exact map_eq_ok_iff.mpr ⟨_, hwhole rest, rfl⟩
    · exact map_eq_error_iff.mpr (hpart size hless)
  · intro h
    obtain ⟨⟨result, left⟩, hdecode, rfl⟩ := map_eq_ok_iff.mp h
    obtain ⟨taken, hconsumes⟩ :=
      Aplib.exists_consumes_of_decodeAll ((Aplib.decodeStream_eq source limit).symm.trans hdecode)
    obtain ⟨hsize, hrest, hwhole, hpart⟩ := hconsumes.of_start
    refine ⟨left, hdecode, hsize, hrest, fun rest => ?_, fun size hless => ?_⟩
    · have hresult := (Aplib.decodeStream_eq _ limit).trans (hwhole rest)
      exact map_eq_ok_iff.mpr ⟨_, hresult, rfl⟩
    · have herror := (Aplib.decodeStream_eq _ limit).trans (hpart size hless)
      rw [Nat.div_one, Nat.one_mul] at herror
      exact map_eq_error_iff.mpr herror

theorem decode_self_delimiting_of_repetition :
    Sixpack.decode #[35, 212, 112, 231, 125, 10, 255, 255] 6 = .ok #[97, 98, 99, 97, 98, 99]
    ∧ Sixpack.decode #[35, 212, 112] 6 = .error (.corruptStream (.exhausted .sixpack 2))
    ∧ Aplib.decode #[65, 81, 66, 2, 194, 13, 1] 9 = .ok #[65, 66, 65, 66, 65, 66, 0, 66, 0]
    ∧ Aplib.decode #[65, 81, 66, 2] 9 = .error (.corruptStream (.exhausted .aplib 4)) := by
  have hsixpack := Sixpack.decode_abcabc (Nat.le_refl 6)
  have haplib := Aplib.decode_repetition (Nat.le_refl 9)
  obtain ⟨afterWords, hwords, -, -, hanyWords, hfewerWords⟩ :=
    (decode_self_delimiting _ _ 6).1 hsixpack
  obtain ⟨afterBytes, hbytes, -, -, hanyBytes, hfewerBytes⟩ := (decode_self_delimiting _ _ 9).2 haplib
  have hwordsRun : (Sixpack.decodeWith UInt16 #[35, 212, 112, 231, 125, 10, 81] 6).map
      (fun run => run.2.position) = .ok 6 := by decide +kernel
  have hbytesRun : (Aplib.decodeStream #[65, 81, 66, 2, 194, 13, 1, 99] 9).map
      (fun run => run.2.position) = .ok 7 := by decide +kernel
  rw [hwords] at hwordsRun
  rw [hbytes] at hbytesRun
  have hsix : afterWords.position = 6 := Except.ok.inj hwordsRun
  have hseven : afterBytes.position = 7 := Except.ok.inj hbytesRun
  rw [hsix] at hanyWords hfewerWords
  rw [hseven] at hanyBytes hfewerBytes
  exact ⟨hanyWords #[255, 255], hfewerWords 3 (by decide), hanyBytes #[], hfewerBytes 4 (by decide)⟩

end AdLibModule
