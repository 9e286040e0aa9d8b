import AdLibModule.BitStream

/-! What a piece of a stream says to a reader, in whatever terms the contents of a stream are told; and
what a reader that has succeeded must have read. -/

namespace AdLibModule

/-- The stream with more bytes at its end. -/
def BitStream.extend (stream : BitStream) (more : List UInt8) : BitStream :=
  { stream with rest := stream.rest ++ more }

/-- Whatever follows it in a stream, the reading takes what is said and yields the value. -/
def BitRead.Yields {α σ : Type} (holds : BitStream → List σ → Prop) (reading : BitRead α)
    (said : List σ) (value : α) : Prop :=
  ∀ (stream : BitStream) (rest : List σ), holds stream (said ++ rest) →
    ∃ left, reading stream = .ok (value, left) ∧ holds left rest

namespace BitRead

variable {α β σ : Type} {holds : BitStream → List σ → Prop}

theorem yields_pure (value : α) : Yields holds (pure value) [] value := by
  intro stream rest h
  exact ⟨stream, rfl, h⟩

theorem Yields.bind {reading : BitRead α} {next : α → BitRead β} {first second : List σ} {value : α}
    {result : β} (hreading : Yields holds reading first value)
    (hnext : Yields holds (next value) second result) :
    Yields holds (reading >>= next) (first ++ second) result := by
  intro stream rest h
  rw [List.append_assoc] at h
  obtain ⟨between, hread, hbetween⟩ := hreading stream _ h
  obtain ⟨left, hresult, hleft⟩ := hnext between rest hbetween
  refine ⟨left, ?_, hleft⟩
  show (reading stream).bind (fun p => next p.1 p.2) = _
  rw [hread]
  exact hresult

/-- The last reading takes all that is said. -/
theorem Yields.last {reading : BitRead α} {next : α → BitRead β} {said : List σ} {value : α}
    {result : β} (hreading : Yields holds reading said value) (hnext : next value = pure result) :
    Yields holds (reading >>= next) said result := by
  have hpure : Yields holds (next value) [] result := by
    rw [hnext]
    exact yields_pure result
  have hbind := hreading.bind hpure
  rwa [List.append_nil] at hbind

/-- Whatever follows it in a stream, the reading stops at what is said for the fault. -/
def Refuses (holds : BitStream → List σ → Prop) (reading : BitRead α) (said : List σ)
    (fault : StreamFault) : Prop :=
  ∀ (stream : BitStream) (rest : List σ), holds stream (said ++ rest) →
    reading stream = .error fault

theorem refuses_throw {said : List σ} (fault : StreamFault) :
    Refuses holds (throw fault : BitRead α) said fault := fun _ _ _ => rfl

theorem Refuses.bind {reading : BitRead α} {said : List σ} {fault : StreamFault}
    (h : Refuses holds reading said fault) (next : α → BitRead β) (more : List σ) :
    Refuses holds (reading >>= next) (said ++ more) fault := by
  intro stream rest hstream
  rw [List.append_assoc] at hstream
  show (reading stream).bind (fun taken => next taken.1 taken.2) = _
  rw [h stream _ hstream]
  rfl

theorem Yields.bind_refuses {reading : BitRead α} {next : α → BitRead β} {first second : List σ}
    {value : α} {fault : StreamFault} (hreading : Yields holds reading first value)
    (hnext : Refuses holds (next value) second fault) :
    Refuses holds (reading >>= next) (first ++ second) fault := by
  intro stream rest hstream
  rw [List.append_assoc] at hstream
  obtain ⟨between, hread, hbetween⟩ := hreading stream _ hstream
  show (reading stream).bind (fun taken => next taken.1 taken.2) = _
  rw [hread]
  exact hnext between rest hbetween

theorem pure_eq_ok_iff {value result : α} {stream left : BitStream} :
    (pure value : BitRead α) stream = .ok (result, left) ↔ value = result ∧ stream = left := by
  show Except.ok (value, stream) = Except.ok (result, left) ↔ _
  rw [Except.ok.injEq, Prod.mk.injEq]

theorem bind_eq_ok_iff {reading : BitRead α} {next : α → BitRead β} {stream left : BitStream}
    {result : β} :
    (reading >>= next) stream = .ok (result, left) ↔ ∃ value between,
      reading stream = .ok (value, between) ∧ next value between = .ok (result, left) := by
  show (reading stream).bind (fun taken => next taken.1 taken.2) = _ ↔ _
  rw [AdLibModule.bind_eq_ok_iff, Prod.exists]

end BitRead
end AdLibModule
