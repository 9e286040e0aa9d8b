/-!
The commands of the canonical effect set that have a name. Each has a number; the numbers between
them stand for effects that are carried along without a name.
-/
namespace AdLibModule

inductive Command where
  | arpeggio
  | frequencySlideUp
  | frequencySlideDown
  | tonePortamento
  | vibrato
  | tonePortamentoVolumeSlide
  | vibratoVolumeSlide
  | setTempo
  | keyOff
  | volumeSlide
  | positionJump
  | patternBreak
  | extended
  | setInstrumentVolume
  | setSpeed
  | setModulatorVolume
  | setCarrierVolume
  | fineSlideUp
  | fineSlideDown
  | setWaveform
  | fineVolumeSlide
  | patternDelay
  deriving DecidableEq

namespace Command

def number : Command → UInt8
  | arpeggio => 0
  | frequencySlideUp => 1
  | frequencySlideDown => 2
  | tonePortamento => 3
  | vibrato => 4
  | tonePortamentoVolumeSlide => 5
  | vibratoVolumeSlide => 6
  | setTempo => 7
  | keyOff => 8
  | volumeSlide => 10
  | positionJump => 11
  | patternBreak => 13
  | extended => 14
  | setInstrumentVolume => 17
  | setSpeed => 19
  | setModulatorVolume => 21
  | setCarrierVolume => 22
  | fineSlideUp => 23
  | fineSlideDown => 24
  | setWaveform => 25
  | fineVolumeSlide => 26
  | patternDelay => 29

def name : Command → String
  | arpeggio => "Arpeggio"
  | frequencySlideUp => "FrequencySlideUp"
  | frequencySlideDown => "FrequencySlideDown"
  | tonePortamento => "TonePortamento"
  | vibrato => "Vibrato"
  | tonePortamentoVolumeSlide => "TonePortamentoVolumeSlide"
  | vibratoVolumeSlide => "VibratoVolumeSlide"
  | setTempo => "SetTempo"
  | keyOff => "KeyOff"
  | volumeSlide => "VolumeSlide"
  | positionJump => "PositionJump"
  | patternBreak => "PatternBreak"
  | extended => "Extended"
  | setInstrumentVolume => "SetInstrumentVolume"
  | setSpeed => "SetSpeed"
  | setModulatorVolume => "SetModulatorVolume"
  | setCarrierVolume => "SetCarrierVolume"
  | fineSlideUp => "FineSlideUp"
  | fineSlideDown => "FineSlideDown"
  | setWaveform => "SetWaveform"
  | fineVolumeSlide => "FineVolumeSlide"
  | patternDelay => "PatternDelay"

/-- All named commands, by number. -/
def all : List Command :=
  [arpeggio, frequencySlideUp, frequencySlideDown, tonePortamento, vibrato,
    tonePortamentoVolumeSlide, vibratoVolumeSlide, setTempo, keyOff, volumeSlide, positionJump,
    patternBreak, extended, setInstrumentVolume, setSpeed, setModulatorVolume, setCarrierVolume,
    fineSlideUp, fineSlideDown, setWaveform, fineVolumeSlide, patternDelay]

/-- The command with the given number, if it has a name. -/
def ofNumber? (number : UInt8) : Option Command := all.find? (·.number == number)

end Command
end AdLibModule
