import Oscillator.Record.Fields
import Oscillator.Settings

/-! # Settings as records

Every part of the settings may be left out. A forcing that is given in part is zero in the rest.
-/
namespace Oscillator

namespace SamplingSettings

def fields : List String := ["horizon", "step", "max_points"]

def addMember (s : SamplingSettings Float) (name : String) (r : Record) :
    Except RecordError (SamplingSettings Float) := do
  match name with
  | "horizon" => return { s with horizon := ← r.readNumber }
  | "step" => return { s with step := ← r.readNumber }
  | "max_points" => return { s with maxPoints := ← r.readCount }
  | _ => return s

def ofRecord : Record → Except RecordError (SamplingSettings Float) :=
  Record.build fields addMember standard

end SamplingSettings

namespace PlaybackSettings

def fields : List String := ["horizon", "step", "speed", "looping", "max_points"]

def addMember (s : PlaybackSettings Float) (name : String) (r : Record) :
    Except RecordError (PlaybackSettings Float) := do
  match name with
  | "horizon" => return { s with horizon := ← r.readNumber }
  | "step" => return { s with step := ← r.readNumber }
  | "speed" => return { s with speed := ← r.readNumber }
  | "looping" => return { s with looping := ← r.readBool }
  | "max_points" => return { s with maxPoints := ← r.readCount }
  | _ => return s

def ofRecord : Record → Except RecordError (PlaybackSettings Float) :=
  Record.build fields addMember standard

end PlaybackSettings

namespace TextDefaults

def fields : List String :=
  ["placeholder", "underdamped_decay", "forced_decay", "angular_frequency", "forcing_frequency",
    "critical_rate", "overdamped_rates"]

def addMember (d : TextDefaults Float) (name : String) (r : Record) :
    Except RecordError (TextDefaults Float) := do
  match name with
  | "placeholder" => return { d with placeholder := ← r.readNumber }
  | "underdamped_decay" => return { d with underdampedDecay := ← r.readNumber }
  | "forced_decay" => return { d with forcedDecay := ← r.readNumber }
  | "angular_frequency" => return { d with angularFrequency := ← r.readNumber }
  | "forcing_frequency" => return { d with forcingFrequency := ← r.readNumber }
  | "critical_rate" => return { d with criticalRate := ← r.readNumber }
  | "overdamped_rates" =>
    match ← r.readNumbers with
    | [first, second] =>
      return { d with firstOverdampedRate := first, secondOverdampedRate := second }
    | _ => .error .malformed
  | _ => return d

def ofRecord : Record → Except RecordError (TextDefaults Float) :=
  Record.build fields addMember standard

end TextDefaults

namespace Harmonic

def fields : List String := ["offset", "cos_amplitude", "sin_amplitude", "frequency"]

def addMember (h : Harmonic Float) (name : String) (r : Record) :
    Except RecordError (Harmonic Float) := do
  match name with
  | "offset" => return { h with offset := ← r.readNumber }
  | "cos_amplitude" => return { h with cosine := ← r.readNumber }
  | "sin_amplitude" => return { h with sine := ← r.readNumber }
  | "frequency" => return { h with frequency := ← r.readNumber }
  | _ => return h

def ofRecord : Record → Except RecordError (Harmonic Float) := Record.build fields addMember zero

end Harmonic

namespace Settings

def fields : List String :=
  ["sampling", "animation", "derivative_step", "text_defaults", "default_forcing"]

def addMember (s : Settings Float) (name : String) (r : Record) :
    Except RecordError (Settings Float) := do
  match name with
  | "sampling" => return { s with sampling := ← SamplingSettings.ofRecord r }
  | "animation" => return { s with playback := ← PlaybackSettings.ofRecord r }
  | "derivative_step" => return { s with derivativeStep := ← r.readNumber }
  | "text_defaults" => return { s with textDefaults := ← TextDefaults.ofRecord r }
  | "default_forcing" => return { s with defaultForcing := ← Harmonic.ofRecord r }
  | _ => return s

def ofRecord : Record → Except RecordError (Settings Float) :=
  Record.build fields addMember standard

end Settings

end Oscillator
