import FastJsonSchema.Formats.DateTime
import FastJsonSchema.Formats.Internationalised
import FastJsonSchema.Formats.JsonPointer
import FastJsonSchema.Formats.UriTemplate
import FastJsonSchema.Schema.Runtime

/-!
# The recognisers of the formats

Every recogniser gives an answer on every byte string: none of them reads outside of its window,
hands on a window that is not within its own, reports more bytes than it was given, or goes on for
more rounds than it may (`Recogniser.parse_ends`). `Runtime.builtIn` is the runtime whose formats
they are.
-/

namespace FastJsonSchema.Formats

open Scan

/-- The recognisers of the formats, with the flags that they are called with. -/
inductive Recogniser
  | fullDate
  | fullTime
  | dateTime
  | ipv4
  | ipv6
  | hostname (allowUtf8 : Bool)
  | addrSpec (allowUtf8 : Bool)
  | uriReference (requireScheme allowUtf8 : Bool)
  | uriTemplate
  | jsonPointer
  | relativeJsonPointer

/-- The parser of a recogniser. -/
def Recogniser.parse : Recogniser → Bytes → Result Bool
  | fullDate => parseFullDate
  | fullTime => parseFullTime
  | dateTime => parseDateTime
  | ipv4 => parseIpv4
  | ipv6 => parseIpv6
  | hostname allowUtf8 => parseHostname allowUtf8
  | addrSpec allowUtf8 => parseAddrSpec allowUtf8
  | uriReference requireScheme allowUtf8 => parseUriReference requireScheme allowUtf8
  | uriTemplate => parseUriTemplate
  | jsonPointer => parseJsonPointer
  | relativeJsonPointer => parseRelativeJsonPointer

/-- The recogniser that the validator of a format calls. -/
def Recogniser.ofFormat : Format → Option Recogniser
  | .date => some .fullDate
  | .time => some .fullTime
  | .dateTime => some .dateTime
  | .email => some (.addrSpec false)
  | .idnEmail => some (.addrSpec true)
  | .hostname => some (.hostname false)
  | .idnHostname => some (.hostname true)
  | .ipv4 => some .ipv4
  | .ipv6 => some .ipv6
  | .uri => some (.uriReference true false)
  | .uriReference => some (.uriReference false false)
  | .iri => some (.uriReference true true)
  | .iriReference => some (.uriReference false true)
  | .uriTemplate => some .uriTemplate
  | .regex => none
  | .jsonPointer => some .jsonPointer
  | .relativeJsonPointer => some .relativeJsonPointer

/-- **Recognisers are safe.** Every recogniser ends on every byte string without a fault. -/
theorem Recogniser.parse_ends (r : Recogniser) (s : Bytes) : ∃ b, r.parse s = .ok b := by
  suffices h : Ends (r.parse s) fun _ => True by
    obtain ⟨b, hb, -⟩ := h
    exact ⟨b, hb⟩
  have decided : ∀ {f L}, Decides f L → Ends (f s) fun _ => True :=
    fun h => (h s).mono fun _ _ => trivial
  cases r with
  | fullDate => exact parseFullDate_ends s
  | fullTime => exact parseFullTime_ends s
  | dateTime => exact parseDateTime_ends s
  | ipv4 => exact decided parseIpv4_decides
  | ipv6 => exact (parseIpv6_ends s).mono fun _ _ => trivial
  | hostname allowUtf8 => exact decided (parseHostname_decides allowUtf8)
  | addrSpec allowUtf8 => exact decided (parseAddrSpec_decides allowUtf8)
  | uriReference requireScheme allowUtf8 =>
    exact decided (parseUriReference_decides requireScheme allowUtf8)
  | uriTemplate => exact parseUriTemplate_ends s
  | jsonPointer => exact parseJsonPointer_ends s
  | relativeJsonPointer => exact parseRelativeJsonPointer_ends s

end FastJsonSchema.Formats

namespace FastJsonSchema

open Ruby Formats

/-- A runtime with the recognisers of the extension for its formats. -/
def Runtime.builtIn (rt : Runtime) : Runtime :=
  { rt with parses := fun f s => (Recogniser.ofFormat f).any fun r => r.parse s == .ok true }

/-- A string has a format exactly when the recogniser of the format accepts it. -/
theorem Runtime.accepts_builtIn {rt : Runtime} {f : Format} {r : Recogniser} {s : RString}
    (hf : Recogniser.ofFormat f = some r) :
    rt.builtIn.accepts f s = true ↔ r.parse s = .ok true := by
  have hparses : rt.builtIn.parses f s = true ↔ r.parse s = .ok true := by
    simp [Runtime.builtIn, hf]
  cases f with
  | regex => cases hf
  | _ => exact hparses

end FastJsonSchema
