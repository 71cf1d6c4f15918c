import WireSchema.Json.Decoder

/-!
# Settings of a compile

Settings decide what is accepted, never what is compiled: how deeply definitions
in place may be nested, and whether the key type of a map has to be a text on the
wire.
-/

namespace WireSchema

/-- What a compile is strict about. -/
structure Settings where
  /-- How deeply definitions in place may be nested. -/
  maxInlineDepth : Nat
  /-- Whether map keys have to be texts on the wire. -/
  strictMapKeys : Bool
  deriving DecidableEq

namespace Settings

/-- The settings of a compile that is not told otherwise. -/
def standard : Settings := ⟨32, true⟩

/-- The written form of settings. -/
def toJson (s : Settings) : Json :=
  .object [("max_inline_depth", .int s.maxInlineDepth), ("strict_map_keys", .bool s.strictMapKeys)]

/-- Settings as documents give them; what is not given is standard. -/
def decoder : Json.Decoder Settings :=
  Json.Decoder.record2 "CompilerSettings"
    (Json.Decoder.defaulted "max_inline_depth" .size standard.maxInlineDepth)
    (Json.Decoder.defaulted "strict_map_keys" .bool standard.strictMapKeys)
    Settings.mk

end Settings
end WireSchema
