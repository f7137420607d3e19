import LasFile.Json.Value
import LasFile.Number.Decimal
import LasFile.Settings.Basic

/-!
# Settings files

Settings are kept as an indented object with one field for each setting. A reader takes an object
with any of these fields, unknown ones beside them, or an array with the values in order; whatever
is missing takes its standard value. A field stated twice, or a value of the wrong form, is an
error.
-/

namespace LasFile

/-! ## Reading -/

namespace Json.Value

/-- A whole number below 256. -/
def byte? : Value → Option UInt8
  | number n => do
    let value ← n.toNat?
    if value < 256 then some (.ofNat value) else none
  | _ => none

def double? : Value → Option Double
  | number n => n.toDouble?
  | _ => none

/-- Exactly three numbers. -/
def axes? : Value → Option (Axes Double)
  | array [x, y, z] => do return ⟨← x.double?, ← y.double?, ← z.double?⟩
  | _ => none

def text? : Value → Option String
  | string text => text
  | _ => none

def texts? : Value → Option (List String)
  | array items => items.mapM text?
  | _ => none

/-- A value or `null`. -/
def optionalByte? : Value → Option (Option UInt8)
  | null => some none
  | value => value.byte?.map some

/-- The kind of compression with exactly this name. -/
def compressionNamed? (name : String) : Option Compression :=
  [Compression.laszip, .lazperf, .plain].find? fun c ↦ c.name == name

/-- A kind of compression by its name, alone or as the key of an object that holds `null`. -/
def compression? : Value → Option Compression
  | string (some name) => compressionNamed? name
  | object [(some name, null)] => compressionNamed? name
  | _ => none

end Json.Value

namespace Settings

/-- The names of the settings in order. -/
def fieldNames : List String :=
  ["point_format", "scale", "offset", "extra_dims", "ignore_vlrs", "compression", "minor_version"]

/-- The settings with one of them stated. A name that is none of theirs changes nothing. -/
def withField (s : Settings) (name : String) (value : Json.Value) : Option Settings :=
  match name with
  | "point_format" => value.byte?.map fun v ↦ { s with pointFormat := v }
  | "scale" => value.axes?.map fun v ↦ { s with scale := v }
  | "offset" => value.axes?.map fun v ↦ { s with offset := v }
  | "extra_dims" => value.texts?.map fun v ↦ { s with extraDims := v }
  | "ignore_vlrs" => value.texts?.map fun v ↦ { s with ignoreVlrs := v }
  | "compression" => value.compression?.map fun v ↦ { s with compression := v }
  | "minor_version" => value.optionalByte?.map fun v ↦ { s with minorVersion := v }
  | _ => some s

/-- The settings stated by named values. -/
def ofFields (fields : List (String × Json.Value)) : Option Settings :=
  let known := (fields.map (·.1)).filter fieldNames.contains
  if decide known.Nodup then
    fields.foldlM (fun s (name, value) ↦ s.withField name value) standard
  else none

/-- The settings stated by a value. -/
def ofJson? : Json.Value → Option Settings
  | .object fields => do
    let fields ← fields.mapM fun (key, value) ↦ key.map fun name ↦ (name, value)
    ofFields fields
  | .array items =>
    if items.length ≤ fieldNames.length then ofFields (fieldNames.zip items) else none
  | _ => none

/-- The settings in a text. -/
def ofText (text : String) : Except Error Settings :=
  match Json.Value.ofText text >>= ofJson? with
  | some s => .ok s
  | none => .error .settings

/-! ## Writing -/

/-- Numbers in settings: whole ones keep their point, and exponents stand outside `10 ^ -5` and
`10 ^ 15`. -/
def numberStyle : DecimalStyle where
  tie := .even
  keepsPoint := true
  plain := some (-5, 15)
  nan := "null"
  infinity := "null"

/-- A number, or `null` if it is not finite. -/
def renderDouble (d : Double) : String := if d.isFinite then numberStyle.render d else "null"

/-- A hexadecimal digit below sixteen. -/
def hexDigit (n : Nat) : Char := Nat.digitChar n

/-- A character inside a string. -/
def escapeChar (c : Char) : List Char :=
  match c with
  | '"' => ['\\', '"']
  | '\\' => ['\\', '\\']
  | '\x08' => ['\\', 'b']
  | '\x0c' => ['\\', 'f']
  | '\n' => ['\\', 'n']
  | '\r' => ['\\', 'r']
  | '\t' => ['\\', 't']
  | c =>
    if c < ' ' then ['\\', 'u', '0', '0', hexDigit (c.toNat / 16), hexDigit (c.toNat % 16)]
    else [c]

/-- A string in quotation marks. -/
def renderText (s : String) : String :=
  "\"" ++ String.ofList (s.toList.flatMap escapeChar) ++ "\""

/-- An array with each item on a line of its own. -/
def renderArray (items : List String) : String :=
  if items.isEmpty then "[]"
  else "[\n    " ++ ",\n    ".intercalate items ++ "\n  ]"

/-- The fields with their values. -/
def rendered (s : Settings) : List (String × String) :=
  fieldNames.zip
    [toString s.pointFormat,
      renderArray (s.scale.toList.map renderDouble),
      renderArray (s.offset.toList.map renderDouble),
      renderArray (s.extraDims.map renderText),
      renderArray (s.ignoreVlrs.map renderText),
      renderText s.compression.name,
      (s.minorVersion.map toString).getD "null"]

/-- The text of a settings file. -/
def render (s : Settings) : String :=
  "\x7b\n" ++ ",\n".intercalate (s.rendered.map fun (name, value) ↦
    "  \"" ++ name ++ "\": " ++ value) ++ "\n\x7d"

end Settings

end LasFile
