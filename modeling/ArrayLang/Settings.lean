import ArrayLang.Code.Module
import ArrayLang.Document.Record
import ArrayLang.Source.Operator
import ArrayLang.Text.Quoted
import ArrayLang.Text.Version

/-!
# Settings of the compiler

The format of the settings themselves, the language, the largest array in bytes, and the memory in
pages.  Sums of sizes are sums of signed 64-bit numbers.
-/

namespace ArrayLang

/-- Settings of the compiler. -/
structure Settings where
  format : String
  lang : String
  maxArrayBytes : Int64
  memoryPages : UInt32
  deriving DecidableEq, Repr

/-- Why settings cannot be honoured. -/
inductive SettingsError where
  | badFormat (format : List Text.Glyph)
  | otherFormat (format : String)
  | unknownLang (lang : List Text.Glyph)
  | arraySizeNotPositive (size : Int64)
  | tooManyPages (pages : UInt32)
  | arrayTooLarge (pages : UInt32) (size : Int64)
  deriving DecidableEq, Repr

namespace Settings

/-- The newest format that is understood.  So is every other one with the same major version. -/
def newestFormat : String := "v1.0.0"

/-- The major version of the format that is understood. -/
def majorFormat : String := (Text.majorVersion? newestFormat).getD ""

/-- The largest number of pages that 32-bit addresses reach. -/
def maxPages : UInt32 := 65536

/-- The settings used when nothing is set. -/
def standard : Settings := ⟨majorFormat, "array", 1048576, 100⟩

/-- The tier of the language. -/
def tier (s : Settings) : Source.Tier := if s.lang = "loop" then .loop else .array

/-- The size of the memory in bytes. -/
def memoryBytes (s : Settings) : Int64 := Int64.ofNat (s.memoryPages.toNat * Code.pageSize)

/-- Check that a format is understood; `major?` gives the major part of a version.  A format with
stray bytes is none. -/
def validateFormat (major? : String → Option String) (format : List Text.Glyph) :
    Except SettingsError Unit :=
  match Text.textOfGlyphs? format with
  | none => .error (.badFormat format)
  | some text =>
    match major? text with
    | none => .error (.badFormat format)
    | some major =>
      if some major ≠ major? newestFormat then .error (.otherFormat text) else .ok ()

/-- Check that the settings can be honoured. -/
def validate (s : Settings) (major? : String → Option String := Text.majorVersion?) :
    Except SettingsError Unit :=
  match validateFormat major? (Text.glyphsOfText s.format) with
  | .error e => .error e
  | .ok () =>
    if s.lang ≠ "array" ∧ s.lang ≠ "loop" then .error (.unknownLang (Text.glyphsOfText s.lang))
    else if s.maxArrayBytes ≤ 0 then .error (.arraySizeNotPositive s.maxArrayBytes)
    else if maxPages < s.memoryPages then .error (.tooManyPages s.memoryPages)
    else if s.tier = .array ∧ s.memoryBytes < s.maxArrayBytes + 4 then
      .error (.arrayTooLarge s.memoryPages s.maxArrayBytes)
    else .ok ()

/-- Settings as a document gives them.  What is not set is empty or zero, and texts may hold stray
bytes. -/
structure Draft where
  format : List Text.Glyph := []
  lang : List Text.Glyph := []
  maxArrayBytes : Int64 := 0
  memoryPages : UInt32 := 0

namespace Draft

/-- The settings in a document by name. -/
def fields : List (String × Document.Field Draft Empty) :=
  [("format", .text fun v d => { d with format := v }),
    ("lang", .text fun v d => { d with lang := v }),
    ("max_array_byte_size", .integer fun v d => { d with maxArrayBytes := Int64.ofInt v }),
    ("memory_pages", .count fun v d => { d with memoryPages := UInt32.ofNat v })]

/-- The format with a `v` in front of it. -/
def fullFormat (d : Draft) : List Text.Glyph :=
  if d.format = [] then Text.glyphsOfText majorFormat
  else if d.format.head? = some (.char 'v') then d.format
  else .char 'v' :: d.format

/-- The settings of a draft, with what is not set filled in, and checked. -/
def settings (d : Draft) : Except SettingsError Settings :=
  let lang := if d.lang = [] then Text.glyphsOfText standard.lang else d.lang
  match Text.textOfGlyphs? d.fullFormat, Text.textOfGlyphs? lang with
  | some format, some lang =>
    let s : Settings :=
      { format, lang
        maxArrayBytes := if d.maxArrayBytes = 0 then standard.maxArrayBytes else d.maxArrayBytes
        memoryPages := if d.memoryPages = 0 then standard.memoryPages else d.memoryPages }
    match s.validate with
    | .error e => .error e
    | .ok () => .ok s
  | _, _ =>
    match validateFormat Text.majorVersion? d.fullFormat with
    | .error e => .error e
    | .ok () => .error (.unknownLang lang)

end Draft

end Settings

namespace SettingsError

/-- An error in words. -/
def message : SettingsError → String
  | badFormat format => s!"config: invalid format version {Text.quoteGlyphs format}"
  | otherFormat format =>
    s!"config: unsupported format {format} (this build reads {Settings.majorFormat})"
  | unknownLang lang => s!"config: unknown lang {Text.quoteGlyphs lang} (want array or loop)"
  | arraySizeNotPositive size =>
    s!"config: max_array_byte_size must be positive (got {size.toInt})"
  | tooManyPages pages => s!"config: memory_pages {pages.toNat} exceeds {Settings.maxPages.toNat}"
  | arrayTooLarge pages size =>
    s!"config: {pages.toNat} pages cannot hold one array of {size.toInt} bytes"

end SettingsError

/-- Why a text holds no settings. -/
inductive SettingsTextError where
  | refused (r : Document.Refusal)
  | invalid (e : SettingsError)
  deriving Repr

/-- An error in words. -/
def SettingsTextError.message : SettingsTextError → String
  | .refused .malformed => "config: parse: yaml: malformed document"
  | .refused .mismatch => "config: parse: yaml: unmarshal errors"
  | .refused (.fault f) => f.message
  | .invalid e => e.message

/-- The settings of a text, completed and checked. -/
def Settings.ofText (text : String) : Except SettingsTextError Settings :=
  match Document.readRecord Settings.Draft.fields {} text with
  | .error (.refused r) => .error (.refused r)
  | .ok d => d.settings.mapError .invalid

end ArrayLang
