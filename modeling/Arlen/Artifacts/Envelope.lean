import Arlen.Lib.Utf8
import Mathlib.Data.List.Basic

/-!
# The artifact envelope

`contracts/artifact/src/lib.rs`: an artifact is a typed payload, a text that stands in for it,
and metadata. What goes out is the whole artifact; what a program's bytes are read as is a
smaller envelope without an origin, whose title stands beside the payload and not in the
metadata. The two agree on the payload and the text. `F` is the type of the chart's numbers.
-/

namespace Arlen.Artifacts

open Arlen.Lib

/-! ## Values -/

/-- A JSON value. -/
inductive Value (F : Type) where
  | null
  | bool (b : Bool)
  | number (x : F)
  | string (s : String)
  | array (items : List (Value F))
  | object (fields : List (String × Value F))

namespace Value

variable {F : Type}

def get (key : String) : Value F → Option (Value F)
  | object fields => fields.lookup key
  | _ => none

def asString : Value F → Option String
  | string s => some s
  | _ => none

def asNumber : Value F → Option F
  | number x => some x
  | _ => none

def asArray : Value F → Option (List (Value F))
  | array items => some items
  | _ => none

/-- An `Option` of a string: nothing where the value is null. -/
def asOptionString : Value F → Option (Option String)
  | null => some none
  | string s => some (some s)
  | _ => none

def getString (key : String) (v : Value F) : Option String := (v.get key).bind asString

/-- A defaulted `Option` field. -/
def getOption (key : String) (v : Value F) : Option (Option String) :=
  match v.get key with
  | none => some none
  | some v => v.asOptionString

/-- A field that is left out where it is none. -/
def optionField (key : String) : Option String → List (String × Value F)
  | none => []
  | some s => [(key, string s)]

def strings (l : List String) : Value F := array (l.map string)

def asStrings (v : Value F) : Option (List String) := v.asArray.bind (·.mapM asString)

end Value

/-! ## Kinds -/

inductive ArtifactKind where
  | markdown
  | code
  | table
  | chart
  | image
  | diagram
  | links
  | widget
deriving DecidableEq, Repr

namespace ArtifactKind

def isInert : ArtifactKind → Bool
  | widget => false
  | _ => true

def programEmittable (k : ArtifactKind) : Bool := k.isInert

def asStr : ArtifactKind → String
  | markdown => "markdown"
  | code => "code"
  | table => "table"
  | chart => "chart"
  | image => "image"
  | diagram => "diagram"
  | links => "links"
  | widget => "widget"

end ArtifactKind

inductive ArtifactOrigin where
  | externalContent
  | agentGenerated
  | systemTrusted
deriving DecidableEq, Repr

def ArtifactOrigin.asStr : ArtifactOrigin → String
  | externalContent => "external_content"
  | agentGenerated => "agent_generated"
  | systemTrusted => "system_trusted"

inductive ChartType where
  | line
  | bar
  | scatter
  | pie
  | area
deriving DecidableEq, Repr

def ChartType.asStr : ChartType → String
  | line => "line"
  | bar => "bar"
  | scatter => "scatter"
  | pie => "pie"
  | area => "area"

def ChartType.all : List ChartType := [line, bar, scatter, pie, area]

inductive ImageMediaType where
  | png
  | jpeg
  | svg
  | webp
  | gif
deriving DecidableEq, Repr

def ImageMediaType.asStr : ImageMediaType → String
  | png => "png"
  | jpeg => "jpeg"
  | svg => "svg"
  | webp => "webp"
  | gif => "gif"

def ImageMediaType.all : List ImageMediaType := [png, jpeg, svg, webp, gif]

inductive DiagramLanguage where
  | mermaid
  | dot
deriving DecidableEq, Repr

def DiagramLanguage.asStr : DiagramLanguage → String
  | mermaid => "mermaid"
  | dot => "dot"

def DiagramLanguage.all : List DiagramLanguage := [mermaid, dot]

/-! ## Payloads -/

structure Series (F : Type) where
  name : String
  values : List F

structure Link where
  href : String
  label : Option String

inductive ArtifactPayload (F : Type) where
  | markdown (source : String)
  | code (source : String) (language : Option String)
  | table (columns : List String) (rows : List (List String))
  | chart (chartType : ChartType) (series : List (Series F))
  | image (mediaType : ImageMediaType) (dataBase64 : String)
  | diagram (language : DiagramLanguage) (source : String)
  | links (links : List Link)

variable {F : Type}

def ArtifactPayload.kind : ArtifactPayload F → ArtifactKind
  | markdown _ => .markdown
  | code _ _ => .code
  | table _ _ => .table
  | chart _ _ => .chart
  | image _ _ => .image
  | diagram _ _ => .diagram
  | links _ => .links

open Value in
def Series.toValue (s : Series F) : Value F :=
  object [("name", string s.name), ("values", array (s.values.map number))]

open Value in
def Link.toValue (l : Link) : Value F :=
  object (("href", string l.href) :: optionField "label" l.label)

open Value in
/-- The payload as it is written, tagged with its kind. -/
def ArtifactPayload.toValue (p : ArtifactPayload F) : Value F :=
  object <| ("kind", string p.kind.asStr) ::
    match p with
    | markdown source => [("source", string source)]
    | code source language => ("source", string source) :: optionField "language" language
    | table columns rows => [("columns", strings columns), ("rows", array (rows.map strings))]
    | chart chartType series =>
      [("chart_type", string chartType.asStr), ("series", array (series.map Series.toValue))]
    | image mediaType dataBase64 =>
      [("media_type", string mediaType.asStr), ("data_base64", string dataBase64)]
    | diagram language source => [("language", string language.asStr), ("source", string source)]
    | links l => [("links", array (l.map Link.toValue))]

def Series.fromValue (v : Value F) : Option (Series F) :=
  (v.getString "name").bind fun name =>
    (((v.get "values").bind Value.asArray).bind (·.mapM Value.asNumber)).map fun values =>
      ⟨name, values⟩

def Link.fromValue (v : Value F) : Option Link :=
  (v.getString "href").bind fun href => (v.getOption "label").map fun label => ⟨href, label⟩

/-- The variant of an enumeration by its name. -/
def variant {α : Type} (all : List α) (asStr : α → String) (v : Value F) : Option α :=
  v.asString.bind fun s => all.find? (asStr · = s)

/-- Read a payload by its tag. -/
def ArtifactPayload.fromValue (v : Value F) : Option (ArtifactPayload F) :=
  (v.getString "kind").bind fun kind =>
    if kind = "markdown" then (v.getString "source").map markdown
    else if kind = "code" then
      (v.getString "source").bind fun source => (v.getOption "language").map (code source)
    else if kind = "table" then
      ((v.get "columns").bind Value.asStrings).bind fun columns =>
        (((v.get "rows").bind Value.asArray).bind (·.mapM Value.asStrings)).map (table columns)
    else if kind = "chart" then
      ((v.get "chart_type").bind (variant ChartType.all ChartType.asStr)).bind fun chartType =>
        (((v.get "series").bind Value.asArray).bind (·.mapM Series.fromValue)).map (chart chartType)
    else if kind = "image" then
      ((v.get "media_type").bind (variant ImageMediaType.all ImageMediaType.asStr)).bind
        fun mediaType => (v.getString "data_base64").map (image mediaType)
    else if kind = "diagram" then
      ((v.get "language").bind (variant DiagramLanguage.all DiagramLanguage.asStr)).bind
        fun language => (v.getString "source").map (diagram language)
    else if kind = "links" then
      (((v.get "links").bind Value.asArray).bind (·.mapM Link.fromValue)).map links
    else none

/-! ## Artifacts -/

structure ArtifactMeta where
  origin : ArtifactOrigin
  title : Option String
deriving DecidableEq

structure Artifact (F : Type) where
  kind : ArtifactKind
  payload : ArtifactPayload F
  text : String
  «meta» : ArtifactMeta

inductive ArtifactError where
  | missingText
  | kindMismatch (declared payload : ArtifactKind)
  | notProgramEmittable (kind : ArtifactKind)
  | malformed (message : String)
  | nonFiniteChartValue
deriving DecidableEq, Repr

variable (isFinite : F → Bool)

def validatePayload (payload : ArtifactPayload F) : Except ArtifactError Unit :=
  match payload with
  | .chart _ series =>
    if series.any (·.values.any (!isFinite ·)) then .error .nonFiniteChartValue else .ok ()
  | _ => .ok ()

def Artifact.new (payload : ArtifactPayload F) (text : String) (origin : ArtifactOrigin)
    (title : Option String) : Except ArtifactError (Artifact F) :=
  if text.isEmpty then .error .missingText
  else
    match validatePayload isFinite payload with
    | .error e => .error e
    | .ok () => .ok ⟨payload.kind, payload, text, ⟨origin, title⟩⟩

/-- What a program hands over: its origin is set here. -/
def Artifact.receive (payload : ArtifactPayload F) (text : String) (title : Option String) :
    Except ArtifactError (Artifact F) :=
  if payload.kind.programEmittable = false then .error (.notProgramEmittable payload.kind)
  else Artifact.new isFinite payload text .externalContent title

open Value in
def Artifact.toValue (a : Artifact F) : Value F :=
  object [("kind", string a.kind.asStr), ("payload", a.payload.toValue), ("text", string a.text),
    ("meta", object (("origin", string a.«meta».origin.asStr) :: optionField "title" a.«meta».title))]

/-- A program's envelope. -/
structure ProgramEnvelope (F : Type) where
  payload : ArtifactPayload F
  text : String
  title : Option String

def ProgramEnvelope.fromValue (v : Value F) : Option (ProgramEnvelope F) :=
  ((v.get "payload").bind ArtifactPayload.fromValue).bind fun payload =>
    (v.getString "text").bind fun text =>
      (v.getOption "title").map fun title => ⟨payload, text, title⟩

variable (json : Serde (Value F))

/-- `serde_json::to_vec`. -/
def Artifact.toJson (a : Artifact F) : Bytes := utf8 (json.toStr a.toValue)

/-- Read a program's envelope and set its origin. -/
def Artifact.receiveJson (bytes : Bytes) : Except ArtifactError (Artifact F) :=
  match decodeUtf8 bytes with
  | none => .error (.malformed "invalid unicode code point")
  | some text =>
    match json.fromStr text with
    | .error e => .error (.malformed e)
    | .ok v =>
      match ProgramEnvelope.fromValue v with
      | none => .error (.malformed "invalid type or missing field")
      | some env => Artifact.receive isFinite env.payload env.text env.title

variable {isFinite} {payload : ArtifactPayload F} {text : String} {origin : ArtifactOrigin}
  {title : Option String} {a : Artifact F}

theorem Artifact.new_eq_ok : Artifact.new isFinite payload text origin title = .ok a ↔
    text.isEmpty = false ∧ validatePayload isFinite payload = .ok () ∧
      a = ⟨payload.kind, payload, text, ⟨origin, title⟩⟩ := by
  unfold Artifact.new
  cases htext : text.isEmpty with
  | true => simp
  | false =>
    cases hvalid : validatePayload isFinite payload with
    | error e => simp
    | ok _ => simp [eq_comm]

/-! ## What is read back -/

section RoundTrip

variable {α : Type}

theorem mapM_of_forall {f : α → Value F} {g : Value F → Option α} (l : List α)
    (h : ∀ x ∈ l, g (f x) = some x) : (l.map f).mapM g = some l := by
  induction l with
  | nil => rfl
  | cons x l ih =>
    rw [List.map_cons, List.mapM_cons, h x List.mem_cons_self,
      ih fun y hy => h y (List.mem_cons_of_mem _ hy)]
    rfl

theorem asStrings_strings (l : List String) : Value.asStrings (Value.strings l : Value F) = some l :=
  mapM_of_forall l fun _ _ => rfl

theorem variant_asStr {all : List α} {asStr : α → String} {x : α} (hx : x ∈ all)
    (hinj : ∀ y ∈ all, asStr y = asStr x → y = x) :
    variant all asStr (Value.string (asStr x) : Value F) = some x := by
  unfold variant
  rw [Value.asString, Option.bind_some]
  cases hfind : all.find? (asStr · = asStr x) with
  | none =>
    have := List.find?_eq_none.1 hfind x hx
    simp at this
  | some y =>
    have hy := List.find?_some hfind
    rw [hinj y (List.mem_of_find?_eq_some hfind) (by simpa using hy)]

theorem Series.fromValue_toValue (s : Series F) : Series.fromValue s.toValue = some s := by
  have hvalues : (s.values.map Value.number).mapM Value.asNumber = some s.values :=
    mapM_of_forall s.values fun _ _ => rfl
  unfold Series.fromValue Series.toValue
  simp [Value.getString, Value.get, List.lookup_cons, Value.asString, Value.asArray, hvalues]

theorem Link.fromValue_toValue (l : Link) : Link.fromValue (l.toValue : Value F) = some l := by
  obtain ⟨href, label⟩ := l
  cases label <;> rfl

/-- **A payload reads back** as it was written. -/
theorem ArtifactPayload.fromValue_toValue (p : ArtifactPayload F) :
    ArtifactPayload.fromValue p.toValue = some p := by
  cases p with
  | markdown source => rfl
  | code source language => cases language <;> rfl
  | table columns rows =>
    have hrows : (rows.map (Value.strings : List String → Value F)).mapM Value.asStrings =
        some rows := mapM_of_forall rows fun _ _ => asStrings_strings _
    simp [ArtifactPayload.fromValue, ArtifactPayload.toValue, Value.getString, Value.get,
      Value.asString, Value.asArray, ArtifactPayload.kind, ArtifactKind.asStr, List.lookup_cons,
      asStrings_strings, hrows]
  | chart chartType series =>
    have hseries : (series.map Series.toValue).mapM Series.fromValue = some series :=
      mapM_of_forall series fun s _ => s.fromValue_toValue
    have htype : variant ChartType.all ChartType.asStr
        (Value.string chartType.asStr : Value F) = some chartType :=
      variant_asStr (by cases chartType <;> decide) (by cases chartType <;> decide)
    simp [ArtifactPayload.fromValue, ArtifactPayload.toValue, Value.getString, Value.get,
      Value.asString, Value.asArray, ArtifactPayload.kind, ArtifactKind.asStr, List.lookup_cons,
      htype, hseries]
  | image mediaType dataBase64 =>
    have htype : variant ImageMediaType.all ImageMediaType.asStr
        (Value.string mediaType.asStr : Value F) = some mediaType :=
      variant_asStr (by cases mediaType <;> decide) (by cases mediaType <;> decide)
    simp [ArtifactPayload.fromValue, ArtifactPayload.toValue, Value.getString, Value.get,
      Value.asString, ArtifactPayload.kind, ArtifactKind.asStr, List.lookup_cons, htype]
  | diagram language source =>
    have htype : variant DiagramLanguage.all DiagramLanguage.asStr
        (Value.string language.asStr : Value F) = some language :=
      variant_asStr (by cases language <;> decide) (by cases language <;> decide)
    simp [ArtifactPayload.fromValue, ArtifactPayload.toValue, Value.getString, Value.get,
      Value.asString, ArtifactPayload.kind, ArtifactKind.asStr, List.lookup_cons, htype]
  | links l =>
    have hlinks : (l.map (Link.toValue : Link → Value F)).mapM Link.fromValue = some l :=
      mapM_of_forall l fun x _ => x.fromValue_toValue
    simp [ArtifactPayload.fromValue, ArtifactPayload.toValue, Value.getString, Value.get,
      Value.asString, Value.asArray, ArtifactPayload.kind, ArtifactKind.asStr, List.lookup_cons, hlinks]

/-- A written artifact is read as an envelope without a title. -/
theorem ProgramEnvelope.fromValue_toValue (a : Artifact F) :
    ProgramEnvelope.fromValue a.toValue = some ⟨a.payload, a.text, none⟩ := by
  unfold ProgramEnvelope.fromValue Artifact.toValue
  simp [Value.getString, Value.getOption, Value.get, Value.asString, List.lookup_cons,
    ArtifactPayload.fromValue_toValue]

end RoundTrip

end Arlen.Artifacts
