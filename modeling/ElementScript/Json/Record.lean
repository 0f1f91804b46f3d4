import ElementScript.Json.Skim

/-!
# Reading records

A record is read from an object, whose members may come in any order with others between them, or
from an array of its fields in order. A field that comes a second time is refused as soon as its key
has been read; a field that is missing is filled in or refused once the members are over
(`RecordReader.finish`).
-/

namespace ElementScript

namespace JsonReader

/-- A field of a record, where `σ` holds the fields read so far. -/
structure RecordField (σ : Type) where
  name : Text
  /-- Whether the field has been read. -/
  isRead : σ → Bool
  /-- Read the value of the field. -/
  read : σ → JsonReader σ

/-- A field whose value is kept where `get` finds it. -/
def RecordField.of {σ β : Type} (name : String) (get : σ → Option β) (set : σ → β → σ)
    (reader : JsonReader β) : RecordField σ where
  name := name.toList
  isRead s := (get s).isSome
  read s t := (reader t).map fun (value, rest) => (set s value, rest)

/-- How to read a record of type `α`. -/
structure RecordReader (σ α : Type) where
  /-- No field read. -/
  start : σ
  /-- The fields, in the order of the array form. -/
  fields : List (RecordField σ)
  /-- The record of the fields read, unless one is missing. -/
  finish : σ → Option α

variable {σ α : Type}

/-- The text after the colon that has to come next. -/
def colon (t : Text) : Except JsonProblem Text :=
  match skipSpace t with
  | [] => .error .endOfText
  | ':' :: t => .ok t
  | _ => .error .notJson

/-- Read the rest of a member after its key. -/
def member (fields : List (RecordField σ)) (key : Text) (s : σ) : JsonReader σ := fun t =>
  match fields.find? (·.name == key) with
  | some field => if field.isRead s then .error .wrongShape else (colon t).bind (field.read s)
  | none => ((colon t).bind skim).map (s, ·)

/-- The text after the opening quote of the next key, or none at the closing brace, which is not
read. -/
def nextKey? (first : Bool) (t : Text) : Except JsonProblem (Option Text) :=
  let quote : Text → Except JsonProblem (Option Text)
    | [] => .error .endOfText
    | '\"' :: t => .ok (some t)
    | _ => .error .notJson
  match skipSpace t with
  | [] => .error .endOfText
  | c :: t =>
    if c = '\x7d' then .ok none
    else if first then quote (c :: t)
    else if c = ',' then quote (skipSpace t)
    else .error .notJson

/-- The text after the brace that has to close an object here. -/
def closeObject (t : Text) : Except JsonProblem Text :=
  match skipSpace t with
  | [] => .error .endOfText
  | '}' :: t => .ok t
  | _ => .error .notJson

/-- Read on in an object of at most `fuel` more members, up to its closing brace. -/
def membersFrom (fields : List (RecordField σ)) (first : Bool) (s : σ) : (fuel : Nat) → JsonReader σ
  | 0, _ => .error .endOfText
  | fuel + 1, t => do
    match ← nextKey? first t with
    | none => return (s, t)
    | some t =>
      let (key, t) ← string t
      let (s, t) ← member fields key s t
      membersFrom fields false s fuel t

/-- Read the given fields from an array, up to its end. -/
def fieldsFrom (first : Bool) (s : σ) : List (RecordField σ) → JsonReader σ
  | [], t => .ok (s, t)
  | field :: fields, t => do
    match ← nextElement? first t with
    | none => return (s, t)
    | some t =>
      let (s, t) ← field.read s t
      fieldsFrom false s fields t

/-- A record. -/
def record (r : RecordReader σ α) : JsonReader α := fun t =>
  let close (s : σ) (rest : Except JsonProblem Text) : Except JsonProblem (α × Text) :=
    match r.finish s with
    | none => .error .wrongShape
    | some a => rest.map (a, ·)
  match skipSpace t with
  | '{' :: t => do
    let (s, t) ← membersFrom r.fields true r.start (t.length + 1) t
    close s (closeObject t)
  | '[' :: t => do
    let (s, t) ← fieldsFrom true r.start r.fields t
    close s (closeArray t)
  | t => .error (mismatch t)

end JsonReader

end ElementScript
