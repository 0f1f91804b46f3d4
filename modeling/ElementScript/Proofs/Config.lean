import ElementScript.Config
import ElementScript.Proofs.Json.Record

/-!
# Settings in JSON

Settings are read from any document that holds them: with the fields in any order, with any other
members between them and with any blanks and escapes. A document need not hold all fields, and those
that are left out have their defaults (`ofJson_document`).
-/

namespace ElementScript

open Json JsonReader

/-! ### What documents hold -/

/-- The fields of a lifecycle entry. -/
def LifecycleEntry.fields (e : LifecycleEntry) : List (Text × (Json → Prop)) := [
  ("marker".toList, (· = .text e.marker)),
  ("callback".toList, (· = .text e.callback))]

/-- The fields of a vocabulary. -/
def Vocabulary.fields (v : Vocabulary) : List (Text × (Json → Prop)) := [
  ("lifecyclePrefix".toList, (· = .text v.lifecyclePrefix)),
  ("lifecycle".toList, fun value => ∃ items, value = .array items ∧
    List.Forall₂ (fun item e => item.HasFields e.fields fun _ => true) items v.lifecycle),
  ("listenerToken".toList, (· = .text v.listenerToken)),
  ("oldValueName".toList, (· = .text v.oldValueName)),
  ("newValueName".toList, (· = .text v.newValueName)),
  ("loadHandlerMarker".toList, (· = .text v.loadHandlerMarker))]

/-- The fields of settings; those of the vocabulary are the ones with the given names. -/
def Config.fields (c : Config) (given : Text → Bool) : List (Text × (Json → Prop)) := [
  ("componentsDirPath".toList, (· = .text c.componentsDir)),
  ("maxTagNameLength".toList, (· = .natural c.maxTagNameLength)),
  ("maxScriptBytes".toList, (· = .natural c.maxScriptBytes)),
  ("translation".toList, (·.HasFields c.vocabulary.fields given))]

/-- The vocabulary with the standard words for those that are not given. -/
def Vocabulary.keeping (v : Vocabulary) (given : Text → Bool) : Vocabulary where
  lifecyclePrefix :=
    if given "lifecyclePrefix".toList then v.lifecyclePrefix else standard.lifecyclePrefix
  lifecycle := if given "lifecycle".toList then v.lifecycle else standard.lifecycle
  listenerToken := if given "listenerToken".toList then v.listenerToken else standard.listenerToken
  oldValueName := if given "oldValueName".toList then v.oldValueName else standard.oldValueName
  newValueName := if given "newValueName".toList then v.newValueName else standard.newValueName
  loadHandlerMarker :=
    if given "loadHandlerMarker".toList then v.loadHandlerMarker else standard.loadHandlerMarker

/-- The settings with the usual ones for those that are not given. -/
def Config.keeping (c : Config) (given : Text → Bool) : Config where
  componentsDir := c.componentsDir
  maxTagNameLength := if given "maxTagNameLength".toList then c.maxTagNameLength
    else (ofDirectory c.componentsDir).maxTagNameLength
  maxScriptBytes := if given "maxScriptBytes".toList then c.maxScriptBytes
    else (ofDirectory c.componentsDir).maxScriptBytes
  vocabulary := c.vocabulary.keeping given

/-! ### Slots -/

/-- A value in its slot, if its name is given. -/
def slot {α : Type} (given : Text → Bool) (name : String) (x : α) : Option α :=
  if given name.toList then some x else none

theorem isSome_slot {α : Type} (given : Text → Bool) (name : String) (x : α) :
    (slot given name x).isSome = given name.toList := by
  rw [slot]
  split <;> simp_all

theorem getD_slot {α : Type} (given : Text → Bool) (name : String) (x y : α) :
    (slot given name x).getD y = if given name.toList then x else y := by
  rw [slot]
  split <;> rfl

theorem slot_congr {α : Type} {given given' : Text → Bool} {name : String} {x : α}
    (h : given name.toList = given' name.toList) : slot given name x = slot given' name x := by
  rw [slot, slot, h]

/-- A text in a field of its own. -/
theorem hasSlot_text {σ : Type} {part : (Text → Bool) → σ} {name : String}
    {get : σ → Option Text} {set : σ → Text → σ} {x : Text}
    (hget : ∀ given, (get (part given)).isSome = given name.toList)
    (hset : ∀ given, set (part given) x = part fun n => n == name.toList || given n) :
    HasSlot part (.of name get set text) (name.toList, (· = .text x)) :=
  hasSlot_of hget hset fun _ hv => hv ▸ text_reads x

namespace Config

theorem slots_lifecycleEntry (e : LifecycleEntry) :
    Slots lifecycleEntry e.fields fun given =>
      (slot given "marker" e.marker, slot given "callback" e.callback) where
  start := rfl
  hasSlot :=
    .cons (hasSlot_text (fun _ => isSome_slot _ _ _) fun _ => rfl) <|
    .cons (hasSlot_text (fun _ => isSome_slot _ _ _) fun _ => rfl) .nil
  congr given given' h := by
    simp only [LifecycleEntry.fields, List.forall_mem_cons] at h
    rw [slot_congr h.1, slot_congr h.2.1]

theorem lifecycle_reads {v : Json} {entries : List LifecycleEntry}
    (h : ∃ items, v = .array items ∧
      List.Forall₂ (fun item e => item.HasFields e.fields fun _ => true) items entries) :
    Reads (list (record lifecycleEntry)) v entries := by
  obtain ⟨items, rfl, hitems⟩ := h
  exact list_reads (hitems.imp fun _ e hitem => (slots_lifecycleEntry e).reads_record hitem rfl)

/-- The words of a vocabulary that are given. -/
def Words.part (v : Vocabulary) (given : Text → Bool) : Words where
  lifecyclePrefix? := slot given "lifecyclePrefix" v.lifecyclePrefix
  lifecycle? := slot given "lifecycle" v.lifecycle
  listenerToken? := slot given "listenerToken" v.listenerToken
  oldValueName? := slot given "oldValueName" v.oldValueName
  newValueName? := slot given "newValueName" v.newValueName
  loadHandlerMarker? := slot given "loadHandlerMarker" v.loadHandlerMarker

theorem Words.complete_part (v : Vocabulary) (given : Text → Bool) :
    (part v given).complete = v.keeping given := by
  simp only [complete, part, getD_slot, Vocabulary.keeping]

theorem slots_vocabulary (v : Vocabulary) :
    Slots vocabularyReader v.fields (Words.part v) where
  start := rfl
  hasSlot :=
    .cons (hasSlot_text (fun _ => isSome_slot _ _ _) fun _ => rfl) <|
    .cons (hasSlot_of (fun _ => isSome_slot _ _ _) (fun _ => rfl) fun _ => lifecycle_reads) <|
    .cons (hasSlot_text (fun _ => isSome_slot _ _ _) fun _ => rfl) <|
    .cons (hasSlot_text (fun _ => isSome_slot _ _ _) fun _ => rfl) <|
    .cons (hasSlot_text (fun _ => isSome_slot _ _ _) fun _ => rfl) <|
    .cons (hasSlot_text (fun _ => isSome_slot _ _ _) fun _ => rfl) .nil
  congr given given' h := by
    simp only [Vocabulary.fields, List.forall_mem_cons] at h
    obtain ⟨h₁, h₂, h₃, h₄, h₅, h₆, -⟩ := h
    simp only [Words.part, slot_congr h₁, slot_congr h₂, slot_congr h₃, slot_congr h₄,
      slot_congr h₅, slot_congr h₆]

theorem vocabulary_reads {v : Vocabulary} {given : Text → Bool} {value : Json}
    (h : value.HasFields v.fields given) :
    Reads (record vocabularyReader) value (v.keeping given) :=
  (slots_vocabulary v).reads_record h (congrArg some (Words.complete_part v given))

/-- The settings that are given, where `words` says so of the vocabulary. -/
def Given.part (c : Config) (words given : Text → Bool) : Given where
  componentsDir? := slot given "componentsDirPath" c.componentsDir
  maxTagNameLength? := slot given "maxTagNameLength" c.maxTagNameLength
  maxScriptBytes? := slot given "maxScriptBytes" c.maxScriptBytes
  vocabulary? := slot given "translation" (c.vocabulary.keeping words)

theorem slots_reader (c : Config) (words : Text → Bool)
    (htag : c.maxTagNameLength < Nat.pow 2 64) (hscript : c.maxScriptBytes < Nat.pow 2 64) :
    Slots reader (c.fields words) (Given.part c words) where
  start := rfl
  hasSlot :=
    .cons (hasSlot_text (fun _ => isSome_slot _ _ _) fun _ => rfl) <|
    .cons (hasSlot_of (fun _ => isSome_slot _ _ _) (fun _ => rfl)
      fun _ hv => hv ▸ natural_reads htag) <|
    .cons (hasSlot_of (fun _ => isSome_slot _ _ _) (fun _ => rfl)
      fun _ hv => hv ▸ natural_reads hscript) <|
    .cons (hasSlot_of (fun _ => isSome_slot _ _ _) (fun _ => rfl) fun _ => vocabulary_reads) .nil
  congr given given' h := by
    simp only [Config.fields, List.forall_mem_cons] at h
    obtain ⟨h₁, h₂, h₃, h₄, -⟩ := h
    simp only [Given.part, slot_congr h₁, slot_congr h₂, slot_congr h₃, slot_congr h₄]

/-- The names of the words of a vocabulary. -/
def wordNames : List Text := [
  "lifecyclePrefix".toList, "lifecycle".toList, "listenerToken".toList, "oldValueName".toList,
  "newValueName".toList, "loadHandlerMarker".toList]

theorem Given.complete?_part {c : Config} {given : Text → Bool}
    (hdir : given "componentsDirPath".toList = true)
    (hwords : ∀ name ∈ wordNames, given name = true → given "translation".toList = true) :
    (part c given given).complete? = some (c.keeping given) := by
  have hdirectory : slot given "componentsDirPath" c.componentsDir = some c.componentsDir :=
    if_pos hdir
  have hvocabulary : (if given "translation".toList then c.vocabulary.keeping given
      else (ofDirectory c.componentsDir).vocabulary) = c.vocabulary.keeping given := by
    by_cases htranslation : given "translation".toList = true
    · rw [if_pos htranslation]
    · have hnone : ∀ name ∈ wordNames, given name = false :=
        fun name hname => Bool.eq_false_iff.mpr fun h => htranslation (hwords name hname h)
      simp only [wordNames, List.forall_mem_cons] at hnone
      obtain ⟨h₁, h₂, h₃, h₄, h₅, h₆, -⟩ := hnone
      rw [if_neg htranslation, Vocabulary.keeping, h₁, h₂, h₃, h₄, h₅, h₆]
      rfl
  simp only [complete?, part, hdirectory, Option.map_some, getD_slot, hvocabulary, Config.keeping]

theorem slots_document (c : Config) (given : Text → Bool)
    (hdir : given "componentsDirPath".toList = true)
    (hwords : ∀ name ∈ wordNames, given name = true → given "translation".toList = true)
    (htag : c.maxTagNameLength < Nat.pow 2 64) (hscript : c.maxScriptBytes < Nat.pow 2 64) :
    Slots documentReader [("components".toList, (·.HasFields (c.fields given) given))]
      fun found => slot found "components" (c.keeping given) where
  start := rfl
  hasSlot := by
    refine .cons (hasSlot_of (fun _ => isSome_slot _ _ _) (fun _ => rfl) fun v hv => ?_) .nil
    exact (slots_reader c given htag hscript).reads_record hv (Given.complete?_part hdir hwords)
  congr found found' h := slot_congr (h _ (List.mem_singleton_self _))

/-- Whatever settings a document holds are read from it: with the fields in any order, with any
other members between them, and with the usual settings for the fields that are left out. -/
theorem ofJson_document {c : Config} {given : Text → Bool}
    (hdir : given "componentsDirPath".toList = true)
    (hwords : ∀ name ∈ wordNames, given name = true → given "translation".toList = true)
    (htag : c.maxTagNameLength < Nat.pow 2 64) (hscript : c.maxScriptBytes < Nat.pow 2 64)
    {value : Json}
    (hvalue : value.HasFields [("components".toList, (·.HasFields (c.fields given) given))]
      fun _ => true)
    {t : Text} (ht : value.IsDocument t) : ofJson t = .ok (c.keeping given) := by
  obtain ⟨u, b, hu, hb, rfl⟩ := ht
  have hreads := (slots_document c given hdir hwords htag hscript).reads_record hvalue rfl
  have hblank : (b ++ []).dropWhile isSpace = [].dropWhile isSpace :=
    List.dropWhile_append_of_pos fun c hc => isSpace_iff.mpr (hb c hc)
  rw [List.append_nil] at hblank
  have hread := hreads u hu b (List.append_nil b ▸ follows_nil.blank_append hb)
  rw [ofJson, document, hread]
  exact if_pos (by rw [skipSpace, hblank]; rfl)

/-- A document with two fields, one of them escaped, and with members that are no fields. -/
def sampleText : Text :=
  "\x7b \"v\":[null],\"components\":\x7b\"maxScriptBytes\" : 7,\"x\":\x7b\x7d,".toList ++
    "\"componentsDirPath\":\"\\u0061\\/\"\x7d\x7d\n".toList

/-- What the document says. -/
def sampleValue : Json :=
  .object [("v".toList, .array [.null]), ("components".toList, .object [
    ("maxScriptBytes".toList, .natural 7), ("x".toList, .object []),
    ("componentsDirPath".toList, .text "a/".toList)])]

theorem isDocument_sample : sampleValue.IsDocument sampleText := by
  have hb : IsBlank [] := by decide
  have hb' : IsBlank [' '] := by decide
  have hunknown : WritesMember ("v".toList, .array [.null]) _ :=
    .mk hb' (stringText_plain (by decide)) hb (.array hb (.last (.null hb) hb))
  have hbytes : WritesMember ("maxScriptBytes".toList, .natural 7) _ :=
    .mk hb (stringText_plain (by decide)) hb' (writes_natural 7 hb')
  have hinner : WritesMember ("x".toList, .object []) _ :=
    .mk hb (stringText_plain (by decide)) hb (.object hb (.nil hb))
  have hfour : IsHexFour 'a'.toNat ['0', '0', '6', '1'] :=
    .cons (by decide) (.cons (by decide) (.cons (by decide) (.cons (by decide) .nil)))
  have hletter : CharText 'a' ['\\', 'u', '0', '0', '6', '1'] := .unicode hfour
  have hslash : CharText '/' ['\\', '/'] := .short (by decide)
  have hdir : WritesMember ("componentsDirPath".toList, .text "a/".toList) _ :=
    .mk hb (stringText_plain (by decide)) hb (.text hb (.cons hletter (.cons hslash .nil)))
  have hcomponents : WritesMember ("components".toList, .object [_, _, _]) _ :=
    .mk hb (stringText_plain (by decide)) hb
      (.object hb (.cons hbytes hb (.cons hinner hb (.last hdir hb))))
  exact ⟨_, ['\n'], .object hb (.cons hunknown hb (.last hcomponents hb)), by decide, rfl⟩

/-- Of these settings the document holds the directory and one limit. -/
theorem ofJson_sampleText :
    let c : Config := ⟨"a/".toList, 1, 7, { Vocabulary.standard with listenerToken := "on".toList }⟩
    let given name := decide (name ∈ ["componentsDirPath".toList, "maxScriptBytes".toList])
    sampleValue.HasFields [("components".toList, (·.HasFields (c.fields given) given))]
        (fun _ => true) ∧
      ofJson sampleText = .ok (c.keeping given) ∧
      c.keeping given = ⟨"a/".toList, 250, 7, .standard⟩ := by
  intro c given
  have hvalue : sampleValue.HasFields
      [("components".toList, (·.HasFields (c.fields given) given))] (fun _ => true) := by
    refine ⟨_, rfl, by decide, fun field hfield => ?_⟩
    obtain rfl := List.mem_singleton.mp hfield
    refine ⟨by decide, fun v hv => ?_⟩
    obtain rfl : v = _ := by simpa using hv
    refine ⟨_, rfl, by decide, fun field hfield => ?_⟩
    simp only [Config.fields, List.mem_cons, List.not_mem_nil, or_false] at hfield
    rcases hfield with rfl | rfl | rfl | rfl
    · exact ⟨by decide, fun v hv => (show v = .text "a/".toList by simpa using hv)⟩
    · exact ⟨by decide, fun v hv => by simp at hv⟩
    · exact ⟨by decide, fun v hv => (show v = .natural 7 by simpa using hv)⟩
    · exact ⟨by decide, fun v hv => by simp at hv⟩
  refine ⟨hvalue, ?_, by decide⟩
  exact ofJson_document (by decide) (by decide) (by decide) (by decide) hvalue isDocument_sample

end Config

end ElementScript
