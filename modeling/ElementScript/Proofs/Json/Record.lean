import ElementScript.Json.Record
import ElementScript.Proofs.Json.Reading

/-!
# Reading records

A record is read from any object with its fields. One member is one step (`ReadsMember`): it is read
into the fields that there are so far, or passed over. What the fields come to does not depend on
the order of the members, as long as each field has a slot of its own (`Slots`), so the record that
is read is known from the fields that are given (`Slots.reads`).
-/

namespace ElementScript

namespace JsonReader

open Json

variable {σ α : Type}

/-! ### One member -/

/-- Whether a member leads from some fields to others. -/
def ReadsMember (fields : List (RecordField σ)) (s : σ) (m : Text × Json) (s' : σ) : Prop :=
  match fields.find? (·.name == m.1) with
  | some field => field.isRead s = false ∧ Reads (field.read s) m.2 s'
  | none => s' = s

theorem colon_append {b : Text} (hb : IsBlank b) (t : Text) : colon (b ++ ':' :: t) = .ok t := by
  rw [colon, skipSpace_append hb rfl]
  rfl

section Members

variable {fields : List (RecordField σ)} {s s' : σ} {m : Text × Json} {t rest : Text}

theorem nextKey?_close {b : Text} (hb : IsBlank b) (first : Bool) :
    nextKey? first (b ++ '\x7d' :: rest) = .ok none := by
  rw [nextKey?, skipSpace_append hb rfl]
  rfl

theorem nextKey?_first {b : Text} (hb : IsBlank b) (t : Text) :
    nextKey? true (b ++ '\"' :: t) = .ok (some t) := by
  rw [nextKey?, skipSpace_append hb rfl]
  rfl

theorem nextKey?_comma {b b' : Text} (hb : IsBlank b) (hb' : IsBlank b') (t : Text) :
    nextKey? false (b ++ ',' :: (b' ++ '\"' :: t)) = .ok (some t) := by
  simp only [nextKey?, skipSpace_append hb (show isSpace ',' = false from rfl),
    skipSpace_append hb' (show isSpace '\"' = false from rfl)]
  rfl

/-- The rest of a member is read after its key. -/
theorem member_reads {key b t : Text} {v : Json} (h : ReadsMember fields s (key, v) s')
    (hb : IsBlank b) (hv : v.Writes t) (hrest : Follows rest) :
    member fields key s (b ++ ':' :: (t ++ rest)) = .ok (s', rest) := by
  rw [ReadsMember] at h
  rw [member]
  split at h
  · rename_i field hfind
    rw [hfind]
    dsimp only
    rw [h.1, colon_append hb]
    exact h.2 t hv rest hrest
  · rename_i hfind
    rw [hfind]
    dsimp only
    rw [colon_append hb]
    change (skim (t ++ rest)).map _ = _
    rw [skim_value hv hrest, h]
    rfl

/-- A member is one step, whether it is the first or comes after a comma. -/
theorem membersFrom_member (h : ReadsMember fields s m s') (ht : WritesMember m t)
    (hrest : Follows rest) (fuel : Nat) :
    membersFrom fields true s (fuel + 1) (t ++ rest) = membersFrom fields false s' fuel rest ∧
      ∀ b, IsBlank b → membersFrom fields false s (fuel + 1) (b ++ ',' :: (t ++ rest)) =
        membersFrom fields false s' fuel rest := by
  cases ht with
  | mk hb hkey hb' hv =>
      rename_i key v b k b' u
      have hstep {first : Bool} {x : Text}
          (hnext : nextKey? first x = .ok (some (k ++ '\"' :: (b' ++ ':' :: (u ++ rest))))) :
          membersFrom fields first s (fuel + 1) x = membersFrom fields false s' fuel rest := by
        rw [membersFrom, hnext]
        change (string (k ++ '\"' :: (b' ++ ':' :: (u ++ rest))) >>= _) = _
        rw [string_text hkey]
        change (member fields key s (b' ++ ':' :: (u ++ rest)) >>= _) = _
        rw [member_reads h hb' hv hrest]
        rfl
      simp only [List.append_assoc, List.cons_append]
      exact ⟨hstep (nextKey?_first hb _), fun _ hcomma => hstep (nextKey?_comma hcomma hb _)⟩

theorem membersFrom_close {b : Text} (hb : IsBlank b) (first : Bool) (s : σ) (fuel : Nat) :
    membersFrom fields first s (fuel + 1) (b ++ '\x7d' :: rest) = .ok (s, b ++ '\x7d' :: rest) := by
  rw [membersFrom, nextKey?_close hb]
  rfl

end Members

/-! ### All members -/

/-- Whether members, one after the other, lead from some fields to others. -/
inductive ReadsMembers (fields : List (RecordField σ)) : σ → List (Text × Json) → σ → Prop
  | nil (s : σ) : ReadsMembers fields s [] s
  | cons {s s' s'' : σ} {m : Text × Json} {members : List (Text × Json)} :
      ReadsMember fields s m s' → ReadsMembers fields s' members s'' →
      ReadsMembers fields s (m :: members) s''

theorem length_le_of_writesMembers {members : List (Text × Json)} {t : Text}
    (h : WritesMembers members t) : members.length ≤ t.length := by
  have hmember {m : Text × Json} {t : Text} (h : WritesMember m t) : 1 ≤ t.length := by
    cases h with
    | mk _ _ _ _ =>
        simp only [List.length_append, List.length_cons]
        omega
  induction members generalizing t with
  | nil => exact Nat.zero_le _
  | cons m members ih =>
      cases h with
      | last hm hb =>
          have hle := hmember hm
          simp only [List.length_append, List.length_cons, List.length_nil]
          omega
      | cons hm hb hmembers =>
          have hle := ih hmembers
          simp only [List.length_append, List.length_cons] at hle ⊢
          omega

/-- The members of an object are read up to the brace that closes it, or the blanks before it,
whether they are the first ones or come after a comma. -/
theorem membersFrom_members {fields : List (RecordField σ)} {s s' : σ}
    {members : List (Text × Json)} (hreads : ReadsMembers fields s members s') {t : Text}
    (h : WritesMembers members t) {fuel : Nat} (hfuel : members.length < fuel) (rest : Text) :
    ∃ b, IsBlank b ∧
      membersFrom fields true s fuel (t ++ '\x7d' :: rest) = .ok (s', b ++ '\x7d' :: rest) ∧
      (members ≠ [] → ∀ b', IsBlank b' →
        membersFrom fields false s fuel (b' ++ ',' :: (t ++ '\x7d' :: rest)) =
          .ok (s', b ++ '\x7d' :: rest)) := by
  induction hreads generalizing t fuel with
  | nil s =>
      cases h with
      | nil hb =>
          obtain ⟨fuel, rfl⟩ := Nat.exists_eq_succ_of_ne_zero (Nat.ne_zero_of_lt hfuel)
          exact ⟨t, hb, membersFrom_close hb true s fuel, fun hne => absurd rfl hne⟩
  | cons hm hreads ih =>
      rename_i s s' s'' m members
      obtain ⟨fuel, rfl⟩ : ∃ k, fuel = k + 2 := ⟨fuel - 2, by rw [List.length_cons] at hfuel; omega⟩
      cases h with
      | last ht hb =>
          rename_i u b
          cases hreads
          obtain ⟨hfirst, hcomma⟩ :=
            membersFrom_member hm ht (follows_brace.blank_append hb) (fuel + 1)
          refine ⟨b, hb, ?_, fun _ b' hb' => ?_⟩
          · rw [List.append_assoc, hfirst, membersFrom_close hb]
          · rw [List.append_assoc, hcomma b' hb', membersFrom_close hb]
      | cons ht hb h =>
          obtain ⟨b, hblank, -, hrest⟩ := ih h (Nat.lt_of_succ_lt_succ hfuel)
          obtain ⟨hfirst, hcomma⟩ :=
            membersFrom_member hm ht (follows_comma.blank_append hb) (fuel + 1)
          refine ⟨b, hblank, ?_, fun _ b' hb' => ?_⟩
          · rw [List.append_assoc, List.append_assoc, List.cons_append, hfirst]
            exact hrest (List.cons_ne_nil _ _) _ hb
          · rw [List.append_assoc, List.append_assoc, List.cons_append, hcomma b' hb']
            exact hrest (List.cons_ne_nil _ _) _ hb

theorem record_reads {r : RecordReader σ α} {members : List (Text × Json)} {s : σ}
    (hreads : ReadsMembers r.fields r.start members s) {a : α} (hfinish : r.finish s = some a) :
    Reads (record r) (.object members) a := by
  intro t ht rest _
  cases ht with
  | object hb h =>
      rename_i b u
      have hfuel : members.length < (u ++ '\x7d' :: rest).length + 1 := by
        have hle := length_le_of_writesMembers h
        rw [List.length_append]
        omega
      obtain ⟨b', hb', hmembers, -⟩ := membersFrom_members hreads h hfuel rest
      have hclose : closeObject (b' ++ '\x7d' :: rest) = .ok rest := by
        rw [closeObject, skipSpace_append hb' rfl]
        rfl
      rw [record, List.append_assoc, List.cons_append, skipSpace_append hb rfl, List.append_assoc,
        List.singleton_append]
      change (membersFrom _ _ _ _ (u ++ '\x7d' :: rest) >>= _) = _
      rw [hmembers]
      dsimp only [bind, Except.bind]
      rw [hfinish, hclose]
      rfl

/-! ### Fields in any order -/

/-- Whether a field is kept in a slot of its own: `part given` holds the fields whose names are
given, and reading one more adds it. -/
structure HasSlot (part : (Text → Bool) → σ) (field : RecordField σ) (f : Text × (Json → Prop)) :
    Prop where
  name : field.name = f.1
  isRead : ∀ given, field.isRead (part given) = given f.1
  read : ∀ given v, f.2 v → Reads (field.read (part given)) v
    (part fun name => name == f.1 || given name)

theorem hasSlot_of {β : Type} {part : (Text → Bool) → σ} {name : String} {get : σ → Option β}
    {set : σ → β → σ} {reader : JsonReader β} {P : Json → Prop} {x : β}
    (hget : ∀ given, (get (part given)).isSome = given name.toList)
    (hset : ∀ given, set (part given) x = part fun n => n == name.toList || given n)
    (hread : ∀ v, P v → Reads reader v x) :
    HasSlot part (.of name get set reader) (name.toList, P) where
  name := rfl
  isRead := hget
  read given v hv t ht rest hrest := by
    change (reader (t ++ rest)).map _ = _
    rw [hread v hv t ht rest hrest, ← hset given]
    rfl

/-- How the fields of a record are kept, each in its slot. -/
structure Slots (r : RecordReader σ α) (fields : List (Text × (Json → Prop)))
    (part : (Text → Bool) → σ) : Prop where
  start : r.start = part fun _ => false
  hasSlot : List.Forall₂ (HasSlot part) r.fields fields
  congr : ∀ given given', (∀ f ∈ fields, given f.1 = given' f.1) → part given = part given'

namespace Slots

variable {r : RecordReader σ α} {fields : List (Text × (Json → Prop))} {part : (Text → Bool) → σ}

theorem find?_name {record : List (RecordField σ)} (h : List.Forall₂ (HasSlot part) record fields)
    (key : Text) :
    (record.find? (·.name == key) = none ∧ key ∉ fields.map Prod.fst) ∨
      ∃ field f, record.find? (·.name == key) = some field ∧ f ∈ fields ∧ f.1 = key ∧
        HasSlot part field f := by
  induction h with
  | nil => exact Or.inl ⟨rfl, List.not_mem_nil⟩
  | @cons field f record fields hfield _ ih =>
      by_cases hkey : f.1 = key
      · refine Or.inr ⟨field, f, ?_, List.mem_cons_self, hkey, hfield⟩
        exact List.find?_cons_of_pos (by rw [hfield.name, hkey, beq_self_eq_true])
      · rw [List.find?_cons_of_neg (by rw [hfield.name, beq_iff_eq]; exact hkey), List.map_cons,
          List.mem_cons, not_or]
        rcases ih with ⟨hnone, hnot⟩ | ⟨field', f', hsome, hmem, hname, hslot⟩
        · exact Or.inl ⟨hnone, Ne.symm hkey, hnot⟩
        · exact Or.inr ⟨field', f', hsome, List.mem_cons_of_mem _ hmem, hname, hslot⟩

/-- A member with the key of a field that is not there yet is read into its slot. -/
theorem readsMember_known (h : Slots r fields part) {m : Text × Json}
    (hvalue : ∀ f ∈ fields, f.1 = m.1 → f.2 m.2) (hkey : m.1 ∈ fields.map Prod.fst)
    {given : Text → Bool} (hnew : given m.1 = false) :
    ReadsMember r.fields (part given) m (part fun name => name == m.1 || given name) := by
  obtain ⟨-, hnot⟩ | ⟨field, f, hfind, hmem, hname, hslot⟩ := find?_name h.hasSlot m.1
  · exact absurd hkey hnot
  · rw [ReadsMember, hfind, ← hname]
    refine ⟨?_, hslot.read given m.2 (hvalue f hmem hname)⟩
    rw [hslot.isRead, hname, hnew]

theorem readsMember_unknown (h : Slots r fields part) {m : Text × Json}
    (hkey : m.1 ∉ fields.map Prod.fst) (s : σ) : ReadsMember r.fields s m s := by
  obtain ⟨hnone, -⟩ | ⟨-, f, -, hmem, hname, -⟩ := find?_name h.hasSlot m.1
  · rw [ReadsMember, hnone]
  · exact absurd (List.mem_map.mpr ⟨f, hmem, hname⟩) hkey

/-- Members are read into the slots of their fields, in whatever order they come. -/
theorem readsMembers (h : Slots r fields part) {members : List (Text × Json)}
    (hvalues : ∀ m ∈ members, ∀ f ∈ fields, f.1 = m.1 → f.2 m.2) (seen : List Text)
    (hnodup : (seen ++ fieldKeys (fields.map Prod.fst) members).Nodup) :
    ReadsMembers r.fields (part fun name => name ∈ seen) members
      (part fun name => name ∈ seen ++ fieldKeys (fields.map Prod.fst) members) := by
  induction members generalizing seen with
  | nil =>
      rw [fieldKeys, List.map_nil, List.filter_nil, List.append_nil]
      exact .nil _
  | cons m members ih =>
      obtain ⟨hvalue, hvalues⟩ := List.forall_mem_cons.mp hvalues
      by_cases hkey : m.1 ∈ fields.map Prod.fst
      · rw [fieldKeys_cons_of_mem hkey, List.append_cons] at hnodup ⊢
        have hnew : m.1 ∉ seen := by
          intro hmem
          have hne := (List.nodup_append.mp (List.nodup_append.mp hnodup).1).2.2
          exact hne m.1 hmem m.1 (List.mem_singleton_self _) rfl
        have hseen : (fun name => decide (name ∈ seen ++ [m.1])) =
            fun name => name == m.1 || decide (name ∈ seen) := by
          funext name
          simp [Bool.or_comm, beq_eq_decide]
        refine .cons ?_ (ih hvalues (seen ++ [m.1]) hnodup)
        rw [hseen]
        exact h.readsMember_known hvalue hkey (decide_eq_false hnew)
      · rw [fieldKeys_cons_of_notMem hkey] at hnodup ⊢
        exact .cons (h.readsMember_unknown hkey _) (ih hvalues seen hnodup)

/-- A record is known from the fields that are given. -/
theorem reads_record (h : Slots r fields part) {given : Text → Bool} {v : Json}
    (hv : v.HasFields fields given) {a : α} (hfinish : r.finish (part given) = some a) :
    Reads (record r) v a := by
  obtain ⟨members, rfl, hnodup, hfields⟩ := hv
  have hvalues : ∀ m ∈ members, ∀ f ∈ fields, f.1 = m.1 → f.2 m.2 :=
    fun m hm f hf hkey => (hfields f hf).2 m.2 (hkey ▸ hm)
  have hreads := h.readsMembers hvalues [] hnodup
  have hgiven : part given = part fun name => decide (name ∈ [] ++
      fieldKeys (fields.map Prod.fst) members) := by
    refine h.congr _ _ fun f hf => ?_
    have hname : f.1 ∈ fields.map Prod.fst := List.mem_map_of_mem hf
    rw [Bool.eq_iff_iff, ← (hfields f hf).1, decide_eq_true_iff, List.nil_append, mem_fieldKeys,
      and_iff_left hname]
  have hstart : r.start = part fun name => decide (name ∈ ([] : List Text)) :=
    h.start.trans (congrArg part (by funext name; simp))
  rw [← hstart, ← hgiven] at hreads
  exact record_reads hreads hfinish

end Slots

end JsonReader

end ElementScript
