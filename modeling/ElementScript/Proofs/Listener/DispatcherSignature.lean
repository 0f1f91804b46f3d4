import ElementScript.Proofs.Listener.Parameters

/-!
# The signature of the dispatcher

The method that is generated for listeners takes the name of the attribute and the two values, under
the names that the vocabulary gives to them. `methodParameters?` reads the names back from the text.
In a vocabulary without flaws the values are named by two identifiers that differ, but neither is
compared with the name of the first parameter, which is fixed. So the parameters differ if and only
if the vocabulary leaves that name alone (`dispatcher_parameters`).
-/

namespace ElementScript

/-- The names between the commas of a parameter list, without blanks around them. -/
def listedNames (list : Text) : List Text := (list.splitOnP (· == ',')).map Text.trim

/-- The parameter names of the method called `name` with which the text begins, behind blanks. -/
def methodParameters? (name text : Text) : Option (List Text) :=
  (callAt? name (Text.trimStart text)).map fun call =>
    listedNames ((call.args.drop 1).takeWhile (· != ')'))

/-! ### Lists of names -/

section Names

variable {name gap : Text}

theorem notMem_of_isIdentifier (hname : Text.isIdentifier name) {c : Char}
    (hc : ¬ Text.isIdentifierPart c) : c ∉ name :=
  fun hmem => hc (Text.isIdentifierPart_of_mem hname c hmem)

theorem comma_notMem (hgap : ∀ c ∈ gap, Text.isBlank c) (hname : Text.isIdentifier name) :
    ∀ c ∈ gap ++ name, (c == ',') = false := by
  intro c hc
  rw [beq_eq_false_iff_ne]
  rintro rfl
  rcases List.mem_append.mp hc with hmem | hmem
  · exact absurd (hgap _ hmem) (by decide)
  · exact notMem_of_isIdentifier hname (by decide) hmem

theorem trim_append_identifier (hgap : ∀ c ∈ gap, Text.isBlank c) (hname : Text.isIdentifier name) :
    Text.trim (gap ++ name) = name := by
  have hblank : ∀ c ∈ name, ¬ Text.isBlank c :=
    fun c hc => Text.not_isBlank_of_isIdentifierPart (Text.isIdentifierPart_of_mem hname c hc)
  simpa using Text.trim_append (Text.ne_nil_of_isIdentifier hname) hblank hgap
    (List.forall_mem_nil _)

/-- Identifiers are read back from the text that lists them. -/
theorem listedNames_intercalate (hgap : ∀ c ∈ gap, Text.isBlank c) {names : List Text}
    (hnames : ∀ other ∈ name :: names, Text.isIdentifier other) :
    listedNames (gap ++ ", ".toList.intercalate (name :: names)) = name :: names := by
  induction names generalizing gap name with
  | nil =>
      have hname := hnames name List.mem_cons_self
      rw [List.intercalate_singleton, listedNames,
        List.splitOnP_eq_singleton (comma_notMem hgap hname), List.map_singleton,
        trim_append_identifier hgap hname]
  | cons next names ih =>
      obtain ⟨hname, hrest⟩ := List.forall_mem_cons.mp hnames
      -- The blank behind the comma is put in front of the names that follow.
      have htext : gap ++ ", ".toList.intercalate (name :: next :: names) =
          (gap ++ name) ++ ',' :: ([' '] ++ ", ".toList.intercalate (next :: names)) := by
        rw [List.intercalate_cons_cons]
        simp
      have hblank : ∀ c ∈ [' '], Text.isBlank c := List.forall_mem_singleton.mpr rfl
      rw [htext, listedNames, List.splitOnP_append_cons_of_forall_mem (comma_notMem hgap hname) ','
        rfl, List.map_cons, trim_append_identifier hgap hname]
      exact congrArg (name :: ·) (ih hblank hrest)

/-- The parenthesis that closes a list of identifiers is the first one. -/
theorem closing_notMem {names : List Text}
    (hnames : ∀ other ∈ name :: names, Text.isIdentifier other) :
    ')' ∉ ", ".toList.intercalate (name :: names) := by
  induction names generalizing name with
  | nil =>
      rw [List.intercalate_singleton]
      exact notMem_of_isIdentifier (hnames name List.mem_cons_self) (by decide)
  | cons next names ih =>
      obtain ⟨hname, hrest⟩ := List.forall_mem_cons.mp hnames
      rw [List.intercalate_cons_cons, List.mem_append, List.mem_append, not_or, not_or]
      exact ⟨⟨notMem_of_isIdentifier hname (by decide), by decide⟩, ih hrest⟩

/-- The parameters of a method are read back from its signature. -/
theorem methodParameters?_signature (hgap : ∀ c ∈ gap, Text.isBlank c) {method : Text}
    (hmethod : Text.isIdentifier method) {names : List Text}
    (hnames : ∀ other ∈ name :: names, Text.isIdentifier other) (after : Text) :
    methodParameters? method
      (gap ++ (method ++ '(' :: (", ".toList.intercalate (name :: names) ++ ')' :: after))) =
        some (name :: names) := by
  have hne := Text.ne_nil_of_isIdentifier hmethod
  have hskip (t : Text) : Text.trimStart (gap ++ (method ++ t)) = method ++ t := by
    obtain ⟨c, u, rfl⟩ := List.exists_cons_of_ne_nil hne
    have hc := Text.isIdentifierPart_of_mem hmethod c List.mem_cons_self
    exact Text.trimStart_append_cons hgap (Text.not_isBlank_of_isIdentifierPart hc)
  have hcall (t : Text) : callAt? method (method ++ '(' :: t) = some ⟨method, '(' :: t⟩ := by
    simpa using callAt?_append hne (List.forall_mem_nil _) t
  obtain ⟨hlist, -⟩ := takeWhile_dropWhile_of_notMem (closing_notMem hnames) after
  rw [methodParameters?, hskip, hcall, Option.map_some, List.drop_one, List.tail_cons, hlist]
  exact congrArg some (listedNames_intercalate (List.forall_mem_nil _) hnames)

end Names

/-! ### The dispatcher -/

namespace Dispatcher

/-- The parameters of the method: the name of the attribute, and the two values. -/
def parameterNames (v : Vocabulary) : List Text :=
  ["attr".toList, v.oldValueName, v.newValueName]

theorem isIdentifier_parameterNames {v : Vocabulary} (hv : v.flaw? = none) :
    ∀ name ∈ parameterNames v, Text.isIdentifier name := by
  obtain ⟨hold, hnew⟩ := v.isIdentifier_of_flaw?_eq_none hv
  rw [parameterNames, List.forall_mem_cons, List.forall_mem_cons, List.forall_mem_singleton]
  exact ⟨by decide, hold, hnew⟩

/-- The list of the parameters stands behind the name of the method. -/
theorem signature_eq (v : Vocabulary) :
    signature v = "attributeChangedCallback".toList ++
      '(' :: (", ".toList.intercalate (parameterNames v) ++ ')' :: " \x7b\n".toList) := by
  have hlead : "attributeChangedCallback(attr, ".toList =
      "attributeChangedCallback".toList ++ '(' :: ("attr".toList ++ ", ".toList) := by rfl
  have hclose : ") \x7b\n".toList = ')' :: " \x7b\n".toList := by rfl
  unfold signature parameterNames
  rw [hlead, hclose]
  generalize "attributeChangedCallback".toList = method
  generalize "attr".toList = first
  generalize ", ".toList = comma
  generalize " \x7b\n".toList = opening
  rw [List.intercalate_cons_cons, List.intercalate_cons_cons, List.intercalate_singleton]
  simp

/-- The members begin with a line feed and the signature. -/
theorem exists_members_eq (v : Vocabulary) (listeners : List Listener) :
    ∃ behind, dispatcherMembers v listeners = ['\n'] ++ ("attributeChangedCallback".toList ++
      '(' :: (", ".toList.intercalate (parameterNames v) ++ ')' :: behind)) := by
  unfold dispatcherMembers method
  rw [signature_eq]
  simp only [List.append_assoc, List.cons_append]
  exact ⟨_, rfl⟩

end Dispatcher

/-- The method made for any listeners has three parameters, and all are identifiers. They differ
from each other if and only if neither value has the name of the first parameter. -/
theorem dispatcher_parameters {v : Vocabulary} (hv : v.flaw? = none) (listeners : List Listener) :
    ∃ names, methodParameters? "attributeChangedCallback".toList (dispatcherMembers v listeners) =
        some names ∧
      names = ["attr".toList, v.oldValueName, v.newValueName] ∧
      (∀ name ∈ names, Text.isIdentifier name) ∧
      (names.Nodup ↔ v.oldValueName ≠ "attr".toList ∧ v.newValueName ≠ "attr".toList) := by
  have hidentifiers := Dispatcher.isIdentifier_parameterNames hv
  obtain ⟨-, -, -, -, -, hvalues⟩ := Vocabulary.flaw?_eq_none_iff.mp hv
  refine ⟨Dispatcher.parameterNames v, ?_, rfl, hidentifiers, ?_⟩
  · have hblank : ∀ c ∈ ['\n'], Text.isBlank c := List.forall_mem_singleton.mpr rfl
    have hmethod : Text.isIdentifier "attributeChangedCallback".toList := by decide
    obtain ⟨behind, hmembers⟩ := Dispatcher.exists_members_eq v listeners
    rw [hmembers]
    exact methodParameters?_signature hblank hmethod hidentifiers behind
  · have hnodup : (Dispatcher.parameterNames v).Nodup ↔
        ("attr".toList ≠ v.oldValueName ∧ "attr".toList ≠ v.newValueName) ∧
          v.oldValueName ≠ v.newValueName := by
      simp [Dispatcher.parameterNames]
    rw [hnodup, and_iff_left hvalues, ne_comm, ne_comm (b := v.newValueName)]

/-- The previous value may have the name of the first parameter, and then two parameters have one
name. -/
theorem clashingName_parameters :
    let v := { Vocabulary.standard with oldValueName := "attr".toList }
    let listeners := [⟨"a".toList, "f(newValue);".toList, none, some "v".toList⟩]
    v.flaw? = none ∧ v.oldValueName = "attr".toList ∧
    methodParameters? "attributeChangedCallback".toList (dispatcherMembers v listeners) =
      some ["attr".toList, "attr".toList, "newValue".toList] ∧
    ¬ ["attr".toList, "attr".toList, "newValue".toList].Nodup := by
  intro v listeners
  have hv : v.flaw? = none := by decide
  obtain ⟨names, hread, rfl, -, hnodup⟩ := dispatcher_parameters hv listeners
  exact ⟨hv, rfl, hread, fun h => (hnodup.mp h).1 rfl⟩

end ElementScript
