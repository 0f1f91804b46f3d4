import Mathlib.Data.Char
import Mathlib.Data.List.Lex
import Mathlib.Data.List.Nodup
import ElementScript.Files.Tree
import ElementScript.Proofs.Component.Store

/-!
# What a request is answered

The components of a request are found one name after the other, while the store changes and the
names seen are passed over. None of this shows in the answer: what a name stands for is what a load
of it from the store before the request gives (`answer_answered`). One name of the request is one
step (`Answered.pass`, `Answered.load`), and the whole request is a run of them
(`answerFrom_answered`). So requests are answered name by name (`answer_append`).
-/

namespace ElementScript

/-! ### Lists by name -/

section ByName

variable {α : Type} {a b : List (Text × α)} {k : Text} {x : α}

/-- A list by name, in the order of the names: no name comes twice. -/
def InNameOrder (a : List (Text × α)) : Prop := a.Pairwise fun p q => p.1 < q.1

theorem lookup_eq_some_iff_mem (h : (a.map Prod.fst).Nodup) : a.lookup k = some x ↔ (k, x) ∈ a := by
  induction a with
  | nil => simp
  | cons p a ih =>
      obtain ⟨name, y⟩ := p
      obtain ⟨hname, ha⟩ := List.nodup_cons.mp h
      rw [List.lookup_cons, List.mem_cons, Prod.mk.injEq]
      by_cases hk : k = name
      · subst hk
        have hnot : (k, x) ∉ a := fun hmem => hname (List.mem_map.mpr ⟨(k, x), hmem, rfl⟩)
        rw [beq_self_eq_true, Option.some.injEq]
        simp [hnot, eq_comm]
      · rw [beq_eq_false_iff_ne.mpr hk, ih ha]
        simp [hk]

theorem InNameOrder.nodup (h : InNameOrder a) : (a.map Prod.fst).Nodup :=
  List.pairwise_map.mpr (h.imp fun hlt => ne_of_lt hlt)

/-- A list by name is known from what its names stand for. -/
theorem InNameOrder.ext (ha : InNameOrder a) (hb : InNameOrder b)
    (h : ∀ k, a.lookup k = b.lookup k) : a = b := by
  have hmem (p : Text × α) : p ∈ a ↔ p ∈ b := by
    rw [← lookup_eq_some_iff_mem ha.nodup, ← lookup_eq_some_iff_mem hb.nodup, h]
  have hperm : a.Perm b :=
    (List.perm_ext_iff_of_nodup ha.nodup.of_map hb.nodup.of_map).mpr hmem
  exact hperm.eq_of_pairwise (fun p q _ _ hpq hqp => absurd hpq (lt_asymm hqp)) ha hb

/-- Sorting a list without repeated names puts it in the order of its names. -/
theorem inNameOrder_mergeSort (h : (a.map Prod.fst).Nodup) :
    InNameOrder (a.mergeSort fun p q => !decide (q.1 < p.1)) := by
  have hsorted : (a.mergeSort fun p q => !decide (q.1 < p.1)).Pairwise
      fun p q => (!decide (q.1 < p.1)) = true := by
    refine List.pairwise_mergeSort ?_ ?_ a
    · intro p q r hpq hqr
      simp only [Bool.not_eq_true', decide_eq_false_iff_not, not_lt] at hpq hqr ⊢
      exact hpq.trans hqr
    · intro p q
      simp only [Bool.or_eq_true, Bool.not_eq_true', decide_eq_false_iff_not, not_lt]
      exact le_total p.1 q.1
  have hperm := List.mergeSort_perm a fun p q => !decide (q.1 < p.1)
  have hne := List.pairwise_map.mp ((hperm.map Prod.fst).nodup_iff.mpr h)
  refine (hsorted.and hne).imp ?_
  intro p q hspec
  obtain ⟨hle, hne⟩ := hspec
  simp only [Bool.not_eq_true', decide_eq_false_iff_not, not_lt] at hle
  exact lt_of_le_of_ne hle hne

theorem lookup_mergeSort (h : (a.map Prod.fst).Nodup) (le : Text × α → Text × α → Bool)
    (k : Text) : (a.mergeSort le).lookup k = a.lookup k := by
  have hperm := List.mergeSort_perm a le
  refine Option.ext fun x => ?_
  rw [lookup_eq_some_iff_mem h, lookup_eq_some_iff_mem ((hperm.map Prod.fst).nodup_iff.mpr h),
    hperm.mem_iff]

end ByName

namespace Component.Store

/-! ### One name of a request -/

/-- Whether a request asks for the component of a name, in whatever spelling. -/
def asksFor (store : Component.Store) (names : List Text) (k : Text) : Bool :=
  names.any fun raw => store.accepts raw && Component.canonicalName raw == k

section Step

variable {files : FileAccess Id} {start now : Component.Store} {names : List Text} {raw k : Text}
  {found : List (Text × Component)}

theorem asksFor_iff : start.asksFor names k ↔
    ∃ raw ∈ names, start.accepts raw ∧ Component.canonicalName raw = k := by
  simp [asksFor]

theorem asksFor_append (names' : List Text) :
    start.asksFor (names ++ names') k = (start.asksFor names k || start.asksFor names' k) := by
  simp [asksFor]

/-- A name asks for nothing but its form for looking up. -/
theorem asksFor_append_of_ne (hk : k ≠ Component.canonicalName raw) :
    start.asksFor (names ++ [raw]) k = start.asksFor names k := by
  simp [asksFor, hk.symm]

/-- A name that comes again, is not looked up, or whose component is asked for already, asks for
nothing new. -/
theorem asksFor_append_of_old
    (hold : raw ∈ names ∨ ¬ start.accepts raw ∨ start.asksFor names (Component.canonicalName raw)) :
    start.asksFor (names ++ [raw]) k = start.asksFor names k := by
  rw [Bool.eq_iff_iff, asksFor_iff, asksFor_iff]
  constructor
  · rintro ⟨r, hr, haccepts, rfl⟩
    rcases List.mem_append.mp hr with hr | hr
    · exact ⟨r, hr, haccepts, rfl⟩
    · obtain rfl := List.mem_singleton.mp hr
      rcases hold with hmem | hrefused | hasked
      · exact ⟨r, hmem, haccepts, rfl⟩
      · exact absurd haccepts hrefused
      · exact asksFor_iff.mp hasked
  · rintro ⟨r, hr, haccepts, rfl⟩
    exact ⟨r, List.mem_append_left _ hr, haccepts, rfl⟩

theorem asksFor_append_of_accepts (haccepts : start.accepts raw) :
    start.asksFor (names ++ [raw]) (Component.canonicalName raw) := by
  simp [asksFor, haccepts]

theorem accepts_congr (hconfig : now.config = start.config) (raw : Text) :
    now.accepts raw = start.accepts raw := by
  rw [accepts, accepts, hconfig]

/-- The names of a request to the store `start` have been gone through: the components `found` are
what loads from that store give, and in the store `now` these have been kept and nothing else. -/
structure Answered (files : FileAccess Id) (start : Component.Store) (names : List Text)
    (found : List (Text × Component)) (now : Component.Store) : Prop where
  config : now.config = start.config
  compiler : now.compiler = start.compiler
  nodup : (found.map Prod.fst).Nodup
  lookup : ∀ k, found.lookup k = if start.asksFor names k then start.load? files k else none
  find? : ∀ k, now.find? k = (found.lookup k).or (start.find? k)

namespace Answered

theorem nil : Answered files start [] [] start :=
  ⟨rfl, rfl, List.nodup_nil, by simp [asksFor], by simp⟩

/-- A name that asks for nothing new is passed over. -/
theorem append_old (h : Answered files start names found now)
    (hold : raw ∈ names ∨ ¬ start.accepts raw ∨
      (found.lookup (Component.canonicalName raw)).isSome) :
    Answered files start (names ++ [raw]) found now := by
  refine { h with lookup := fun k => ?_ }
  rw [asksFor_append_of_old, h.lookup]
  refine hold.imp_right (Or.imp_right fun hfound => ?_)
  rw [h.lookup] at hfound
  by_contra hasked
  rw [if_neg hasked] at hfound
  cases hfound

/-- A name under which nothing has been found stands for what a load from the store `start`
gives, whether it has been tried before or not. -/
theorem load?_eq (h : Answered files start names found now) (hnew : found.lookup k = none) :
    now.load? files k = start.load? files k := by
  refine load?_congr files k h.config h.compiler ?_
  rw [h.find?, hnew, Option.none_or]

/-- A component that is loaded for a name is found under it, and kept. -/
theorem append_loaded {component : Component} (h : Answered files start names found now)
    (haccepts : start.accepts raw) (hnew : found.lookup (Component.canonicalName raw) = none)
    (hload : now.load? files (Component.canonicalName raw) = some component) :
    Answered files start (names ++ [raw]) ((Component.canonicalName raw, component) :: found)
      (now.fetch files (Component.canonicalName raw)).2 := by
  have hload' := h.load?_eq hnew ▸ hload
  have hcons (k : Text) : ((Component.canonicalName raw, component) :: found).lookup k =
      if k = Component.canonicalName raw then some component else found.lookup k := by
    rw [List.lookup_cons]
    by_cases hk : k = Component.canonicalName raw
    · rw [if_pos hk, beq_iff_eq.mpr hk]
    · rw [if_neg hk, beq_eq_false_iff_ne.mpr hk]
  refine ⟨?_, ?_, ?_, fun k => ?_, fun k => ?_⟩
  · rw [fetch_config, h.config]
  · rw [fetch_compiler, h.compiler]
  · refine List.nodup_cons.mpr ⟨fun hmem => ?_, h.nodup⟩
    obtain ⟨p, hp, hname⟩ := List.mem_map.mp hmem
    have hne := List.lookup_eq_none_iff.mp hnew p hp
    simp [hname] at hne
  · rw [hcons]
    by_cases hk : k = Component.canonicalName raw
    · rw [if_pos hk, hk, if_pos (asksFor_append_of_accepts haccepts), hload']
    · rw [if_neg hk, asksFor_append_of_ne hk, h.lookup]
  · rw [hcons, find?_fetch]
    by_cases hk : k = Component.canonicalName raw
    · rw [if_pos hk, if_pos hk, hk, hload, Option.some_or]
    · rw [if_neg hk, if_neg hk, h.find?]

/-- A load that gives no component leaves no trace. -/
theorem append_absent (h : Answered files start names found now)
    (hnew : found.lookup (Component.canonicalName raw) = none)
    (hload : now.load? files (Component.canonicalName raw) = none) :
    Answered files start (names ++ [raw]) found
      (now.fetch files (Component.canonicalName raw)).2 := by
  have hload' := h.load?_eq hnew ▸ hload
  rw [fetch_snd_of_load?_eq_none hload]
  refine { h with lookup := fun k => ?_ }
  by_cases hk : k = Component.canonicalName raw
  · rw [hk, hnew, hload', ite_self]
  · rw [asksFor_append_of_ne hk, h.lookup]

end Answered

end Step

/-! ### A whole request -/

section Run

variable {files : FileAccess Id} {start now : Component.Store} {names seen : List Text}
  {found : List (Text × Component)}

theorem answerFrom_pass {raw : Text} (names' : List Text)
    (h : seen.contains raw || !now.accepts raw ||
      (found.lookup (Component.canonicalName raw)).isSome) :
    answerFrom files now seen found (raw :: names') =
      answerFrom files now (raw :: seen) found names' := by
  rw [answerFrom]
  exact if_pos h

theorem answerFrom_load {raw : Text} {component : Component} (names' : List Text)
    (h : ¬ (seen.contains raw || !now.accepts raw ||
      (found.lookup (Component.canonicalName raw)).isSome))
    (hload : now.load? files (Component.canonicalName raw) = some component) :
    answerFrom files now seen found (raw :: names') =
      answerFrom files (now.fetch files (Component.canonicalName raw)).2 (raw :: seen)
        ((Component.canonicalName raw, component) :: found) names' := by
  have hfetch := load?_eq_some_iff.mp hload
  rw [answerFrom]
  dsimp only
  rw [if_neg h]
  simp only [bind, hfetch]

theorem answerFrom_fail {raw : Text} (names' : List Text)
    (h : ¬ (seen.contains raw || !now.accepts raw ||
      (found.lookup (Component.canonicalName raw)).isSome))
    (hload : now.load? files (Component.canonicalName raw) = none) :
    answerFrom files now seen found (raw :: names') =
      answerFrom files (now.fetch files (Component.canonicalName raw)).2 (raw :: seen) found
        names' := by
  rw [answerFrom]
  dsimp only
  rw [if_neg h]
  simp only [bind]
  split
  · rename_i component hsome
    rw [load?_eq_some_iff.mpr hsome] at hload
    cases hload
  · rfl

/-- The names of a request are gone through one after the other. -/
theorem answerFrom_answered (h : Answered files start names found now)
    (hseen : ∀ raw, raw ∈ seen ↔ raw ∈ names) (names' : List Text) :
    Answered files start (names ++ names') (answerFrom files now seen found names').1
      (answerFrom files now seen found names').2 := by
  induction names' generalizing now found names seen with
  | nil => simpa [answerFrom, pure] using h
  | cons raw names' ih =>
      have hseen' (r : Text) : r ∈ raw :: seen ↔ r ∈ names ++ [raw] := by
        simp [hseen, or_comm]
      rw [List.append_cons]
      by_cases hpass : seen.contains raw || !now.accepts raw ||
          (found.lookup (Component.canonicalName raw)).isSome
      · rw [answerFrom_pass names' hpass]
        refine ih (h.append_old ?_) hseen'
        simpa [hseen, accepts_congr h.config, or_assoc] using hpass
      · have hnew : found.lookup (Component.canonicalName raw) = none := by
          rw [Bool.or_eq_true, not_or] at hpass
          exact Option.not_isSome_iff_eq_none.mp hpass.2
        have haccepts : start.accepts raw := by
          rw [← accepts_congr h.config]
          simp only [Bool.or_eq_true, not_or, Bool.not_eq_true', Bool.not_eq_false] at hpass
          exact hpass.1.2
        cases hload : now.load? files (Component.canonicalName raw) with
        | some component =>
            rw [answerFrom_load names' hpass hload]
            exact ih (h.append_loaded haccepts hnew hload) hseen'
        | none =>
            rw [answerFrom_fail names' hpass hload]
            exact ih (h.append_absent hnew hload) hseen'

/-- A request that is not empty is answered: by the components that loads from the store give, in
the order of their names. -/
theorem answer_answered (store : Component.Store) (files : FileAccess Id) (h : names ≠ []) :
    ∃ components, (store.answer files names).1 = some components ∧ InNameOrder components ∧
      Answered files store names components (store.answer files names).2 := by
  have hrun : Answered files store names (answerFrom files store [] [] names).1
      (answerFrom files store [] [] names).2 := answerFrom_answered .nil (by simp) names
  have hempty : ¬ names.isEmpty := by simpa using h
  have hanswer : store.answer files names =
      (some ((answerFrom files store [] [] names).1.mergeSort fun a b => !decide (b.1 < a.1)),
        (answerFrom files store [] [] names).2) := by
    rw [answer]
    exact if_neg hempty
  rw [hanswer]
  refine ⟨_, rfl, inNameOrder_mergeSort hrun.nodup, ⟨hrun.config, hrun.compiler, ?_, ?_, ?_⟩⟩
  · exact (inNameOrder_mergeSort hrun.nodup).nodup
  · intro k
    rw [lookup_mergeSort hrun.nodup]
    exact hrun.lookup k
  · intro k
    rw [lookup_mergeSort hrun.nodup]
    exact hrun.find? k

end Run

/-! ### Names do not meddle with each other -/

variable {files : FileAccess Id} {store store' now now' : Component.Store}
  {names names' : List Text} {components components' : List (Text × Component)}

theorem asksFor_congr (hconfig : store.config = store'.config)
    (hnames : ∀ raw, raw ∈ names ↔ raw ∈ names') (k : Text) :
    store.asksFor names k = store'.asksFor names' k := by
  rw [Bool.eq_iff_iff, asksFor_iff, asksFor_iff]
  simp only [hnames, accepts_congr hconfig]

/-- What a name stands for in an answer is what a load of it alone gives. -/
theorem Answered.load?_of_lookup (h : Answered files store names components now) {k : Text}
    {x : Component} (hx : components.lookup k = some x) : store.load? files k = some x := by
  rw [h.lookup] at hx
  by_cases hasked : store.asksFor names k
  · rwa [if_pos hasked] at hx
  · rw [if_neg hasked] at hx
    cases hx

/-- Requests that consist of the same names, to stores that are alike, have the same answer and
leave stores that are alike. -/
theorem Answered.congr (h : Answered files store names components now)
    (h' : Answered files store' names' components' now') (halike : Alike store store')
    (hin : InNameOrder components) (hin' : InNameOrder components')
    (hnames : ∀ raw, raw ∈ names ↔ raw ∈ names') : components = components' ∧ Alike now now' := by
  have hlookup (k : Text) : components.lookup k = components'.lookup k := by
    rw [h.lookup, h'.lookup, asksFor_congr halike.config hnames,
      load?_congr files k halike.config halike.compiler (halike.find? k)]
  refine ⟨hin.ext hin' hlookup, ⟨?_, ?_, fun k => ?_⟩⟩
  · rw [h.config, h'.config, halike.config]
  · rw [h.compiler, h'.compiler, halike.compiler]
  · rw [h.find?, h'.find?, hlookup, halike.find?]

/-- Stores that are alike answer a request in the same way, and are alike after it. -/
theorem Alike.answer_alike (h : Alike store store') (files : FileAccess Id) (names : List Text) :
    (store.answer files names).1 = (store'.answer files names).1 ∧
      Alike (store.answer files names).2 (store'.answer files names).2 := by
  by_cases hne : names = []
  · subst hne
    exact ⟨rfl, h⟩
  obtain ⟨components, hanswer, hin, hanswered⟩ := answer_answered store files hne
  obtain ⟨components', hanswer', hin', hanswered'⟩ := answer_answered store' files hne
  obtain ⟨rfl, halike⟩ := hanswered.congr hanswered' h hin hin' fun raw => Iff.rfl
  exact ⟨hanswer.trans hanswer'.symm, halike⟩

/-- A request is answered name by name. The answer to two lists of names is the union of those to
each of them, which agree where both have a component: what a name stands for is what a load of it
alone gives. In what order the names come, how often and in what company makes no difference to the
answer or to the components that are kept. -/
theorem answer_append (store : Component.Store) (files : FileAccess Id) {a b : List Text}
    (ha : a ≠ []) (hb : b ≠ []) :
    ∃ inA inB inBoth, (store.answer files a).1 = some inA ∧ (store.answer files b).1 = some inB ∧
      (store.answer files (a ++ b)).1 = some inBoth ∧ InNameOrder inBoth ∧
      (∀ k, inBoth.lookup k = (inA.lookup k).or (inB.lookup k)) ∧
      (∀ k x y, inA.lookup k = some x → inB.lookup k = some y → x = y) ∧
      (∀ k, inBoth.lookup k =
        if store.asksFor (a ++ b) k then store.load? files k else none) ∧
      ∀ names, (∀ raw, raw ∈ names ↔ raw ∈ a ++ b) →
        (store.answer files names).1 = some inBoth ∧
        ∀ k, (store.answer files names).2.find? k = (store.answer files (a ++ b)).2.find? k := by
  have hab : a ++ b ≠ [] := List.append_ne_nil_of_left_ne_nil ha b
  obtain ⟨inA, hinA, -, hA⟩ := answer_answered store files ha
  obtain ⟨inB, hinB, -, hB⟩ := answer_answered store files hb
  obtain ⟨inBoth, hinBoth, horder, hBoth⟩ := answer_answered store files hab
  refine ⟨inA, inB, inBoth, hinA, hinB, hinBoth, horder, ?_, ?_, hBoth.lookup, ?_⟩
  · intro k
    rw [hBoth.lookup, hA.lookup, hB.lookup, asksFor_append]
    cases store.asksFor a k <;> cases store.asksFor b k <;> simp
  · intro k x y hx hy
    exact Option.some.inj ((hA.load?_of_lookup hx).symm.trans (hB.load?_of_lookup hy))
  · intro names hnames
    have hne : names ≠ [] := by
      obtain ⟨raw, hraw⟩ := List.exists_mem_of_ne_nil _ hab
      exact List.ne_nil_of_mem ((hnames raw).mpr hraw)
    obtain ⟨components, hcomponents, horder', hanswered⟩ := answer_answered store files hne
    obtain ⟨rfl, halike⟩ := hanswered.congr hBoth (.refl store) horder' horder hnames
    exact ⟨hcomponents, halike.find?⟩

/-- Names in several spellings, next to one that leads elsewhere and one that stands for nothing. -/
theorem answer_append_spellings :
    let store : Component.Store := ⟨.ofDirectory "c".toList, .standard, []⟩
    let files := (Tree.directory [("c".toList, .directory
      [("card".toList, .directory [("_card.html".toList, .file "<b>".toUTF8)]),
        ("nav".toList, .directory [("_nav.html".toList, .file "<i>".toUTF8)])])]).access
    ∃ inBoth, (store.answer files
        ([" CARD ".toList, "../c".toList] ++ ["nav".toList, "none".toList, "NAV".toList])).1 =
          some inBoth ∧
      ∀ k, inBoth.lookup k =
        ([("card".toList, ⟨"<b>".toList, none, none⟩)].lookup k).or
          ([("nav".toList, ⟨"<i>".toList, none, none⟩)].lookup k) := by
  intro store files
  obtain ⟨inA, inB, inBoth, hinA, hinB, hinBoth, -, hunion, -⟩ := store.answer_append files
    (a := [" CARD ".toList, "../c".toList]) (b := ["nav".toList, "none".toList, "NAV".toList])
    (by decide) (by decide)
  have hA : (store.answer files [" CARD ".toList, "../c".toList]).1 =
      some [("card".toList, ⟨"<b>".toList, none, none⟩)] := by decide +kernel
  have hB : (store.answer files ["nav".toList, "none".toList, "NAV".toList]).1 =
      some [("nav".toList, ⟨"<i>".toList, none, none⟩)] := by decide +kernel
  obtain rfl := Option.some.inj (hinA.symm.trans hA)
  obtain rfl := Option.some.inj (hinB.symm.trans hB)
  exact ⟨inBoth, hinBoth, hunion⟩

end Component.Store

end ElementScript
