import ElementScript.Proofs.Component.Request

/-!
# A store in use

Components are loaded one by one and for requests, while the files around the store change. The
first component that is given under a name is kept for good, and nothing else is kept
(`Remembers.append_step`, `run_remembers`). So what has happened before shows in a reply only by the
components that it gave and the files that it left (`run_load_memo`).
-/

namespace ElementScript

/-- A file system whose files change: how it looks in a state, and what becomes of the state when a
file is written or removed. -/
structure FileSystem (W : Type) where
  view : W → FileAccess Id
  write : W → Path → ByteArray → W
  remove : W → Path → W

/-- Directory trees as a file system. -/
def Tree.fileSystem : FileSystem Tree := ⟨access, writeFile, remove⟩

namespace Component

/-- A store, and the state of the files around it. -/
structure Session (W : Type) where
  store : Store
  files : W

namespace Session

/-- What can be done in a session. -/
inductive Action where
  | load (name : Text)
  | request (names : List Text)
  | write (path : Path) (bytes : ByteArray)
  | remove (path : Path)

/-- What comes of it. -/
inductive Reply where
  | loaded (result : Except LoadProblem (Option Component))
  | answered (components? : Option (List (Text × Component)))
  | done
  deriving DecidableEq

variable {W : Type} (fs : FileSystem W)

/-- Do one thing. -/
def step (s : Session W) : Action → Reply × Session W
  | .load name =>
    let loaded := s.store.fetch (fs.view s.files) name
    (.loaded loaded.1, { s with store := loaded.2 })
  | .request names =>
    let answered := s.store.answer (fs.view s.files) names
    (.answered answered.1, { s with store := answered.2 })
  | .write path bytes => (.done, { s with files := fs.write s.files path bytes })
  | .remove path => (.done, { s with files := fs.remove s.files path })

/-- Do one thing after the other: all that has been done, with the replies, and the session
then. -/
def run (s : Session W) : List Action → List (Action × Reply) × Session W
  | [] => ([], s)
  | action :: actions =>
    let next := step fs s action
    let rest := run next.2 actions
    ((action, next.1) :: rest.1, rest.2)

/-- A reply gives a component under a name. -/
def Gives (name : Text) (component : Component) : Action × Reply → Prop
  | (.load n, .loaded (.ok (some c))) => n = name ∧ c = component
  | (.request _, .answered (some components)) => components.lookup name = some component
  | _ => False

/-- The component has been given under the name. -/
def Given (past : List (Action × Reply)) (name : Text) (component : Component) : Prop :=
  ∃ event ∈ past, Gives name component event

/-! ### What a store remembers -/

/-- A store that was fresh when the session began has kept what has been given, and nothing
else. -/
structure Remembers (fresh : Store) (past : List (Action × Reply)) (store : Store) : Prop where
  config : store.config = fresh.config
  compiler : store.compiler = fresh.compiler
  find?_iff : ∀ name component, store.find? name = some component ↔ Given past name component

theorem given_append {past past' : List (Action × Reply)} {name : Text} {component : Component} :
    Given (past ++ past') name component ↔
      Given past name component ∨ Given past' name component := by
  simp [Given, or_and_right, exists_or]

theorem given_singleton {event : Action × Reply} {name : Text} {component : Component} :
    Given [event] name component ↔ Gives name component event := by
  simp [Given]

theorem gives_load {n name : Text} {component : Component}
    {result : Except LoadProblem (Option Component)} :
    Gives name component (.load n, .loaded result) ↔ n = name ∧ result = .ok (some component) := by
  match result with
  | .ok (some c) => simp [Gives]
  | .ok none => simp [Gives]
  | .error problem => simp [Gives]

theorem gives_request {names : List Text} {name : Text} {component : Component}
    {components? : Option (List (Text × Component))} :
    Gives name component (.request names, .answered components?) ↔
      ∃ components, components? = some components ∧ components.lookup name = some component := by
  cases components? <;> simp [Gives]

variable {fs} {fresh : Store} {past : List (Action × Reply)} {s : Session W}

theorem Remembers.nil (h : fresh.loaded = []) : Remembers fresh [] fresh := by
  refine ⟨rfl, rfl, fun name component => ?_⟩
  simp [Store.find?, h, Given]

/-- A reply that gives nothing is nothing to remember. -/
theorem Remembers.append_silent {store : Store} (h : Remembers fresh past store)
    {event : Action × Reply} (hsilent : ∀ name component, ¬ Gives name component event) :
    Remembers fresh (past ++ [event]) store := by
  refine ⟨h.config, h.compiler, fun name component => ?_⟩
  rw [given_append, given_singleton, or_iff_left (hsilent name component), h.find?_iff]

theorem Remembers.append_load (h : Remembers fresh past s.store) (name : Text) :
    Remembers fresh (past ++ [(.load name, (step fs s (.load name)).1)])
      (step fs s (.load name)).2.store := by
  unfold step
  dsimp only
  refine ⟨?_, ?_, fun k component => ?_⟩
  · rw [← h.config]
    exact Store.fetch_config
  · rw [← h.compiler]
    exact Store.fetch_compiler
  · rw [given_append, given_singleton, ← h.find?_iff, gives_load, Store.find?_fetch,
      ← Store.load?_eq_some_iff]
    by_cases hk : k = name
    · subst hk
      rw [if_pos rfl, eq_self, true_and, iff_or_self]
      exact Store.load?_of_find?
    · rw [if_neg hk]
      simp [Ne.symm hk]

theorem Remembers.append_request (h : Remembers fresh past s.store) {names : List Text}
    (hne : names ≠ []) :
    Remembers fresh (past ++ [(.request names, (step fs s (.request names)).1)])
      (step fs s (.request names)).2.store := by
  obtain ⟨components, hanswer, -, hanswered⟩ :=
    Store.answer_answered s.store (fs.view s.files) hne
  unfold step
  dsimp only
  refine ⟨hanswered.config.trans h.config, hanswered.compiler.trans h.compiler, ?_⟩
  intro k component
  rw [given_append, given_singleton, ← h.find?_iff, gives_request, hanswer, hanswered.find?]
  cases hlookup : components.lookup k with
  | none => simp [hlookup]
  | some found =>
      -- A component that was kept before is the one that is found now.
      have hsame (hfind : s.store.find? k = some component) : found = component := by
        have hload := hanswered.load?_of_lookup hlookup
        exact Option.some.inj (hload.symm.trans (Store.load?_of_find? hfind))
      simpa [hlookup] using hsame

/-- What an action gives is kept, unless a component was kept before. -/
theorem Remembers.append_step (h : Remembers fresh past s.store) (action : Action) :
    Remembers fresh (past ++ [(action, (step fs s action).1)]) (step fs s action).2.store := by
  cases action with
  | load name => exact h.append_load name
  | request names =>
      by_cases hne : names = []
      · subst hne
        exact h.append_silent fun _ _ => id
      · exact h.append_request hne
  | write path bytes => exact h.append_silent fun _ _ => id
  | remove path => exact h.append_silent fun _ _ => id

/-- At any time the store has kept what has been given so far. -/
theorem run_remembers (h : Remembers fresh past s.store) (actions : List Action) :
    Remembers fresh (past ++ (run fs s actions).1) (run fs s actions).2.store := by
  induction actions generalizing past s with
  | nil => simpa [run] using h
  | cons action actions ih =>
      rw [run, List.append_cons]
      exact ih (h.append_step action)

/-- The store of a session that began with a fresh one. -/
theorem run_fresh_remembers (hfresh : fresh.loaded = []) (files : W) (actions : List Action) :
    Remembers fresh (run fs ⟨fresh, files⟩ actions).1 (run fs ⟨fresh, files⟩ actions).2.store := by
  have hstart : Remembers fresh [] (Session.mk fresh files).store := .nil hfresh
  exact run_remembers hstart actions

theorem Remembers.find?_eq_none {store : Store} (h : Remembers fresh past store) {name : Text}
    (hnever : ∀ component, ¬ Given past name component) : store.find? name = none := by
  refine Option.eq_none_iff_forall_ne_some.mpr ?_
  intro component hsome
  exact hnever component ((h.find?_iff name component).mp hsome)

/-- Nothing but what has been given is remembered, so stores that have given the same are alike. -/
theorem Remembers.alike_of_given {past' : List (Action × Reply)} {store store' : Store}
    (h : Remembers fresh past store) (h' : Remembers fresh past' store')
    (hsame : ∀ name component, Given past name component ↔ Given past' name component) :
    store.Alike store' := by
  refine ⟨h.config.trans h'.config.symm, h.compiler.trans h'.compiler.symm, ?_⟩
  intro name
  refine Option.ext fun component => ?_
  rw [h.find?_iff, h'.find?_iff, hsame]

/-! ### Sessions that go on alike -/

/-- After a load that gives no component, the session is as it was. -/
theorem step_load_eq_self {name : Text}
    (hnone : ∀ component, (step fs s (.load name)).1 ≠ .loaded (.ok (some component))) :
    (step fs s (.load name)).2 = s := by
  have hload : s.store.load? (fs.view s.files) name = none := by
    refine Option.eq_none_iff_forall_ne_some.mpr ?_
    intro component hsome
    exact hnone component (congrArg Reply.loaded (Store.load?_eq_some_iff.mp hsome))
  exact congrArg (fun store => { s with store }) (Store.fetch_snd_of_load?_eq_none hload)

/-- Sessions with stores that are alike and the same files go on alike. -/
theorem run_alike {t : Session W} (hstore : s.store.Alike t.store) (hfiles : s.files = t.files)
    (actions : List Action) : (run fs s actions).1 = (run fs t actions).1 := by
  induction actions generalizing s t with
  | nil => rfl
  | cons action actions ih =>
      have hstep : (step fs s action).1 = (step fs t action).1 ∧
          (step fs s action).2.store.Alike (step fs t action).2.store ∧
          (step fs s action).2.files = (step fs t action).2.files := by
        cases action with
        | load name =>
            obtain ⟨hreply, halike⟩ := hstore.fetch_alike (fs.view t.files) name
            unfold step
            rw [hfiles]
            exact ⟨congrArg Reply.loaded hreply, halike, rfl⟩
        | request names =>
            obtain ⟨hreply, halike⟩ := hstore.answer_alike (fs.view t.files) names
            unfold step
            rw [hfiles]
            exact ⟨congrArg Reply.answered hreply, halike, rfl⟩
        | write path bytes => exact ⟨rfl, hstore, congrArg (fs.write · path bytes) hfiles⟩
        | remove path => exact ⟨rfl, hstore, congrArg (fs.remove · path) hfiles⟩
      obtain ⟨hreply, hstore', hfiles'⟩ := hstep
      rw [run, run, hreply, ih hstore' hfiles']

/-! ### Loading in a session -/

/-- What a load answers at any time of a session that began with a fresh store. A component that has
been given under the name before, by a load or for a request, is handed out again, and no file is
looked at, whatever the files are now. If none has been given, the answer is that of a fresh store
to the files as they are. A load that gives no component changes no later reply; and no reply tells
anything of what has been done before but the components that have been given and the files that
have been left. -/
theorem run_load_memo (fs : FileSystem W) {config : Config} {fresh : Store}
    (hfresh : Store.ofConfig config = .ok fresh) (files : W) (before : List Action) (name : Text) :
    let past := (run fs ⟨fresh, files⟩ before).1
    let now := (run fs ⟨fresh, files⟩ before).2
    let reply := (Session.step fs now (.load name)).1
    (∀ component, Given past name component →
      reply = .loaded (.ok (some component)) ∧
        ∀ (m : Type → Type) [Monad m] (anyFiles : FileAccess m),
          now.store.fetch anyFiles name = pure (.ok (some component), now.store)) ∧
    ((∀ component, ¬ Given past name component) →
      reply = .loaded (fresh.fetch (fs.view now.files) name).1) ∧
    ((∀ component, reply ≠ .loaded (.ok (some component))) →
      ∀ later, (run fs (Session.step fs now (.load name)).2 later).1 = (run fs now later).1) ∧
    ∀ files' before',
      (run fs ⟨fresh, files'⟩ before').2.files = now.files →
      (∀ k component, Given (run fs ⟨fresh, files'⟩ before').1 k component ↔
        Given past k component) →
      ∀ later, (run fs (run fs ⟨fresh, files'⟩ before').2 later).1 = (run fs now later).1 := by
  intro past now reply
  have hloaded : fresh.loaded = [] := Store.loaded_of_ofConfig hfresh
  have hnow : Remembers fresh past now.store := run_fresh_remembers hloaded files before
  refine ⟨?_, ?_, ?_, ?_⟩
  · intro component hgiven
    have hfind := (hnow.find?_iff name component).mpr hgiven
    refine ⟨?_, fun m _ anyFiles => Store.fetch_of_find? anyFiles hfind⟩
    exact congrArg Reply.loaded (by rw [Store.fetch_fst, hfind])
  · intro hnever
    have hfind : now.store.find? name = fresh.find? name := by
      rw [hnow.find?_eq_none hnever, Store.find?, hloaded]
      rfl
    exact congrArg Reply.loaded
      (Store.fetch_fst_congr (fs.view now.files) name hnow.config hnow.compiler hfind)
  · intro hnone later
    rw [step_load_eq_self hnone]
  · intro files' before' hfiles hsame later
    have hnow' : Remembers fresh _ (run fs ⟨fresh, files'⟩ before').2.store :=
      run_fresh_remembers hloaded files' before'
    exact run_alike (hnow'.alike_of_given hnow hsame) hfiles later

/-- A component is looked for in vain, written, loaded for a request, and written anew. -/
theorem run_load_memo_rewritten :
    let fresh : Store := ⟨.ofDirectory "c".toList, .standard, []⟩
    let before : List Action := [.load "card".toList,
      .write "c/card/_card.html".toList "<b>".toUTF8, .request [" CARD ".toList],
      .write "c/card/_card.html".toList "<i>".toUTF8]
    Store.ofConfig (.ofDirectory "c".toList) = .ok fresh ∧
      (Session.step Tree.fileSystem (run Tree.fileSystem ⟨fresh, .empty⟩ before).2
        (.load "card".toList)).1 = .loaded (.ok (some ⟨"<b>".toList, none, none⟩)) := by
  intro fresh before
  have hfresh : Store.ofConfig (.ofDirectory "c".toList) = .ok fresh := rfl
  obtain ⟨hgiven, -⟩ := run_load_memo Tree.fileSystem hfresh .empty before "card".toList
  refine ⟨hfresh, (hgiven ⟨"<b>".toList, none, none⟩ ?_).1⟩
  have hreply : (Session.step Tree.fileSystem
      (Session.step Tree.fileSystem
        (Session.step Tree.fileSystem ⟨fresh, .empty⟩ (.load "card".toList)).2
        (.write "c/card/_card.html".toList "<b>".toUTF8)).2
      (.request [" CARD ".toList])).1 =
        .answered (some [("card".toList, ⟨"<b>".toList, none, none⟩)]) := by decide +kernel
  refine ⟨(.request [" CARD ".toList], _), .tail _ (.tail _ (.head _)), ?_⟩
  rw [hreply]
  exact gives_request.mpr ⟨_, rfl, rfl⟩

end Session

end Component

end ElementScript
