import Cookbook.Proofs.Except
import Cookbook.Sources
import Mathlib.Data.List.Perm.Basic

/-!
# Both builds are one function

A build of files one after the other and a build in which they finish in any order give the same
registry, or the same error. Both amount to the registration of the outcomes of all tasks in order
of their places.

## Main results

* `collectFinished_perm`: however the tasks finish, their outcomes end up in order of places.
* `registerFinished_tasks`: the serial build registers the outcomes of the tasks in order.
* `buildConcurrently_eq_buildSerially`: the builds agree, and which file they fail with.
-/

namespace Cookbook

/-! ## Order of places -/

/-- Outcomes in order of their places, of which no two are the same. -/
def InOrder (finished : List Finished) : Prop :=
  finished.Pairwise fun a b => placeBefore a.1 b.1 = true

theorem placeBefore_iff {a b : Nat × Nat} :
    placeBefore a b = true ↔ a.1 < b.1 ∨ a.1 = b.1 ∧ a.2 < b.2 := by
  simp [placeBefore]

theorem placeBefore_trans {a b c : Nat × Nat} (hab : placeBefore a b = true)
    (hbc : placeBefore b c = true) : placeBefore a c = true := by
  rw [placeBefore_iff] at *
  omega

theorem placeBefore_asymm {a b : Nat × Nat} (hab : placeBefore a b = true) :
    placeBefore b a = false := by
  rw [← Bool.not_eq_true, placeBefore_iff]
  rw [placeBefore_iff] at hab
  omega

/-- Of two different places one comes before the other. -/
theorem placeBefore_of_ne {a b : Nat × Nat} (hne : a ≠ b) (h : placeBefore a b = false) :
    placeBefore b a = true := by
  have hdiff : ¬(a.1 = b.1 ∧ a.2 = b.2) := fun heq => hne (Prod.ext heq.1 heq.2)
  rw [← Bool.not_eq_true, placeBefore_iff] at h
  rw [placeBefore_iff]
  omega

/-! ## Outcomes in place -/

theorem insertFinished_perm {new : Finished} {finished : List Finished}
    (hnew : new.1 ∉ finished.map Prod.fst) :
    (insertFinished new finished).Perm (new :: finished) := by
  induction finished with
  | nil => exact List.Perm.refl _
  | cons old rest ih =>
    rw [List.map_cons, List.mem_cons, not_or] at hnew
    rw [insertFinished]
    split
    · exact List.Perm.refl _
    · rw [if_neg hnew.1]
      exact ((ih hnew.2).cons old).trans (List.Perm.swap new old rest)

theorem inOrder_insertFinished {new : Finished} {finished : List Finished}
    (horder : InOrder finished) (hnew : new.1 ∉ finished.map Prod.fst) :
    InOrder (insertFinished new finished) := by
  induction finished with
  | nil => exact List.pairwise_singleton _ _
  | cons old rest ih =>
    obtain ⟨hold, hrest⟩ := List.pairwise_cons.mp horder
    have hrestNew : new.1 ∉ rest.map Prod.fst := fun h => hnew (List.mem_cons_of_mem _ h)
    have hne : new.1 ≠ old.1 := fun h => hnew (h ▸ List.mem_cons_self)
    rw [insertFinished]
    split
    · next hbefore =>
      refine List.pairwise_cons.mpr ⟨?_, horder⟩
      intro x hx
      rcases List.mem_cons.mp hx with rfl | hx
      · exact hbefore
      · exact placeBefore_trans hbefore (hold x hx)
    · next hbefore =>
      refine List.pairwise_cons.mpr ⟨?_, ih hrest hrestNew⟩
      intro x hx
      -- The new outcome comes after the first one, as all the others do.
      rcases List.mem_cons.mp ((insertFinished_perm hrestNew).mem_iff.mp hx) with rfl | hx
      · exact placeBefore_of_ne hne (Bool.eq_false_iff.mpr hbefore)
      · exact hold x hx

/-- A task that runs is found in the table of places, and the others stay there. -/
theorem takePlace?_of_mem {places : List (TaskId × (Nat × Nat))} {id : TaskId} {place : Nat × Nat}
    (hnodup : (places.map Prod.fst).Nodup) (hmem : (id, place) ∈ places) :
    ∃ others, takePlace? id places = some (place, others) ∧
      places.Perm ((id, place) :: others) := by
  induction places with
  | nil => cases hmem
  | cons entry places ih =>
    obtain ⟨other, otherPlace⟩ := entry
    rw [List.map_cons, List.nodup_cons] at hnodup
    rcases List.mem_cons.mp hmem with heq | hmem
    · cases heq
      exact ⟨places, if_pos rfl, List.Perm.refl _⟩
    · have hne : other ≠ id := by
        rintro rfl
        exact hnodup.1 (List.mem_map.mpr ⟨_, hmem, rfl⟩)
      obtain ⟨others, htake, hperm⟩ := ih hnodup.2 hmem
      refine ⟨(other, otherPlace) :: others, ?_, ?_⟩
      · rw [takePlace?, if_neg hne, htake]
        rfl
      · exact (hperm.cons _).trans (List.Perm.swap _ _ _)

/-- However tasks with different ids and places finish, their outcomes are put in order. -/
theorem collectFinished_perm {running : List (TaskId × Finished)}
    {places : List (TaskId × (Nat × Nat))} {finished : List Finished}
    (hids : (places.map Prod.fst).Nodup)
    (hplaces : (running.map fun task => (task.1, task.2.1)).Perm places)
    (hfresh : (running.map (·.2.1) ++ finished.map Prod.fst).Nodup) (horder : InOrder finished) :
    let collected := collectFinished places finished (running.map fun task => (task.1, task.2.2))
    InOrder collected ∧ collected.Perm (running.map Prod.snd ++ finished) := by
  induction running generalizing places finished with
  | nil => exact ⟨horder, List.Perm.refl _⟩
  | cons task running ih =>
    obtain ⟨id, place, outcome⟩ := task
    have hmem : (id, place) ∈ places := hplaces.mem_iff.mp List.mem_cons_self
    obtain ⟨others, htake, hothers⟩ := takePlace?_of_mem hids hmem
    -- The tasks that still run are those in what is left of the table.
    have hrest : (running.map fun task => (task.1, task.2.1)).Perm others :=
      (hplaces.trans hothers).cons_inv
    have hidsOthers : (others.map Prod.fst).Nodup :=
      ((hothers.map Prod.fst).nodup_iff.mp hids).of_cons
    rw [List.map_cons, List.cons_append, List.nodup_cons] at hfresh
    have hnew : place ∉ finished.map Prod.fst := fun h => hfresh.1 (List.mem_append_right _ h)
    have hinserted : (insertFinished (place, outcome) finished).Perm ((place, outcome) :: finished) :=
      insertFinished_perm hnew
    have hfreshRest :
        (running.map (·.2.1) ++ (insertFinished (place, outcome) finished).map Prod.fst).Nodup := by
      rw [((hinserted.map Prod.fst).append_left _).nodup_iff, List.map_cons,
        List.perm_middle.nodup_iff, List.nodup_cons]
      exact hfresh
    obtain ⟨hordered, hperm⟩ :=
      ih hidsOthers hrest hfreshRest (inOrder_insertFinished horder hnew)
    simp only [List.map_cons, collectFinished, htake]
    exact ⟨hordered, hperm.trans ((hinserted.append_left _).trans List.perm_middle)⟩

theorem nodup_of_inOrder {finished : List Finished} (h : InOrder finished) :
    (finished.map Prod.fst).Nodup := by
  rw [List.Nodup, List.pairwise_map]
  refine h.imp ?_
  intro a b hab heq
  rw [heq, placeBefore_iff] at hab
  omega

/-- There is one list in order with the same outcomes. -/
theorem eq_of_inOrder {xs ys : List Finished} (hx : InOrder xs) (hy : InOrder ys)
    (hperm : xs.Perm ys) : xs = ys := by
  refine hperm.eq_of_pairwise ?_ hx hy
  intro a b _ _ hab hba
  rw [placeBefore_asymm hab] at hba
  cases hba

/-! ## Tasks in order -/

section Tasks

variable {read : ReadFile} {sources : Sources} {introducers : Introducers}

theorem place_tasksOf {category index : Nat} {dialect : Dialect} {paths : List String} {task : Task}
    (h : task ∈ tasksOf category dialect index paths) :
    task.place.1 = category ∧ index ≤ task.place.2 := by
  induction paths generalizing index with
  | nil => cases h
  | cons path paths ih =>
    rcases List.mem_cons.mp h with rfl | h
    · exact ⟨rfl, Nat.le_refl _⟩
    · have hplace := ih h
      exact ⟨hplace.1, by omega⟩

theorem place_tasksFrom {category : Nat} {dialects : List Dialect} {task : Task}
    (h : task ∈ tasksFrom sources category dialects) : category ≤ task.place.1 := by
  induction dialects generalizing category with
  | nil => cases h
  | cons dialect dialects ih =>
    rcases List.mem_append.mp h with h | h
    · exact (place_tasksOf h).1 ▸ Nat.le_refl _
    · exact Nat.le_of_succ_le (ih h)

theorem pairwise_tasksOf (category : Nat) (dialect : Dialect) (index : Nat) (paths : List String) :
    (tasksOf category dialect index paths).Pairwise
      fun a b => placeBefore a.place b.place = true := by
  induction paths generalizing index with
  | nil => exact List.Pairwise.nil
  | cons path paths ih =>
    refine List.pairwise_cons.mpr ⟨?_, ih (index + 1)⟩
    intro task htask
    have hplace := place_tasksOf htask
    exact placeBefore_iff.mpr (.inr ⟨hplace.1.symm, hplace.2⟩)

theorem pairwise_tasksFrom (sources : Sources) (category : Nat) (dialects : List Dialect) :
    (tasksFrom sources category dialects).Pairwise
      fun a b => placeBefore a.place b.place = true := by
  induction dialects generalizing category with
  | nil => exact List.Pairwise.nil
  | cons dialect dialects ih =>
    refine List.pairwise_append.mpr ⟨pairwise_tasksOf _ _ _ _, ih (category + 1), ?_⟩
    intro a ha b hb
    have hcategory : a.place.1 = category := (place_tasksOf ha).1
    have hlater : category + 1 ≤ b.place.1 := place_tasksFrom hb
    exact placeBefore_iff.mpr (.inl (by omega))

/-- The outcomes of tasks at their places. -/
def finishedTasks (read : ReadFile) (introducers : Introducers) (tasks : List Task) :
    List Finished :=
  tasks.map fun task => (task.place, task.outcome read introducers)

theorem inOrder_finishedTasks (read : ReadFile) (sources : Sources) :
    InOrder (finishedTasks read sources.introducers sources.tasks) := by
  rw [InOrder, finishedTasks, List.pairwise_map]
  exact pairwise_tasksFrom sources 0 Dialect.all

theorem length_tasksOf (category : Nat) (dialect : Dialect) (index : Nat) (paths : List String) :
    (tasksOf category dialect index paths).length = paths.length := by
  induction paths generalizing index with
  | nil => rfl
  | cons path paths ih => rw [tasksOf, List.length_cons, ih, List.length_cons]

theorem length_tasks (sources : Sources) : sources.tasks.length = sources.count := by
  simp [Sources.tasks, tasksFrom, Dialect.all, length_tasksOf, Sources.count, Sources.allPaths]

/-- A rearrangement of images is the image of a rearrangement. -/
theorem exists_of_perm_map {α β : Type} {f : α → β} {xs : List β} {ys : List α}
    (h : xs.Perm (ys.map f)) : ∃ zs : List α, xs = zs.map f ∧ zs.Perm ys := by
  have himage : List.Forall₂ (fun b a => b = f a) (ys.map f) ys := by
    rw [List.forall₂_map_left_iff, List.forall₂_same]
    exact fun _ _ => rfl
  obtain ⟨zs, hxs, hzs⟩ := List.perm_comp_forall₂ h himage
  refine ⟨zs, ?_, hzs⟩
  rw [← List.forall₂_eq_eq_eq, List.forall₂_map_right_iff]
  exact hxs

/-- The outcomes with which the tasks finish, in whatever order, are put in order. -/
theorem collectFinished_outcomes {ids : List TaskId} (hids : ids.Nodup)
    (hlength : ids.length = sources.count) {joined : List (TaskId × Outcome)}
    (hjoined : joined.Perm (sources.outcomes read ids)) :
    collectFinished (sources.places ids) [] joined =
      finishedTasks read sources.introducers sources.tasks := by
  have horder := inOrder_finishedTasks read sources
  -- The running tasks under their ids, in the order in which they were started.
  obtain ⟨started, hstarted⟩ : ∃ started, started =
      ids.zip (finishedTasks read sources.introducers sources.tasks) := ⟨_, rfl⟩
  have hlen : ids.length = (finishedTasks read sources.introducers sources.tasks).length := by
    rw [finishedTasks, List.length_map, length_tasks, hlength]
  have houtcomes : sources.outcomes read ids = started.map fun task => (task.1, task.2.2) := by
    simp [hstarted, Sources.outcomes, finishedTasks, List.zip_map_right]
  have hplaces : sources.places ids = started.map fun task => (task.1, task.2.1) := by
    simp [hstarted, Sources.places, finishedTasks, List.zip_map_right]
  have hfirst : (sources.places ids).map Prod.fst = ids := by
    refine List.map_fst_zip (Nat.le_of_eq ?_)
    rw [List.length_map, length_tasks, hlength]
  have hsecond : started.map Prod.snd =
      finishedTasks read sources.introducers sources.tasks := by
    rw [hstarted]
    exact List.map_snd_zip (Nat.le_of_eq hlen.symm)
  -- They finish in some order.
  rw [houtcomes] at hjoined
  obtain ⟨running, rfl, hrunning⟩ := exists_of_perm_map hjoined
  have hfresh : (running.map (·.2.1) ++ ([] : List Finished).map Prod.fst).Nodup := by
    have hplace : started.map (·.2.1) =
        (finishedTasks read sources.introducers sources.tasks).map Prod.fst := by
      rw [← hsecond, List.map_map]
      rfl
    rw [List.map_nil, List.append_nil, (hrunning.map _).nodup_iff, hplace]
    exact nodup_of_inOrder horder
  obtain ⟨hcollected, hperm⟩ := collectFinished_perm (hfirst ▸ hids)
    (hplaces ▸ hrunning.map _) hfresh List.Pairwise.nil
  refine eq_of_inOrder hcollected horder ?_
  rw [List.append_nil] at hperm
  exact hperm.trans (hsecond ▸ hrunning.map Prod.snd)

/-! ## One file after the other -/

/-- The names that introduce native recipes do not matter in other dialects. -/
theorem compile_eq_of_ne_native (artifact : Artifact) (h : artifact.dialect ≠ .native)
    (one other : Introducers) : Artifact.compile one artifact = Artifact.compile other artifact := by
  obtain ⟨text, dialect, source⟩ := artifact
  cases dialect with
  | native => exact absurd rfl h
  | shell | query | statistical => rfl

theorem compileFile_eq_of_ne_native {dialect : Dialect} (h : dialect ≠ .native)
    (one other : Introducers) (path : String) :
    compileFile read one dialect path = compileFile read other dialect path := by
  unfold compileFile
  cases read path with
  | error failure => rfl
  | ok text => simp only [compile_eq_of_ne_native ⟨text, dialect, path⟩ h one other]

theorem registerFinished_append (xs ys : List Finished) (registry : Registry) :
    registerFinished (xs ++ ys) registry = registerFinished xs registry >>= registerFinished ys := by
  induction xs generalizing registry with
  | nil => rfl
  | cons x xs ih =>
    obtain ⟨place, outcome⟩ := x
    cases outcome with
    | error e => rfl
    | ok recipes => exact ih _

/-- Registering the files of a dialect is registering the outcomes of their tasks. -/
theorem registerFinished_tasksOf (category : Nat) (dialect : Dialect) (index : Nat)
    (paths : List String) (registry : Registry) :
    registerFinished (finishedTasks read introducers (tasksOf category dialect index paths))
        registry =
      registerFiles read introducers dialect paths registry := by
  induction paths generalizing index registry with
  | nil => rfl
  | cons path paths ih =>
    show (compileFile read introducers dialect path >>= fun recipes => registerFinished
      (finishedTasks read introducers (tasksOf category dialect (index + 1) paths))
      (registry.registerRecipes recipes)) = _
    rw [registerFiles]
    simp only [ih]

theorem registerFiles_eq_of_ne_native {dialect : Dialect} (h : dialect ≠ .native)
    (one other : Introducers) (paths : List String) (registry : Registry) :
    registerFiles read one dialect paths registry =
      registerFiles read other dialect paths registry := by
  induction paths generalizing registry with
  | nil => rfl
  | cons path paths ih =>
    rw [registerFiles, registerFiles, compileFile_eq_of_ne_native h one other path]
    simp only [ih]

theorem registerAll_append (registry : Registry) (xs ys : List (String × Recipe)) :
    registry.registerAll (xs ++ ys) = (registry.registerAll xs).registerAll ys :=
  List.foldl_append

/-- Native recipes that are compiled first and registered together are registered as if file by
file. -/
theorem compileNative_bind (paths : List String) (registry : Registry) :
    (compileNative read introducers paths >>= fun programs => .ok (registry.registerAll programs)) =
      registerFiles read introducers .native paths registry := by
  induction paths generalizing registry with
  | nil => rfl
  | cons path paths ih =>
    rw [registerFiles, compileNative, List.mapM_cons]
    cases compileFile read introducers .native path with
    | error e => rfl
    | ok recipes =>
      have ih := ih (registry.registerRecipes recipes)
      rw [compileNative] at ih
      -- Below, the recipes of this file stand in front of those of the others.
      show _ = registerFiles read introducers .native paths (registry.registerRecipes recipes)
      rw [← ih]
      cases paths.mapM (compileFile read introducers .native) with
      | error e => rfl
      | ok others =>
        show Except.ok (registry.registerAll (((recipes :: others).flatten).map _)) = _
        rw [List.flatten_cons, List.map_append, registerAll_append]
        rfl

theorem registerFinished_tasksFrom (category : Nat) (dialect : Dialect) (dialects : List Dialect)
    (registry : Registry) :
    registerFinished (finishedTasks read introducers
        (tasksFrom sources category (dialect :: dialects))) registry =
      registerFiles read introducers dialect (sources.paths dialect) registry >>=
        registerFinished (finishedTasks read introducers
          (tasksFrom sources (category + 1) dialects)) := by
  rw [tasksFrom, finishedTasks, List.map_append, registerFinished_append]
  exact congrArg (· >>= _) (registerFinished_tasksOf _ _ _ _ _)

/-- The serial build registers the outcomes of all tasks in order. -/
theorem registerFinished_tasks (read : ReadFile) (sources : Sources) :
    registerFinished (finishedTasks read sources.introducers sources.tasks) .empty =
      sources.buildSerially read := by
  have hmarked (dialect : Dialect) (h : dialect ≠ .native) (paths : List String) :
      registerFiles read sources.introducers dialect paths =
        registerFiles read .default dialect paths :=
    funext fun registry => registerFiles_eq_of_ne_native h _ _ paths registry
  rw [Sources.tasks, Dialect.all, registerFinished_tasksFrom, Sources.paths, ← compileNative_bind,
    Sources.buildSerially]
  cases compileNative read sources.introducers sources.native with
  | error e => rfl
  | ok programs =>
    -- Dialect by dialect; after the last one there is nothing to register.
    show registerFinished (finishedTasks read sources.introducers
      (tasksFrom sources 1 [.shell, .query, .statistical])) (Registry.empty.registerAll programs) =
        buildRegistry read programs sources
    rw [registerFinished_tasksFrom, hmarked .shell (by decide), buildRegistry]
    refine bind_congr fun registry => ?_
    rw [registerFinished_tasksFrom, hmarked .query (by decide)]
    refine bind_congr fun registry => ?_
    rw [registerFinished_tasksFrom, hmarked .statistical (by decide)]
    show registerFiles read .default .statistical sources.statistical registry >>= Except.ok = _
    cases registerFiles read .default .statistical sources.statistical registry <;> rfl

/-! ## The first failure -/

theorem exists_inArtifact_of_outcome {task : Task} {error : Error}
    (h : task.outcome read introducers = .error error) :
    ∃ cause, error = .inArtifact task.path cause := by
  unfold Task.outcome compileFile at h
  split at h
  · cases h
    exact ⟨_, rfl⟩
  · split at h
    · cases h
    · cases h
      exact ⟨_, rfl⟩

/-- Registering outcomes fails with the first task that fails. -/
theorem registerFinished_eq_error_iff {tasks : List Task} {registry : Registry} {error : Error} :
    registerFinished (finishedTasks read introducers tasks) registry = .error error ↔
      ∃ before task after, tasks = before ++ task :: after ∧
        (∀ earlier ∈ before, ∃ recipes, earlier.outcome read introducers = .ok recipes) ∧
        task.outcome read introducers = .error error := by
  induction tasks generalizing registry with
  | nil => simp [finishedTasks, registerFinished]
  | cons first tasks ih =>
    show (first.outcome read introducers >>= fun recipes => registerFinished
      (finishedTasks read introducers tasks) (registry.registerRecipes recipes)) = _ ↔ _
    -- The first task fails, or it succeeds and the failure comes later. What is registered in
    -- between does not matter.
    rw [bind_eq_error_iff]
    constructor
    · rintro (h | ⟨recipes, hfirst, h⟩)
      · exact ⟨[], first, tasks, rfl, fun _ h => (List.not_mem_nil h).elim, h⟩
      · obtain ⟨before, task, after, rfl, hbefore, htask⟩ := ih.mp h
        exact ⟨first :: before, task, after, rfl,
          List.forall_mem_cons.mpr ⟨⟨recipes, hfirst⟩, hbefore⟩, htask⟩
    · rintro ⟨before, task, after, htasks, hbefore, htask⟩
      cases before with
      | nil =>
        obtain ⟨rfl, rfl⟩ := List.cons.inj htasks
        exact .inl htask
      | cons _ before =>
        obtain ⟨rfl, rfl⟩ := List.cons.inj htasks
        obtain ⟨⟨recipes, hfirst⟩, hbefore⟩ := List.forall_mem_cons.mp hbefore
        exact .inr ⟨recipes, hfirst, ih.mpr ⟨before, task, after, rfl, hbefore, htask⟩⟩

end Tasks

/-- Whatever the order in which the tasks finish, the concurrent build gives what the serial one
gives. If there is an error, it is that of the first file in order that has one. -/
theorem buildConcurrently_eq_buildSerially (read : ReadFile) (sources : Sources)
    (ids : List TaskId) (hids : ids.Nodup) (hlength : ids.length = sources.count)
    (joined : List (TaskId × Outcome)) (hjoined : joined.Perm (sources.outcomes read ids)) :
    sources.buildConcurrently ids joined = sources.buildSerially read ∧
      ∀ error, sources.buildSerially read = .error error ↔
        ∃ before task after, sources.tasks = before ++ task :: after ∧
          (∀ earlier ∈ before, ∃ recipes,
            earlier.outcome read sources.introducers = .ok recipes) ∧
          task.outcome read sources.introducers = .error error ∧
          ∃ cause, error = .inArtifact task.path cause := by
  -- Both builds register the outcomes of the tasks in order of places, so both fail with the first
  -- failure there.
  have hserial := registerFinished_tasks read sources
  constructor
  · rw [Sources.buildConcurrently, collectFinished_outcomes hids hlength hjoined, hserial]
  · intro error
    rw [← hserial, registerFinished_eq_error_iff]
    constructor
    · rintro ⟨before, task, after, htasks, hbefore, htask⟩
      exact ⟨before, task, after, htasks, hbefore, htask, exists_inArtifact_of_outcome htask⟩
    · rintro ⟨before, task, after, htasks, hbefore, htask, -⟩
      exact ⟨before, task, after, htasks, hbefore, htask⟩

/-- A file that compiles, listed twice, and two files that are not there. -/
def scattered : Sources where
  native := []
  shell := ["make.sh", "gone.sh", "make.sh"]
  query := ["gone.sql"]
  statistical := []
  introducers := ⟨"task", "run"⟩

/-- The files of `scattered`. -/
def readScattered : ReadFile
  | "make.sh" => .ok "###+\n# @register(REG, Make)\n###+\nmake"
  | _ => .error .notFound

theorem buildConcurrently_scattered :
    let ids := [7, 3, 9, 4]
    let joined := (scattered.outcomes readScattered ids).reverse
    ids.Nodup ∧ ids.length = scattered.count ∧
    joined.Perm (scattered.outcomes readScattered ids) ∧
    scattered.buildConcurrently ids joined = scattered.buildSerially readScattered ∧
    scattered.buildSerially readScattered = .error (.inArtifact "gone.sh" (.unreadable .notFound)) := by
  intro ids joined
  have hids : ids.Nodup := by decide
  have hlength : ids.length = scattered.count := by decide
  have hjoined : joined.Perm (scattered.outcomes readScattered ids) := List.reverse_perm _
  obtain ⟨hsame, hfirst⟩ := buildConcurrently_eq_buildSerially readScattered scattered ids hids
    hlength joined hjoined
  refine ⟨hids, hlength, hjoined, hsame, (hfirst _).mpr ?_⟩
  -- The first file compiles, and the next one is not there.
  have hmake : (Task.outcome readScattered scattered.introducers
      ⟨(1, 0), .shell, "make.sh"⟩).isOk = true := by decide +kernel
  refine ⟨[⟨(1, 0), .shell, "make.sh"⟩], ⟨(1, 1), .shell, "gone.sh"⟩, _, rfl, ?_, rfl, _, rfl⟩
  rw [List.forall_mem_singleton]
  cases h : Task.outcome readScattered scattered.introducers ⟨(1, 0), .shell, "make.sh"⟩ with
  | ok recipes => exact ⟨recipes, rfl⟩
  | error e =>
    rw [h] at hmake
    cases hmake

end Cookbook
