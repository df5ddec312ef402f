import SaWa.HttpFiles

/-! What `HTTPServer::getFile` reads from the disk over a whole sequence of calls. A page is stored
under the path it was loaded from, so only a request for that very path finds it again. -/
namespace HttpPageLoads

open HttpServer HttpPageCache HttpFiles

/-- The paths of the files for which a `WebFile` is constructed. -/
def loads (l : Lookup) : List Text :=
  l.accesses.filterMap fun
    | .stat _ => none
    | .load path => some path

/-- The calls up to the one during which the process dies, this one included. -/
def visits (d : Disk) : Cache → List (Text × Heap) → List (Text × Lookup)
  | _, [] => []
  | cache, (path, h) :: calls =>
    let l := getFile (onHeap d h) cache path
    (path, l) :: if l.found = .crashed then [] else visits d l.cache calls

section FileSystem
variable {ι : Type} (fs : FileSystem ι)

def filesLoaded (trace : List (Text × Lookup)) : List (Option ι) :=
  trace.flatMap fun v => (loads v.2).map fs.resolve

/-- In every run over these paths that starts with nothing cached, a path that has had a page is
not loaded for again, and no file is loaded twice. -/
def Effective (paths : List Text) : Prop :=
  ∀ calls : List (Text × Heap), calls.map Prod.fst = paths →
    (visits fs.disk emptyCache calls).Pairwise
        (fun a b => a.1 = b.1 → (∃ f, a.2.found = .file f) → loads b.2 = []) ∧
      (filesLoaded fs (visits fs.disk emptyCache calls)).Nodup

/-- Every request for a path that no page is stored under leads to nothing or to a file that none
of these pages is from, up to the request during which the process dies. -/
def LeadsToNew : List Text → List Text → Prop
  | _, [] => True
  | stored, path :: paths =>
    if stored.contains (rootDir ++ path) then LeadsToNew stored paths
    else
      match target fs.disk (rootDir ++ path) with
      | none => LeadsToNew stored paths
      | some t =>
        Opens fs.disk t →
          fs.resolve t ∉ stored.map fs.resolve ∧ LeadsToNew (t :: stored) paths

end FileSystem

/-! ### One call -/

/-- The size of what is at this path is one that an array is made for. -/
def sized (d : Disk) (path : Text) : Bool :=
  match d.stat path with
  | none => false
  | some st => st.stSize % 2 ^ 32 < 2 ^ 31

section Call
variable {d : Disk} {h : Heap} {cache : Cache} {path t : Text}

theorem loads_loadInto {st : Stat} (hst : d.stat t = some st) {accesses : List Access}
    (hstats : ∀ a ∈ accesses, ∃ p, a = .stat p) :
    loads (loadInto d cache t st accesses) = if sized d t then [t] else [] := by
  have hnone : accesses.filterMap (fun
      | .stat _ => none
      | .load path => some path) = ([] : List Text) := by
    rw [List.filterMap_eq_nil_iff]
    intro a ha
    obtain ⟨p, rfl⟩ := hstats a ha
    rfl
  simp only [sized, hst, decide_eq_true_eq]
  apply loadInto_cases (P := fun l => loads l = if st.stSize % 2 ^ 32 < 2 ^ 31 then [t] else [])
  · intro hneg
    rw [if_neg (Nat.not_lt.mpr hneg)]
    exact hnone
  · intro hlt _
    rw [if_pos hlt, loads, List.filterMap_append, hnone]
    rfl
  · intro f hlt _
    rw [if_pos hlt, loads, List.filterMap_append, hnone]
    rfl

/-- Without a page in the cache the target is loaded, if there is one of a size to be loaded. -/
theorem loads_miss (hm : cache (rootDir ++ path) = none) :
    loads (getFile d cache path) =
      match target d (rootDir ++ path) with
      | none => []
      | some t => if sized d t then [t] else [] := by
  apply getFile_cases (P := fun l => loads l =
    match target d (rootDir ++ path) with
    | none => []
    | some t => if sized d t then [t] else [])
  · intro f hf
    rw [hm] at hf
    cases hf
  · intro _ hs
    simp [loads, target, hs]
  · intro st _ hs hf hi
    simp [loads, target, hs, hf, hi]
  · intro st st' _ hs hf hi
    rw [loads_loadInto hi (by simp)]
    simp [target, hs, hf, hi]
  · intro st _ hs hf
    rw [loads_loadInto hs (by simp)]
    simp [target, hs, hf]

theorem sized_of_opens (ho : Opens d t) : sized d t = true := by
  obtain ⟨st, hst, hlt, -⟩ := ho
  simp only [sized, hst, hlt, decide_true]

theorem visits_hit {f : WebFile} (hf : cache (rootDir ++ path) = some f)
    (calls : List (Text × Heap)) :
    visits d cache ((path, h) :: calls) = (path, ⟨.file f, [], cache⟩) :: visits d cache calls := by
  simp only [visits, getFile_hit hf, reduceCtorEq, if_false]

theorem visits_miss (hm : cache (rootDir ++ path) = none) (calls : List (Text × Heap)) :
    visits d cache ((path, h) :: calls) =
      (path, getFile (onHeap d h) cache path) ::
        if fetched (onHeap d h) (rootDir ++ path) = .crashed then []
        else visits d (cacheAfter (onHeap d h) cache (rootDir ++ path)) calls := by
  obtain ⟨hfound, hcache⟩ := getFile_miss (d := onHeap d h) hm
  simp only [visits, hfound, hcache]

end Call

/-! ### Runs -/

section Runs
variable {ι : Type} {fs : FileSystem ι} {stored paths : List Text} {cache : Cache}
  {path t : Text} {v : Text × Lookup} {trace : List (Text × Lookup)}

/-- No file is loaded twice, nor one that a stored page is from. -/
def Fresh (fs : FileSystem ι) (stored : List Text) (trace : List (Text × Lookup)) : Prop :=
  (filesLoaded fs trace).Nodup ∧ ∀ i ∈ filesLoaded fs trace, i ∉ stored.map fs.resolve

theorem fresh_nil : Fresh fs stored [] := ⟨List.nodup_nil, by simp [filesLoaded]⟩

theorem fresh_quiet (hv : loads v.2 = []) :
    Fresh fs stored (v :: trace) ↔ Fresh fs stored trace := by
  simp only [Fresh, filesLoaded, List.flatMap_cons, hv, List.map_nil, List.nil_append]

theorem fresh_load (hv : loads v.2 = [t]) : Fresh fs stored (v :: trace) ↔
    fs.resolve t ∉ stored.map fs.resolve ∧ Fresh fs (t :: stored) trace := by
  have hfiles : filesLoaded fs (v :: trace) = fs.resolve t :: filesLoaded fs trace := by
    simp only [filesLoaded, List.flatMap_cons, hv, List.map_cons, List.map_nil, List.cons_append,
      List.nil_append]
  rw [Fresh, Fresh, hfiles, List.nodup_cons, List.forall_mem_cons, List.map_cons]
  constructor
  · rintro ⟨⟨hnew, hnodup⟩, hstored, hrest⟩
    refine ⟨hstored, hnodup, ?_⟩
    intro i hi hmem
    rcases List.mem_cons.mp hmem with rfl | hmem
    · exact hnew hi
    · exact hrest i hi hmem
  · rintro ⟨hstored, hnodup, hrest⟩
    refine ⟨⟨?_, hnodup⟩, hstored, ?_⟩
    · intro hi
      exact hrest _ hi List.mem_cons_self
    · intro i hi hmem
      exact hrest i hi (List.mem_cons_of_mem _ hmem)

/-- Whether a file opens is up to the file, not to the path it is opened by. -/
theorem opens_congr {s : Text} (h : fs.resolve s = fs.resolve t) :
    Opens fs.disk s ↔ Opens fs.disk t := by
  simp only [Opens, FileSystem.disk, h]

theorem not_resolved_of_not_opens (hstored : ∀ s ∈ stored, Opens fs.disk s)
    (ht : ¬ Opens fs.disk t) : fs.resolve t ∉ stored.map fs.resolve := by
  intro hmem
  obtain ⟨s, hs, hst⟩ := List.mem_map.mp hmem
  exact ht ((opens_congr hst).mp (hstored s hs))

theorem opens_of_cached {heaps : Heap → Prop} (hc : Cached fs.disk heaps stored cache) :
    ∀ s ∈ stored, Opens fs.disk s := by
  intro s hs
  obtain ⟨f, hf⟩ := Option.ne_none_iff_exists'.mp ((hc.keys s).mp hs)
  obtain ⟨h, -, hload⟩ := hc.pages s f hf
  exact opens_of_loaded hload

/-- The last visit, during which the process dies, loads nothing that a stored page is from. -/
theorem fresh_last (hstored : ∀ s ∈ stored, Opens fs.disk s) (ht : ¬ Opens fs.disk t)
    (hv : loads v.2 = if sized fs.disk t then [t] else []) : Fresh fs stored [v] := by
  split_ifs at hv with hsized
  · exact (fresh_load hv).mpr ⟨not_resolved_of_not_opens hstored ht, fresh_nil⟩
  · exact (fresh_quiet hv).mpr fresh_nil

/-- A run starts in one of four ways: with a hit, with nothing at the path, with a page that is
loaded and stored, or with a page that cannot be loaded, which ends it. -/
theorem visits_cases {h : Heap} {calls : List (Text × Heap)}
    (hc : Cached fs.disk (fun _ => True) stored cache) {P : List (Text × Lookup) → Prop}
    (hit : ∀ l, rootDir ++ path ∈ stored → loads l = [] →
      P ((path, l) :: visits fs.disk cache calls))
    (nothing : ∀ l, rootDir ++ path ∉ stored → target fs.disk (rootDir ++ path) = none →
      l.found = .missing → loads l = [] → P ((path, l) :: visits fs.disk cache calls))
    (page : ∀ l t cache', rootDir ++ path ∉ stored →
      target fs.disk (rootDir ++ path) = some t → Opens fs.disk t → loads l = [t] →
      Cached fs.disk (fun _ => True) (t :: stored) cache' →
      P ((path, l) :: visits fs.disk cache' calls))
    (last : ∀ l t, rootDir ++ path ∉ stored → target fs.disk (rootDir ++ path) = some t →
      ¬ Opens fs.disk t → loads l = (if sized fs.disk t then [t] else []) → P [(path, l)]) :
    P (visits fs.disk cache ((path, h) :: calls)) := by
  cases hcached : cache (rootDir ++ path) with
  | some f =>
    rw [visits_hit hcached]
    exact hit _ ((hc.keys _).mpr (by simp [hcached])) rfl
  | none =>
    have hmem : rootDir ++ path ∉ stored := fun hm => (hc.keys _).mp hm hcached
    have hloads := loads_miss (d := onHeap fs.disk h) hcached
    have hfound := (getFile_miss (d := onHeap fs.disk h) hcached).1
    rw [visits_miss hcached]
    cases ht : target fs.disk (rootDir ++ path) with
    | none =>
      have hheap : target (onHeap fs.disk h) (rootDir ++ path) = none := ht
      rw [hheap] at hloads
      obtain ⟨hfetched, hafter⟩ := fetched_nothing hheap cache
      rw [hfetched, if_neg (by simp), hafter]
      exact nothing _ hmem ht (hfound.trans hfetched) hloads
    | some t =>
      have hheap : target (onHeap fs.disk h) (rootDir ++ path) = some t := ht
      rw [hheap] at hloads
      by_cases ho : Opens fs.disk t
      · obtain ⟨f, hf⟩ := loaded_of_opens ho h
        obtain ⟨hfetched, hafter⟩ := fetched_page hheap hf cache
        rw [hfetched, if_neg (by simp), hafter]
        refine page _ t _ hmem ht ho ?_ (hc.add trivial hf)
        exact hloads.trans (if_pos (sized_of_opens ho))
      · have hf := (loaded_eq_none_iff fs.disk h t).mpr ho
        rw [fetched_crash hheap hf, if_pos rfl]
        exact last _ t hmem ht ho hloads

theorem leadsToNew_stored (h : rootDir ++ path ∈ stored) :
    LeadsToNew fs stored (path :: paths) ↔ LeadsToNew fs stored paths := by
  rw [LeadsToNew, if_pos (List.contains_iff_mem.mpr h)]

theorem leadsToNew_nothing (h : rootDir ++ path ∉ stored)
    (ht : target fs.disk (rootDir ++ path) = none) :
    LeadsToNew fs stored (path :: paths) ↔ LeadsToNew fs stored paths := by
  rw [LeadsToNew, if_neg (mt List.contains_iff_mem.mp h), ht]

theorem leadsToNew_target (h : rootDir ++ path ∉ stored)
    (ht : target fs.disk (rootDir ++ path) = some t) :
    LeadsToNew fs stored (path :: paths) ↔
      (Opens fs.disk t →
        fs.resolve t ∉ stored.map fs.resolve ∧ LeadsToNew fs (t :: stored) paths) := by
  rw [LeadsToNew, if_neg (mt List.contains_iff_mem.mp h), ht]

theorem leadsToNew_iff_fresh {calls : List (Text × Heap)}
    (hc : Cached fs.disk (fun _ => True) stored cache) :
    LeadsToNew fs stored (calls.map Prod.fst) ↔ Fresh fs stored (visits fs.disk cache calls) := by
  induction calls generalizing stored cache with
  | nil => exact iff_of_true trivial fresh_nil
  | cons call calls ih =>
    obtain ⟨path, h⟩ := call
    rw [List.map_cons]
    apply visits_cases hc (P := fun trace => _ ↔ Fresh fs stored trace)
    · intro l hmem hl
      rw [leadsToNew_stored hmem, fresh_quiet hl]
      exact ih hc
    · intro l hmem ht _ hl
      rw [leadsToNew_nothing hmem ht, fresh_quiet hl]
      exact ih hc
    · intro l t cache' hmem ht ho hl hc'
      rw [leadsToNew_target hmem ht, fresh_load hl, ← ih hc']
      exact ⟨fun hnew => hnew ho, fun hnew _ => hnew⟩
    · intro l t hmem ht ho hl
      rw [leadsToNew_target hmem ht]
      exact iff_of_true (fun h => absurd h ho) (fresh_last (opens_of_cached hc) ho hl)

/-- The page for this path is stored, whether or not a request for the path finds it. -/
def Settled (fs : FileSystem ι) (stored : List Text) (path : Text) : Prop :=
  rootDir ++ path ∈ stored ∨ ∃ t ∈ stored, target fs.disk (rootDir ++ path) = some t

theorem Settled.mono (hs : Settled fs stored path) (t : Text) : Settled fs (t :: stored) path :=
  hs.imp (List.mem_cons_of_mem _) fun ⟨s, hs, ht⟩ => ⟨s, List.mem_cons_of_mem _ hs, ht⟩

theorem quiet_of_settled {calls : List (Text × Heap)}
    (hc : Cached fs.disk (fun _ => True) stored cache)
    (hn : LeadsToNew fs stored (calls.map Prod.fst)) (hs : Settled fs stored path) :
    ∀ v ∈ visits fs.disk cache calls, v.1 = path → loads v.2 = [] := by
  induction calls generalizing stored cache with
  | nil => simp [visits]
  | cons call calls ih =>
    obtain ⟨path', h⟩ := call
    rw [List.map_cons] at hn
    apply visits_cases hc (P := fun trace => ∀ v ∈ trace, v.1 = path → loads v.2 = [])
    · intro l hmem hl
      rw [leadsToNew_stored hmem] at hn
      exact List.forall_mem_cons.mpr ⟨fun _ => hl, ih hc hn hs⟩
    · intro l hmem ht _ hl
      rw [leadsToNew_nothing hmem ht] at hn
      exact List.forall_mem_cons.mpr ⟨fun _ => hl, ih hc hn hs⟩
    · intro l t cache' hmem ht ho hl hc'
      obtain ⟨hnew, hn⟩ := (leadsToNew_target hmem ht).mp hn ho
      refine List.forall_mem_cons.mpr ⟨?_, ih hc' hn (hs.mono t)⟩
      rintro rfl
      obtain ⟨s, hs, hst⟩ := hs.resolve_left hmem
      obtain rfl : t = s := Option.some.inj (ht.symm.trans hst)
      exact absurd (List.mem_map_of_mem hs) hnew
    · intro l t hmem ht ho hl
      refine List.forall_mem_cons.mpr ⟨?_, by simp⟩
      rintro rfl
      obtain ⟨s, hs, hst⟩ := hs.resolve_left hmem
      obtain rfl : t = s := Option.some.inj (ht.symm.trans hst)
      exact absurd (opens_of_cached hc _ hs) ho

theorem pairwise_quiet {calls : List (Text × Heap)}
    (hc : Cached fs.disk (fun _ => True) stored cache)
    (hn : LeadsToNew fs stored (calls.map Prod.fst)) :
    (visits fs.disk cache calls).Pairwise
      fun a b => a.1 = b.1 → (∃ f, a.2.found = .file f) → loads b.2 = [] := by
  induction calls generalizing stored cache with
  | nil => exact List.Pairwise.nil
  | cons call calls ih =>
    obtain ⟨path, h⟩ := call
    rw [List.map_cons] at hn
    apply visits_cases hc (P := List.Pairwise _)
    · intro l hmem hl
      rw [leadsToNew_stored hmem] at hn
      refine List.pairwise_cons.mpr ⟨?_, ih hc hn⟩
      intro b hb hpath _
      exact quiet_of_settled hc hn (Or.inl hmem) b hb hpath.symm
    · intro l hmem ht hfound hl
      rw [leadsToNew_nothing hmem ht] at hn
      refine List.pairwise_cons.mpr ⟨?_, ih hc hn⟩
      rintro b - - ⟨f, hf⟩
      rw [hfound] at hf
      cases hf
    · intro l t cache' hmem ht ho hl hc'
      obtain ⟨-, hn⟩ := (leadsToNew_target hmem ht).mp hn ho
      refine List.pairwise_cons.mpr ⟨?_, ih hc' hn⟩
      intro b hb hpath _
      exact quiet_of_settled hc' hn (Or.inr ⟨t, List.mem_cons_self, ht⟩) b hb hpath.symm
    · intro l t _ _ _ _
      exact List.pairwise_singleton _ _

end Runs

/-- On a fixed filesystem the cache is effective over a sequence of calls exactly when every call
that hits nothing is for a file that no page in the cache is from. -/
theorem effective_iff {ι : Type} (fs : FileSystem ι) (paths : List Text) :
    Effective fs paths ↔ LeadsToNew fs [] paths := by
  constructor
  · intro h
    have hheap : (paths.map fun p => (p, spaces)).map Prod.fst = paths := by
      simp [Function.comp_def]
    rw [← hheap, leadsToNew_iff_fresh (cached_empty fs.disk _)]
    exact ⟨(h _ hheap).2, by simp⟩
  · rintro h calls rfl
    have hc := cached_empty fs.disk fun _ => True
    exact ⟨pairwise_quiet hc h, ((leadsToNew_iff_fresh hc).mp h).1⟩

theorem perms644 : 0x1A4 < 4096 := by decide

/-- The folder `./wwwroot/d` with an index. -/
def folder : FileSystem ℕ where
  node
    | 0 => .directory ⟨0x1ED, perms755⟩ 4096
        ⟨fun name => if name = "wwwroot".toList then some 1 else none, 0⟩
    | 1 => .directory ⟨0x1ED, perms755⟩ 4096
        ⟨fun name => if name = "d".toList then some 2 else none, 0⟩
    | 2 => .directory ⟨0x1ED, perms755⟩ 4096
        ⟨fun name => if name = indexHtml then some 3 else none, 1⟩
    | _ => .regular ⟨0x1A4, perms644⟩ ['x']
  root := 0
  cwd := 0
  mayRead _ := true
  maySearch _ := true

/-- The page of the folder is stored under the path of the index, so the next request for the
folder loads it again. -/
theorem folder_loaded_twice :
    (visits folder.disk emptyCache [("/d".toList, spaces), ("/d".toList, spaces)]).map
        (fun v => (v.1, v.2.found, loads v.2)) =
      [("/d".toList, .file ⟨"./wwwroot/d/index.html".toList, ['x'], 1⟩,
          ["./wwwroot/d/index.html".toList]),
        ("/d".toList, .file ⟨"./wwwroot/d/index.html".toList, ['x'], 1⟩,
          ["./wwwroot/d/index.html".toList])] ∧
      ¬ Effective folder ["/d".toList, "/d".toList] := by
  refine ⟨by decide, ?_⟩
  intro h
  have hnodup := (h [("/d".toList, spaces), ("/d".toList, spaces)] rfl).2
  have htwice : filesLoaded folder
      (visits folder.disk emptyCache [("/d".toList, spaces), ("/d".toList, spaces)]) =
        [some 3, some 3] := by decide
  rw [htwice] at hnodup
  simp at hnodup

end HttpPageLoads
