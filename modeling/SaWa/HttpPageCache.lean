import SaWa.HttpServer
import Mathlib.Tactic.Common

/-! The page cache of `HTTPServer::getFile`. A page is looked up under the path requested and stored
under the path it was loaded from, which for what looks like a folder is that of its index. -/
namespace HttpPageCache

open HttpServer

/-- What new arrays hold, each as long as it is asked for. -/
structure Heap where
  cells : ℕ → Text
  sized : ∀ n, (cells n).length = n

def onHeap (d : Disk) (h : Heap) : Disk := { d with fresh := h.cells }

def emptyCache : Cache := fun _ => none

/-- The path that a page is loaded from when it is not cached. -/
def target (d : Disk) (path : Text) : Option Text :=
  match d.stat path with
  | none => none
  | some st =>
    if looksLikeFolder st then (d.stat (indexOf path)).map fun _ => indexOf path else some path

/-- The page at a path, if it can be loaded. -/
def loaded (d : Disk) (path : Text) : Option WebFile :=
  match d.stat path with
  | none => none
  | some st =>
    if 2 ^ 31 ≤ st.stSize % 2 ^ 32 then none else loadFile d path (st.stSize % 2 ^ 32)

/-- What is found for a path that is not cached. -/
def fetched (d : Disk) (path : Text) : Found :=
  match target d path with
  | none => .missing
  | some t =>
    match loaded d t with
    | none => .crashed
    | some f => .file f

/-- The cache after that. -/
def cacheAfter (d : Disk) (cache : Cache) (path : Text) : Cache :=
  match target d path with
  | none => cache
  | some t =>
    match loaded d t with
    | none => cache
    | some f => fun p => if p = t then some f else cache p

section GetFile
variable {d : Disk} {cache : Cache} {path : Text}

theorem loadInto_eq {st : Stat} (h : d.stat path = some st) (accesses : List Access) :
    (loadInto d cache path st accesses).found =
        (match loaded d path with
        | none => .crashed
        | some f => .file f) ∧
      (loadInto d cache path st accesses).cache =
        match loaded d path with
        | none => cache
        | some f => fun p => if p = path then some f else cache p := by
  rw [loaded, h]
  by_cases hneg : 2 ^ 31 ≤ st.stSize % 2 ^ 32
  · simp only [loadInto, if_pos hneg, and_self]
  · simp only [loadInto, if_neg hneg]
    cases loadFile d path (st.stSize % 2 ^ 32) <;> exact ⟨rfl, rfl⟩

theorem getFile_hit {f : WebFile} (h : cache (rootDir ++ path) = some f) :
    getFile d cache path = ⟨.file f, [], cache⟩ := by
  simp only [getFile, h]

theorem getFile_miss (h : cache (rootDir ++ path) = none) :
    (getFile d cache path).found = fetched d (rootDir ++ path) ∧
      (getFile d cache path).cache = cacheAfter d cache (rootDir ++ path) := by
  apply getFile_cases (P := fun l => l.found = fetched d (rootDir ++ path) ∧
    l.cache = cacheAfter d cache (rootDir ++ path))
  · intro f hf
    rw [h] at hf
    cases hf
  · intro _ hs
    simp [fetched, cacheAfter, target, hs]
  · intro st _ hs hf hi
    simp [fetched, cacheAfter, target, hs, hf, hi]
  · intro st st' _ hs hf hi
    simp only [fetched, cacheAfter, target, hs, hf, hi, if_true, Option.map_some]
    exact loadInto_eq hi _
  · intro st _ hs hf
    simp only [fetched, cacheAfter, target, hs, hf, Bool.false_eq_true, if_false]
    exact loadInto_eq hs _

end GetFile

/-! ### Calls, one after the other -/

/-- The calls of `getFile` on one filesystem, each with the heap it meets, up to the one during
which the process dies: what each returns. -/
def answers (d : Disk) : Cache → List (Text × Heap) → List (Text × Found)
  | _, [] => []
  | cache, (path, h) :: calls =>
    let l := getFile (onHeap d h) cache path
    if l.found = .crashed then [] else (path, l.found) :: answers d l.cache calls

/-- The same result: no page, or pages with the same contents. -/
def Same : Found → Found → Prop
  | .missing, .missing => True
  | .file f, .file g => f.content = g.content ∧ f.size = g.size
  | _, _ => False

/-- What the call returns is what it may return when nothing is cached. -/
def AsAlone (d : Disk) (a : Text × Found) : Prop :=
  ∃ h, Same a.2 (getFile (onHeap d h) emptyCache a.1).found

/-- Every call of every run over these paths that starts with nothing cached. -/
def Transparent (d : Disk) (paths : List Text) : Prop :=
  ∀ calls : List (Text × Heap), calls.map Prod.fst = paths →
    ∀ a ∈ answers d emptyCache calls, AsAlone d a

/-- The index of the page, taken for a folder, may be the same page. -/
def SameIndex (d : Disk) (path : Text) : Prop :=
  ∀ h f, loaded (onHeap d h) path = some f →
    ∃ h' g, loaded (onHeap d h') (indexOf path) = some g ∧ f.content = g.content ∧ f.size = g.size

/-- The page at a path is the one that is found for the path. -/
def Plain (d : Disk) (path : Text) : Prop :=
  (∀ st, d.stat path = some st → looksLikeFolder st = false) ∨ SameIndex d path

/-- Nothing keeps the page from being loaded. -/
def Opens (d : Disk) (path : Text) : Prop :=
  ∃ st, d.stat path = some st ∧ st.stSize % 2 ^ 32 < 2 ^ 31 ∧ d.fopen path ≠ none

/-- Every request for a path that an earlier one has had a page stored under, up to the request
during which the process dies, finds that page by itself. `stored` are these paths. -/
def HitsPlain (d : Disk) : List Text → List Text → Prop
  | _, [] => True
  | stored, path :: paths =>
    if rootDir ++ path ∈ stored then
      Plain d (rootDir ++ path) ∧ HitsPlain d stored paths
    else
      match target d (rootDir ++ path) with
      | none => HitsPlain d stored paths
      | some t => Opens d t → HitsPlain d (t :: stored) paths

section Alone
variable {d : Disk} {h : Heap} {cache : Cache} {path : Text}

theorem loaded_eq_none_iff (d : Disk) (h : Heap) (path : Text) :
    loaded (onHeap d h) path = none ↔ ¬ Opens d path := by
  have hstat : (onHeap d h).stat path = d.stat path := rfl
  unfold Opens
  rw [loaded, hstat]
  cases d.stat path with
  | none => simp
  | some st =>
    by_cases hneg : 2 ^ 31 ≤ st.stSize % 2 ^ 32
    · simp only [if_pos hneg, true_iff]
      rintro ⟨st', hst, hlt, -⟩
      cases hst
      omega
    · have hlt := Nat.not_le.mp hneg
      simp only [if_neg hneg, loadFile, Option.map_eq_none_iff]
      constructor
      · rintro hnone ⟨-, -, -, hopen⟩
        exact hopen hnone
      · intro hnot
        by_contra hopen
        exact hnot ⟨st, rfl, hlt, hopen⟩

theorem stat_of_loaded {f : WebFile} (hf : loaded d path = some f) :
    ∃ st, d.stat path = some st := by
  cases hst : d.stat path with
  | none => simp [loaded, hst] at hf
  | some st => exact ⟨st, rfl⟩

theorem same_refl {r : Found} (hr : r ≠ .crashed) : Same r r := by
  cases r with
  | missing => trivial
  | file f => exact ⟨rfl, rfl⟩
  | crashed => exact absurd rfl hr

theorem found_alone (d : Disk) (path : Text) :
    (getFile d emptyCache path).found = fetched d (rootDir ++ path) := (getFile_miss rfl).1

/-- A call that finds nothing cached is as it is alone. -/
theorem asAlone_of_miss (hr : fetched (onHeap d h) (rootDir ++ path) ≠ .crashed) :
    AsAlone d (path, fetched (onHeap d h) (rootDir ++ path)) := by
  refine ⟨h, ?_⟩
  rw [found_alone]
  exact same_refl hr

theorem same_file_iff {f : WebFile} {r : Found} :
    Same (.file f) r ↔ ∃ g, r = .file g ∧ f.content = g.content ∧ f.size = g.size := by
  cases r with
  | missing => exact iff_of_false id (by simp)
  | crashed => exact iff_of_false id (by simp)
  | file g => simp [Same]

theorem fetched_file_iff {p : Text} {g : WebFile} :
    fetched d p = .file g ↔ ∃ t, target d p = some t ∧ loaded d t = some g := by
  unfold fetched
  cases target d p with
  | none => simp
  | some t => cases ht : loaded d t <;> simp [ht]

/-- A cached page is found alone when the path does not look like a folder, or when its index is
the same page. -/
theorem asAlone_hit_iff {f : WebFile} (hf : loaded (onHeap d h) (rootDir ++ path) = some f) :
    AsAlone d (path, .file f) ↔
      (∀ st, d.stat (rootDir ++ path) = some st → looksLikeFolder st = false) ∨
        ∃ h' g, loaded (onHeap d h') (indexOf (rootDir ++ path)) = some g ∧
          f.content = g.content ∧ f.size = g.size := by
  obtain ⟨st, hst⟩ := stat_of_loaded hf
  have hst : d.stat (rootDir ++ path) = some st := hst
  have htarget : ∀ h', target (onHeap d h') (rootDir ++ path) =
      if looksLikeFolder st then
        (d.stat (indexOf (rootDir ++ path))).map fun _ => indexOf (rootDir ++ path)
      else some (rootDir ++ path) := by
    intro h'
    have hstat : (onHeap d h').stat (rootDir ++ path) = some st := hst
    rw [target, hstat]
    rfl
  unfold AsAlone
  simp only [found_alone, same_file_iff, fetched_file_iff, htarget]
  cases hfolder : looksLikeFolder st with
  | true =>
    have hnot : ¬ ∀ st, d.stat (rootDir ++ path) = some st → looksLikeFolder st = false := by
      intro hall
      rw [hall st hst] at hfolder
      cases hfolder
    rw [or_iff_right hnot, if_pos rfl]
    constructor
    · rintro ⟨h', g, ⟨t, ht, hg⟩, hsame⟩
      obtain ⟨-, -, rfl⟩ := Option.map_eq_some_iff.mp ht
      exact ⟨h', g, hg, hsame⟩
    · rintro ⟨h', g, hg, hsame⟩
      obtain ⟨st', hst'⟩ := stat_of_loaded hg
      have hst' : d.stat (indexOf (rootDir ++ path)) = some st' := hst'
      exact ⟨h', g, ⟨_, by rw [hst']; rfl, hg⟩, hsame⟩
  | false =>
    refine iff_of_true ⟨h, f, ⟨_, if_neg Bool.false_ne_true, hf⟩, rfl, rfl⟩ (Or.inl ?_)
    intro st' hst'
    rw [hst] at hst'
    cases hst'
    exact hfolder

end Alone

/-! ### Runs -/

/-- The paths with a page, and where each page came from: loaded from its path on one of these
heaps. -/
structure Cached (d : Disk) (heaps : Heap → Prop) (stored : List Text) (cache : Cache) : Prop where
  keys : ∀ p, p ∈ stored ↔ cache p ≠ none
  pages : ∀ p f, cache p = some f → ∃ h, heaps h ∧ loaded (onHeap d h) p = some f

section Runs
variable {d : Disk} {heaps : Heap → Prop} {stored : List Text} {cache : Cache}

theorem Cached.add (hc : Cached d heaps stored cache) {h : Heap} (hh : heaps h) {t : Text}
    {f : WebFile} (hf : loaded (onHeap d h) t = some f) :
    Cached d heaps (t :: stored) (fun p => if p = t then some f else cache p) := by
  constructor
  · intro p
    by_cases hp : p = t
    · simp [hp]
    · simp only [List.mem_cons, hp, false_or, if_false]
      exact hc.keys p
  · intro p g hg
    by_cases hp : p = t
    · simp only [hp, if_true, Option.some.injEq] at hg
      exact ⟨h, hh, by rw [hp, ← hg]; exact hf⟩
    · simp only [hp, if_false] at hg
      exact hc.pages p g hg

theorem cached_empty (d : Disk) (heaps : Heap → Prop) : Cached d heaps [] emptyCache := by
  constructor
  · intro p
    simp [emptyCache]
  · intro p f hf
    cases hf

/-- What one call returns, and the calls after it. -/
theorem answers_hit {path : Text} {f : WebFile} (hf : cache (rootDir ++ path) = some f) (h : Heap)
    (calls : List (Text × Heap)) :
    answers d cache ((path, h) :: calls) = (path, .file f) :: answers d cache calls := by
  simp only [answers, getFile_hit hf, reduceCtorEq, if_false]

theorem answers_miss {path : Text} (hm : cache (rootDir ++ path) = none) (h : Heap)
    (calls : List (Text × Heap)) :
    answers d cache ((path, h) :: calls) =
      if fetched (onHeap d h) (rootDir ++ path) = .crashed then []
      else (path, fetched (onHeap d h) (rootDir ++ path)) ::
        answers d (cacheAfter (onHeap d h) cache (rootDir ++ path)) calls := by
  obtain ⟨hfound, hcache⟩ := getFile_miss (d := onHeap d h) hm
  simp only [answers, hfound, hcache]

section Fetched
variable {p t : Text}

theorem fetched_nothing (ht : target d p = none) (cache : Cache) :
    fetched d p = .missing ∧ cacheAfter d cache p = cache := by
  simp only [fetched, cacheAfter, ht, and_self]

theorem fetched_page (ht : target d p = some t) {f : WebFile} (hf : loaded d t = some f)
    (cache : Cache) :
    fetched d p = .file f ∧
      cacheAfter d cache p = fun q => if q = t then some f else cache q := by
  simp only [fetched, cacheAfter, ht, hf, and_self]

theorem fetched_crash (ht : target d p = some t) (hf : loaded d t = none) :
    fetched d p = .crashed := by
  simp only [fetched, ht, hf]

/-- A call that does not end the process has nothing to store, or stores the page it has loaded. -/
theorem fetched_cases (hr : fetched d p ≠ .crashed) (cache : Cache) :
    (target d p = none ∧ cacheAfter d cache p = cache) ∨
      ∃ t f, target d p = some t ∧ loaded d t = some f ∧
        cacheAfter d cache p = fun q => if q = t then some f else cache q := by
  cases ht : target d p with
  | none => exact Or.inl ⟨rfl, (fetched_nothing ht cache).2⟩
  | some t =>
    cases hf : loaded d t with
    | none => exact absurd (fetched_crash ht hf) hr
    | some f => exact Or.inr ⟨t, f, rfl, hf, (fetched_page ht hf cache).2⟩

theorem loaded_of_opens (ho : Opens d t) (h : Heap) : ∃ f, loaded (onHeap d h) t = some f :=
  Option.ne_none_iff_exists'.mp ((loaded_eq_none_iff d h t).not.mpr (not_not.mpr ho))

end Fetched

theorem opens_of_loaded {h : Heap} {t : Text} {f : WebFile} (hf : loaded (onHeap d h) t = some f) :
    Opens d t := by
  by_contra hnot
  rw [(loaded_eq_none_iff d h t).mpr hnot] at hf
  cases hf

theorem asAlone_of_hitsPlain {paths : List Text} {calls : List (Text × Heap)}
    (hp : HitsPlain d stored paths) (hc : Cached d (fun _ => True) stored cache)
    (hcalls : calls.map Prod.fst = paths) : ∀ a ∈ answers d cache calls, AsAlone d a := by
  induction calls generalizing paths stored cache with
  | nil => simp [answers]
  | cons call calls ih =>
    obtain ⟨path, h⟩ := call
    obtain rfl : path :: calls.map Prod.fst = paths := hcalls
    rw [HitsPlain] at hp
    cases hcached : cache (rootDir ++ path) with
    | some f =>
      have hmem : rootDir ++ path ∈ stored := (hc.keys _).mpr (by simp [hcached])
      rw [if_pos hmem] at hp
      obtain ⟨h₀, -, hf⟩ := hc.pages _ f hcached
      have halone : AsAlone d (path, .file f) :=
        (asAlone_hit_iff hf).mpr (hp.1.imp id fun hsame => hsame h₀ f hf)
      rw [answers_hit hcached]
      exact List.forall_mem_cons.mpr ⟨halone, ih hp.2 hc rfl⟩
    | none =>
      have hmem : rootDir ++ path ∉ stored := fun hm => (hc.keys _).mp hm hcached
      rw [if_neg hmem] at hp
      rw [answers_miss hcached]
      split_ifs with hcrash
      · simp
      refine List.forall_mem_cons.mpr ⟨asAlone_of_miss hcrash, ?_⟩
      have htarget : target d (rootDir ++ path) = target (onHeap d h) (rootDir ++ path) := rfl
      rw [htarget] at hp
      rcases fetched_cases hcrash cache with ⟨ht, hafter⟩ | ⟨t, f, ht, hf, hafter⟩
      · rw [ht] at hp
        rw [hafter]
        exact ih hp hc rfl
      · rw [ht] at hp
        rw [hafter]
        exact ih (hp (opens_of_loaded hf)) (hc.add trivial hf) rfl

/-- A run on one heap throughout, with pages stored under these paths, shows no difference. -/
def AloneOn (d : Disk) (h : Heap) (stored paths : List Text) : Prop :=
  ∃ cache, Cached d (· = h) stored cache ∧
    ∀ a ∈ answers d cache (paths.map fun p => (p, h)), AsAlone d a

section AloneOn
variable {h : Heap} {path : Text} {paths : List Text}

theorem AloneOn.hit (ha : AloneOn d h stored (path :: paths)) (hmem : rootDir ++ path ∈ stored) :
    AloneOn d h stored paths ∧
      ∃ f, loaded (onHeap d h) (rootDir ++ path) = some f ∧ AsAlone d (path, .file f) := by
  obtain ⟨cache, hc, halone⟩ := ha
  obtain ⟨f, hcached⟩ := Option.ne_none_iff_exists'.mp ((hc.keys _).mp hmem)
  obtain ⟨_, rfl, hf⟩ := hc.pages _ f hcached
  rw [List.map_cons, answers_hit hcached] at halone
  obtain ⟨hfirst, hrest⟩ := List.forall_mem_cons.mp halone
  exact ⟨⟨cache, hc, hrest⟩, f, hf, hfirst⟩

/-- Behind a call that finds nothing cached and is not the last one. -/
theorem AloneOn.miss (ha : AloneOn d h stored (path :: paths)) (hmem : rootDir ++ path ∉ stored)
    (hcrash : fetched (onHeap d h) (rootDir ++ path) ≠ .crashed) :
    ∃ cache, Cached d (· = h) stored cache ∧
      ∀ a ∈ answers d (cacheAfter (onHeap d h) cache (rootDir ++ path))
        (paths.map fun p => (p, h)), AsAlone d a := by
  obtain ⟨cache, hc, halone⟩ := ha
  have hnone : cache (rootDir ++ path) = none := by
    by_contra hne
    exact hmem ((hc.keys _).mpr hne)
  rw [List.map_cons, answers_miss hnone, if_neg hcrash] at halone
  exact ⟨cache, hc, (List.forall_mem_cons.mp halone).2⟩

theorem AloneOn.missing (ha : AloneOn d h stored (path :: paths))
    (hmem : rootDir ++ path ∉ stored) (ht : target d (rootDir ++ path) = none) :
    AloneOn d h stored paths := by
  have ht : target (onHeap d h) (rootDir ++ path) = none := ht
  have hcrash : fetched (onHeap d h) (rootDir ++ path) ≠ .crashed := by
    rw [(fetched_nothing ht emptyCache).1]
    simp
  obtain ⟨cache, hc, hrest⟩ := ha.miss hmem hcrash
  exact ⟨cache, hc, (fetched_nothing ht cache).2 ▸ hrest⟩

theorem AloneOn.stores (ha : AloneOn d h stored (path :: paths))
    (hmem : rootDir ++ path ∉ stored) {t : Text} (ht : target d (rootDir ++ path) = some t)
    (hopens : Opens d t) : AloneOn d h (t :: stored) paths := by
  have ht : target (onHeap d h) (rootDir ++ path) = some t := ht
  obtain ⟨f, hf⟩ := loaded_of_opens hopens h
  have hcrash : fetched (onHeap d h) (rootDir ++ path) ≠ .crashed := by
    rw [(fetched_page ht hf emptyCache).1]
    simp
  obtain ⟨cache, hc, hrest⟩ := ha.miss hmem hcrash
  exact ⟨_, hc.add rfl hf, (fetched_page ht hf cache).2 ▸ hrest⟩

end AloneOn

/-- Runs on one heap each show what the hits are. -/
theorem hitsPlain_of_aloneOn {paths : List Text} (hall : ∀ h, AloneOn d h stored paths) :
    HitsPlain d stored paths := by
  induction paths generalizing stored with
  | nil => trivial
  | cons path paths ih =>
    rw [HitsPlain]
    by_cases hmem : rootDir ++ path ∈ stored
    · rw [if_pos hmem]
      refine ⟨?_, ih fun h => ((hall h).hit hmem).1⟩
      by_cases hplain : ∀ st, d.stat (rootDir ++ path) = some st → looksLikeFolder st = false
      · exact Or.inl hplain
      · refine Or.inr fun h f hf => ?_
        obtain ⟨-, f', hf', hfirst⟩ := (hall h).hit hmem
        obtain rfl : f' = f := Option.some.inj (hf'.symm.trans hf)
        exact ((asAlone_hit_iff hf).mp hfirst).resolve_left hplain
    · rw [if_neg hmem]
      cases ht : target d (rootDir ++ path) with
      | none => exact ih fun h => (hall h).missing hmem ht
      | some t => exact fun hopens => ih fun h => (hall h).stores hmem ht hopens

end Runs

/-- On a fixed filesystem the cache does not change what a sequence of calls returns exactly when
every call that hits the cache is for a path that does not look like a folder, or whose index is
the same page. -/
theorem cache_transparent_iff (d : Disk) (paths : List Text) :
    Transparent d paths ↔ HitsPlain d [] paths := by
  constructor
  · intro h
    refine hitsPlain_of_aloneOn fun heap => ⟨emptyCache, cached_empty d _, ?_⟩
    exact h _ (by simp [Function.comp_def])
  · intro h calls hcalls
    exact asAlone_of_hitsPlain h (cached_empty d _) hcalls

/-- A folder that others may search, and in it an index that others may execute. -/
def executableIndex : Disk :=
  ⟨fun p => if p = "./wwwroot/d".toList then some ⟨0x41ED, 4096⟩
      else if p = "./wwwroot/d/index.html".toList then some ⟨0x81ED, 1⟩ else none,
    fun p => if p = "./wwwroot/d/index.html".toList then some ['x'] else none,
    fun _ => []⟩

def spaces : Heap := ⟨fun n => List.replicate n ' ', fun _ => List.length_replicate⟩

/-- After the folder the index is served; by itself it is looked up as a folder and not found. -/
theorem executable_index_not_transparent :
    answers executableIndex emptyCache
        [("/d".toList, spaces), ("/d/index.html".toList, spaces)] =
      [("/d".toList, .file ⟨"./wwwroot/d/index.html".toList, ['x'], 1⟩),
        ("/d/index.html".toList, .file ⟨"./wwwroot/d/index.html".toList, ['x'], 1⟩)] ∧
      answers executableIndex emptyCache [("/d/index.html".toList, spaces)] =
        [("/d/index.html".toList, .missing)] ∧
      ¬ Transparent executableIndex ["/d".toList, "/d/index.html".toList] := by
  have hboth : answers executableIndex emptyCache
      [("/d".toList, spaces), ("/d/index.html".toList, spaces)] =
        [("/d".toList, .file ⟨"./wwwroot/d/index.html".toList, ['x'], 1⟩),
          ("/d/index.html".toList, .file ⟨"./wwwroot/d/index.html".toList, ['x'], 1⟩)] := by
    decide
  refine ⟨hboth, by decide, ?_⟩
  intro h
  have halone := h [("/d".toList, spaces), ("/d/index.html".toList, spaces)] rfl
    ("/d/index.html".toList, .file ⟨"./wwwroot/d/index.html".toList, ['x'], 1⟩)
    (by rw [hboth]; exact List.mem_cons_of_mem _ List.mem_cons_self)
  obtain ⟨heap, hsame⟩ := halone
  rw [found_alone] at hsame
  have hmissing : fetched (onHeap executableIndex heap) (rootDir ++ "/d/index.html".toList) =
      .missing := by
    have htarget : target executableIndex (rootDir ++ "/d/index.html".toList) = none := by decide
    have hheap : target (onHeap executableIndex heap) (rootDir ++ "/d/index.html".toList) = none :=
      htarget
    simp only [fetched, hheap]
  rw [hmissing] at hsame
  exact hsame

end HttpPageCache
