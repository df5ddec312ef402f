import SaWa.HttpServer
import SaWa.LexicalPaths
import SaWa.GuardedRuns

/-! Where the paths lead that a request makes the server look at: `.` and `..` are resolved from
the server's working directory `cwd`, the names from the root down. -/
namespace HttpPaths

open HttpServer LexicalPaths GuardedRuns

def toStep (c : Text) : Step Text :=
  if c = [] ∨ c = ['.'] then .here else if c = ['.', '.'] then .up else .name c

def pathSteps (p : Text) : List (Step Text) := (p.splitOn '/').map toStep

def resolve (cwd : List Text) (p : Text) : List Text :=
  walk (if p.head? = some '/' then [] else cwd) (pathSteps p)

def rootName : Text := "wwwroot".toList

/-- The directory `./wwwroot` or something under it. -/
def Inside (cwd : List Text) (p : Text) : Prop := cwd ++ [rootName] <+: resolve cwd p

/-- The paths looked up or opened, and the one that what is served was read from. -/
def Uses (o : Outcome) (p : Text) : Prop :=
  .stat p ∈ o.accesses ∨ .load p ∈ o.accesses ∨ ∃ f, o.served = some f ∧ f.path = p

def Contained (cwd : List Text) (o : Outcome) : Prop := ∀ p, Uses o p → Inside cwd p

/-- The path of the request begins with a slash and each `..` has a name before it to cancel, or
it climbs some levels above `wwwroot` and then names the way back. -/
def Stays (cwd : List Text) (path : Text) : Prop :=
  let r := reduce ((path.splitOn '/').tail.map toStep)
  if r.ups = 0 then path.head? = some '/' else cwd.rtake (r.ups - 1) ++ [rootName] <+: r.names

instance (cwd : List Text) (p : Text) : Decidable (Inside cwd p) :=
  inferInstanceAs (Decidable (_ <+: _))

instance (cwd : List Text) (path : Text) : Decidable (Stays cwd path) := by
  unfold Stays
  infer_instance

/-! ### Resolving the paths that are used -/

theorem rootName_eq : rootName = ['w', 'w', 'w', 'r', 'o', 'o', 't'] := by decide

theorem rootDir_append (path : Text) : rootDir ++ path = '.' :: '/' :: (rootName ++ path) := by
  have h : rootDir = '.' :: '/' :: rootName := by decide
  rw [h, List.cons_append, List.cons_append]

theorem splitOn_rootDir {path c : Text} {cs : List Text} (h : path.splitOn '/' = c :: cs) :
    (rootDir ++ path).splitOn '/' = ['.'] :: (rootName ++ c) :: cs := by
  rw [List.splitOn_eq_splitOnP] at h ⊢
  rw [rootDir_append, rootName_eq]
  simp [List.splitOnP_cons_eq_if_modifyHead, h]

theorem toStep_root (c : Text) : toStep (rootName ++ c) = .name (rootName ++ c) := by
  simp [toStep, rootName_eq]

theorem splitOn_head {path c : Text} {cs : List Text} (hne : path ≠ [])
    (h : path.splitOn '/' = c :: cs) : c = [] ↔ path.head? = some '/' := by
  rw [List.splitOn_eq_splitOnP] at h
  cases path with
  | nil => exact absurd rfl hne
  | cons a s =>
    rw [List.splitOnP_cons_eq_if_modifyHead] at h
    by_cases ha : a = '/'
    · simp only [ha, beq_self_eq_true, if_true] at h
      simp [ha, (List.cons.inj h).1.symm]
    · obtain ⟨d, ds, hd⟩ := List.exists_cons_of_ne_nil (List.splitOnP_ne_nil (· == '/') s)
      simp only [beq_iff_eq, ha, if_false, hd, List.modifyHead_cons] at h
      simp [ha, (List.cons.inj h).1.symm]

theorem inside_root_iff (cwd : List Text) {path : Text} (hne : path ≠ []) :
    Inside cwd (rootDir ++ path) ↔ Stays cwd path := by
  obtain ⟨c, cs, hc⟩ := List.exists_cons_of_ne_nil (List.splitOn_ne_nil '/' path)
  have hresolve : resolve cwd (rootDir ++ path) =
      walk (cwd ++ [rootName ++ c]) (cs.map toStep) := by
    have hstart : (rootDir ++ path).head? ≠ some '/' := by simp [rootDir_append]
    rw [resolve, if_neg hstart, pathSteps, splitOn_rootDir hc, List.map_cons, List.map_cons,
      toStep_root]
    rfl
  rw [Inside, hresolve, prefix_walk_iff, Reduced.Within, Stays, hc, List.tail_cons]
  cases (reduce (cs.map toStep)).ups with
  | zero => simp [← splitOn_head hne hc]
  | succ k => simp

theorem splitOn_append (q t : Text) : (q ++ '/' :: t).splitOn '/' =
    q.splitOn '/' ++ t.splitOn '/' := by
  simp only [List.splitOn_eq_splitOnP]
  exact List.splitOnP_append_cons q t (beq_self_eq_true '/')

theorem pathSteps_append (q t : Text) : pathSteps (q ++ '/' :: t) = pathSteps q ++ pathSteps t := by
  rw [pathSteps, splitOn_append, List.map_append]
  rfl

/-- The path of the index goes one step further, but for the step of a slash at the end. -/
theorem pathSteps_indexOf (p : Text) : ∃ steps,
    (pathSteps p = steps ∨ pathSteps p = steps ++ [.here]) ∧
      pathSteps (indexOf p) = steps ++ [.name indexHtml] := by
  have hindex : pathSteps indexHtml = [.name indexHtml] := by decide
  by_cases h : p.getLast? = some '/'
  · obtain ⟨q, rfl⟩ := List.getLast?_eq_some_iff.mp h
    have hp : indexOf (q ++ ['/']) = q ++ '/' :: indexHtml := by
      rw [indexOf, if_pos h, List.append_assoc]
      rfl
    refine ⟨pathSteps q, Or.inr ?_, ?_⟩
    · rw [pathSteps_append]
      rfl
    · rw [hp, pathSteps_append, hindex]
  · refine ⟨pathSteps p, Or.inl rfl, ?_⟩
    rw [indexOf, if_neg h, pathSteps_append, hindex]

theorem walk_indexOf (dir : List Text) (p : Text) :
    walk dir (pathSteps (indexOf p)) = walk dir (pathSteps p) ++ [indexHtml] := by
  obtain ⟨steps, rfl | hp, hindex⟩ := pathSteps_indexOf p
  · rw [hindex, walk_append]
    rfl
  · rw [hindex, hp, walk_append, walk_append]
    rfl

theorem inside_indexOf {cwd : List Text} {path : Text} (h : Inside cwd (rootDir ++ path)) :
    Inside cwd (indexOf (rootDir ++ path)) := by
  have hhead : ∀ t : Text, (rootDir ++ t).head? ≠ some '/' := by
    intro t
    simp [rootDir_append]
  have hindex : (indexOf (rootDir ++ path)).head? ≠ some '/' := by
    unfold indexOf
    split_ifs
    · rw [List.append_assoc]
      exact hhead _
    · rw [List.append_assoc]
      exact hhead _
  rw [Inside, resolve, if_neg (hhead path)] at h
  rw [Inside, resolve, if_neg hindex, walk_indexOf]
  exact h.trans (List.prefix_append _ _)

/-! ### What a request uses -/

/-- A cached file is one that was loaded from the path it is cached under. -/
def CacheKeyed (cache : Cache) : Prop := ∀ p f, cache p = some f → f.path = p

section GetFile
variable {d : Disk} {cache : Cache} {path : Text}

theorem loadFile_path {size : ℕ} {f : WebFile} (h : loadFile d path size = some f) :
    f.path = path := by
  simp only [loadFile, Option.map_eq_some_iff] at h
  obtain ⟨bytes, -, rfl⟩ := h
  rfl

/-- The cache keeps its keys, and only `path` and the accesses made before are used. -/
structure Loads (cache : Cache) (paths : List Text) (l : Lookup) : Prop where
  keyed : CacheKeyed l.cache
  accesses : ∀ p, .stat p ∈ l.accesses ∨ .load p ∈ l.accesses → p ∈ paths
  found : ∀ f, l.found = .file f → f.path ∈ paths

theorem loads_loadInto (hk : CacheKeyed cache) {paths : List Text} {st : Stat}
    {accesses : List Access} (hpath : path ∈ paths)
    (hacc : ∀ p, .stat p ∈ accesses ∨ .load p ∈ accesses → p ∈ paths) :
    Loads cache paths (loadInto d cache path st accesses) := by
  have haccesses : ∀ p, .stat p ∈ accesses ++ [Access.load path] ∨
      .load p ∈ accesses ++ [Access.load path] → p ∈ paths := by
    intro p hp
    simp only [List.mem_append, List.mem_singleton, reduceCtorEq, or_false,
      Access.load.injEq] at hp
    rcases hp with hp | hp | rfl
    · exact hacc p (Or.inl hp)
    · exact hacc p (Or.inr hp)
    · exact hpath
  apply loadInto_cases
  · intro _
    exact ⟨hk, hacc, fun _ hf => by cases hf⟩
  · intro _ _
    exact ⟨hk, haccesses, fun _ hf => by cases hf⟩
  · intro f _ hload
    refine ⟨?_, haccesses, ?_⟩
    · intro p g hg
      by_cases hp : p = path
      · simp only [hp, if_true, Option.some.injEq] at hg
        rw [hp, ← hg]
        exact loadFile_path hload
      · simp only [hp, if_false] at hg
        exact hk p g hg
    · intro g hg
      obtain rfl : f = g := by simpa using hg
      exact (loadFile_path hload) ▸ hpath

theorem loads_getFile (d : Disk) (path : Text) (hk : CacheKeyed cache) :
    Loads cache [rootDir ++ path, indexOf (rootDir ++ path)] (getFile d cache path) := by
  apply getFile_cases
  · intro f hf
    refine ⟨hk, by simp, ?_⟩
    intro g hg
    obtain rfl : f = g := by simpa using hg
    simp [hk _ f hf]
  · intro _ _
    exact ⟨hk, by simp, by simp⟩
  · intro st _ _ _ _
    exact ⟨hk, by simp, by simp⟩
  · intro st st' _ _ _ _
    exact loads_loadInto hk (by simp) (by simp)
  · intro st _ _ _
    exact loads_loadInto hk (by simp) (by simp)

/-- The path itself is used first: a file read from it comes out of the cache, or it is looked
up. -/
theorem getFile_uses_path (d : Disk) (path : Text) (hk : CacheKeyed cache) :
    (∃ f, (getFile d cache path).found = .file f ∧ f.path = rootDir ++ path) ∨
      .stat (rootDir ++ path) ∈ (getFile d cache path).accesses := by
  have hload : ∀ p q st acc, .stat p ∈ acc → .stat p ∈ (loadInto d cache q st acc).accesses := by
    intro p q st acc hmem
    apply loadInto_cases (P := fun l => .stat p ∈ l.accesses) <;> simp [hmem]
  apply getFile_cases (P := fun l => (∃ f, l.found = .file f ∧ f.path = rootDir ++ path) ∨
    .stat (rootDir ++ path) ∈ l.accesses)
  · intro f hf
    exact Or.inl ⟨f, rfl, hk _ f hf⟩
  · intro _ _
    exact Or.inr (by simp)
  · intro st _ _ _ _
    exact Or.inr (by simp)
  · intro st st' _ _ _ _
    exact Or.inr (hload _ _ _ _ (by simp))
  · intro st _ _ _
    exact Or.inr (hload _ _ _ _ (by simp))

end GetFile

/-! ### Requests, one after the other -/

/-- The cache grows from request to request, whatever the filesystem holds each time. -/
def server : System Cache (Disk × Text) :=
  ⟨fun cache => ∀ p, cache p = none, fun _ _ => True,
    fun cache r => (processRequest (.files r.1) cache r.2).cache⟩

section Request
variable {d : Disk} {cache : Cache} {buffer : Text}

theorem processRequest_valid (d : Disk) (cache : Cache) (h : (parseRequest buffer).valid = true) :
    (processRequest (.files d) cache buffer).accesses =
        (getFile d cache (parseRequest buffer).path).accesses ∧
      (processRequest (.files d) cache buffer).cache =
        (getFile d cache (parseRequest buffer).path).cache ∧
      ∀ f, (processRequest (.files d) cache buffer).served = some f ↔
        (getFile d cache (parseRequest buffer).path).found = .file f := by
  rw [processRequest_files d cache h rfl]
  cases (getFile d cache (parseRequest buffer).path).found <;> simp [replyFile]

theorem path_ne_nil (h : (parseRequest buffer).valid = true) : (parseRequest buffer).path ≠ [] := by
  simpa [parseRequest] using h

theorem reachable_keyed (h : Reachable server cache) : CacheKeyed cache := by
  apply h.invariant
  · intro cache hstart p f hf
    rw [hstart p] at hf
    cases hf
  · rintro cache ⟨d, buffer⟩ - - hk
    change CacheKeyed (processRequest (.files d) cache buffer).cache
    cases hv : (parseRequest buffer).valid with
    | false =>
      rw [processRequest_invalid _ cache hv]
      exact hk
    | true =>
      rw [(processRequest_valid d cache hv).2.1]
      exact (loads_getFile d _ hk).keyed

/-- Everything a request uses lies in `./wwwroot` exactly when the path in its request line, if
there is one, stays there. -/
theorem contained_iff_stays (h : Reachable server cache) (cwd : List Text) (d : Disk)
    (buffer : Text) :
    Contained cwd (processRequest (.files d) cache buffer) ↔
      ((parseRequest buffer).valid = true → Stays cwd (parseRequest buffer).path) := by
  have hk := reachable_keyed h
  constructor
  · intro hc hv
    obtain ⟨hacc, -, hserved⟩ := processRequest_valid d cache hv
    apply (inside_root_iff cwd (path_ne_nil hv)).mp
    apply hc
    rcases getFile_uses_path d (parseRequest buffer).path hk with
      ⟨f, hf, hpath⟩ | hstat
    · exact Or.inr (Or.inr ⟨f, (hserved f).mpr hf, hpath⟩)
    · exact Or.inl (hacc ▸ hstat)
  · intro hstays p hp
    cases hv : (parseRequest buffer).valid with
    | false =>
      rw [processRequest_invalid _ cache hv] at hp
      simp [Uses] at hp
    | true =>
      obtain ⟨hacc, -, hserved⟩ := processRequest_valid d cache hv
      have hin := (inside_root_iff cwd (path_ne_nil hv)).mpr (hstays hv)
      have hl := loads_getFile d (parseRequest buffer).path hk
      have hmem : p ∈ [rootDir ++ (parseRequest buffer).path,
          indexOf (rootDir ++ (parseRequest buffer).path)] := by
        rcases hp with hp | hp | ⟨f, hf, rfl⟩
        · exact hl.accesses p (Or.inl (hacc ▸ hp))
        · exact hl.accesses p (Or.inr (hacc ▸ hp))
        · exact hl.found f ((hserved f).mp hf)
      simp only [List.mem_cons, List.not_mem_nil, or_false] at hmem
      rcases hmem with rfl | rfl
      · exact hin
      · exact inside_indexOf hin

end Request

/-- One file next to `wwwroot`. -/
def secretDisk : Disk :=
  ⟨fun p => if p = "./wwwroot/../key".toList then some ⟨0x81A0, 3⟩ else none,
    fun p => if p = "./wwwroot/../key".toList then some "abc".toList else none,
    fun _ => []⟩

def emptyCache : Cache := fun _ => none

theorem plain_request_contained :
    Contained ["srv".toList]
      (processRequest (.files secretDisk) emptyCache "GET /a/../b HTTP".toList) := by
  apply (contained_iff_stays (.start fun _ => rfl) _ _ _).mpr
  intro _
  decide

theorem climbing_request_served :
    (processRequest (.files secretDisk) emptyCache "GET /../key HTTP".toList).writes.getLast? =
        some "abc".toList ∧
      ¬ ∀ cwd d cache, Reachable server cache → ∀ buffer,
        Contained cwd (processRequest (.files d) cache buffer) := by
  refine ⟨by decide, ?_⟩
  intro hall
  have hin := hall ["srv".toList] secretDisk emptyCache (.start fun _ => rfl)
    "GET /../key HTTP".toList "./wwwroot/../key".toList (Or.inl (by decide))
  exact absurd hin (by decide)

end HttpPaths
