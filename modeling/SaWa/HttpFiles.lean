import SaWa.FileTree
import SaWa.HttpPaths
import SaWa.HttpPageCache

/-! `HTTPServer::getFile` over a filesystem of files, directories and other things, each with its
permission bits. What `stat` and `fopen` say of a path is what they say of what it leads to. -/
namespace HttpFiles

open HttpServer HttpPageCache FileTree
open HttpPaths (toStep splitOn_append)

inductive SpecialType where
  | fifo
  | charDevice
  | blockDevice
  | socket
  deriving DecidableEq, Repr

def SpecialType.bits : SpecialType → ℕ
  | .fifo => 0x1000
  | .charDevice => 0x2000
  | .blockDevice => 0x6000
  | .socket => 0xC000

/-- What a name leads to, with links followed. `opened` is what can be read from a special file,
if it can be opened. -/
inductive Node (ι : Type) where
  | regular (perms : Fin 4096) (bytes : Text)
  | directory (perms : Fin 4096) (size : ℕ) (dir : Directory ι Text)
  | special (type : SpecialType) (perms : Fin 4096) (size : ℕ) (opened : Option Text)

namespace Node
variable {ι : Type}

def perms : Node ι → Fin 4096
  | .regular perms _ => perms
  | .directory perms _ _ => perms
  | .special _ perms _ _ => perms

def stat : Node ι → Stat
  | .regular perms bytes => ⟨0x8000 + perms.val, bytes.length⟩
  | .directory perms size _ => ⟨sIfdir + perms.val, size⟩
  | .special type perms size _ => ⟨type.bits + perms.val, size⟩

/-- What is read after `fopen`. A directory can be opened, but not read. -/
def opened : Node ι → Option Text
  | .regular _ bytes => some bytes
  | .directory _ _ _ => some []
  | .special _ _ _ opened => opened

def dir? : Node ι → Option (Directory ι Text)
  | .directory _ _ dir => some dir
  | _ => none

def bytes? : Node ι → Option Text
  | .regular _ bytes => some bytes
  | _ => none

/-- The last permission bit: others may execute the file or search the directory. -/
def OthersExecute (n : Node ι) : Prop := n.perms.val % 2 = 1

instance (n : Node ι) : Decidable n.OthersExecute := inferInstanceAs (Decidable (_ = _))

end Node

/-- What the server may read and search is left open: it depends on its user as well. -/
structure FileSystem (ι : Type) where
  node : ι → Node ι
  root : ι
  cwd : ι
  mayRead : ι → Bool
  maySearch : ι → Bool

namespace FileSystem
variable {ι : Type} (fs : FileSystem ι)

def dirs (i : ι) : Option (Directory ι Text) := (fs.node i).dir?

def searchable (i : ι) : Option (Directory ι Text) := if fs.maySearch i then fs.dirs i else none

/-- The components of a path up to the slashes at its end. -/
def names (p : Text) : List Text := (p.splitOn '/').rdropWhile (· = [])

/-- Each component is looked up in the directory before it, through directories of `dirs`. Slashes
at the end only ask for a directory, not that it may be searched. -/
def lookup (dirs : ι → Option (Directory ι Text)) (p : Text) : Option ι :=
  if p = [] then none
  else
    (reach dirs (if p.head? = some '/' then fs.root else fs.cwd) ((names p).map toStep)).bind
      fun i => if names p = p.splitOn '/' then some i else (fs.dirs i).map fun _ => i

/-- What a path leads to. -/
def leads (p : Text) : Option ι := fs.lookup fs.dirs p

/-- What the server gets to by a path. -/
def resolve (p : Text) : Option ι := fs.lookup fs.searchable p

def disk : Disk :=
  ⟨fun p => (fs.resolve p).map fun i => (fs.node i).stat,
    fun p => (fs.resolve p).bind fun i => if fs.mayRead i then (fs.node i).opened else none,
    fun _ => []⟩

/-- What is to be served: the contents of a regular file, or those of the regular `index.html` of a
directory. -/
def servedAt (i : ι) : Option Text :=
  match fs.node i with
  | .regular _ bytes => some bytes
  | .directory _ _ dir => (dir.entry indexHtml).bind fun j => (fs.node j).bytes?
  | .special _ _ _ _ => none

def served (path : Text) : Option Text := (fs.leads (rootDir ++ path)).bind fs.servedAt

/-- On an empty cache, whatever new arrays hold, the call returns the contents to be served, or
nothing when there are none. -/
def AnswersRight (path : Text) : Prop :=
  ∀ h : Heap,
    match fs.served path with
    | some b => ∃ f, (getFile (onHeap fs.disk h) emptyCache path).found = .file f ∧
        f.content = b ∧ f.size = b.length
    | none => (getFile (onHeap fs.disk h) emptyCache path).found = .missing

/-- A regular file that the server may read, of a size that an `int` holds. -/
def Loadable (i : ι) : Prop :=
  ∃ bytes, (fs.node i).bytes? = some bytes ∧ fs.mayRead i = true ∧ bytes.length < 2 ^ 31

/-- The type of this can be told from its last permission bit, and what is to be served for it can
be loaded. -/
def TypeToldAt (i : ι) : Prop :=
  match fs.node i with
  | .regular _ _ => ¬ (fs.node i).OthersExecute ∧ fs.Loadable i
  | .special _ _ _ _ => (fs.node i).OthersExecute
  | .directory _ size dir =>
    if (fs.node i).OthersExecute then
      if fs.maySearch i then ∀ j, dir.entry indexHtml = some j → fs.Loadable j
      else ∀ j, dir.entry indexHtml = some j → (fs.node j).bytes? = none
    else
      -- what is opened is the directory: no bytes, right for an empty index if its size is 0
      fs.mayRead i = true ∧ size % 2 ^ 32 = 0 ∧
        ∃ j, dir.entry indexHtml = some j ∧ (fs.node j).bytes? = some []

def TypeTold (path : Text) : Prop :=
  match fs.resolve (rootDir ++ path) with
  | none => fs.served path = none
  | some i => fs.TypeToldAt i

/-! ### Paths -/

section Paths
variable {fs} {p : Text} {i : ι}

theorem resolve_leads (h : fs.resolve p = some i) : fs.leads p = some i := by
  have hdirs : ∀ k d, fs.searchable k = some d → fs.dirs k = some d := by
    intro k d hk
    unfold searchable at hk
    split_ifs at hk
    exact hk
  unfold resolve lookup at h
  by_cases hp : p = []
  · rw [if_pos hp] at h
    cases h
  rw [if_neg hp] at h
  obtain ⟨j, hj, hi⟩ := Option.bind_eq_some_iff.mp h
  rw [leads, lookup, if_neg hp, reach_mono hdirs hj, Option.bind_some]
  exact hi

theorem head_indexOf (hp : p ≠ []) : (indexOf p).head? = p.head? := by
  obtain ⟨c, t, rfl⟩ := List.exists_cons_of_ne_nil hp
  unfold indexOf
  split_ifs <;> rfl

theorem names_concat {l : List Text} {c : Text} (hsplit : p.splitOn '/' = l ++ [c])
    (hc : c ≠ []) : names p = p.splitOn '/' := by
  rw [names, hsplit, List.rdropWhile_concat_neg _ _ _ (by simpa using hc)]

/-- The components of the index are those of the path with no more than slashes between. -/
theorem splitOn_indexOf (p : Text) :
    ∃ k, (indexOf p).splitOn '/' = names p ++ List.replicate k [] ++ [indexHtml] := by
  have hindex : indexHtml.splitOn '/' = [indexHtml] := by decide
  have hdrop : ∀ l : List Text, ∃ k, l = l.rdropWhile (· = []) ++ List.replicate k [] := by
    intro l
    induction l using List.reverseRecOn with
    | nil => exact ⟨0, rfl⟩
    | append_singleton l c ih =>
      by_cases hc : c = []
      · obtain ⟨k, hk⟩ := ih
        refine ⟨k + 1, ?_⟩
        rw [List.rdropWhile_concat_pos _ _ _ (by simpa using hc), List.replicate_succ',
          ← List.append_assoc, ← hk, hc]
      · refine ⟨0, ?_⟩
        rw [List.rdropWhile_concat_neg _ _ _ (by simpa using hc), List.replicate_zero,
          List.append_nil]
  by_cases h : p.getLast? = some '/'
  · obtain ⟨q, rfl⟩ := List.getLast?_eq_some_iff.mp h
    have hp : indexOf (q ++ ['/']) = q ++ '/' :: indexHtml := by
      rw [indexOf, if_pos h, List.append_assoc]
      rfl
    obtain ⟨k, hk⟩ := hdrop (q.splitOn '/')
    have hnames : names (q ++ ['/']) = (q.splitOn '/').rdropWhile (· = []) := by
      rw [names, splitOn_append]
      exact List.rdropWhile_concat_pos _ _ _ (by decide)
    refine ⟨k, ?_⟩
    rw [hp, splitOn_append, hindex, hnames, ← hk]
  · obtain ⟨k, hk⟩ := hdrop (p.splitOn '/')
    refine ⟨k, ?_⟩
    rw [indexOf, if_neg h, splitOn_append, hindex, names, ← hk]

/-- The path of the index leads to the entry of that name, if the path leads to a directory. -/
theorem resolve_indexOf (hp : p ≠ []) : fs.resolve (indexOf p) =
    (fs.resolve p).bind fun i => follow fs.searchable i (.name indexHtml) := by
  have hne : indexOf p ≠ [] := by
    intro hnil
    have hhead := head_indexOf hp
    rw [hnil] at hhead
    exact hp (List.head?_eq_none_iff.mp hhead.symm)
  obtain ⟨k, hk⟩ := splitOn_indexOf p
  have hnames := names_concat hk (by decide)
  have hsteps : (names (indexOf p)).map toStep =
      (names p).map toStep ++ (List.replicate k .here ++ [.name indexHtml]) := by
    rw [hnames, hk, List.map_append, List.map_append, List.map_replicate, List.append_assoc]
    rfl
  rw [resolve, resolve, lookup, lookup, if_neg hne, if_neg hp, head_indexOf hp, hsteps,
    reach_append, Option.bind_assoc, Option.bind_assoc]
  congr 1
  funext i
  simp only [if_pos hnames, reach_here_name, Option.bind_fun_some]
  split_ifs with hslash
  · rfl
  · -- What the index is an entry of is a directory anyway.
    cases hd : fs.dirs i with
    | none => simp [follow, searchable, hd]
    | some d => rfl

theorem follow_name (i : ι) : follow fs.searchable i (.name indexHtml) =
    if fs.maySearch i then ((fs.node i).dir?).bind fun d => d.entry indexHtml else none := by
  unfold follow searchable dirs
  split_ifs <;> rfl

end Paths

theorem looksLikeFolder_bit (st : Stat) : looksLikeFolder st = true ↔ st.stMode % 2 = 1 := by
  have hone : (decide (sIfdir ≠ 0)).toNat = 1 := by decide
  rw [looksLikeFolder, hone, Nat.and_one_is_mod, decide_eq_true_eq]
  omega

/-- The test for a folder looks at the last permission bit. -/
theorem looksLikeFolder_iff (n : Node ι) : looksLikeFolder n.stat = true ↔ n.OthersExecute := by
  rw [looksLikeFolder_bit, Node.OthersExecute]
  cases n with
  | regular perms bytes =>
    simp only [Node.stat, Node.perms]
    omega
  | directory perms size dir =>
    simp only [Node.stat, Node.perms, sIfdir]
    omega
  | special type perms size opened =>
    cases type <;> simp only [Node.stat, Node.perms, SpecialType.bits] <;> omega

/-! ### Loading -/

section Loading
variable {fs} {p : Text} {i : ι}

theorem stat_disk (h : Heap) (hp : fs.resolve p = some i) :
    (onHeap fs.disk h).stat p = some (fs.node i).stat := by
  simp [onHeap, disk, hp]

theorem fopen_disk (h : Heap) (hp : fs.resolve p = some i) :
    (onHeap fs.disk h).fopen p = if fs.mayRead i then (fs.node i).opened else none := by
  simp [onHeap, disk, hp]

/-- A heap of one character throughout. -/
def filled (c : Char) : Heap := ⟨fun n => List.replicate n c, fun _ => List.length_replicate⟩

theorem loaded_at (h : Heap) (hp : fs.resolve p = some i) : loaded (onHeap fs.disk h) p =
    if 2 ^ 31 ≤ (fs.node i).stat.stSize % 2 ^ 32 then none
    else (if fs.mayRead i then (fs.node i).opened else none).map fun o =>
      ⟨p, o.take ((fs.node i).stat.stSize % 2 ^ 32) ++
        (h.cells ((fs.node i).stat.stSize % 2 ^ 32)).drop o.length,
        (fs.node i).stat.stSize % 2 ^ 32⟩ := by
  rw [loaded, stat_disk h hp]
  simp only [loadFile, fopen_disk h hp]
  rfl

/-- Two heaps agree on what was not read only if all was read. -/
theorem prefix_of_same {b o : Text} {n : ℕ}
    (ha : o.take n ++ ((filled 'a').cells n).drop o.length = b)
    (hb : o.take n ++ ((filled 'b').cells n).drop o.length = b) : b <+: o := by
  simp only [filled, List.drop_replicate] at ha hb
  have hrest := List.append_cancel_left (ha.trans hb.symm)
  have hall : n - o.length = 0 := by
    rcases (List.replicate_inj.mp hrest).2 with hzero | hab
    · exact hzero
    · exact absurd hab (by decide)
  rw [hall, List.replicate_zero, List.append_nil] at ha
  rw [← ha]
  exact List.take_prefix n o

/-- What is loaded is `b` whatever the heap holds exactly when the size is that of `b` and so
many bytes can be read, which are `b`. -/
theorem loads_right_iff (hp : fs.resolve p = some i) (b : Text) :
    (∀ h : Heap, ∃ f, loaded (onHeap fs.disk h) p = some f ∧ f.content = b ∧ f.size = b.length) ↔
      fs.mayRead i = true ∧ (fs.node i).stat.stSize % 2 ^ 32 = b.length ∧ b.length < 2 ^ 31 ∧
        ∃ o, (fs.node i).opened = some o ∧ b <+: o := by
  simp only [loaded_at _ hp]
  generalize (fs.node i).stat.stSize % 2 ^ 32 = n
  constructor
  · intro hall
    obtain ⟨f, hf, hcontent, hsize⟩ := hall (filled 'a')
    obtain ⟨g, hg, hcontent', -⟩ := hall (filled 'b')
    split_ifs at hf hg with hneg hread
    · obtain ⟨o, ho, rfl⟩ := Option.map_eq_some_iff.mp hf
      obtain ⟨o', ho', rfl⟩ := Option.map_eq_some_iff.mp hg
      obtain rfl : o = o' := Option.some.inj (ho.symm.trans ho')
      have hn : n = b.length := hsize
      exact ⟨hread, hn, by omega, o, ho, prefix_of_same hcontent hcontent'⟩
    · cases hf
  · rintro ⟨hread, hsize, hlt, o, ho, hpre⟩
    intro h
    rw [if_neg (by omega), if_pos hread, ho]
    refine ⟨_, rfl, ?_, hsize⟩
    have htake : o.take n = b := by
      rw [hsize]
      exact (List.prefix_iff_eq_take.mp hpre).symm
    have hdrop : (h.cells n).drop o.length = [] := by
      apply List.drop_of_length_le
      rw [h.sized, hsize]
      exact hpre.length_le
    simp only [htake, hdrop, List.append_nil]

/-- A regular file loads as it is when the server may read it and its size is an `int`. -/
theorem loads_regular_iff (hp : fs.resolve p = some i) {b : Text}
    (hb : (fs.node i).bytes? = some b) :
    (∀ h : Heap, ∃ f, loaded (onHeap fs.disk h) p = some f ∧ f.content = b ∧ f.size = b.length) ↔
      fs.Loadable i := by
  have hregular : (fs.node i).stat.stSize = b.length ∧ (fs.node i).opened = some b := by
    cases hnode : fs.node i with
    | regular perms bytes =>
      rw [hnode] at hb
      obtain rfl : bytes = b := Option.some.inj hb
      exact ⟨rfl, rfl⟩
    | _ => simp [hnode, Node.bytes?] at hb
  rw [loads_right_iff hp, hregular.1, hregular.2]
  constructor
  · rintro ⟨hread, -, hlt, -⟩
    exact ⟨b, hb, hread, hlt⟩
  · rintro ⟨b', hb', hread, hlt⟩
    obtain rfl : b = b' := Option.some.inj (hb.symm.trans hb')
    exact ⟨hread, Nat.mod_eq_of_lt (by omega), hlt, b, rfl, List.prefix_rfl⟩

end Loading

/-! ### The answer -/

section Answer
variable {fs} {path : Text} {i : ι}

theorem rootDir_ne_nil (path : Text) : rootDir ++ path ≠ [] := by
  have h : rootDir ≠ [] := by decide
  simp [h]

/-- What is to be served is what there is to load: nothing, or the page at this path. -/
def LoadsRight (fs : FileSystem ι) : Option Text → Option Text → Prop
  | none, none => True
  | some b, some t => ∀ h : Heap, ∃ f, loaded (onHeap fs.disk h) t = some f ∧
      f.content = b ∧ f.size = b.length
  | _, _ => False

@[simp] theorem loadsRight_nothing : fs.LoadsRight none none := trivial
@[simp] theorem loadsRight_more (t : Text) : ¬ fs.LoadsRight none (some t) := id
@[simp] theorem loadsRight_less (b : Text) : ¬ fs.LoadsRight (some b) none := id

theorem loadsRight_none_iff {o : Option Text} : fs.LoadsRight o none ↔ o = none := by
  cases o <;> simp

theorem answersRight_target {t : Option Text} (ht : target fs.disk (rootDir ++ path) = t) :
    fs.AnswersRight path ↔ fs.LoadsRight (fs.served path) t := by
  have ht : ∀ h, target (onHeap fs.disk h) (rootDir ++ path) = t := fun h => ht
  unfold AnswersRight
  simp only [found_alone, fetched, ht]
  cases fs.served path with
  | none =>
    cases t with
    | none => simp
    | some t =>
      refine iff_of_false ?_ (loadsRight_more t)
      intro hall
      have h := hall (filled 'a')
      cases hl : loaded (onHeap fs.disk (filled 'a')) t <;> simp [hl] at h
  | some b =>
    cases t with
    | none =>
      refine iff_of_false ?_ (loadsRight_less b)
      intro hall
      obtain ⟨f, hf, -⟩ := hall (filled 'a')
      cases hf
    | some t =>
      apply forall_congr'
      intro h
      cases hl : loaded (onHeap fs.disk h) t <;> simp [hl]

theorem target_missing (h : fs.resolve (rootDir ++ path) = none) :
    target fs.disk (rootDir ++ path) = none := by
  simp [target, disk, h]

/-- Without the last permission bit the path itself is loaded, and with it the index. -/
theorem target_found (h : fs.resolve (rootDir ++ path) = some i) :
    target fs.disk (rootDir ++ path) =
      if (fs.node i).OthersExecute then
        if fs.maySearch i then
          ((fs.node i).dir?.bind fun d => d.entry indexHtml).map fun _ => indexOf (rootDir ++ path)
        else none
      else some (rootDir ++ path) := by
  have hindex : fs.resolve (indexOf (rootDir ++ path)) =
      if fs.maySearch i then (fs.node i).dir?.bind fun d => d.entry indexHtml else none := by
    rw [resolve_indexOf (rootDir_ne_nil path), h, Option.bind_some, follow_name]
  have hstat : fs.disk.stat (rootDir ++ path) = some (fs.node i).stat := by simp [disk, h]
  have hstat' : fs.disk.stat (indexOf (rootDir ++ path)) =
      (fs.resolve (indexOf (rootDir ++ path))).map fun j => (fs.node j).stat := rfl
  rw [target, hstat, hstat', hindex]
  simp only [looksLikeFolder_iff, Option.map_map]
  split_ifs <;> rfl

/-- With the last permission bit set, the index is what is loaded. -/
theorem loads_index_iff (h : fs.resolve (rootDir ++ path) = some i)
    (hx : (fs.node i).OthersExecute) :
    fs.LoadsRight (fs.servedAt i)
        (if fs.maySearch i then
          ((fs.node i).dir?.bind fun d => d.entry indexHtml).map fun _ => indexOf (rootDir ++ path)
        else none) ↔
      fs.TypeToldAt i := by
  unfold servedAt TypeToldAt
  cases hnode : fs.node i with
  | regular perms bytes =>
    rw [hnode] at hx
    simp [Node.dir?, hx]
  | special type perms size opened =>
    rw [hnode] at hx
    simp [Node.dir?, hx]
  | directory perms size dir =>
    rw [hnode] at hx
    simp only [Node.dir?, Option.bind_some, if_pos hx]
    have hindex : fs.resolve (indexOf (rootDir ++ path)) =
        if fs.maySearch i then dir.entry indexHtml else none := by
      rw [resolve_indexOf (rootDir_ne_nil path), h, Option.bind_some, follow_name, hnode]
      rfl
    split_ifs with hsearch
    · rw [if_pos hsearch] at hindex
      cases hentry : dir.entry indexHtml with
      | none => simp
      | some j =>
        rw [hentry] at hindex
        simp only [Option.bind_some, Option.map_some, Option.some.injEq, forall_eq']
        cases hb : (fs.node j).bytes? with
        | none => simp [Loadable, hb]
        | some b => exact loads_regular_iff hindex hb
    · rw [loadsRight_none_iff]
      simp

/-- Without it, the path itself is loaded. -/
theorem loads_itself_iff (h : fs.resolve (rootDir ++ path) = some i)
    (hx : ¬ (fs.node i).OthersExecute) :
    fs.LoadsRight (fs.servedAt i) (some (rootDir ++ path)) ↔ fs.TypeToldAt i := by
  unfold servedAt TypeToldAt
  cases hnode : fs.node i with
  | regular perms bytes =>
    have hb : (fs.node i).bytes? = some bytes := by rw [hnode]; rfl
    rw [hnode] at hx
    rw [and_iff_right hx]
    exact loads_regular_iff h hb
  | special type perms size opened =>
    rw [hnode] at hx
    simp [hx]
  | directory perms size dir =>
    rw [hnode] at hx
    simp only [if_neg hx]
    have hempty : (∃ j, dir.entry indexHtml = some j ∧ (fs.node j).bytes? = some []) ↔
        ((dir.entry indexHtml).bind fun j => (fs.node j).bytes?) = some [] :=
      Option.bind_eq_some_iff.symm
    rw [hempty]
    cases (dir.entry indexHtml).bind fun j => (fs.node j).bytes? with
    | none => simp
    | some b =>
      have hloads := loads_right_iff h b
      simp only [hnode, Node.stat, Node.opened] at hloads
      refine hloads.trans ?_
      constructor
      · rintro ⟨hread, hsize, -, o, ho, hpre⟩
        obtain rfl : [] = o := Option.some.inj ho
        obtain rfl := List.prefix_nil.mp hpre
        exact ⟨hread, hsize, rfl⟩
      · rintro ⟨hread, hsize, hb⟩
        obtain rfl : b = [] := Option.some.inj hb
        exact ⟨hread, hsize, by decide, [], rfl, List.prefix_rfl⟩

/-- The call returns what is to be served exactly when the last permission bit tells the type of
what the path leads to and nothing keeps the page from being loaded. -/
theorem answers_right_iff (fs : FileSystem ι) (path : Text) :
    fs.AnswersRight path ↔ fs.TypeTold path := by
  unfold TypeTold
  cases h : fs.resolve (rootDir ++ path) with
  | none => rw [answersRight_target (target_missing h), loadsRight_none_iff]
  | some i =>
    have hserved : fs.served path = fs.servedAt i := by
      rw [served, resolve_leads h, Option.bind_some]
    rw [answersRight_target (target_found h), hserved]
    by_cases hx : (fs.node i).OthersExecute
    · rw [if_pos hx]
      exact loads_index_iff h hx
    · rw [if_neg hx]
      exact loads_itself_iff h hx

end Answer

end FileSystem

theorem perms755 : 0x1ED < 4096 := by decide

/-- `./wwwroot/a`, which all may read and execute, in directories of the same permissions. -/
def executableFile : FileSystem ℕ where
  node
    | 0 => .directory ⟨0x1ED, perms755⟩ 4096
        ⟨fun name => if name = "wwwroot".toList then some 1 else none, 0⟩
    | 1 => .directory ⟨0x1ED, perms755⟩ 4096
        ⟨fun name => if name = "a".toList then some 2 else none, 0⟩
    | _ => .regular ⟨0x1ED, perms755⟩ ['x']
  root := 0
  cwd := 0
  mayRead _ := true
  maySearch _ := true

/-- The file is taken for a folder without an index, and not found. -/
theorem executable_file_missing :
    executableFile.served "/a".toList = some ['x'] ∧
      (∀ h, (getFile (onHeap executableFile.disk h) emptyCache "/a".toList).found = .missing) ∧
      ¬ executableFile.AnswersRight "/a".toList := by
  have hserved : executableFile.served "/a".toList = some ['x'] := by decide
  have htarget : target executableFile.disk (rootDir ++ "/a".toList) = none := by decide
  refine ⟨hserved, ?_, ?_⟩
  · intro h
    have hheap : target (onHeap executableFile.disk h) (rootDir ++ "/a".toList) = none := htarget
    rw [found_alone, fetched, hheap]
  · rw [FileSystem.answersRight_target htarget, hserved]
    exact FileSystem.loadsRight_less _

end HttpFiles
