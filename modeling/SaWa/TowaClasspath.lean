import SaWa.HttpServer
import Mathlib.Data.List.Nodup

/-! `TowaMgr::scanClasspath`: the entries of `./classpath` are sorted into archives and folders,
the archives without a folder are unpacked, and each archive has its servlet read. -/
namespace TowaClasspath

open HttpServer

/-- `d_type`. -/
inductive EntryType where
  | reg
  | dir
  | other
  deriving DecidableEq, Repr

structure Dirent where
  name : Text
  type : EntryType
  deriving DecidableEq, Repr

inductive Failure where
  | outOfRange
  deriving DecidableEq, Repr

/-- The difference of two `size_t`. -/
def sizeSub (a b : ℕ) : ℕ := if b ≤ a then a - b else 2 ^ 64 + a - b

/-- Whether `s.compare(pos, len, t)` is 0. -/
def compareEq (s : Text) (pos len : ℕ) (t : Text) : Except Failure Bool :=
  if s.length < pos then .error .outOfRange else .ok ((s.drop pos).take len = t)

def warSuffix : Text := ['.', 'w', 'a', 'r']

/-- Two sets of strings. -/
structure Found where
  wars : List Text
  dirs : List Text
  deriving DecidableEq, Repr

def readEntry (f : Found) (e : Dirent) : Except Failure Found := do
  let f := if e.type = .dir then { f with dirs := f.dirs.insert e.name } else f
  if e.type = .reg then
    if ← compareEq e.name (sizeSub e.name.length 4) 4 warSuffix then
      return { f with wars := f.wars.insert (e.name.take (sizeSub e.name.length 4)) }
  return f

def readEntries : List Dirent → Found → Except Failure Found
  | [], f => .ok f
  | e :: rest, f => readEntry f e >>= readEntries rest

structure TowaServlet where
  name : Text
  path : Text
  deriving DecidableEq, Repr

inductive Command where
  | mkdir (path : Text) (mode : ℕ)
  | popen (line : Text)
  deriving DecidableEq, Repr

def unzipLine (warName : Text) : Text :=
  ['u', 'n', 'z', 'i', 'p', ' '] ++ warName ++ warSuffix ++ [' ', '-', 'd', ' '] ++ warName

def uncompressWar (warName : Text) : List Command :=
  [.mkdir warName 0o775, .popen (unzipLine warName)]

def inClasspath (war : Text) : Text :=
  ['.', '/', 'c', 'l', 'a', 's', 's', 'p', 'a', 't', 'h', '/'] ++ war

/-- The loop over the archives. -/
def deploy (readWebXML : Text → TowaServlet) (dirs : List Text) :
    List Text → List Command × List TowaServlet
  | [] => ([], [])
  | war :: rest =>
    let r := deploy readWebXML dirs rest
    ((if dirs.contains war then [] else uncompressWar (inClasspath war)) ++ r.1,
      readWebXML war :: r.2)

/-- The order in which an `unordered_set` is gone through. -/
structure SetOrder where
  order : List Text → List Text
  perm : ∀ l, (order l).Perm l

/-- `readWebXML` stands for the reading of a `web.xml` that succeeds. -/
def scanClasspath (readWebXML : Text → TowaServlet) (so : SetOrder) (entries : List Dirent) :
    Except Failure (List Command × List TowaServlet) := do
  let f ← readEntries entries ⟨[], []⟩
  return deploy readWebXML f.dirs (so.order f.wars)

/-! ### Reading the entries -/

/-- The folder has a regular file NAME.war. -/
def IsWar (entries : List Dirent) (n : Text) : Prop := ⟨n ++ warSuffix, .reg⟩ ∈ entries

def IsDir (entries : List Dirent) (n : Text) : Prop := ⟨n, .dir⟩ ∈ entries

/-- An entry whose suffix can be looked at, and where it goes. -/
def collect (f : Found) (e : Dirent) : Found :=
  match e.type with
  | .dir => { f with dirs := f.dirs.insert e.name }
  | .reg =>
    if e.name.drop (e.name.length - 4) = warSuffix then
      { f with wars := f.wars.insert (e.name.take (e.name.length - 4)) }
    else f
  | .other => f

section Entries
variable {f : Found} {e : Dirent} {entries : List Dirent}

/-- The position wraps around for a name of fewer than four characters. -/
theorem readEntry_short (ht : e.type = .reg) (hlen : e.name.length < 4) :
    readEntry f e = .error .outOfRange := by
  have hpos : e.name.length < sizeSub e.name.length 4 := by
    rw [sizeSub, if_neg (by omega)]
    omega
  simp only [readEntry, ht, if_true, compareEq, if_pos hpos]
  rfl

theorem readEntry_collect (hlen : e.type = .reg → 4 ≤ e.name.length) :
    readEntry f e = .ok (collect f e) := by
  cases ht : e.type with
  | dir => simp [readEntry, collect, ht, pure, Except.pure]
  | other => simp [readEntry, collect, ht, pure, Except.pure]
  | reg =>
    have hsub : sizeSub e.name.length 4 = e.name.length - 4 := if_pos (hlen ht)
    have hpos : ¬ e.name.length < e.name.length - 4 := by omega
    have htake : (e.name.drop (e.name.length - 4)).take 4 = e.name.drop (e.name.length - 4) := by
      apply List.take_of_length_le
      rw [List.length_drop]
      omega
    have hcmp : compareEq e.name (e.name.length - 4) 4 warSuffix =
        .ok (e.name.drop (e.name.length - 4) = warSuffix) := by
      rw [compareEq, if_neg hpos, htake]
    by_cases hw : e.name.drop (e.name.length - 4) = warSuffix
    · simp [readEntry, collect, ht, hsub, hcmp, hw, pure, Except.pure, bind, Except.bind]
    · simp [readEntry, collect, ht, hsub, hcmp, hw, pure, Except.pure, bind, Except.bind]

theorem readEntries_collect (hlen : ∀ e ∈ entries, e.type = .reg → 4 ≤ e.name.length)
    (f : Found) : readEntries entries f = .ok (entries.foldl collect f) := by
  induction entries generalizing f with
  | nil => rfl
  | cons e rest ih =>
    rw [readEntries, readEntry_collect (hlen e List.mem_cons_self)]
    exact ih (fun d hd => hlen d (List.mem_cons_of_mem e hd)) (collect f e)

theorem readEntries_short (he : e ∈ entries) (ht : e.type = .reg) (hlen : e.name.length < 4)
    (f : Found) : readEntries entries f = .error .outOfRange := by
  induction entries generalizing f with
  | nil => exact absurd he List.not_mem_nil
  | cons d rest ih =>
    rw [readEntries]
    by_cases hd : d.type = .reg → 4 ≤ d.name.length
    · rw [readEntry_collect hd]
      rcases List.mem_cons.mp he with rfl | he
      · have := hd ht
        omega
      · exact ih he (collect f d)
    · obtain ⟨hdt, hdlen⟩ := Classical.not_imp.mp hd
      rw [readEntry_short hdt (by omega)]
      rfl

theorem ends_in_war {s n : Text} : s = n ++ warSuffix ↔
    s.drop (s.length - 4) = warSuffix ∧ s.take (s.length - 4) = n := by
  constructor
  · rintro rfl
    have hlen : (n ++ warSuffix).length - 4 = n.length := by simp [warSuffix]
    rw [hlen, List.drop_left, List.take_left]
    exact ⟨rfl, rfl⟩
  · rintro ⟨hd, rfl⟩
    rw [← hd, List.take_append_drop]

theorem mem_wars_collect {n : Text} :
    n ∈ (collect f e).wars ↔ n ∈ f.wars ∨ e = ⟨n ++ warSuffix, .reg⟩ := by
  rcases e with ⟨s, t⟩
  cases t with
  | dir => simp [collect]
  | other => simp [collect]
  | reg =>
    simp only [collect, Dirent.mk.injEq, and_true, ends_in_war]
    split_ifs with hw
    · simp only [List.mem_insert_iff, hw, true_and]
      exact ⟨fun h => h.symm.imp id Eq.symm, fun h => h.symm.imp Eq.symm id⟩
    · simp [hw]

theorem mem_dirs_collect {n : Text} :
    n ∈ (collect f e).dirs ↔ n ∈ f.dirs ∨ e = ⟨n, .dir⟩ := by
  rcases e with ⟨s, t⟩
  cases t with
  | dir =>
    simp only [collect, List.mem_insert_iff, Dirent.mk.injEq, and_true]
    exact ⟨fun h => h.symm.imp id Eq.symm, fun h => h.symm.imp Eq.symm id⟩
  | other => simp [collect]
  | reg =>
    simp only [collect]
    split_ifs <;> simp

theorem nodup_wars_collect (h : f.wars.Nodup) : (collect f e).wars.Nodup := by
  unfold collect
  split
  · exact h
  · split_ifs
    · exact h.insert
    · exact h
  · exact h

/-- After the whole folder. -/
theorem collected (entries : List Dirent) (f : Found) (h : f.wars.Nodup) :
    (entries.foldl collect f).wars.Nodup ∧
      (∀ n, n ∈ (entries.foldl collect f).wars ↔ n ∈ f.wars ∨ IsWar entries n) ∧
      ∀ n, n ∈ (entries.foldl collect f).dirs ↔ n ∈ f.dirs ∨ IsDir entries n := by
  induction entries generalizing f with
  | nil => simp [h, IsWar, IsDir]
  | cons e rest ih =>
    obtain ⟨hnd, hwars, hdirs⟩ := ih (collect f e) (nodup_wars_collect h)
    refine ⟨hnd, ?_, ?_⟩
    · intro n
      rw [List.foldl_cons, hwars n, mem_wars_collect, or_assoc, IsWar, IsWar, List.mem_cons,
        eq_comm (a := e)]
    · intro n
      rw [List.foldl_cons, hdirs n, mem_dirs_collect, or_assoc, IsDir, IsDir, List.mem_cons,
        eq_comm (a := e)]

end Entries

/-! ### What is unpacked and what is served -/

section Deploy
variable {readWebXML : Text → TowaServlet} {dirs : List Text}

theorem deploy_eq (wars : List Text) : deploy readWebXML dirs wars =
    ((wars.filter (· ∉ dirs)).flatMap fun n => uncompressWar (inClasspath n),
      wars.map readWebXML) := by
  induction wars with
  | nil => rfl
  | cons war rest ih =>
    rw [deploy, ih]
    by_cases hd : war ∈ dirs
    · simp [hd]
    · simp [hd]

end Deploy

/-- NAME.war is to be unpacked. -/
def Packed (entries : List Dirent) (n : Text) : Prop := IsWar entries n ∧ ¬ IsDir entries n

/-- The words `unzip path.war -d path`. -/
def unzipWords (path : Text) : List Text :=
  [['u', 'n', 'z', 'i', 'p'], path ++ warSuffix, ['-', 'd'], path]

/-- The commands unpack path.war into the folder at `path`; `words` says which words the shell
makes of a command line. -/
def Unpacks (words : Text → List Text) (path : Text) (cs : List Command) : Prop :=
  ∃ line, .popen line ∈ cs ∧ words line = unzipWords path

/-- The commands are those of `uncompressWar` for the archives to be unpacked, each of which does
unpack its archive, and there is one servlet for each regular NAME.war. -/
structure Deployed (words : Text → List Text) (readWebXML : Text → TowaServlet)
    (entries : List Dirent) (cs : List Command) (servlets : List TowaServlet) : Prop where
  unpacked : ∃ ns : List Text, ns.Nodup ∧ (∀ n, n ∈ ns ↔ Packed entries n) ∧
    cs = (ns.flatMap fun n => uncompressWar (inClasspath n)) ∧
    ∀ n ∈ ns, Unpacks words (inClasspath n) (uncompressWar (inClasspath n))
  served : ∃ ns : List Text, ns.Nodup ∧ (∀ n, n ∈ ns ↔ IsWar entries n) ∧
    servlets = ns.map readWebXML

def ScansRight (words : Text → List Text) (readWebXML : Text → TowaServlet) (so : SetOrder)
    (entries : List Dirent) : Prop :=
  ∃ cs servlets, scanClasspath readWebXML so entries = .ok (cs, servlets) ∧
    Deployed words readWebXML entries cs servlets

theorem unpacks_uncompressWar {words : Text → List Text} {path : Text} :
    Unpacks words path (uncompressWar path) ↔ words (unzipLine path) = unzipWords path := by
  constructor
  · rintro ⟨line, hline, hwords⟩
    have heq : line = unzipLine path := by simpa [uncompressWar] using hline
    rwa [← heq]
  · intro hwords
    exact ⟨unzipLine path, by simp [uncompressWar], hwords⟩

/-- What the scan does when no name is too short. -/
theorem scan_of_long_names {entries : List Dirent} (readWebXML : Text → TowaServlet) (so : SetOrder)
    (hlen : ∀ e ∈ entries, e.type = .reg → 4 ≤ e.name.length) :
    ∃ packed wars : List Text,
      (packed.Nodup ∧ ∀ n, n ∈ packed ↔ Packed entries n) ∧
      (wars.Nodup ∧ ∀ n, n ∈ wars ↔ IsWar entries n) ∧
      scanClasspath readWebXML so entries =
        .ok (packed.flatMap fun n => uncompressWar (inClasspath n), wars.map readWebXML) := by
  obtain ⟨hnd, hwars, hdirs⟩ := collected entries ⟨[], []⟩ List.nodup_nil
  have hperm := so.perm (entries.foldl collect ⟨[], []⟩).wars
  have hmem : ∀ n, n ∈ so.order (entries.foldl collect ⟨[], []⟩).wars ↔ IsWar entries n := by
    intro n
    rw [hperm.mem_iff, hwars n]
    simp
  have hpacked : ∀ n, n ∈ (so.order (entries.foldl collect ⟨[], []⟩).wars).filter
      (· ∉ (entries.foldl collect ⟨[], []⟩).dirs) ↔ Packed entries n := by
    intro n
    rw [List.mem_filter, hmem n, decide_eq_true_eq, hdirs n, Packed]
    simp
  have hnodup := hperm.nodup_iff.mpr hnd
  refine ⟨_, _, ⟨hnodup.filter _, hpacked⟩, ⟨hnodup, hmem⟩, ?_⟩
  rw [← deploy_eq, scanClasspath, readEntries_collect hlen]
  rfl

/-- The scan is right exactly when every regular file has a name of four characters or more and
the shell leaves the name of each archive to be unpacked as it is. -/
theorem scans_right_iff (words : Text → List Text) (readWebXML : Text → TowaServlet)
    (so : SetOrder) (entries : List Dirent) :
    ScansRight words readWebXML so entries ↔
      (∀ e ∈ entries, e.type = .reg → 4 ≤ e.name.length) ∧
      ∀ n, Packed entries n →
        words (unzipLine (inClasspath n)) = unzipWords (inClasspath n) := by
  constructor
  · rintro ⟨cs, servlets, hscan, hdep⟩
    constructor
    · intro e he ht
      by_contra hlen
      rw [scanClasspath, readEntries_short he ht (by omega)] at hscan
      exact absurd hscan (by simp [bind, Except.bind])
    · intro n hn
      obtain ⟨ns, -, hmem, -, hall⟩ := hdep.unpacked
      exact unpacks_uncompressWar.mp (hall n ((hmem n).mpr hn))
  · rintro ⟨hlen, hwords⟩
    obtain ⟨packed, wars, ⟨hnodup, hpacked⟩, hwars, hscan⟩ :=
      scan_of_long_names readWebXML so hlen
    refine ⟨_, _, hscan, ⟨packed, hnodup, hpacked, rfl, ?_⟩, ⟨wars, hwars.1, hwars.2, rfl⟩⟩
    intro n hn
    exact unpacks_uncompressWar.mpr (hwords n ((hpacked n).mp hn))

/-- A regular file with a name of one character ends the scan, and with it the start of towa. -/
theorem short_name_out_of_range :
    (∀ readWebXML so, scanClasspath readWebXML so [⟨['a'], .reg⟩] = .error .outOfRange) ∧
      ¬ ∀ words readWebXML so entries, ScansRight words readWebXML so entries := by
  have hfail : ∀ readWebXML so, scanClasspath readWebXML so [⟨['a'], .reg⟩] =
      .error .outOfRange := by
    intro readWebXML so
    rw [scanClasspath, readEntries_short (List.mem_singleton_self _) rfl (by decide)]
    rfl
  refine ⟨hfail, ?_⟩
  intro hall
  obtain ⟨cs, servlets, hscan, -⟩ := hall (fun line => [line]) (fun n => ⟨n, n⟩)
    ⟨id, fun l => List.Perm.refl l⟩ [⟨['a'], .reg⟩]
  rw [hfail] at hscan
  exact absurd hscan (by simp)

end TowaClasspath
