import SaWa.ContentFraming
import SaWa.GuardedRuns
import SaWa.HttpServer

/-! The responses of a connection as a client takes them apart. The lengths in the heads of a 200
and a 500 are computed from what follows; that of a 404 is part of its fixed text. -/
namespace HttpResponses

open HttpServer ContentFraming GuardedRuns

/-! ### The cache -/

/-- A new array is as long as it is asked for. -/
def Sized : Mode → Prop
  | .files d => ∀ n, (d.fresh n).length = n
  | .towa _ => True

/-- A cached file has the size that goes into its header. -/
def Full (cache : Cache) : Prop := ∀ p f, cache p = some f → f.content.length = f.size

/-- Requests of all connections, in either mode; they share the cache. -/
def server : System Cache (Mode × Text) :=
  ⟨fun cache => ∀ p, cache p = none, fun _ r => Sized r.1,
    fun cache r => (processRequest r.1 cache r.2).cache⟩

section Cache
variable {d : Disk} {cache : Cache}

theorem length_loadFile (hd : ∀ n, (d.fresh n).length = n) {path : Text} {size : ℕ} {f : WebFile}
    (h : loadFile d path size = some f) : f.content.length = f.size := by
  simp only [loadFile, Option.map_eq_some_iff] at h
  obtain ⟨bytes, -, rfl⟩ := h
  simp only [List.length_append, List.length_take, List.length_drop, hd]
  omega

/-- The cache stays full, and so is the file found. -/
structure FullLookup (l : Lookup) : Prop where
  cache : Full l.cache
  found : ∀ f, l.found = .file f → f.content.length = f.size

theorem full_loadInto (hd : ∀ n, (d.fresh n).length = n) (hc : Full cache) (path : Text)
    (st : Stat) (accesses : List Access) : FullLookup (loadInto d cache path st accesses) := by
  apply loadInto_cases
  · intro _
    exact ⟨hc, fun f hf => by cases hf⟩
  · intro _ _
    exact ⟨hc, fun f hf => by cases hf⟩
  · intro f _ hload
    have hlen := length_loadFile hd hload
    constructor
    · intro p g hg
      by_cases hp : p = path
      · simp only [hp, if_true, Option.some.injEq] at hg
        exact hg ▸ hlen
      · simp only [hp, if_false] at hg
        exact hc p g hg
    · intro g hg
      cases hg
      exact hlen

theorem full_getFile (hd : ∀ n, (d.fresh n).length = n) (hc : Full cache) (path : Text) :
    FullLookup (getFile d cache path) := by
  apply getFile_cases
  · intro f hf
    refine ⟨hc, fun g hg => ?_⟩
    cases hg
    exact hc _ f hf
  · intro _ _
    exact ⟨hc, fun f hf => by cases hf⟩
  · intro st _ _ _ _
    exact ⟨hc, fun f hf => by cases hf⟩
  · intro st st' _ _ _ _
    exact full_loadInto hd hc _ _ _
  · intro st _ _ _
    exact full_loadInto hd hc _ _ _

theorem full_processRequest {mode : Mode} (hm : Sized mode) (hc : Full cache) (buffer : Text) :
    Full (processRequest mode cache buffer).cache := by
  cases hv : (parseRequest buffer).valid with
  | false =>
    rw [processRequest_invalid mode cache hv]
    exact hc
  | true =>
    cases mode with
    | towa sendMsg =>
      rw [processRequest_towa sendMsg cache hv rfl]
      split_ifs <;> exact hc
    | files d =>
      have hget := (full_getFile hm hc (parseRequest buffer).path).cache
      rw [processRequest_files d cache hv rfl]
      cases (getFile d cache (parseRequest buffer).path).found <;> exact hget

theorem reachable_full (h : Reachable server cache) : Full cache := by
  apply h.invariant
  · intro cache hstart p f hf
    rw [hstart p] at hf
    cases hf
  · intro cache r hm _ hc
    exact full_processRequest hm hc r.2

end Cache

/-! ### What each response declares -/

section Declares

/-- The line of a head that declares a length. -/
def lengthLine (n : ℕ) : Line := lengthField ++ (toString n).toList

theorem lengthLine_ok (n : ℕ) : lengthLine n ≠ [] ∧ '\n' ∉ lengthLine n := by
  have hfield : '\n' ∉ lengthField := by decide
  refine ⟨fun h => ?_, fun h => ?_⟩
  · have hnil := (List.append_eq_nil_iff.mp h).1
    exact absurd hnil (by decide)
  · exact (List.mem_append.mp h).elim hfield (newline_not_digit n)

/-- A head with lines before the one that declares the length, and lines behind it. -/
theorem readHead_lengthLine {before behind : List Line} (hb : ∀ l ∈ before, l ≠ [] ∧ '\n' ∉ l)
    (ha : ∀ l ∈ behind, l ≠ [] ∧ '\n' ∉ l) (n : ℕ) (content : Text) :
    readHead [] (unlines before ++ lengthLine n ++ '\n' :: (unlines behind ++ '\n' :: content)) =
      some (before ++ lengthLine n :: behind, content) := by
  have hlines : unlines before ++ lengthLine n ++ '\n' :: (unlines behind ++ '\n' :: content) =
      unlines (before ++ lengthLine n :: behind) ++ '\n' :: content := by
    simp [unlines]
  rw [hlines]
  apply readHead_unlines
  intro l hl
  rcases List.mem_append.mp hl with hl | hl
  · exact hb l hl
  · rcases List.mem_cons.mp hl with rfl | hl
    · exact lengthLine_ok n
    · exact ha l hl

theorem contentLength_lengthLine {before : List Line} (hnone : contentLength before = none)
    (behind : List Line) (n : ℕ) : contentLength (before ++ lengthLine n :: behind) = some n := by
  rw [contentLength] at hnone ⊢
  rw [List.findSome?_append, hnone, List.findSome?_cons, lengthLine, declaredBy_field]
  rfl

/-- The lines of a 200 before its length, and the one behind it. -/
def before200 : List Line :=
  ["HTTP/1.1 200 OK".toList, "Keep-Alive: timeout=15, max=95".toList,
    "Connection: Keep-Alive".toList]

def behind200 : List Line := ["Content-Type: text/html;".toList]

def before500 : List Line :=
  ["HTTP/1.1 500 Internal Server Error".toList, "Content-Type: text/html; charset=UTF-8".toList]

theorem header200_append (size : ℕ) (content : Text) :
    header200 size ++ content =
      unlines before200 ++ lengthLine size ++ '\n' :: (unlines behind200 ++ '\n' :: content) := by
  have hbefore : http200 = unlines before200 := by decide
  have hfield : "Content-Length: ".toList = lengthField := by decide
  have hbehind : "\nContent-Type: text/html;\n\n".toList =
      '\n' :: (unlines behind200 ++ ['\n']) := by decide
  rw [header200, hbefore, hfield, hbehind, lengthLine]
  simp only [List.append_assoc, List.cons_append, List.nil_append]

theorem head_200 (size : ℕ) (content : Text) :
    readHead [] (header200 size ++ content) =
      some (before200 ++ lengthLine size :: behind200, content) := by
  rw [header200_append]
  exact readHead_lengthLine (by decide) (by decide) size content

theorem declares_200 {content : Text} {size : ℕ} (h : content.length = size) :
    Declares (header200 size ++ content) := by
  refine ⟨_, content, head_200 size content, ?_⟩
  rw [h]
  exact contentLength_lengthLine (by decide) _ _

def content500 (desc : Text) : Text := "<h1>500 Internal Server Error</h1>\n".toList ++ desc

theorem generate500Response_eq (desc : Text) :
    generate500Response desc =
      unlines before500 ++ lengthLine (content500 desc).length ++
        '\n' :: (unlines [] ++ '\n' :: content500 desc) := by
  have hbefore : "HTTP/1.1 500 Internal Server Error\n".toList ++
      "Content-Type: text/html; charset=UTF-8\nContent-Length: ".toList =
        unlines before500 ++ lengthField := by decide
  have hend : "\n\n".toList = ['\n', '\n'] := by decide
  have hparts : generate500Response desc = "HTTP/1.1 500 Internal Server Error\n".toList ++
      "Content-Type: text/html; charset=UTF-8\nContent-Length: ".toList ++
      (toString (content500 desc).length).toList ++ "\n\n".toList ++ content500 desc := rfl
  rw [hparts, hbefore, hend, lengthLine]
  have hnil : unlines [] = [] := rfl
  simp only [hnil, List.append_assoc, List.cons_append, List.nil_append]

theorem head_500 (desc : Text) :
    readHead [] (generate500Response desc) =
      some (before500 ++ [lengthLine (content500 desc).length], content500 desc) := by
  rw [generate500Response_eq]
  exact readHead_lengthLine (by decide) (by decide) _ _

theorem declares_500 (desc : Text) : Declares (generate500Response desc) :=
  ⟨_, _, head_500 desc, contentLength_lengthLine (by decide) _ _⟩

theorem not_declares_404 : ¬ Declares http404 := by
  have hhead : readHead [] http404 = some (["HTTP/1.1 404 Not Found".toList,
      "Content-Type: text/html; charset=UTF-8".toList, "Content-Length: 12".toList],
      "Error 404 - Not found\n\n".toList) := by decide
  rintro ⟨lines, content, h, hlen⟩
  cases Option.some.inj (hhead.symm.trans h)
  exact absurd hlen (by decide)

end Declares

/-! ### The requests of a connection -/

/-- A request as it meets the server, with whatever all connections have put into the cache. -/
structure Visit where
  mode : Mode
  cache : Cache
  buffer : Text
  sized : Sized mode
  reachable : Reachable server cache

namespace Visit

def outcome (v : Visit) : Outcome := processRequest v.mode v.cache v.buffer

/-- `getFile` has no file to return: it is not cached, and it or the index of the folder is not
on the disk. -/
def Absent (d : Disk) (cache : Cache) (path : Text) : Prop :=
  cache (rootDir ++ path) = none ∧
    (d.stat (rootDir ++ path) = none ∨
      ∃ st, d.stat (rootDir ++ path) = some st ∧ looksLikeFolder st = true ∧
        d.stat (indexOf (rootDir ++ path)) = none)

/-- A valid request for a file that is not there. -/
def NotFound (v : Visit) : Prop :=
  (parseRequest v.buffer).valid = true ∧
    ∃ d, v.mode = .files d ∧ Absent d v.cache (parseRequest v.buffer).path

/-- A valid request with the keep-alive header, for a file that can be served or answered by the
towa process without an error. -/
def StaysOpen (v : Visit) : Prop :=
  (parseRequest v.buffer).valid = true ∧ (parseRequest v.buffer).keepAlive = true ∧
    match v.mode with
    | .files d => ∃ f, (getFile d v.cache (parseRequest v.buffer).path).found = .file f
    | .towa sendMsg =>
      let r := parseRequest v.buffer
      let header := (sendMsg r.method (r.path.drop 1) r.queryString).header
      header = towaHttp200 ∨ header = towaHttp404

end Visit

/-- What is written for each request, up to the first that closes the connection or during which
the process dies. -/
def responses : List Visit → List Text
  | [] => []
  | v :: vs =>
    match v.outcome.result with
    | none => []
    | some keepAlive => v.outcome.writes.flatten :: if keepAlive then responses vs else []

/-- No request that is reached is for a file that is not there. -/
def FindsAll : List Visit → Prop
  | [] => True
  | v :: vs => ¬ v.NotFound ∧ (v.StaysOpen → FindsAll vs)

/-- Every response declares the number of bytes behind its blank line, and a client that splits
the stream by these numbers gets the bodies and nothing else. -/
structure Framed (responses : List Text) : Prop where
  declared : ∀ r ∈ responses, Declares r
  recovered : readMessages responses.length responses.flatten = some (responses.map body, [])

theorem missing_iff {d : Disk} {cache : Cache} {path : Text} :
    (getFile d cache path).found = .missing ↔ Visit.Absent d cache path := by
  have hload : ∀ q st accesses, (loadInto d cache q st accesses).found ≠ .missing := by
    intro q st accesses
    apply loadInto_cases (P := fun l => l.found ≠ .missing) <;> simp
  unfold Visit.Absent
  apply getFile_cases (P := fun l => l.found = .missing ↔ _)
  · intro f hf
    simp [hf]
  · intro hc hs
    simp [hc, hs]
  · intro st hc hs hf hi
    simp [hc, hs, hf, hi]
  · intro st st' hc hs hf hi
    simp [hc, hs, hi, hload]
  · intro st hc hs hf
    simp [hc, hs, hf, hload]

/-- What becomes of a request: the process dies, the fixed 404 is written, or a response that
declares its length. -/
inductive Answered (v : Visit) : Prop where
  | died (hfound : ¬ v.NotFound) (hresult : v.outcome.result = none) (hopen : ¬ v.StaysOpen)
  | notFound (hfound : v.NotFound) (hresult : v.outcome.result = some false)
      (hwrites : v.outcome.writes.flatten = http404)
  | declared (keepAlive : Bool) (hfound : ¬ v.NotFound)
      (hresult : v.outcome.result = some keepAlive) (hopen : keepAlive = true ↔ v.StaysOpen)
      (hwrites : Declares v.outcome.writes.flatten)

theorem staysOpen_iff (v : Visit) : v.StaysOpen ↔ v.outcome.result = some true :=
  (processRequest_open_iff v.mode v.cache v.buffer).symm

section Answered
variable {v : Visit}

theorem answered_invalid (hv : (parseRequest v.buffer).valid = false) : Answered v := by
  have hout : v.outcome = _ := processRequest_invalid v.mode v.cache hv
  have hvalid : (parseRequest v.buffer).valid ≠ true := by
    rw [hv]
    exact Bool.false_ne_true
  refine .declared false (fun h => hvalid h.1) (by rw [hout]) ?_ ?_
  · simp [staysOpen_iff, hout]
  · rw [hout]
    simpa using declares_500 "Invalid request".toList

theorem answered_towa {sendMsg : Text → Text → Text → Message}
    (hv : (parseRequest v.buffer).valid = true) (hm : v.mode = .towa sendMsg) : Answered v := by
  have hfound : ¬ v.NotFound := by
    rintro ⟨-, d, hd, -⟩
    rw [hm] at hd
    cases hd
  obtain ⟨msg, hmsg⟩ : ∃ msg, sendMsg (parseRequest v.buffer).method
      ((parseRequest v.buffer).path.drop 1) (parseRequest v.buffer).queryString = msg := ⟨_, rfl⟩
  have hout := processRequest_towa sendMsg v.cache hv hmsg
  rw [← hm] at hout
  replace hout : v.outcome = _ := hout
  by_cases hheader : msg.header = towaHttp200 ∨ msg.header = towaHttp404
  · rw [if_pos hheader] at hout
    refine .declared (parseRequest v.buffer).keepAlive hfound (by rw [hout]; rfl) ?_ ?_
    · simp [staysOpen_iff, hout, replyFile]
    · rw [hout]
      simpa [replyFile] using declares_200 rfl
  · rw [if_neg hheader] at hout
    refine .declared false hfound (by rw [hout]) ?_ ?_
    · simp [staysOpen_iff, hout]
    · rw [hout]
      simpa using declares_500 _

theorem answered_files {d : Disk} (hv : (parseRequest v.buffer).valid = true)
    (hm : v.mode = .files d) : Answered v := by
  have hfound : v.NotFound ↔
      (getFile d v.cache (parseRequest v.buffer).path).found = .missing := by
    rw [missing_iff]
    constructor
    · rintro ⟨-, d', hd', habsent⟩
      rw [hm] at hd'
      cases hd'
      exact habsent
    · intro habsent
      exact ⟨hv, d, hm, habsent⟩
  have hout := processRequest_files d v.cache hv rfl
  rw [← hm] at hout
  replace hout : v.outcome = _ := hout
  cases hl : (getFile d v.cache (parseRequest v.buffer).path).found with
  | crashed =>
    rw [hl] at hfound hout
    refine .died (hfound.not.mpr (by simp)) (by rw [hout]) ?_
    simp [staysOpen_iff, hout]
  | missing =>
    rw [hl] at hfound hout
    exact .notFound (hfound.mpr rfl) (by rw [hout]) (by simp [hout])
  | file f =>
    have hsized : Sized (.files d) := hm ▸ v.sized
    have hfull := (full_getFile hsized (reachable_full v.reachable) _).found f hl
    rw [hl] at hfound hout
    refine .declared (parseRequest v.buffer).keepAlive (hfound.not.mpr (by simp))
      (by rw [hout]; rfl) ?_ ?_
    · simp [staysOpen_iff, hout, replyFile]
    · rw [hout]
      simpa [replyFile, ← hfull] using declares_200 rfl

theorem answered (v : Visit) : Answered v := by
  cases hv : (parseRequest v.buffer).valid with
  | false => exact answered_invalid hv
  | true =>
    cases hm : v.mode with
    | towa sendMsg => exact answered_towa hv hm
    | files d => exact answered_files hv hm

end Answered

theorem declares_responses_iff (visits : List Visit) :
    (∀ r ∈ responses visits, Declares r) ↔ FindsAll visits := by
  induction visits with
  | nil => simp [responses, FindsAll]
  | cons v vs ih =>
    rw [responses, FindsAll]
    rcases answered v with ⟨hfound, hresult, hopen⟩ | ⟨hfound, hresult, hwrites⟩ |
      ⟨keepAlive, hfound, hresult, hopen, hwrites⟩
    · simp [hresult, hfound, hopen]
    · simp [hresult, hwrites, hfound, not_declares_404]
    · cases keepAlive with
      | false =>
        have hclosed : ¬ v.StaysOpen := fun h => Bool.false_ne_true (hopen.mpr h)
        simp [hresult, hwrites, hfound, hclosed]
      | true =>
        have hstays := hopen.mp rfl
        simp [hresult, hwrites, hfound, hstays, ih]

/-- The responses of a connection can be told apart by their declared lengths exactly when no
request that is reached is for a file that is not there. -/
theorem responses_framed_iff (visits : List Visit) :
    Framed (responses visits) ↔ FindsAll visits := by
  rw [← declares_responses_iff]
  constructor
  · intro h
    exact h.declared
  · intro h
    exact ⟨h, readMessages_flatten h⟩

def noFiles : Disk := ⟨fun _ => none, fun _ => none, fun n => List.replicate n ' '⟩

theorem sized_noFiles : Sized (.files noFiles) := fun _ => List.length_replicate

/-- A request for a page, on a disk without files. -/
def lostPage : Visit where
  mode := .files noFiles
  cache := fun _ => none
  buffer := "GET /x HTTP".toList
  sized := sized_noFiles
  reachable := .start fun _ => rfl

/-- The response says 12 where 23 bytes follow, so that 11 of them are left over. -/
theorem lost_page_not_framed :
    responses [lostPage] = [http404] ∧
      (readMessage http404).map (fun p => (p.1.length, p.2.length)) = some (12, 11) ∧
      ¬ Framed (responses [lostPage]) := by
  have hresponses : responses [lostPage] = [http404] := by decide
  refine ⟨hresponses, by decide, ?_⟩
  intro h
  rw [hresponses] at h
  exact not_declares_404 (h.declared http404 List.mem_cons_self)

end HttpResponses
