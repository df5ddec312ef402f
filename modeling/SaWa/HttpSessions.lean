import SaWa.HttpCaseSearch
import SaWa.HttpPageCache
import SaWa.HttpReadData
import SaWa.HttpRequestLine
import SaWa.HttpResponses

/-! A browser and the server over one keep-alive connection: the request it sends for a path, the
blocks and the parsing, the files and their cache, and the responses, which it takes apart by
their lengths. -/
namespace HttpSessions

open HttpServer HttpReadData HttpRequestLine HttpCaseSearch ContentFraming HttpPageCache

/-! ### The browser -/

def keepAliveHeader : Text := "Connection: Keep-Alive".toList

/-- A request for `target` that asks to keep the connection open. -/
def request (target : Text) : Text :=
  "GET ".toList ++ target ++ " HTTP/1.1\r\n".toList ++ keepAliveHeader ++ blankLine

/-- What can stand in a request line and be sent in one block. -/
structure Sendable (target : Text) : Prop where
  null : '\x00' ∉ target
  line : '\n' ∉ target
  fits : (request target).length < requestMessageLen

/-- A path the browser can ask for in one block. -/
structure Askable (path : Text) : Prop where
  nonempty : path ≠ []
  chars : ∀ c ∈ path, isPathChar c = true
  fits : (request path).length < requestMessageLen

section Parsing
variable {path target : Text}

theorem pathChar_ne (hpath : ∀ c ∈ path, isPathChar c = true) {d : Char}
    (hd : isPathChar d = false) : d ∉ path := by
  intro hmem
  have hc := hpath d hmem
  rw [hd] at hc
  cases hc

theorem Askable.sendable (h : Askable path) : Sendable path :=
  ⟨pathChar_ne h.chars (by decide), pathChar_ne h.chars (by decide), h.fits⟩

theorem null_not_mem_request (h : Sendable target) : '\x00' ∉ request target := by
  simp only [request, List.mem_append, not_or]
  exact ⟨⟨⟨⟨by decide, h.null⟩, by decide⟩, by decide⟩, by decide⟩

theorem firstLine_request (h : Sendable target) (rest : Text) :
    firstLine (request target ++ rest) =
      ['G', 'E', 'T'] ++ ([' '] ++ (target ++ " HTTP/1.1\r".toList)) := by
  have hsplit : request target ++ rest = (['G', 'E', 'T'] ++ ([' '] ++
      (target ++ " HTTP/1.1\r".toList))) ++ '\n' :: (keepAliveHeader ++ blankLine ++ rest) := by
    simp [request]
  have hword : ∀ c ∈ ['G', 'E', 'T'], (c ≠ '\x00' && c ≠ '\n') = true :=
    List.all_eq_true.mp (by decide)
  have hend : ∀ c ∈ " HTTP/1.1\r".toList, (c ≠ '\x00' && c ≠ '\n') = true :=
    List.all_eq_true.mp (by decide)
  have hall : ∀ c ∈ ['G', 'E', 'T'] ++ ([' '] ++ (target ++ " HTTP/1.1\r".toList)),
      (c ≠ '\x00' && c ≠ '\n') = true := by
    intro c hc
    simp only [List.mem_append] at hc
    rcases hc with hc | hc | hc | hc
    · exact hword c hc
    · obtain rfl := List.mem_singleton.mp hc
      decide
    · have h0 : c ≠ '\x00' := fun he => h.null (he ▸ hc)
      have hn : c ≠ '\n' := fun he => h.line (he ▸ hc)
      simp [h0, hn]
    · exact hend c hc
  rw [firstLine, hsplit, List.takeWhile_append_of_pos hall]
  simp

/-- The server parses the path out of the request again, whatever lies behind it. -/
theorem parse_request (h : Askable path) (rest : Text) :
    (parseRequest (request path ++ rest)).path = path ∧
      (parseRequest (request path ++ rest)).valid = true := by
  have hline : HttpRequestLine.Line (['G', 'E', 'T'] ++ ([' '] ++ (path ++ " HTTP/1.1\r".toList)))
      path " HTTP/1.1\r".toList := by
    refine ⟨⟨[' '], by decide, List.all_eq_true.mp rfl, rfl⟩, h.nonempty, h.chars, ?_⟩
    rintro c t ⟨⟩
    decide
  have hbehind : behindPath path " HTTP/1.1\r".toList = some ⟨path, [], [], "/1.1\r".toList⟩ := by
    show (matchEnd " HTTP/1.1\r".toList).map _ = _
    rfl
  have hfirst := parseRequest_first (request path ++ rest)
  rw [firstLine_request h.sendable, regexSearch_line hline, hbehind] at hfirst
  have hpath : (parseRequest (request path ++ rest)).path = path := congrArg Prod.fst hfirst
  refine ⟨hpath, ?_⟩
  show decide ((parseRequest (request path ++ rest)).path ≠ []) = true
  rw [hpath]
  exact decide_eq_true h.nonempty

theorem length_keepAliveHeader : keepAliveHeader.length = 22 := by decide

/-- The request up to the header, and then the header. -/
theorem request_split (target : Text) : ∃ front, front.length = target.length + 15 ∧
    request target = front ++ (keepAliveHeader ++ blankLine) := by
  refine ⟨"GET ".toList ++ target ++ " HTTP/1.1\r\n".toList, ?_, ?_⟩
  · rw [List.length_append, List.length_append, show "GET ".toList.length = 4 by decide,
      show " HTTP/1.1\r\n".toList.length = 11 by decide]
    omega
  · rw [request, List.append_assoc]

theorem length_request (target : Text) : (request target).length = target.length + 41 := by
  obtain ⟨front, hlen, heq⟩ := request_split target
  rw [heq, List.length_append, List.length_append, hlen, length_keepAliveHeader]
  rfl

theorem keepAlive_request (h : Sendable target) (junk : Text) :
    (parseRequest (request target ++ '\x00' :: junk)).keepAlive = true := by
  have hlen := length_request target
  have hfits := h.fits
  have hheader := length_keepAliveHeader
  have hocc : OccursAt (request target) keepAliveHeader (target.length + 15) := by
    obtain ⟨front, hfront, heq⟩ := request_split target
    intro i hi
    have hget : (request target)[target.length + 15 + i]? = keepAliveHeader[i]? := by
      rw [heq, List.getElem?_append_right (by omega), List.getElem?_append_left (by omega)]
      congr 1
      omega
    rw [hget]
  exact keepAlive_of_header ⟨request target, null_not_mem_request h⟩ junk (by omega) hocc

end Parsing

/-! ### The files -/

/-- The file at `t` holds `c`, its size fits an `int`, and its mode is not taken for a folder's. -/
structure PageAt (d : Disk) (t c : Text) : Prop where
  stat : ∃ st, d.stat t = some st ∧ looksLikeFolder st = false ∧ st.stSize = c.length
  opened : d.fopen t = some c
  int_size : c.length < 2 ^ 31

/-- The page of a path: the file itself, or the index of a folder that is not the index of
another. -/
def Serves (d : Disk) (path c : Text) : Prop :=
  PageAt d (rootDir ++ path) c ∨
    (∃ st, d.stat (rootDir ++ path) = some st ∧ looksLikeFolder st = true) ∧
      ¬ indexHtml <:+ rootDir ++ path ∧ PageAt d (indexOf (rootDir ++ path)) c

/-- What is cached for a path with a page is this page. Of other paths anything may be cached. -/
def PageCache (d : Disk) (cache : Cache) : Prop :=
  ∀ path c f, Serves d path c → cache (rootDir ++ path) = some f →
    f.content = c ∧ f.size = c.length

section Files
variable {d : Disk} {h : Heap} {cache : Cache} {path t c : Text}

theorem loaded_page (hp : PageAt d t c) : loaded (onHeap d h) t = some ⟨t, c, c.length⟩ := by
  obtain ⟨⟨st, hst, -, hsize⟩, hopen, hint⟩ := hp
  have hmod : c.length % 2 ^ 32 = c.length := Nat.mod_eq_of_lt (by omega)
  have hstat : (onHeap d h).stat t = some st := hst
  have hopen' : (onHeap d h).fopen t = some c := hopen
  have hfresh : ((onHeap d h).fresh c.length).drop c.length = [] :=
    List.drop_of_length_le (h.sized _).le
  simp only [loaded, hstat, hsize, hmod, if_neg (Nat.not_le.mpr hint), loadFile, hopen',
    Option.map_some, List.take_length, hfresh, List.append_nil]

theorem target_page (hs : Serves d path c) :
    ∃ t, target (onHeap d h) (rootDir ++ path) = some t ∧ PageAt d t c := by
  rcases hs with hp | ⟨⟨st, hst, hfolder⟩, -, hp⟩
  · obtain ⟨st, hst, hfolder, -⟩ := hp.stat
    have hstat : (onHeap d h).stat (rootDir ++ path) = some st := hst
    exact ⟨_, by simp [target, hstat, hfolder], hp⟩
  · obtain ⟨st', hst', -⟩ := hp.stat
    have hstat : (onHeap d h).stat (rootDir ++ path) = some st := hst
    have hstat' : (onHeap d h).stat (indexOf (rootDir ++ path)) = some st' := hst'
    exact ⟨_, by simp [target, hstat, hfolder, hstat'], hp⟩

theorem suffix_indexOf (path : Text) : indexHtml <:+ indexOf path := by
  unfold indexOf
  split
  · exact List.suffix_append _ _
  · exact (List.suffix_cons _ _).trans (List.suffix_append _ _)

/-- A page is loaded from a file, or from the index of a folder. -/
theorem target_cases (ht : target d path = some t) :
    (∃ st, d.stat t = some st ∧ looksLikeFolder st = false) ∨ indexHtml <:+ t := by
  unfold target at ht
  cases hst : d.stat path with
  | none => simp [hst] at ht
  | some st =>
    rw [hst] at ht
    cases hfolder : looksLikeFolder st with
    | false =>
      simp only [hfolder, Bool.false_eq_true, if_false, Option.some.injEq] at ht
      exact .inl ⟨st, ht ▸ hst, hfolder⟩
    | true =>
      simp only [hfolder, if_true, Option.map_eq_some_iff] at ht
      obtain ⟨-, -, rfl⟩ := ht
      exact .inr (suffix_indexOf path)

/-- A path that something is loaded from has no other page than the one loaded. -/
theorem loaded_serves {t' : Text} {f : WebFile} (ht : target d t' = some (rootDir ++ path))
    (hload : loaded (onHeap d h) (rootDir ++ path) = some f) (hs : Serves d path c) :
    f.content = c ∧ f.size = c.length := by
  rcases hs with hp | ⟨⟨st, hst, hfolder⟩, hname, -⟩
  · obtain rfl := Option.some.inj (hload.symm.trans (loaded_page hp))
    exact ⟨rfl, rfl⟩
  · rcases target_cases ht with ⟨st', hst', hplain⟩ | hindex
    · obtain rfl : st = st' := Option.some.inj (hst.symm.trans hst')
      rw [hplain] at hfolder
      cases hfolder
    · exact absurd hindex hname

/-- Any request leaves a cache of pages. -/
theorem getFile_keeps (hc : PageCache d cache) (h : Heap) (path : Text) :
    PageCache d (getFile (onHeap d h) cache path).cache := by
  cases hit : cache (rootDir ++ path) with
  | some f =>
    rw [getFile_hit hit]
    exact hc
  | none =>
    obtain ⟨-, hcache⟩ := @getFile_miss (onHeap d h) cache path hit
    rw [hcache, cacheAfter]
    cases ht : target (onHeap d h) (rootDir ++ path) with
    | none => exact hc
    | some t =>
      cases hload : loaded (onHeap d h) t with
      | none =>
        simp only [hload]
        exact hc
      | some f =>
        simp only [hload]
        intro path' c f' hs hf'
        simp only at hf'
        split at hf'
        · next heq =>
          obtain rfl := Option.some.inj hf'
          subst heq
          exact loaded_serves (d := d) ht hload hs
        · exact hc path' c f' hs hf'

/-- A page is found, cached or not. -/
theorem getFile_page (hc : PageCache d cache) (hs : Serves d path c) :
    ∃ f, (getFile (onHeap d h) cache path).found = .file f ∧ f.content = c ∧
      f.size = c.length := by
  cases hit : cache (rootDir ++ path) with
  | some f =>
    rw [getFile_hit hit]
    exact ⟨f, rfl, hc path c f hs hit⟩
  | none =>
    obtain ⟨t, ht, hp⟩ := @target_page d h path c hs
    have hload := @loaded_page d h t c hp
    obtain ⟨hfound, -⟩ := @getFile_miss (onHeap d h) cache path hit
    refine ⟨⟨t, c, c.length⟩, ?_, rfl, rfl⟩
    rw [hfound]
    simp only [fetched, ht, hload]

end Files

/-! ### The connection -/

/-- What `processRequest` writes in each of the calls, one after another. -/
def responses (mode : ℕ → Mode) (after : List Text → Text) : Session → List Call → List Text
  | _, [] => []
  | s, c :: cs =>
    (processRequest (mode s.1) s.2 (bufferAt after c.chain)).writes.flatten ::
      responses mode after (serve mode after s c.chain).2 cs

section Connection
variable {d : Disk} {heaps : ℕ → Heap} {after : List Text → Text} {s : Session}

/-- The memory at a request that fits a block. -/
theorem bufferAt_request {target : Text} (h : Sendable target) :
    ∃ junk, bufferAt after [block (request target)] = request target ++ '\x00' :: junk := by
  obtain ⟨n, hn⟩ : ∃ n, requestMessageLen - (request target).length = n + 1 :=
    ⟨requestMessageLen - (request target).length - 1, by
      have hfits := h.fits
      omega⟩
  refine ⟨List.replicate n '\x00' ++ (List.replicate 8 '\x00' ++ after [block (request target)]),
    ?_⟩
  simp [bufferAt, block, hn, List.replicate_succ]

/-- One request is answered with its page, and the connection stays open. -/
theorem serve_page {path c : Text} (h : Askable path) (hs : Serves d path c)
    (hc : PageCache d s.2) :
    (processRequest (.files (onHeap d (heaps s.1))) s.2
      (bufferAt after [block (request path)])).writes.flatten = header200 c.length ++ c ∧
    (serve (fun k => .files (onHeap d (heaps k))) after s [block (request path)]).1 = true ∧
      PageCache d (serve (fun k => .files (onHeap d (heaps k))) after s
        [block (request path)]).2.2 := by
  obtain ⟨junk, hbuffer⟩ := @bufferAt_request after path h.sendable
  obtain ⟨hpath, hvalid⟩ := parse_request h ('\x00' :: junk)
  have hkeep := keepAlive_request h.sendable junk
  obtain ⟨f, hfound, hcontent, hsize⟩ := @getFile_page d (heaps s.1) s.2 path c hc hs
  have hcache := getFile_keeps hc (heaps s.1) path
  have hrun : processRequest (.files (onHeap d (heaps s.1))) s.2
      (bufferAt after [block (request path)]) =
        replyFile (parseRequest (request path ++ '\x00' :: junk)) f
          (getFile (onHeap d (heaps s.1)) s.2 path).accesses
          (getFile (onHeap d (heaps s.1)) s.2 path).cache := by
    rw [hbuffer, processRequest]
    simp only [hvalid, hpath, hfound, Bool.true_eq_false, if_false]
  refine ⟨?_, ?_, ?_⟩
  · rw [hrun, replyFile, hsize, hcontent]
    simp
  · simp only [serve, hrun, replyFile, hkeep, decide_true]
  · simp only [serve, hrun, replyFile]
    exact hcache

/-- What the browser asks for, each path with its page. -/
def Asks (d : Disk) (pages : List (Text × Text)) : Prop :=
  ∀ p ∈ pages, Askable p.1 ∧ Serves d p.1 p.2

/-- The reads of a connection on which each request arrives by itself. -/
def readsOf (pages : List (Text × Text)) : List Text := pages.map fun p => request p.1

theorem readLoop_request {target : Text} (h : Sendable target) (mode : ℕ → Mode)
    (reads : List Text) :
    readLoop mode after s [] (request target :: reads) =
      ⟨[block (request target)], (request target).length⟩ ::
        if (serve mode after s [block (request target)]).1 then
          readLoop mode after (serve mode after s [block (request target)]).2 [] reads
        else [] := by
  have hne : request target ≠ [] := by
    intro hnil
    have hlen := length_request target
    rw [hnil] at hlen
    simp at hlen
  rw [readLoop, if_neg hne]
  simp only [List.nil_append, if_pos (Or.inl h.fits)]

/-- The calls of a session and their responses, one for each page. -/
theorem session_pages {pages : List (Text × Text)} (ha : Asks d pages) (hc : PageCache d s.2) :
    (readData (fun k => .files (onHeap d (heaps k))) after s (readsOf pages)).length =
        pages.length ∧
      responses (fun k => .files (onHeap d (heaps k))) after s
        (readData (fun k => .files (onHeap d (heaps k))) after s (readsOf pages)) =
          pages.map fun p => header200 p.2.length ++ p.2 := by
  induction pages generalizing s with
  | nil => exact ⟨rfl, rfl⟩
  | cons p pages ih =>
    obtain ⟨⟨hask, hserves⟩, hrest⟩ := List.forall_mem_cons.mp ha
    obtain ⟨hwrites, hopen, hcache⟩ :=
      @serve_page d heaps after s p.1 p.2 hask hserves hc
    obtain ⟨hlen, hresponses⟩ := ih hrest hcache
    unfold readData at hlen hresponses ⊢
    rw [readsOf, List.map_cons, readLoop_request hask.sendable, if_pos hopen]
    refine ⟨?_, ?_⟩
    · rw [List.length_cons, List.length_cons]
      exact congrArg (· + 1) hlen
    · rw [responses, List.map_cons, hwrites]
      exact congrArg _ hresponses

theorem body_200 (c : Text) : body (header200 c.length ++ c) = c := by
  rw [body, HttpResponses.head_200]
  rfl

end Connection

/-- A site with one page, which is also the index of its root. -/
def oneSite : Disk where
  stat := fun p =>
    if p = rootDir ++ ['/'] then some ⟨0x41ED, 0⟩
    else if p = rootDir ++ '/' :: indexHtml then some ⟨0x81A4, 2⟩
    else none
  fopen := fun p => if p = rootDir ++ '/' :: indexHtml then some ['o', 'k'] else none
  fresh := fun n => List.replicate n ' '

theorem pageAt_oneSite : PageAt oneSite (rootDir ++ '/' :: indexHtml) ['o', 'k'] :=
  ⟨⟨⟨0x81A4, 2⟩, by decide, by decide, rfl⟩, by decide, by decide⟩

theorem asks_oneSite :
    Asks oneSite [(['/'], ['o', 'k']), ('/' :: indexHtml, ['o', 'k'])] := by
  intro p hp
  simp only [List.mem_cons, List.not_mem_nil, or_false] at hp
  rcases hp with rfl | rfl
  · exact ⟨⟨by decide, List.all_eq_true.mp rfl, by rw [length_request]; decide⟩,
      .inr ⟨⟨⟨0x41ED, 0⟩, by decide, by decide⟩, by decide, pageAt_oneSite⟩⟩
  · exact ⟨⟨by decide, List.all_eq_true.mp rfl, by rw [length_request]; decide⟩,
      .inl pageAt_oneSite⟩

end HttpSessions
