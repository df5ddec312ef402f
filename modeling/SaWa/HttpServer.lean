import Mathlib.Algebra.Group.Nat.Defs

/-! The HTTP server of `server/http_srv.cpp`: the request line, the file looked up for it or the
answer of the towa process, and the reply. A byte is the character of its code. -/
namespace HttpServer

abbrev Text := List Char

/-! ### `HTTPRequest` -/

/-- `\s` in the C locale. -/
def isSpace (c : Char) : Bool := c = ' ' || ('\t' ≤ c && c ≤ '\r')

/-- Word characters, `.`, `-` and the slash. -/
def isPathChar (c : Char) : Bool :=
  c.isAlphanum || c = '_' || c = '.' || c = '-' || c = '/'

/-- `\s+HTTP`, with what follows the match. -/
def matchEnd (s : Text) : Option Text :=
  if s.takeWhile isSpace = [] then none
  else
    match s.dropWhile isSpace with
    | 'H' :: 'T' :: 'T' :: 'P' :: rest => some rest
    | _ => none

/-- `.*` and then `\s+HTTP`: the longest text that leaves a match. -/
def matchAny : Text → Option (Text × Text)
  | [] => none
  | c :: s =>
    match if c = '\n' || c = '\r' then none else matchAny s with
    | some (q, rest) => some (c :: q, rest)
    | none => (matchEnd (c :: s)).map fun rest => ([], rest)

structure Groups where
  path : Text
  optional : Text
  query : Text
  suffix : Text
  deriving DecidableEq, Repr

/-- The regular expression of the request line, anchored at the start: `GET`, spaces, a path of
path characters, an optional `?` with a query, spaces and `HTTP`. No path character is a space
or `?`, so only the longest runs can match. -/
def regexSearch : Text → Option Groups
  | 'G' :: 'E' :: 'T' :: s =>
    if s.takeWhile isSpace = [] then none
    else
      let s := s.dropWhile isSpace
      let path := s.takeWhile isPathChar
      if path = [] then none
      else
        match s.dropWhile isPathChar with
        | '?' :: s => (matchAny s).map fun m => ⟨path, '?' :: m.1, m.1, m.2⟩
        | s => (matchEnd s).map fun rest => ⟨path, [], [], rest⟩
  | _ => none

structure HTTPRequest where
  method : Text
  path : Text
  queryString : Text
  valid : Bool
  keepAlive : Bool
  deriving DecidableEq, Repr

/-- The body of the `switch` on `idx`; case 1 falls through to case 3. -/
def HTTPRequest.assign (r : HTTPRequest) (idx : ℕ) (x : Text) : HTTPRequest :=
  if idx = 1 then { r with path := x, queryString := x }
  else if idx = 3 then { r with queryString := x }
  else r

/-- The loop over the matches; `idx` goes on counting from one match to the next. -/
def matchLoop : ℕ → ℕ → Text → HTTPRequest → HTTPRequest
  | 0, _, _, r => r
  | fuel + 1, idx, s, r =>
    match regexSearch s with
    | none => r
    | some g =>
      let r := (((r.assign idx []).assign (idx + 1) g.path).assign (idx + 2) g.optional).assign
        (idx + 3) g.query
      matchLoop fuel (idx + 4) g.suffix r

/-- `strncasecmp` on the first characters, as many as `find` has. -/
def caseEqual : Text → Text → Bool
  | _, [] => true
  | s, c :: find => (s.headD '\x00').toLower = c.toLower && caseEqual s.tail find

/-- The loop of `Util::strnCaseStr` with `n` characters left up to `s_end`. -/
def caseSearch (c : Char) (find : Text) : ℕ → Text → Bool
  | 0, _ => false
  | n + 1, s =>
    if n = 0 then false
    else ((s.headD '\x00').toLower = c.toLower && caseEqual s.tail find) ||
      caseSearch c find n s.tail

def strnCaseStr (s find : Text) (max : ℕ) : Bool :=
  match find with
  | [] => true
  | c :: find => caseSearch c find max s

def requestMessageLen : ℕ := 1016

def getline (s : Text) : Text := s.takeWhile (· ≠ '\n')

/-- `buffer` is the memory at `buffer_in`; the C string in it ends at its first null. -/
def parseRequest (buffer : Text) : HTTPRequest :=
  let s := getline (buffer.takeWhile (· ≠ '\x00'))
  let r := matchLoop (s.length + 1) 0 s ⟨"GET".toList, [], [], false, false⟩
  { r with
    valid := r.path ≠ []
    keepAlive := strnCaseStr buffer "Connection: Keep-Alive".toList requestMessageLen }

/-! ### Files -/

structure Stat where
  stMode : ℕ
  stSize : ℕ
  deriving DecidableEq, Repr

/-- The filesystem a request meets: `stat`, `fopen` for reading with all there is to read, and
what a new array holds. -/
structure Disk where
  stat : Text → Option Stat
  fopen : Text → Option Text
  fresh : ℕ → Text

/-- `path` is what the file was loaded from, which the source does not keep; an answer of the
towa process has none. -/
structure WebFile where
  path : Text
  content : Text
  size : ℕ
  deriving DecidableEq, Repr

abbrev Cache := Text → Option WebFile

inductive Access where
  | stat (path : Text)
  | load (path : Text)
  deriving DecidableEq, Repr

def rootDir : Text := "./wwwroot".toList
def indexHtml : Text := "index.html".toList
def sIfdir : ℕ := 0x4000

/-- `st.st_mode & S_IFDIR != 0`: the comparison binds tighter than `&`. -/
def looksLikeFolder (st : Stat) : Bool := st.stMode &&& (decide (sIfdir ≠ 0)).toNat ≠ 0

def indexOf (path : Text) : Text :=
  if path.getLast? = some '/' then path ++ indexHtml else path ++ '/' :: indexHtml

/-- The constructor of `WebFile`; `none` when `fopen` fails and the null `FILE` is used. -/
def loadFile (d : Disk) (path : Text) (size : ℕ) : Option WebFile :=
  (d.fopen path).map fun bytes =>
    ⟨path, bytes.take size ++ (d.fresh size).drop bytes.length, size⟩

inductive Found where
  | missing
  | file (f : WebFile)
  | crashed
  deriving DecidableEq, Repr

structure Lookup where
  found : Found
  accesses : List Access
  cache : Cache

/-- The size is kept in an `int`, and `new` throws when it is negative. -/
def loadInto (d : Disk) (cache : Cache) (path : Text) (st : Stat) (accesses : List Access) :
    Lookup :=
  let fileSize := st.stSize % 2 ^ 32
  if 2 ^ 31 ≤ fileSize then ⟨.crashed, accesses, cache⟩
  else
    match loadFile d path fileSize with
    | none => ⟨.crashed, accesses ++ [.load path], cache⟩
    | some f => ⟨.file f, accesses ++ [.load path], fun p => if p = path then some f else cache p⟩

def getFile (d : Disk) (cache : Cache) (path : Text) : Lookup :=
  let path := rootDir ++ path
  match cache path with
  | some f => ⟨.file f, [], cache⟩
  | none =>
    match d.stat path with
    | none => ⟨.missing, [.stat path], cache⟩
    | some st =>
      if looksLikeFolder st then
        match d.stat (indexOf path) with
        | none => ⟨.missing, [.stat path, .stat (indexOf path)], cache⟩
        | some st => loadInto d cache (indexOf path) st [.stat path, .stat (indexOf path)]
      else loadInto d cache path st [.stat path]

/-! ### `processRequest` -/

def generate500Response (desc : Text) : Text :=
  let content := "<h1>500 Internal Server Error</h1>\n".toList ++ desc
  "HTTP/1.1 500 Internal Server Error\n".toList ++
    "Content-Type: text/html; charset=UTF-8\nContent-Length: ".toList ++
    (toString content.length).toList ++ "\n\n".toList ++ content

def http200 : Text :=
  "HTTP/1.1 200 OK\nKeep-Alive: timeout=15, max=95\nConnection: Keep-Alive\n".toList

def http404 : Text :=
  "HTTP/1.1 404 Not Found\nContent-Type: text/html; charset=UTF-8\n".toList ++
    "Content-Length: 12\n\nError 404 - Not found\n\n".toList

def header200 (size : ℕ) : Text :=
  http200 ++ "Content-Length: ".toList ++ (toString size).toList ++
    "\nContent-Type: text/html;\n\n".toList

/-- The columns of the thread's statistics. -/
inductive Column where
  | http200
  | http404
  | http500
  deriving DecidableEq, Repr

/-- What one call has done: the result (`none` when the process dies), the columns passed to
`updateScreen`, the writes to the socket, the file served and the paths used. -/
structure Outcome where
  result : Option Bool
  counted : List Column
  writes : List Text
  served : Option WebFile
  accesses : List Access
  cache : Cache

def towaHttp200 : ℕ := 0x01
def towaHttp404 : ℕ := 0x02

structure Message where
  header : ℕ
  content : Text
  deriving DecidableEq, Repr

/-- `towa_flag`: outside towa mode the server reads files, in towa mode it hands the method, the
path and the query to `towaMgr->sendMsg`. -/
inductive Mode where
  | files (d : Disk)
  | towa (sendMsg : Text → Text → Text → Message)

def replyFile (request : HTTPRequest) (f : WebFile) (accesses : List Access) (cache : Cache) :
    Outcome :=
  ⟨some request.keepAlive, [.http200], [header200 f.size, f.content.take f.size], some f, accesses,
    cache⟩

def processRequest (mode : Mode) (cache : Cache) (buffer : Text) : Outcome :=
  let request := parseRequest buffer
  if request.valid = false then
    ⟨some false, [.http500], [generate500Response "Invalid request".toList], none, [], cache⟩
  else
    match mode with
    | .towa sendMsg =>
      let msg := sendMsg request.method (request.path.drop 1) request.queryString
      -- the case of a 404 breaks out of the switch and goes on as the case of a 200
      if msg.header = towaHttp200 ∨ msg.header = towaHttp404 then
        replyFile request ⟨[], msg.content, msg.content.length⟩ [] cache
      else ⟨some false, [.http500], [generate500Response msg.content], none, [], cache⟩
    | .files d =>
      let l := getFile d cache request.path
      match l.found with
      | .crashed => ⟨none, [], [], none, l.accesses, l.cache⟩
      | .missing => ⟨some false, [.http404], [http404], none, l.accesses, l.cache⟩
      | .file f => replyFile request f l.accesses l.cache

/-- Loading ends in one of three ways: no array, no `FILE`, or a file. -/
theorem loadInto_cases (d : Disk) (cache : Cache) (path : Text) (st : Stat) (accesses : List Access)
    {P : Lookup → Prop}
    (negative : 2 ^ 31 ≤ st.stSize % 2 ^ 32 → P ⟨.crashed, accesses, cache⟩)
    (closed : st.stSize % 2 ^ 32 < 2 ^ 31 → d.fopen path = none →
      P ⟨.crashed, accesses ++ [.load path], cache⟩)
    (loaded : ∀ f, st.stSize % 2 ^ 32 < 2 ^ 31 → loadFile d path (st.stSize % 2 ^ 32) = some f →
      P ⟨.file f, accesses ++ [.load path], fun p => if p = path then some f else cache p⟩) :
    P (loadInto d cache path st accesses) := by
  by_cases hneg : 2 ^ 31 ≤ st.stSize % 2 ^ 32
  · simp only [loadInto, if_pos hneg]
    exact negative hneg
  · simp only [loadInto, if_neg hneg]
    cases hload : loadFile d path (st.stSize % 2 ^ 32) with
    | none => exact closed (Nat.not_le.mp hneg) (Option.map_eq_none_iff.mp hload)
    | some f => exact loaded f (Nat.not_le.mp hneg) hload

/-- Looking up a file ends in one of five ways: with a page from the cache, with nothing, with a
folder that has no index, or with the loading of an index or of the file itself. -/
theorem getFile_cases (d : Disk) (cache : Cache) (path : Text) {P : Lookup → Prop}
    (cached : ∀ f, cache (rootDir ++ path) = some f → P ⟨.file f, [], cache⟩)
    (missing : cache (rootDir ++ path) = none → d.stat (rootDir ++ path) = none →
      P ⟨.missing, [.stat (rootDir ++ path)], cache⟩)
    (noIndex : ∀ st, cache (rootDir ++ path) = none → d.stat (rootDir ++ path) = some st →
      looksLikeFolder st = true → d.stat (indexOf (rootDir ++ path)) = none →
      P ⟨.missing, [.stat (rootDir ++ path), .stat (indexOf (rootDir ++ path))], cache⟩)
    (index : ∀ st st', cache (rootDir ++ path) = none → d.stat (rootDir ++ path) = some st →
      looksLikeFolder st = true → d.stat (indexOf (rootDir ++ path)) = some st' →
      P (loadInto d cache (indexOf (rootDir ++ path)) st'
        [.stat (rootDir ++ path), .stat (indexOf (rootDir ++ path))]))
    (page : ∀ st, cache (rootDir ++ path) = none → d.stat (rootDir ++ path) = some st →
      looksLikeFolder st = false →
      P (loadInto d cache (rootDir ++ path) st [.stat (rootDir ++ path)])) :
    P (getFile d cache path) := by
  simp only [getFile]
  cases hc : cache (rootDir ++ path) with
  | some f => exact cached f hc
  | none =>
    cases hs : d.stat (rootDir ++ path) with
    | none => exact missing hc hs
    | some st =>
      cases hf : looksLikeFolder st with
      | false =>
        simp only [hf, Bool.false_eq_true, if_false]
        exact page st hc hs hf
      | true =>
        simp only [hf, if_true]
        cases hi : d.stat (indexOf (rootDir ++ path)) with
        | none => exact noIndex st hc hs hf hi
        | some st' => exact index st st' hc hs hf hi

section Branches
variable {cache : Cache} {buffer : Text}

theorem processRequest_invalid (mode : Mode) (cache : Cache)
    (h : (parseRequest buffer).valid = false) :
    processRequest mode cache buffer =
      ⟨some false, [.http500], [generate500Response "Invalid request".toList], none, [],
        cache⟩ := by
  simp only [processRequest, h, if_true]

theorem processRequest_towa (sendMsg : Text → Text → Text → Message) (cache : Cache) {msg : Message}
    (h : (parseRequest buffer).valid = true)
    (hmsg : sendMsg (parseRequest buffer).method ((parseRequest buffer).path.drop 1)
      (parseRequest buffer).queryString = msg) :
    processRequest (.towa sendMsg) cache buffer =
      if msg.header = towaHttp200 ∨ msg.header = towaHttp404 then
        replyFile (parseRequest buffer) ⟨[], msg.content, msg.content.length⟩ [] cache
      else ⟨some false, [.http500], [generate500Response msg.content], none, [], cache⟩ := by
  simp only [processRequest, h, hmsg, Bool.true_eq_false, if_false]

theorem processRequest_files (d : Disk) (cache : Cache) {l : Lookup}
    (h : (parseRequest buffer).valid = true)
    (hl : getFile d cache (parseRequest buffer).path = l) :
    processRequest (.files d) cache buffer =
      match l.found with
      | .crashed => ⟨none, [], [], none, l.accesses, l.cache⟩
      | .missing => ⟨some false, [.http404], [http404], none, l.accesses, l.cache⟩
      | .file f => replyFile (parseRequest buffer) f l.accesses l.cache := by
  simp only [processRequest, h, hl, Bool.true_eq_false, if_false]

/-- What leaves the connection open: a request line that parses, the keep-alive header, and a file
or an answer that is not an error. -/
theorem processRequest_open_iff (mode : Mode) (cache : Cache) (buffer : Text) :
    (processRequest mode cache buffer).result = some true ↔
      (parseRequest buffer).valid = true ∧ (parseRequest buffer).keepAlive = true ∧
        match mode with
        | .files d => ∃ f, (getFile d cache (parseRequest buffer).path).found = .file f
        | .towa sendMsg =>
          let r := parseRequest buffer
          let header := (sendMsg r.method (r.path.drop 1) r.queryString).header
          header = towaHttp200 ∨ header = towaHttp404 := by
  cases hv : (parseRequest buffer).valid with
  | false => simp [processRequest_invalid mode cache hv]
  | true =>
    cases mode with
    | files d =>
      rw [processRequest_files d cache hv rfl]
      cases hf : (getFile d cache (parseRequest buffer).path).found <;> simp [replyFile, hf]
    | towa sendMsg =>
      obtain ⟨msg, hmsg⟩ : ∃ msg, sendMsg (parseRequest buffer).method
          ((parseRequest buffer).path.drop 1) (parseRequest buffer).queryString = msg := ⟨_, rfl⟩
      simp only [processRequest_towa sendMsg cache hv hmsg, hmsg, true_and]
      by_cases h : msg.header = towaHttp200 ∨ msg.header = towaHttp404
      · simp [replyFile, h]
      · simp [h]

end Branches

end HttpServer
