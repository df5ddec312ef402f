import SaWa.HttpSessions
import SaWa.TowaParameters
import SaWa.TowaRequests
import SaWa.TowaTraces
import Mathlib.Data.Bool.AllAny

/-! The application pool of `server/towa_app_pool.cpp` behind the HTTP server: a form goes from a
browser through the request line, the pipe and the tokens to a servlet, and what the servlet came to
goes back as a page. -/
namespace TowaServlets

open HttpServer HttpReadData HttpSessions ContentFraming HttpResponses TowaMessages TowaReplies
open TowaParameters
open TowaPipes (Request)
open TowaRequests (arrived splitRequest sentRequest)
open TowaTraces (Throwable Chain appendAll getJNIException textLength towaHttp500 pre length_error)

/-! ### The application pool -/

/-- What `doGet` came to: the exception that it left, or what `getOutput` returns, which is null or
an array with the memory behind it. -/
inductive Finish (ι : Type) where
  | threw (exc : ι)
  | returned (output : Option (Text × Text))

/-- The Java machine as the application pool calls it. Where Java throws, these calls return null
(`none`) and no C++ exception; a call of `doGet` that does not come back is `none` too. -/
structure Jvm (κ μ ο ι : Type) where
  heap : ι → Throwable ι
  newStringUTF : Text → JavaString
  findClass : Text → Option κ
  getMethodID : κ → Text → Text → Option μ
  newObject : κ → μ → Option ο
  newResponse : Option ο
  callVoidMethod : ο → μ → TowaRequest → ο → Option (Finish ι)

/-- What `processRequest` returns. `running` is a servlet or a trace that takes longer than it is
given; `undefined` is a null handed to the next call, which JNI leaves undefined. -/
inductive Answer where
  | null
  | uninitialised
  | undefined
  | running
  | message (p : Packet)

section AppPool
variable {κ μ ο ι : Type} (jvm : Jvm κ μ ο ι)

def doGetParams : Text :=
  ("(Ljavax/servlet/http/HttpServletRequest;" ++
    "Ljavax/servlet/http/HttpServletResponse;)V").toList

/-- The new `Message`; where there is no array for it, nothing has been put into `errorMsg` before
the `catch`. -/
def newMessage (s : Text) : Answer :=
  match ofString s with
  | some p => .message p
  | none => .uninitialised

/-- The message for what `doGet` came to. -/
def finished (n : ℕ) : Finish ι → Answer
  | .threw exc =>
    match getJNIException jvm.heap n exc [] with
    | none => .running
    | some error => newMessage (Char.ofNat towaHttp500 :: pre error)
  | .returned none => .null
  | .returned (some (output, after)) =>
    match servletReply output after with
    | some p => .message p
    | none => .uninitialised

/-- The body of the `try`, `none` once a null has been handed on. The handlers of `findClass` and
`findMethod` with their texts are not reached: JNI throws no C++ exception. -/
def runServlet (n : ℕ) (className : Text) (requestInstance : TowaRequest) : Option Answer := do
  let targetClass ← jvm.findClass className
  let constructor ← jvm.getMethodID targetClass "<init>".toList "()V".toList
  let targetInstance ← jvm.newObject targetClass constructor
  let responseInstance ← jvm.newResponse
  let doGet ← jvm.getMethodID targetClass "doGet".toList doGetParams
  match jvm.callVoidMethod targetInstance doGet requestInstance responseInstance with
  | none => return .running
  | some finish => return finished jvm n finish

/-- `TowaAppPool::processRequest`. -/
def processRequest (n : ℕ) (s : Text) : Answer :=
  match splitRequest s with
  | none => .null
  | some request =>
    (runServlet jvm n request.className
      (TowaRequest.new (jvm.newStringUTF request.verb)
        (jvm.newStringUTF request.queryString))).getD .undefined

/-- A request through the one pipe and its reply through the other. -/
def exchange (fresh : ℕ → Text) (n : ℕ) (request : Request) : Option Message :=
  (arrived fresh request).bind fun s =>
    match processRequest jvm n s with
    | .message p => received fresh p
    | _ => none

/-- `TowaMgr::sendMsg`, which returns only when there is a reply. -/
def sendMsg (fresh : ℕ → Text) (n : ℕ) (verb className queryString : Text) : Message :=
  (exchange jvm fresh n ⟨verb, className, queryString⟩).getD ⟨0, []⟩

end AppPool

/-! ### Pages -/

/-- What a browser is to see: what the servlet has written, or the text of an error. -/
inductive Page where
  | output (content : Text)
  | failed (desc : Text)

def Page.message : Page → Message
  | .output content => ⟨towaHttp200, content⟩
  | .failed desc => ⟨towaHttp500, desc⟩

def Page.response : Page → Text
  | .output content => header200 content.length ++ content
  | .failed desc => generate500Response desc

def Page.content : Page → Text
  | .output content => content
  | .failed desc => content500 desc

def Page.keepsOpen : Page → Bool
  | .failed _ => false
  | _ => true

/-- The servlet of this name is there, and `doGet` came to `finish` on this request. -/
structure Runs {κ μ ο ι : Type} (jvm : Jvm κ μ ο ι) (className : Text) (request : TowaRequest)
    (finish : Finish ι) : Prop where
  found : ∃ targetClass constructor targetInstance responseInstance doGet,
    jvm.findClass className = some targetClass ∧
    jvm.getMethodID targetClass "<init>".toList "()V".toList = some constructor ∧
    jvm.newObject targetClass constructor = some targetInstance ∧
    jvm.newResponse = some responseInstance ∧
    jvm.getMethodID targetClass "doGet".toList doGetParams = some doGet ∧
    jvm.callVoidMethod targetInstance doGet request responseInstance = some finish

/-- The page for a request, by what `doGet` comes to. -/
inductive Comes {κ μ ο ι : Type} (jvm : Jvm κ μ ο ι) (className : Text) (request : TowaRequest) :
    Page → Prop where
  | returned (output after : Text) (h : EndsInNull output after)
      (runs : Runs jvm className request (.returned (some (output, after)))) :
      Comes jvm className request (.output output)
  | threw (exc : ι) (ts : List (Throwable ι)) (h : Chain jvm.heap exc ts)
      (fits : textLength ts < 2 ^ 31) (runs : Runs jvm className request (.threw exc)) :
      Comes jvm className request (.failed (pre (appendAll [] ts)))

section Replies
variable {κ μ ο ι : Type} {jvm : Jvm κ μ ο ι} {className : Text} {request : TowaRequest}
  {finish : Finish ι} {page : Page}

theorem runServlet_runs (h : Runs jvm className request finish) (n : ℕ) :
    runServlet jvm n className request = some (finished jvm n finish) := by
  obtain ⟨c, i, t, r, g, hclass, hinit, htarget, hresponse, hdoGet, hcall⟩ := h.found
  simp only [runServlet, hclass, hinit, htarget, hresponse, hdoGet, hcall, Option.bind_eq_bind,
    Option.bind_some, Option.pure_def]

theorem servletReply_ends {output after : Text} (h : EndsInNull output after) :
    ∃ reply, servletReply output after = some reply ∧
      reply.content = Char.ofNat towaHttp200 :: output := by
  obtain ⟨hnot, hafter, hgap, hfits⟩ := h
  have hsplit : (output ++ after).takeWhile (· ≠ '\x00') =
      output ++ after.takeWhile (· ≠ '\x00') := by
    apply List.takeWhile_append_of_pos
    intro c hc
    exact decide_eq_true fun hz => hnot (hz ▸ hc)
  have hstring : cString (output ++ after) = some (output ++ after.takeWhile (· ≠ '\x00')) := by
    rw [cString, if_pos (List.mem_append_right output hafter), hsplit]
  have hlen : (Char.ofNat towaHttp200 :: (output ++ after.takeWhile (· ≠ '\x00'))).length % 2 ^ 32 =
      output.length + 1 := by
    rw [List.length_cons, List.length_append]
    omega
  obtain ⟨reply, hof⟩ := ofString_fits (hlen.trans_lt hfits)
  refine ⟨reply, ?_, ?_⟩
  · rw [servletReply, hstring]
    exact hof
  · rw [ofString_some hof, hlen, List.take_succ_cons, List.take_left]

theorem finished_output {output after : Text} (h : EndsInNull output after) (n : ℕ) :
    ∃ p : Packet, finished jvm n (.returned (some (output, after))) = .message p ∧
      p.content = Char.ofNat towaHttp200 :: output := by
  obtain ⟨reply, hreply, hcontent⟩ := servletReply_ends h
  refine ⟨reply, ?_, hcontent⟩
  simp only [finished, hreply]

theorem finished_trace {exc : ι} {ts : List (Throwable ι)} (h : Chain jvm.heap exc ts)
    (fits : textLength ts < 2 ^ 31) {n : ℕ} (hn : ts.length ≤ n) :
    ∃ p : Packet, finished jvm n (.threw exc) = .message p ∧
      p.content = Char.ofNat towaHttp500 :: pre (appendAll [] ts) := by
  have hcall := TowaTraces.getJNIException_chain h [] hn
  have hshort := (length_error ts).trans_lt fits
  have hof := ofString_short hshort
  refine ⟨⟨_, hshort⟩, ?_, rfl⟩
  simp only [finished, hcall, newMessage, hof]

/-- With enough calls for a trace, the reply to a request is the message of its page. -/
theorem runServlet_comes (h : Comes jvm className request page) :
    ∃ N, ∀ n ≥ N, ∃ p : Packet, runServlet jvm n className request = some (.message p) ∧
      p.content = Char.ofNat page.message.header :: page.message.content := by
  cases h with
  | returned output after h runs =>
    refine ⟨0, fun n _ => ?_⟩
    obtain ⟨p, hp, hcontent⟩ := @finished_output _ _ _ _ jvm _ _ h n
    exact ⟨p, by rw [runServlet_runs runs, hp], hcontent⟩
  | threw exc ts h fits runs =>
    refine ⟨ts.length, fun n hn => ?_⟩
    obtain ⟨p, hp, hcontent⟩ := finished_trace h fits hn
    exact ⟨p, by rw [runServlet_runs runs, hp], hcontent⟩

end Replies

/-! ### Forms -/

/-- A string of units as the bytes of a C string, where they are those of ASCII characters. -/
def textOf (s : JavaString) : Text := s.map fun u => Char.ofNat u.toNat

/-- A unit that a query can have in a request line and in a message to the towa process. -/
def Quotable (u : UInt16) : Prop :=
  0 < u.toNat ∧ u.toNat < 128 ∧ u ≠ 0x0A ∧ u ≠ 0x0D ∧ u ≠ 0x7C

instance : DecidablePred Quotable := fun u =>
  inferInstanceAs (Decidable (0 < u.toNat ∧ u.toNat < 128 ∧ u ≠ 0x0A ∧ u ≠ 0x0D ∧ u ≠ 0x7C))

/-- `NewStringUTF` on ASCII characters other than null. -/
def Decodes (newStringUTF : Text → JavaString) : Prop :=
  ∀ s : JavaString, (∀ u ∈ s, 0 < u.toNat ∧ u.toNat < 128) → newStringUTF (textOf s) = s

/-- A form sent to a servlet, and the page that comes back. -/
structure Visit where
  className : Text
  parameters : List Parameter
  page : Page

def Visit.query (v : Visit) : JavaString := queryOf v.parameters

def Visit.target (v : Visit) : Text := ('/' :: v.className) ++ '?' :: textOf v.query

/-- `"GET"` in Java. -/
def getMethod : JavaString := [0x47, 0x45, 0x54]

/-- The `TowaRequest` of a form. -/
def Visit.request (v : Visit) : TowaRequest := TowaRequest.new getMethod v.query

structure Visitable (v : Visit) : Prop where
  chars : ∀ c ∈ v.className, isPathChar c = true
  units : ∀ u ∈ v.query, Quotable u
  fits : (HttpSessions.request v.target).length < requestMessageLen

section Forms
variable {v : Visit} {q : Text}

theorem textOf_get : textOf getMethod = "GET".toList := by decide

/-- The character of a unit below 128 is the one with its number. -/
theorem toNat_textOf {u : UInt16} (hu : u.toNat < 128) : (Char.ofNat u.toNat).toNat = u.toNat := by
  have hvalid : u.toNat.isValidChar := Or.inl (by omega)
  rw [Char.ofNat, dif_pos hvalid]
  rfl

theorem notMem_textOf {s : JavaString} (hs : ∀ u ∈ s, u.toNat < 128) {c : Char}
    (hc : ∀ u ∈ s, u.toNat ≠ c.toNat) : c ∉ textOf s := by
  intro hmem
  obtain ⟨u, hu, rfl⟩ := List.mem_map.mp hmem
  exact hc u hu (toNat_textOf (hs u hu)).symm

/-- What a query cannot have in it. -/
theorem Visitable.query_chars (h : Visitable v) :
    '\x00' ∉ textOf v.query ∧ '\n' ∉ textOf v.query ∧ '\r' ∉ textOf v.query ∧
      '|' ∉ textOf v.query := by
  have hlow : ∀ u ∈ v.query, u.toNat < 128 := fun u hu => (h.units u hu).2.1
  have hne : ∀ k : UInt16, (∀ u ∈ v.query, u ≠ k) → ∀ u ∈ v.query, u.toNat ≠ k.toNat :=
    fun k hk u hu he => hk u hu (UInt16.toNat_inj.mp he)
  refine ⟨notMem_textOf hlow fun u hu => ?_, notMem_textOf hlow (hne 0x0A fun u hu => ?_),
    notMem_textOf hlow (hne 0x0D fun u hu => ?_), notMem_textOf hlow (hne 0x7C fun u hu => ?_)⟩
  · exact (h.units u hu).1.ne'
  · exact (h.units u hu).2.2.1
  · exact (h.units u hu).2.2.2.1
  · exact (h.units u hu).2.2.2.2

theorem path_ne (h : Visitable v) {d : Char} (hd : isPathChar d = false) :
    d ∉ '/' :: v.className := by
  have hslash : ∀ c ∈ '/' :: v.className, isPathChar c = true :=
    List.forall_mem_cons.mpr ⟨by decide, h.chars⟩
  exact pathChar_ne hslash hd

theorem Visitable.sendable (h : Visitable v) : Sendable v.target := by
  obtain ⟨hnull, hline, -, -⟩ := h.query_chars
  refine ⟨?_, ?_, h.fits⟩
  · simp only [Visit.target, List.mem_append, List.mem_cons (b := '?'), not_or]
    exact ⟨path_ne h (by decide), by decide, hnull⟩
  · simp only [Visit.target, List.mem_append, List.mem_cons (b := '?'), not_or]
    exact ⟨path_ne h (by decide), by decide, hline⟩

/-- The query goes up to the protocol behind it. -/
theorem matchAny_query (hline : '\n' ∉ q) (hreturn : '\r' ∉ q) :
    matchAny (q ++ " HTTP/1.1\r".toList) = some (q, "/1.1\r".toList) := by
  induction q with
  | nil => decide
  | cons c q ih =>
    obtain ⟨hn, hline⟩ := List.ne_and_not_mem_of_not_mem_cons hline
    obtain ⟨hr, hreturn⟩ := List.ne_and_not_mem_of_not_mem_cons hreturn
    have hc : (c = '\n' || c = '\r') = false := by simp [hn.symm, hr.symm]
    rw [List.cons_append, matchAny, hc, ih hline hreturn]
    rfl

/-- The parts of the request line are parsed out of it again. -/
theorem parse_visit (h : Visitable v) (rest : Text) :
    (parseRequest (HttpSessions.request v.target ++ rest)).path = '/' :: v.className ∧
      (parseRequest (HttpSessions.request v.target ++ rest)).queryString = textOf v.query ∧
      (parseRequest (HttpSessions.request v.target ++ rest)).valid = true := by
  obtain ⟨-, hline, hreturn, -⟩ := h.query_chars
  have hpath : ∀ c ∈ '/' :: v.className, isPathChar c = true :=
    List.forall_mem_cons.mpr ⟨by decide, h.chars⟩
  have hgrammar : HttpRequestLine.Line
      (['G', 'E', 'T'] ++ ([' '] ++ (v.target ++ " HTTP/1.1\r".toList)))
      ('/' :: v.className) ('?' :: (textOf v.query ++ " HTTP/1.1\r".toList)) := by
    refine ⟨⟨[' '], by decide, List.all_eq_true.mp rfl, ?_⟩, by simp, hpath, ?_⟩
    · simp [Visit.target]
    · rintro c t ⟨⟩
      decide
  have hfirst := HttpRequestLine.parseRequest_first (HttpSessions.request v.target ++ rest)
  rw [firstLine_request h.sendable, HttpRequestLine.regexSearch_line hgrammar,
    HttpRequestLine.behindPath, matchAny_query hline hreturn] at hfirst
  have hparsed : (parseRequest (HttpSessions.request v.target ++ rest)).path = '/' :: v.className :=
    congrArg Prod.fst hfirst
  refine ⟨hparsed, congrArg Prod.snd hfirst, ?_⟩
  show decide ((parseRequest (HttpSessions.request v.target ++ rest)).path ≠ []) = true
  rw [hparsed]
  rfl

end Forms

/-! ### The connection -/

section Connection
variable {κ μ ο ι : Type} {jvm : ℕ → Jvm κ μ ο ι} {fresh : ℕ → ℕ → Text}
  {after : List Text → Text} {s : Session} {v : Visit} {n : ℕ}

/-- The requests of the HTTP server go to the Java machine as it is then. -/
def towaMode (jvm : ℕ → Jvm κ μ ο ι) (fresh : ℕ → ℕ → Text) (n k : ℕ) : Mode :=
  .towa (sendMsg (jvm k) (fresh k) n)

theorem sent_visit (h : Visitable v) (rest : Text) :
    sentRequest (parseRequest (HttpSessions.request v.target ++ rest)) =
      ⟨textOf getMethod, v.className, textOf v.query⟩ := by
  obtain ⟨hpath, hquery, -⟩ := parse_visit h rest
  rw [sentRequest, hpath, hquery, TowaRequests.method_parseRequest, textOf_get]
  rfl

/-- The towa process makes the request of the form again. -/
theorem arrives_visit (h : Visitable v) (hfresh : ∀ m, (fresh n m).length = m) :
    ∃ text, arrived (fresh n) ⟨textOf getMethod, v.className, textOf v.query⟩ = some text ∧
      splitRequest text = some ⟨textOf getMethod, v.className, textOf v.query⟩ := by
  obtain ⟨-, -, -, hbar⟩ := h.query_chars
  have hverb : '|' ∉ textOf getMethod := by decide
  have hclass : '|' ∉ v.className := fun hmem =>
    path_ne h (by decide) (List.mem_cons_of_mem '/' hmem)
  have hshort : (Request.text ⟨textOf getMethod, v.className, textOf v.query⟩).length < 2 ^ 31 := by
    have hfits := h.fits
    have hget : (textOf getMethod).length = 3 := rfl
    rw [length_request, requestMessageLen] at hfits
    simp only [Visit.target, List.length_append, List.length_cons] at hfits
    simp only [TowaRequests.length_text, hget]
    omega
  refine ⟨_, TowaRequests.arrived_short hfresh hshort, ?_⟩
  rw [TowaRequests.splitRequest_text hverb hclass, (TowaRequests.takeWhile_bar_iff _).mpr hbar]

theorem decodes_visit {newStringUTF : Text → JavaString} (hutf : Decodes newStringUTF)
    (h : Visitable v) : TowaRequest.new (newStringUTF (textOf getMethod))
      (newStringUTF (textOf v.query)) = v.request := by
  have hquery := hutf v.query fun u hu => ⟨(h.units u hu).1, (h.units u hu).2.1⟩
  rw [hutf getMethod (List.all_iff_forall_prop.mp (by decide)), hquery, Visit.request]

/-- The message that the reply to a form becomes. -/
theorem exchange_visit (hutf : Decodes (jvm n).newStringUTF) (h : Visitable v)
    (hfresh : ∀ m, (fresh n m).length = m) (hcomes : Comes (jvm n) v.className v.request v.page) :
    ∃ N, ∀ m ≥ N, exchange (jvm n) (fresh n) m ⟨textOf getMethod, v.className, textOf v.query⟩ =
      some v.page.message := by
  obtain ⟨N, hN⟩ := runServlet_comes hcomes
  refine ⟨N, fun m hm => ?_⟩
  obtain ⟨p, hp, hcontent⟩ := hN m hm
  obtain ⟨text, harrived, hsplit⟩ := arrives_visit h hfresh
  have hrun : processRequest (jvm n) m text = .message p := by
    simp only [processRequest, hsplit, decodes_visit hutf h, hp, Option.getD_some]
  have hheader : (Char.ofNat v.page.message.header).toNat = v.page.message.header := by
    cases v.page <;> rfl
  rw [exchange, harrived, Option.bind_some, hrun]
  simp only [received_cons hfresh hcontent, hheader]

/-- One form is answered with its page. -/
theorem serve_visit (h : Visitable v)
    (hexchange : exchange (jvm s.1) (fresh s.1) n
      ⟨textOf getMethod, v.className, textOf v.query⟩ = some v.page.message) :
    (HttpServer.processRequest (towaMode jvm fresh n s.1) s.2
      (bufferAt after [block (HttpSessions.request v.target)])).writes.flatten = v.page.response ∧
    (serve (towaMode jvm fresh n) after s [block (HttpSessions.request v.target)]).1 =
      v.page.keepsOpen ∧
    (serve (towaMode jvm fresh n) after s [block (HttpSessions.request v.target)]).2.1 =
      s.1 + 1 := by
  obtain ⟨junk, hbuffer⟩ := @bufferAt_request after v.target h.sendable
  obtain ⟨-, -, hvalid⟩ := parse_visit h ('\x00' :: junk)
  have hkeep := keepAlive_request h.sendable junk
  have hsent := sent_visit h ('\x00' :: junk)
  simp only [sentRequest, Request.mk.injEq] at hsent
  obtain ⟨hverb, hclass, hquery⟩ := hsent
  have hmsg : sendMsg (jvm s.1) (fresh s.1) n
      (parseRequest (HttpSessions.request v.target ++ '\x00' :: junk)).method
      ((parseRequest (HttpSessions.request v.target ++ '\x00' :: junk)).path.drop 1)
      (parseRequest (HttpSessions.request v.target ++ '\x00' :: junk)).queryString =
        v.page.message := by
    rw [hverb, hclass, hquery, sendMsg, hexchange, Option.getD_some]
  have hrun := processRequest_towa (sendMsg (jvm s.1) (fresh s.1) n) s.2 hvalid hmsg
  refine ⟨?_, ?_, rfl⟩
  · rw [hbuffer, towaMode, hrun]
    cases hpage : v.page with
    | output content => simp [Page.message, Page.response, replyFile]
    | failed desc => simp [Page.message, Page.response, towaHttp200, towaHttp404, towaHttp500]
  · simp only [serve]
    rw [hbuffer, towaMode, hrun]
    cases hpage : v.page with
    | output content => simp [Page.message, Page.keepsOpen, replyFile, hkeep]
    | failed desc => simp [Page.message, Page.keepsOpen, towaHttp200, towaHttp404, towaHttp500]

/-- The pages up to the first error, after which the connection is closed. -/
def shown : List Visit → List Page
  | [] => []
  | v :: vs => v.page :: if v.page.keepsOpen then shown vs else []

def readsOf (visits : List Visit) : List Text := visits.map fun v => HttpSessions.request v.target

/-- Each form that comes to be sent can be, and its servlet comes to the page. -/
def Works (jvm : ℕ → Jvm κ μ ο ι) : ℕ → List Visit → Prop
  | _, [] => True
  | k, v :: vs => (Visitable v ∧ Comes (jvm k) v.className v.request v.page) ∧
      (v.page.keepsOpen = true → Works jvm (k + 1) vs)

theorem session_visits (hutf : ∀ k, Decodes (jvm k).newStringUTF)
    (hfresh : ∀ k m, (fresh k m).length = m) {visits : List Visit} {k : ℕ}
    (hworks : Works jvm k visits) : ∃ N, ∀ n ≥ N, ∀ s : Session, s.1 = k →
      (readData (towaMode jvm fresh n) after s (readsOf visits)).length = (shown visits).length ∧
      HttpSessions.responses (towaMode jvm fresh n) after s
        (readData (towaMode jvm fresh n) after s (readsOf visits)) =
          (shown visits).map Page.response := by
  induction visits generalizing k with
  | nil => exact ⟨0, fun n _ s _ => ⟨rfl, rfl⟩⟩
  | cons v vs ih =>
    obtain ⟨⟨hv, hcomes⟩, hrest⟩ := hworks
    obtain ⟨N, hN⟩ := exchange_visit (hutf k) hv (hfresh k) hcomes
    have hcall : ∀ n ≥ N, ∀ s : Session, s.1 = k →
        exchange (jvm s.1) (fresh s.1) n ⟨textOf getMethod, v.className, textOf v.query⟩ =
          some v.page.message := by
      rintro n hn s rfl
      exact hN n hn
    cases hpage : v.page.keepsOpen with
    | false =>
      refine ⟨N, fun n hn s hs => ?_⟩
      obtain ⟨hwrites, hclosed, -⟩ :=
        @serve_visit κ μ ο ι jvm fresh after s v n hv (hcall n hn s hs)
      unfold readData
      rw [readsOf, List.map_cons, readLoop_request hv.sendable, shown, hclosed, hpage]
      exact ⟨rfl, congrArg (· :: []) hwrites⟩
    | true =>
      obtain ⟨M, hM⟩ := ih (hrest hpage)
      refine ⟨max N M, fun n hn s hs => ?_⟩
      obtain ⟨hwrites, hopen, hnext⟩ := @serve_visit κ μ ο ι jvm fresh after s v n hv
        (hcall n (le_trans (le_max_left N M) hn) s hs)
      obtain ⟨hlen, hresponses⟩ :=
        hM n (le_trans (le_max_right N M) hn) _ (hnext.trans (congrArg (· + 1) hs))
      unfold readData at hlen hresponses ⊢
      rw [readsOf, List.map_cons, readLoop_request hv.sendable, shown, hopen, hpage, if_pos rfl,
        if_pos rfl]
      refine ⟨congrArg (· + 1) hlen, ?_⟩
      rw [HttpSessions.responses, List.map_cons, hwrites]
      exact congrArg _ hresponses

theorem declares_response (p : Page) : Declares p.response := by
  cases p with
  | output content => exact declares_200 rfl
  | failed desc => exact declares_500 desc

theorem body_response (p : Page) : body p.response = p.content := by
  cases p with
  | output content => exact body_200 content
  | failed desc =>
    rw [Page.response, body, head_500]
    rfl

end Connection

/-- A class that shows its parameter `a`, and one that throws; there are no others. -/
def sampleJvm : Jvm Bool Unit Bool Bool where
  heap := TowaTraces.sampleHeap
  newStringUTF := fun s => s.map fun c => UInt16.ofNat c.toNat
  findClass := fun className =>
    if className = ['T'] then some true else if className = ['K'] then some false else none
  getMethodID := fun _ _ _ => some ()
  newObject := fun targetClass _ => some targetClass
  newResponse := some true
  callVoidMethod := fun target _ request _ =>
    if target then
      some (.returned (some (textOf ((request.getParameter [0x61]).getD []), ['\x00'])))
    else some (.threw true)

theorem sampleJvm_decodes : Decodes sampleJvm.newStringUTF := by
  intro s hs
  show (s.map fun u => Char.ofNat u.toNat).map (fun c => UInt16.ofNat c.toNat) = s
  rw [List.map_map]
  conv_rhs => rw [← List.map_id s]
  refine List.map_congr_left fun u hu => ?_
  show UInt16.ofNat (Char.ofNat u.toNat).toNat = u
  rw [toNat_textOf (hs u hu).2, UInt16.ofNat_toNat]

/-- The parameter `a` with a value of one digit. -/
def letterA (digit : UInt16) (h : TowaParameters.Plain [digit]) : Parameter :=
  plainLetter 0x61 (by decide) [digit] h

def sampleTrace : Text :=
  pre (appendAll [] [TowaTraces.sampleHeap true, TowaTraces.sampleHeap false])

def sampleVisits : List Visit :=
  [⟨['T'], [letterA 0x31 (by decide)], .output ['1']⟩,
    ⟨['T'], [letterA 0x32 (by decide)], .output ['2']⟩, ⟨['K'], [], .failed sampleTrace⟩]

theorem comes_digit (digit : UInt16) (h : TowaParameters.Plain [digit])
    (hshown : (TowaRequest.new getMethod (queryOf [letterA digit h])).getParameter [0x61] =
      some [digit]) (hends : EndsInNull (textOf [digit]) ['\x00']) :
    Comes sampleJvm ['T'] (TowaRequest.new getMethod (queryOf [letterA digit h]))
      (.output (textOf [digit])) := by
  refine .returned _ ['\x00'] hends ⟨⟨true, (), true, true, (), rfl, rfl, rfl, rfl, rfl, ?_⟩⟩
  simp only [sampleJvm, hshown]
  rfl

end TowaServlets
