import SaWa.HttpSessions
import Mathlib.Data.List.Induction

/-! Several connections to the HTTP server, each with its thread, over one page cache. A thread's
`read` and the request that it completes are one step, with all that it does to the cache, and the
threads take steps in any order, until a request kills the process. No reply meets a connection
that its client has closed, which would end the process as well. -/
namespace HttpBrowsers

open HttpServer HttpReadData HttpSessions ContentFraming HttpPageCache

/-- A thread in `readData`: the blocks of the request so far, what is still to be read, and what it
has written. -/
structure Connection where
  full : List Text
  reads : List Text
  isOpen : Bool
  written : Text

/-- A page that cannot be loaded ends the whole process, with all its connections. -/
structure Server (ι : Type) where
  session : Session
  alive : Bool
  connections : ι → Connection

section Steps
variable {ι : Type} [DecidableEq ι] (mode : ℕ → Mode) (after : ι → List Text → Text)

/-- One round of the loop in `readData` on the connection `i`. -/
def step (s : Server ι) (i : ι) : Server ι :=
  let c := s.connections i
  match s.alive, c.isOpen, c.reads with
  | true, true, bytes :: reads =>
    if bytes = [] then
      { s with connections := Function.update s.connections i ⟨c.full, reads, false, c.written⟩ }
    else
      let chain := c.full ++ [block bytes]
      if bytes.length < requestMessageLen ∨
          (block bytes).drop (requestMessageLen - 4) ≠ blankLine then
        let o := processRequest (mode s.session.1) s.session.2 (bufferAt (after i) chain)
        let r := serve mode (after i) s.session chain
        ⟨r.2, o.result.isSome,
          Function.update s.connections i ⟨[], reads, r.1, c.written ++ o.writes.flatten⟩⟩
      else { s with connections := Function.update s.connections i ⟨chain, reads, true, c.written⟩ }
  | _, _, _ => s

def run (s : Server ι) (schedule : List ι) : Server ι := schedule.foldl (step mode after) s

end Steps

section Alone
variable {ι : Type} [DecidableEq ι] {mode : ℕ → Mode} {after : ι → List Text → Text} {i : ι}
  {s : Server ι} {full reads : List Text} {bytes written : Text}

theorem step_dead (h : s.alive = false) : step mode after s i = s := by
  simp only [step, h]

theorem step_closed (h : (s.connections i).isOpen = false) : step mode after s i = s := by
  cases ha : s.alive with
  | false => exact step_dead ha
  | true => simp only [step, ha, h]

theorem step_end (ha : s.alive = true) (h : s.connections i = ⟨full, [] :: reads, true, written⟩) :
    step mode after s i =
      ⟨s.session, true, Function.update s.connections i ⟨full, reads, false, written⟩⟩ := by
  simp only [step, ha, h, if_true]

/-- The read that completes a request. -/
theorem step_request (ha : s.alive = true)
    (h : s.connections i = ⟨full, bytes :: reads, true, written⟩) (hne : bytes ≠ [])
    (hends : bytes.length < requestMessageLen ∨
      (block bytes).drop (requestMessageLen - 4) ≠ blankLine) :
    step mode after s i =
      ⟨(serve mode (after i) s.session (full ++ [block bytes])).2,
        (processRequest (mode s.session.1) s.session.2
          (bufferAt (after i) (full ++ [block bytes]))).result.isSome,
        Function.update s.connections i
          ⟨[], reads, (serve mode (after i) s.session (full ++ [block bytes])).1,
            written ++ (processRequest (mode s.session.1) s.session.2
              (bufferAt (after i) (full ++ [block bytes]))).writes.flatten⟩⟩ := by
  simp only [step, ha, h, if_neg hne, if_pos hends]

theorem step_block (ha : s.alive = true)
    (h : s.connections i = ⟨full, bytes :: reads, true, written⟩) (hne : bytes ≠ [])
    (hmore : ¬ (bytes.length < requestMessageLen ∨
      (block bytes).drop (requestMessageLen - 4) ≠ blankLine)) :
    step mode after s i = ⟨s.session, true,
      Function.update s.connections i ⟨full ++ [block bytes], reads, true, written⟩⟩ := by
  simp only [step, ha, h, if_neg hne, if_neg hmore]

/-- What a step can do: it changes one connection, and the session by at most one request. -/
theorem step_cases (mode : ℕ → Mode) (after : ι → List Text → Text) (s : Server ι) (i : ι) :
    (∃ c, (step mode after s i).connections = Function.update s.connections i c) ∧
      ((step mode after s i).session = s.session ∨
        ∃ chain, (step mode after s i).session = (serve mode (after i) s.session chain).2) := by
  rcases hconn : s.connections i with ⟨full, reads, isOpen, written⟩
  have hsame : step mode after s i = s → (∃ c, (step mode after s i).connections =
      Function.update s.connections i c) ∧ ((step mode after s i).session = s.session ∨
        ∃ chain, (step mode after s i).session = (serve mode (after i) s.session chain).2) := by
    intro h
    exact ⟨⟨s.connections i, by rw [h, Function.update_eq_self]⟩, Or.inl (by rw [h])⟩
  cases ha : s.alive with
  | false => exact hsame (step_dead ha)
  | true =>
    cases isOpen with
    | false => exact hsame (step_closed (by rw [hconn]))
    | true =>
      cases reads with
      | nil => exact hsame (by simp only [step, ha, hconn])
      | cons bytes reads =>
        by_cases hnil : bytes = []
        · subst hnil
          rw [step_end ha hconn]
          exact ⟨⟨_, rfl⟩, Or.inl rfl⟩
        by_cases hends : bytes.length < requestMessageLen ∨
            (block bytes).drop (requestMessageLen - 4) ≠ blankLine
        · rw [step_request ha hconn hnil hends]
          exact ⟨⟨_, rfl⟩, Or.inr ⟨_, rfl⟩⟩
        · rw [step_block ha hconn hnil hends]
          exact ⟨⟨_, rfl⟩, Or.inl rfl⟩

/-- A process that is alive has been alive before. -/
theorem alive_before (h : (step mode after s i).alive = true) : s.alive = true := by
  cases ha : s.alive with
  | true => rfl
  | false =>
    rw [step_dead ha, ha] at h
    cases h

theorem run_closed (h : (s.connections i).isOpen = false) (n : ℕ) :
    run mode after s (List.replicate n i) = s := by
  induction n with
  | zero => rfl
  | succ n ih =>
    rw [List.replicate_succ, run, List.foldl_cons, step_closed h]
    exact ih

/-- A request during which the process dies leaves its connection closed. -/
theorem alive_of_open {session : Session} {chain : List Text} {behind : List Text → Text}
    (h : (serve mode behind session chain).1 = true) :
    (processRequest (mode session.1) session.2 (bufferAt behind chain)).result.isSome = true := by
  have hresult : (processRequest (mode session.1) session.2 (bufferAt behind chain)).result =
      some true := of_decide_eq_true h
  rw [hresult]
  rfl

/-- A connection that is served alone writes the responses of `readData`. -/
theorem run_alone (ha : s.alive = true) (h : s.connections i = ⟨full, reads, true, written⟩) :
    ((run mode after s (List.replicate reads.length i)).connections i).written =
      written ++ (responses mode (after i) s.session
        (readLoop mode (after i) s.session full reads)).flatten := by
  induction reads generalizing s full written with
  | nil =>
    show (s.connections i).written = _
    rw [h]
    exact (List.append_nil written).symm
  | cons bytes reads ih =>
    rw [List.length_cons, List.replicate_succ, run, List.foldl_cons, ← run, readLoop]
    by_cases hnil : bytes = []
    · subst hnil
      rw [if_pos rfl, step_end ha h, run_closed (by simp)]
      simp [responses]
    rw [if_neg hnil]
    by_cases hends : bytes.length < requestMessageLen ∨
        (block bytes).drop (requestMessageLen - 4) ≠ blankLine
    · simp only [if_pos hends, responses, List.flatten_cons, ← List.append_assoc]
      rw [step_request ha h hnil hends]
      cases hopen : (serve mode (after i) s.session (full ++ [block bytes])).1 with
      | true => exact ih (alive_of_open hopen) (by simp)
      | false =>
        rw [run_closed (by simp)]
        simp [responses]
    · simp only [if_neg hends]
      rw [step_block ha h hnil hends]
      exact ih rfl (by simp)

end Alone

/-! ### Browsers -/

def siteMode (d : Disk) (heaps : ℕ → Heap) (k : ℕ) : Mode := .files (onHeap d (heaps k))

theorem processRequest_keeps {d : Disk} {heaps : ℕ → Heap} {cache : Cache} (hc : PageCache d cache)
    (k : ℕ) (buffer : Text) :
    PageCache d (processRequest (siteMode d heaps k) cache buffer).cache := by
  cases hv : (parseRequest buffer).valid with
  | false =>
    rw [processRequest_invalid _ _ hv]
    exact hc
  | true =>
    have hkeep := getFile_keeps hc (heaps k) (parseRequest buffer).path
    rw [siteMode, processRequest_files _ cache hv rfl]
    cases (getFile (onHeap d (heaps k)) cache (parseRequest buffer).path).found <;> exact hkeep

section Browsers
variable {ι : Type} [DecidableEq ι] {d : Disk} {heaps : ℕ → Heap} {after : ι → List Text → Text}
  {s : Server ι} {pages : List (Text × Text)} {i j : ι} {n : ℕ}

/-- The stream of responses for these pages. -/
def stream (pages : List (Text × Text)) : Text :=
  (pages.map fun p => header200 p.2.length ++ p.2).flatten

/-- A connection on which `n` of the pages have been asked for. -/
def afterPages (pages : List (Text × Text)) (n : ℕ) : Connection :=
  ⟨[], readsOf (pages.drop n), true, stream (pages.take n)⟩

/-- The thread of `i` has taken `n` turns, the others any. -/
structure Progress (d : Disk) (pages : List (Text × Text)) (i : ι) (n : ℕ) (s : Server ι) :
    Prop where
  cache : PageCache d s.session.2
  connection : s.connections i = afterPages pages n

theorem step_other (hj : j ≠ i) (mode : ℕ → Mode) :
    (step mode after s j).connections i = s.connections i := by
  obtain ⟨⟨c, hc⟩, -⟩ := step_cases mode after s j
  rw [hc, Function.update_of_ne hj.symm]

theorem step_keeps (hc : PageCache d s.session.2) (j : ι) :
    PageCache d (step (siteMode d heaps) after s j).session.2 := by
  obtain ⟨-, hsame | ⟨chain, hserve⟩⟩ := step_cases (siteMode d heaps) after s j
  · rw [hsame]
    exact hc
  · rw [hserve]
    exact processRequest_keeps hc _ _

/-- A connection all of whose pages have been sent waits for a request. -/
theorem step_waiting (h : s.connections i = afterPages pages n) (hn : pages.length ≤ n) :
    step (siteMode d heaps) after s i = s ∧ afterPages pages (n + 1) = afterPages pages n := by
  have hreads : readsOf (pages.drop n) = [] := by
    rw [List.drop_of_length_le hn]
    rfl
  have hstep : step (siteMode d heaps) after s i = s := by
    cases ha : s.alive with
    | false => exact step_dead ha
    | true => simp only [step, ha, h, afterPages, hreads]
  refine ⟨hstep, ?_⟩
  rw [afterPages, afterPages, List.drop_of_length_le hn, List.take_of_length_le hn,
    List.drop_of_length_le (Nat.le_succ_of_le hn), List.take_of_length_le (Nat.le_succ_of_le hn)]

theorem stream_take_succ (hn : n < pages.length) :
    stream (pages.take (n + 1)) =
      stream (pages.take n) ++ (header200 pages[n].2.length ++ pages[n].2) := by
  rw [List.take_succ_eq_append_getElem hn, stream, List.map_append, List.flatten_append]
  simp [stream]

theorem readsOf_drop (hn : n < pages.length) :
    readsOf (pages.drop n) = request pages[n].1 :: readsOf (pages.drop (n + 1)) := by
  rw [List.drop_eq_getElem_cons hn]
  rfl

/-- A read that brings the request for a page is answered with the page, and the process goes
on. -/
theorem step_ask {p : Text × Text} {reads : List Text} {written : Text} (hask : Askable p.1)
    (hserves : Serves d p.1 p.2) (hc : PageCache d s.session.2) (ha : s.alive = true)
    (h : s.connections i = ⟨[], request p.1 :: reads, true, written⟩) :
    (step (siteMode d heaps) after s i).connections i =
        ⟨[], reads, true, written ++ (header200 p.2.length ++ p.2)⟩ ∧
      (step (siteMode d heaps) after s i).alive = true := by
  obtain ⟨hwrites, hopen, -⟩ :=
    @serve_page d heaps (after i) s.session p.1 p.2 hask hserves hc
  have hne : request p.1 ≠ [] := List.ne_nil_of_length_eq_add_one (length_request p.1)
  rw [step_request ha h hne (Or.inl hask.fits)]
  refine ⟨?_, alive_of_open hopen⟩
  simp only [Function.update_self, List.nil_append]
  rw [← hwrites]
  exact congrArg (fun o => Connection.mk [] _ o _) hopen

/-- A turn of the thread sends the next page. -/
theorem step_page (hasks : Asks d pages) (hc : PageCache d s.session.2) (ha : s.alive = true)
    (h : s.connections i = afterPages pages n) :
    (step (siteMode d heaps) after s i).connections i = afterPages pages (n + 1) ∧
      (step (siteMode d heaps) after s i).alive = true := by
  by_cases hn : pages.length ≤ n
  · obtain ⟨hstep, hafter⟩ := @step_waiting ι _ d heaps after s pages i n h hn
    rw [hstep, hafter]
    exact ⟨h, ha⟩
  have hlt := Nat.lt_of_not_le hn
  obtain ⟨hask, hserves⟩ := hasks _ (List.getElem_mem hlt)
  rw [afterPages, readsOf_drop hlt] at h
  rw [afterPages, stream_take_succ hlt]
  exact step_ask hask hserves hc ha h

theorem run_concat (mode : ℕ → Mode) (done : List ι) (j : ι) :
    run mode after s (done ++ [j]) = step mode after (run mode after s done) j :=
  List.foldl_append

theorem progress_run (hasks : Asks d pages) (schedule : List ι) (h : Progress d pages i 0 s)
    (hlive : (run (siteMode d heaps) after s schedule).alive = true) :
    Progress d pages i (schedule.count i) (run (siteMode d heaps) after s schedule) := by
  induction schedule using List.reverseRecOn with
  | nil => exact h
  | append_singleton done j ih =>
    rw [run_concat] at hlive ⊢
    have hbefore := alive_before hlive
    have hprogress := ih hbefore
    refine ⟨step_keeps hprogress.cache j, ?_⟩
    by_cases hj : j = i
    · subst hj
      rw [List.count_append, List.count_singleton_self]
      exact (step_page hasks hprogress.cache hbefore hprogress.connection).1
    · have hcount : (done ++ [j]).count i = done.count i := by simp [List.count_append, hj]
      rw [hcount]
      exact (step_other hj _).trans hprogress.connection

/-- The browser finds its pages in the stream. -/
theorem readMessages_stream (pages : List (Text × Text)) :
    readMessages pages.length (stream pages) = some (pages.map Prod.snd, []) := by
  have hdeclares : ∀ m ∈ pages.map (fun p => header200 p.2.length ++ p.2), Declares m := by
    intro m hm
    obtain ⟨p, -, rfl⟩ := List.mem_map.mp hm
    exact HttpResponses.declares_200 rfl
  have hread := readMessages_flatten hdeclares
  rw [List.length_map, List.map_map] at hread
  rw [stream, hread]
  simp only [Function.comp_def, body_200]

end Browsers

/-- One connection asks for the page twice, the other sends no request. -/
def twoConnections : Server Bool :=
  ⟨(0, emptyCache), true, fun i =>
    if i then ⟨[], readsOf [(['/'], ['o', 'k']), ('/' :: indexHtml, ['o', 'k'])], true, []⟩
    else ⟨[], ["no request".toList], true, []⟩⟩

end HttpBrowsers
