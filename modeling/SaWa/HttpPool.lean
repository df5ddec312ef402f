import SaWa.HttpBrowsers
import SaWa.PooledServer

/-! The HTTP server on the thread pool: the workers run `readData` on whatever connection they are
given, over the page cache that they share. -/
namespace HttpPool

open EffectProgram InterleavedPrograms ThreadPool ThreadPoolHandoff PooledServer
open HttpServer HttpReadData HttpSessions ContentFraming HttpPageCache HttpBrowsers

/-- A call is one round of the loop in `readData`, and answers whether the loop goes on. -/
abbrev HttpM := Prog Unit fun _ => Bool

def readDataRound : Unit → HttpM (Unit ⊕ Unit) := fun _ => do
  if ← perform () then return .inl () else return .inr ()

/-- `HTTPServer::readData`, cut after the given number of rounds. -/
def readData (rounds : ℕ) : HttpM (Option Unit) := loop readDataRound rounds ()

/-- A connection, and what is behind its requests in memory. -/
abbrev Here := (List Text → Text) × Connection

/-- What the threads share. -/
structure Process where
  session : Session
  alive : Bool

section Handler
variable (mode : ℕ → Mode)

/-- The round, on the connection by itself. -/
def round (p : Process) (h : Here) : Process × Connection :=
  let s := step mode (fun _ : Unit => h.1) ⟨p.session, p.alive, fun _ => h.2⟩ ()
  (⟨s.session, s.alive⟩, s.connections ())

/-- The loop is over when the connection is closed, and no loop goes on in a process that has died.
Nothing is claimed of the steps that are left to a pool then. -/
def handler : Handler Unit (fun _ => Bool) (Process × Here) := fun _ (p, h) =>
  let r := round mode p h
  (r.1.alive && r.2.isOpen, r.1, h.1, r.2)

end Handler

abbrev HttpThreads := Threads ℕ Unit (fun _ => Bool) (Option Unit) Process Here

/-- A connection on which `n` of the pages have been asked for, and which the browser closes when it
has them all. -/
def browserAt (pages : List (Text × Text)) (n : ℕ) : Connection :=
  ⟨[], readsOf (pages.drop n) ++ [[]], true, stream (pages.take n)⟩

section Threads
variable {d : Disk} {heaps : ℕ → Heap} {rounds : ℕ} {pages : List (Text × Text)} {c i : ℕ}
  {t : HttpThreads}

theorem readData_succ (n : ℕ) : readData (n + 1) =
    .call () fun isOpen => if isOpen then readData n else .ret (some ()) := by
  show Prog.call () _ = _
  refine congrArg (Prog.call ()) (funext fun isOpen => ?_)
  cases isOpen <;> rfl

/-- The thread has sent so many pages and waits for a request, or has sent them all and returned. -/
def Serving (rounds : ℕ) (pages : List (Text × Text)) (c : ℕ) (t : HttpThreads) : Prop :=
  (∃ n ≤ pages.length, (t.here c).2 = browserAt pages n ∧ t.rest c = readData (rounds - n)) ∨
    ((t.here c).2.written = stream pages ∧ t.rest c = .ret (some ()))

/-- As long as the process lives, the cache has pages and the thread serves its browser. -/
def Served (d : Disk) (rounds : ℕ) (pages : List (Text × Text)) (c : ℕ) (t : HttpThreads) : Prop :=
  t.shared.alive = true → PageCache d t.shared.session.2 ∧ Serving rounds pages c t

section Round
variable {p : Process} {h : Here} {n : ℕ}

theorem round_cache (hc : PageCache d p.session.2) (h : Here) :
    PageCache d (round (siteMode d heaps) p h).1.session.2 :=
  step_keeps hc ()

theorem round_alive {mode : ℕ → Mode} (ha : (round mode p h).1.alive = true) : p.alive = true :=
  @alive_before Unit _ mode (fun _ => h.1) () ⟨p.session, p.alive, fun _ => h.2⟩ ha

/-- The round in which a page is asked for. -/
theorem round_page (hasks : Asks d pages) (hc : PageCache d p.session.2) (ha : p.alive = true)
    (hn : n < pages.length) (hh : h.2 = browserAt pages n) :
    (round (siteMode d heaps) p h).2 = browserAt pages (n + 1) ∧
      (round (siteMode d heaps) p h).1.alive = true := by
  obtain ⟨hask, hserves⟩ := hasks _ (List.getElem_mem hn)
  rw [browserAt, readsOf_drop hn] at hh
  rw [browserAt, stream_take_succ hn]
  exact @step_ask Unit _ d heaps (fun _ => h.1) ⟨p.session, p.alive, fun _ => h.2⟩ () pages[n]
    _ _ hask hserves hc ha hh

/-- The round in which the browser closes the connection. -/
theorem round_close (ha : p.alive = true) (hh : h.2 = browserAt pages pages.length)
    (mode : ℕ → Mode) : round mode p h = (⟨p.session, true⟩, ⟨[], [], false, stream pages⟩) := by
  rw [browserAt, List.drop_length, List.take_length] at hh
  have hend := @step_end Unit _ mode (fun _ => h.1) () ⟨p.session, p.alive, fun _ => h.2⟩ [] []
    (stream pages) ha hh
  rw [round, hend]
  rfl

end Round

/-- A call of a thread is a round on its connection. -/
theorem step_readData {mode : ℕ → Mode} {k : ℕ} {x : Connection}
    (hrest : t.rest i = readData (k + 1)) (hround : (round mode t.shared (t.here i)).2 = x)
    (hlive : (round mode t.shared (t.here i)).1.alive = true) :
    ((t.step (handler mode) i).here i).2 = x ∧
      (t.step (handler mode) i).rest i = if x.isOpen then readData k else .ret (some ()) := by
  subst hround
  rw [readData_succ] at hrest
  simp only [Threads.step, hrest, Function.update_self]
  refine ⟨rfl, ?_⟩
  simp only [handler, hlive, Bool.true_and]

theorem threads_cache (hc : PageCache d t.shared.session.2) (i : ℕ) :
    PageCache d (t.step (handler (siteMode d heaps)) i).shared.session.2 := by
  unfold Threads.step
  cases t.rest i with
  | ret => exact hc
  | call e k => exact round_cache hc (t.here i)

theorem threads_alive {mode : ℕ → Mode} (i : ℕ)
    (ha : (t.step (handler mode) i).shared.alive = true) : t.shared.alive = true := by
  unfold Threads.step at ha
  cases hrest : t.rest i with
  | ret v =>
    rw [hrest] at ha
    exact ha
  | call e k =>
    rw [hrest] at ha
    exact round_alive ha

theorem serving_step (hasks : Asks d pages) (hrounds : pages.length < rounds)
    (hc : PageCache d t.shared.session.2) (hlive : t.shared.alive = true)
    (h : Serving rounds pages c t) (i : ℕ) :
    Serving rounds pages c (t.step (handler (siteMode d heaps)) i) := by
  by_cases hi : i = c
  · subst hi
    rcases h with ⟨n, hn, hhere, hrest⟩ | ⟨hwritten, hrest⟩
    · obtain ⟨k, hk⟩ : ∃ k, rounds - n = k + 1 := ⟨rounds - n - 1, by omega⟩
      rw [hk] at hrest
      by_cases hlt : n < pages.length
      · obtain ⟨hpage, hgoes⟩ := @round_page d heaps pages t.shared (t.here i) n hasks hc hlive hlt
          hhere
        obtain ⟨hhere', hrest'⟩ := step_readData hrest hpage hgoes
        have hleft : rounds - (n + 1) = k := by omega
        exact Or.inl ⟨n + 1, hlt, hhere', hleft ▸ hrest'⟩
      · obtain rfl : n = pages.length := by omega
        have hclose := @round_close pages t.shared (t.here i) hlive hhere (siteMode d heaps)
        obtain ⟨hhere', hrest'⟩ := step_readData hrest (congrArg Prod.snd hclose)
          (congrArg (fun x : Process × Connection => x.1.alive) hclose)
        exact Or.inr ⟨congrArg Connection.written hhere', hrest'⟩
    · simp only [Threads.step, hrest]
      exact Or.inr ⟨hwritten, hrest⟩
  · have hother : (t.step (handler (siteMode d heaps)) i).here c = t.here c ∧
        (t.step (handler (siteMode d heaps)) i).rest c = t.rest c := by
      unfold Threads.step
      cases t.rest i with
      | ret => exact ⟨rfl, rfl⟩
      | call e k =>
        exact ⟨Function.update_of_ne (Ne.symm hi) _ _, Function.update_of_ne (Ne.symm hi) _ _⟩
    unfold Serving
    rw [hother.1, hother.2]
    exact h

theorem served_step (hasks : Asks d pages) (hrounds : pages.length < rounds)
    (h : Served d rounds pages c t) (i : ℕ) :
    Served d rounds pages c (t.step (handler (siteMode d heaps)) i) := by
  intro ha
  have hlive := threads_alive i ha
  obtain ⟨hc, hserving⟩ := h hlive
  exact ⟨threads_cache hc i, serving_step hasks hrounds hc hlive hserving i⟩

theorem served_runs (hasks : Asks d pages) (hrounds : pages.length < rounds)
    (h : Served d rounds pages c t) (order : List ℕ) :
    Served d rounds pages c (t.runs (handler (siteMode d heaps)) order) := by
  induction order generalizing t with
  | nil => exact h
  | cons i order ih => exact ih (served_step hasks hrounds h i)

end Threads

/-! ### Nothing but browsers -/

section Browsers
variable {d : Disk} {heaps : ℕ → Heap} {rounds : ℕ} {pages : ℕ → List (Text × Text)}
  {t : HttpThreads}

/-- The process lives, and every thread serves a browser. -/
structure AllServing (d : Disk) (rounds : ℕ) (pages : ℕ → List (Text × Text)) (t : HttpThreads) :
    Prop where
  alive : t.shared.alive = true
  cache : PageCache d t.shared.session.2
  serving : ∀ c, Serving rounds (pages c) c t

theorem alive_step (hasks : ∀ c, Asks d (pages c)) (hrounds : ∀ c, (pages c).length < rounds)
    (h : AllServing d rounds pages t) (i : ℕ) :
    (t.step (handler (siteMode d heaps)) i).shared.alive = true := by
  rcases h.serving i with ⟨n, hn, hhere, hrest⟩ | ⟨-, hrest⟩
  · obtain ⟨k, hk⟩ : ∃ k, rounds - n = k + 1 := ⟨rounds - n - 1, by have := hrounds i; omega⟩
    have hstep : (t.step (handler (siteMode d heaps)) i).shared =
        (round (siteMode d heaps) t.shared (t.here i)).1 := by
      rw [hk, readData_succ] at hrest
      simp only [Threads.step, hrest]
      rfl
    rw [hstep]
    by_cases hlt : n < (pages i).length
    · exact (round_page (hasks i) h.cache h.alive hlt hhere).2
    · obtain rfl : n = (pages i).length := by omega
      exact congrArg (fun x : Process × Connection => x.1.alive)
        (round_close h.alive hhere (siteMode d heaps))
  · simp only [Threads.step, hrest]
    exact h.alive

theorem allServing_runs (hasks : ∀ c, Asks d (pages c)) (hrounds : ∀ c, (pages c).length < rounds)
    (h : AllServing d rounds pages t) (order : List ℕ) :
    AllServing d rounds pages (t.runs (handler (siteMode d heaps)) order) := by
  induction order generalizing t with
  | nil => exact h
  | cons i order ih =>
    apply ih
    exact ⟨alive_step hasks hrounds h i, threads_cache h.cache i,
      fun c => serving_step (hasks c) (hrounds c) h.cache h.alive (h.serving c) i⟩

end Browsers

section Workers
variable {d : Disk} {heaps : ℕ → Heap} {rounds n : ℕ} {pages : List (Text × Text)} {c : ℕ}
  {a : Addr} {sock : ℤ} {s u : Pooled Unit (fun _ => Bool) (Option Unit) Process Here}

/-- A worker makes a call, and is left with what follows it. -/
theorem worker_calls {mode : ℕ → Mode} {k : ℕ} {x : Connection}
    (hr : Runs (handler mode) (readData rounds) s u) (hpc : u.pool.worker a = .serving sock)
    (hconn : u.pool.descriptor sock = some c) (hrest : u.rest a = readData (k + 1))
    (hround : (round mode u.shared (u.here c)).2 = x)
    (hlive : (round mode u.shared (u.here c)).1.alive = true) :
    ∃ v, Runs (handler mode) (readData rounds) s v ∧ v.pool = u.pool ∧
      v.shared = (round mode u.shared (u.here c)).1 ∧ (v.here c).2 = x ∧
      v.rest a = if x.isOpen then readData k else .ret (some ()) := by
  subst hround
  rw [readData_succ] at hrest
  refine ⟨_, hr.step (.call u a sock c () _ hpc hconn hrest), rfl, rfl, ?_, ?_⟩
  · simp only [Function.update_self]
    rfl
  · simp only [Function.update_self, handler, hlive, Bool.true_and]

/-- A worker that goes on with a browser comes to the end of `readData`. -/
theorem worker_returns (hasks : Asks d pages) (hrounds : pages.length < rounds)
    {m : ℕ} (hn : n + m = pages.length)
    (hr : Runs (handler (siteMode d heaps)) (readData rounds) s u)
    (hpc : u.pool.worker a = .serving sock) (hconn : u.pool.descriptor sock = some c)
    (hc : PageCache d u.shared.session.2) (hlive : u.shared.alive = true)
    (hhere : (u.here c).2 = browserAt pages n) (hrest : u.rest a = readData (rounds - n)) :
    ∃ v, Runs (handler (siteMode d heaps)) (readData rounds) s v ∧ v.pool = u.pool ∧
      v.rest a = .ret (some ()) ∧ v.shared.alive = true := by
  induction m generalizing n u with
  | zero =>
    obtain rfl : n = pages.length := hn
    obtain ⟨k, hk⟩ : ∃ k, rounds - pages.length = k + 1 := ⟨rounds - pages.length - 1, by omega⟩
    have hclose := @round_close pages u.shared (u.here c) hlive hhere (siteMode d heaps)
    have hgoes := congrArg (fun x : Process × Connection => x.1.alive) hclose
    obtain ⟨v, hv, hpool, hshared, -, hret⟩ := worker_calls hr hpc hconn (hk ▸ hrest)
      (congrArg Prod.snd hclose) hgoes
    exact ⟨v, hv, hpool, hret, hshared ▸ hgoes⟩
  | succ m ih =>
    obtain ⟨k, hk⟩ : ∃ k, rounds - n = k + 1 := ⟨rounds - n - 1, by omega⟩
    have hleft : rounds - (n + 1) = k := by omega
    obtain ⟨hpage, hgoes⟩ :=
      @round_page d heaps pages u.shared (u.here c) n hasks hc hlive (by omega) hhere
    obtain ⟨v, hv, hpool, hshared, hhere', hrest'⟩ :=
      worker_calls hr hpc hconn (hk ▸ hrest) hpage hgoes
    have hcache : PageCache d v.shared.session.2 := hshared ▸ round_cache hc (u.here c)
    obtain ⟨w, hw, hpool', hend⟩ := ih (by omega) hv (hpool ▸ hpc) (hpool ▸ hconn) hcache
      (hshared ▸ hgoes) hhere' (hleft ▸ hrest')
    exact ⟨w, hw, hpool'.trans hpool, hend⟩

end Workers

section Pages
variable {d : Disk} {heaps : ℕ → Heap} {rounds : ℕ} {pages : List (Text × Text)} {c : ℕ}
  {heap : Addr → ConnectionThread} {p : Process} {here : ℕ → Here}
  {s : Pooled Unit (fun _ => Bool) (Option Unit) Process Here} {t : HttpThreads}

/-- In a run of the pool the thread of the browser goes on page by page. -/
theorem serving_pooled (hasks : Asks d pages) (hrounds : pages.length < rounds)
    (hc : PageCache d p.session.2) (hbrowser : (here c).2 = browserAt pages 0)
    (hr : Runs (handler (siteMode d heaps)) (readData rounds)
      (opened heap p here (readData rounds)) s) (hlive : s.shared.alive = true) :
    ∃ t, Agree (readData rounds) s t ∧ Serving rounds pages c t := by
  obtain ⟨order, ha⟩ := agree_run (Reachable.init heap) (agree_opened heap p here) hr
  have hstart : Served d rounds pages c (threads p here (readData rounds)) :=
    fun _ => ⟨hc, Or.inl ⟨0, Nat.zero_le _, hbrowser, rfl⟩⟩
  have hserved := @served_runs d heaps rounds pages c _ hasks hrounds hstart order
  exact ⟨_, ha, (hserved (ha.shared ▸ hlive)).2⟩

/-- Where every client is a browser, the process lives. -/
theorem browsers_alive {pages : ℕ → List (Text × Text)} (hasks : ∀ c, Asks d (pages c))
    (hrounds : ∀ c, (pages c).length < rounds) (hc : PageCache d p.session.2)
    (hstart : p.alive = true) (hbrowsers : ∀ c, (here c).2 = browserAt (pages c) 0)
    (hr : Runs (handler (siteMode d heaps)) (readData rounds)
      (opened heap p here (readData rounds)) s) : s.shared.alive = true := by
  obtain ⟨order, ha⟩ := agree_run (Reachable.init heap) (agree_opened heap p here) hr
  have hall : AllServing d rounds pages (threads p here (readData rounds)) :=
    ⟨hstart, hc, fun c => Or.inl ⟨0, Nat.zero_le _, hbrowsers c, rfl⟩⟩
  have halive := (@allServing_runs d heaps rounds pages _ hasks hrounds hall order).alive
  exact (congrArg Process.alive ha.shared).symm.trans halive

/-- A thread that still waits for a request has not returned, so one that has has sent it all. -/
theorem pages_finished (hrounds : pages.length < rounds) (ha : Agree (readData rounds) s t)
    (hserving : Serving rounds pages c t) (hfinished : c ∈ s.pool.finished) :
    readMessages pages.length (s.here c).2.written = some (pages.map Prod.snd, []) := by
  rw [← ha.here]
  rcases hserving with ⟨n, hn, -, hrest⟩ | ⟨hwritten, -⟩
  · obtain ⟨v, hv⟩ := ha.returned c hfinished
    obtain ⟨k, hk⟩ : ∃ k, rounds - n = k + 1 := ⟨rounds - n - 1, by omega⟩
    rw [hrest, hk, readData_succ] at hv
    cases hv
  · rw [hwritten]
    exact readMessages_stream pages

end Pages

/-- Each connection asks for the only page twice, and is then closed. -/
def twoPages : List (Text × Text) := [(['/'], ['o', 'k']), ('/' :: indexHtml, ['o', 'k'])]

def twoPagesAsked : ℕ → Here := fun _ =>
  (fun _ => [], ⟨[], readsOf twoPages ++ [[]], true, []⟩)

def newProcess : Process := ⟨(0, emptyCache), true⟩

end HttpPool
