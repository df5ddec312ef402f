import SaWa.ThreadPool

/-! The pool over runs of whole calls: connections that arrive and threads that are released.
The history of a run says what the two lists have to be. -/
namespace ThreadPoolLists

open PointerChain ThreadPool Pool

inductive Event where
  | created (a : Addr)
  | reused (a : Addr)
  | released (a : Addr)
  deriving DecidableEq, Repr

/-! Histories list the newest event first. -/

def createdIn : List Event → List Addr
  | [] => []
  | .created a :: h => a :: createdIn h
  | .reused _ :: h => createdIn h
  | .released _ :: h => createdIn h

/-- The threads released and not reused since, the most recently released one first. -/
def idleSince : List Event → List Addr
  | [] => []
  | .created _ :: h => idleSince h
  | .reused a :: h => (idleSince h).filter (· ≠ a)
  | .released a :: h => a :: idleSince h

/-- The thread got a connection and has not been released since. -/
def InUse : List Event → Addr → Prop
  | [], _ => False
  | .created b :: h, a => a = b ∨ InUse h a
  | .reused b :: h, a => a = b ∨ InUse h a
  | .released b :: h, a => a ≠ b ∧ InUse h a

/-- What `handleNewConnection` does: it reuses a thread, or makes one of the object at `a`. -/
def connectEvent (p : Pool) (sock : ℤ) (a : Addr) : Event :=
  match (p.reuseThread sock).1 with
  | some b => .reused b
  | none => .created a

/-- Runs from the empty pool. `new` never returns an object that is still allocated. -/
inductive Run : List Event → Pool → Prop where
  | init (heap : Addr → ConnectionThread) : Run [] (init heap)
  | connect {h p} (sock : ℤ) (a : Addr) (created : ℤ) (r : Run h p) (hnew : a ∉ createdIn h) :
      Run (connectEvent p sock a :: h) (p.handleNewConnection sock a created)
  | release {h p} (a : Addr) (r : Run h p) (huse : InUse h a) :
      Run (.released a :: h) (p.releaseThread a)

structure Invariant (h : List Event) (p : Pool) : Prop where
  lists : Lists (idleSince h) (createdIn h) p
  in_use : ∀ a, InUse h a → a ∈ createdIn h ∧ a ∉ idleSince h

section Reuse
variable {p : Pool} {idle all : List Addr} {a : Addr}

theorem reuseThread_empty (hl : Lists [] all p) (sock : ℤ) : p.reuseThread sock = (none, p) := by
  rw [reuseThread, if_pos (hl.idle_eq_nil.mpr rfl)]

theorem reuseThread_head (hl : Lists (a :: idle) all p) (sock : ℤ) :
    ∃ p', p.reuseThread sock = (some a, p') ∧ Lists idle all p' := by
  obtain ⟨p', hpop, hl', -⟩ := hl.popIdle
  have hne : p.idleThreads ≠ none := by
    intro hnone
    exact List.cons_ne_nil a idle (hl.idle_eq_nil.mp hnone)
  refine ⟨p'.assign a sock, ?_, hl'.assign⟩
  rw [reuseThread, if_neg hne, hpop]

theorem lists_newThread (hl : Lists idle all p) (ha : a ∉ all) (sock created : ℤ) :
    Lists idle (a :: all) (p.newThread a sock created).2 := by
  unfold newThread
  split_ifs <;> exact hl.linkNew ha

end Reuse

theorem invariant_init (heap : Addr → ConnectionThread) : Invariant [] (init heap) :=
  ⟨lists_init heap, fun _ h => h.elim⟩

theorem invariant_connect {h : List Event} {p : Pool} {a : Addr} (sock created : ℤ)
    (hi : Invariant h p) (hnew : a ∉ createdIn h) :
    Invariant (connectEvent p sock a :: h) (p.handleNewConnection sock a created) := by
  rcases hi with ⟨hl, hu⟩
  cases hidle : idleSince h with
  | nil =>
    have hempty := reuseThread_empty (hidle ▸ hl) sock
    unfold connectEvent handleNewConnection
    rw [hempty]
    constructor
    · exact lists_newThread hl hnew sock created
    · rintro b (rfl | hb)
      · exact ⟨List.mem_cons_self, by simp [idleSince, hidle]⟩
      · exact ⟨List.mem_cons_of_mem a (hu b hb).1, (hu b hb).2⟩
  | cons c rest =>
    have hl' : Lists (c :: rest) (createdIn h) p := hidle ▸ hl
    obtain ⟨p', hreuse, hlists⟩ := reuseThread_head hl' sock
    have hnd := List.nodup_cons.mp hl'.idle_chain.nodup
    have hrest : idleSince (.reused c :: h) = rest := by
      rw [idleSince, hidle, List.filter_cons_of_neg (by simp)]
      apply List.filter_eq_self.mpr
      intro b hb
      apply decide_eq_true
      rintro rfl
      exact hnd.1 hb
    unfold connectEvent handleNewConnection
    rw [hreuse]
    constructor
    · rw [hrest]
      exact hlists
    · rw [hrest]
      rintro b (rfl | hb)
      · exact ⟨hl'.idle_sub b List.mem_cons_self, hnd.1⟩
      · have hbu := hu b hb
        rw [hidle] at hbu
        exact ⟨hbu.1, fun hm => hbu.2 (List.mem_cons_of_mem c hm)⟩

theorem invariant_release {h : List Event} {p : Pool} {a : Addr} (hi : Invariant h p)
    (huse : InUse h a) : Invariant (.released a :: h) (p.releaseThread a) := by
  rcases hi with ⟨hl, hu⟩
  constructor
  · exact hl.clearSock.pushIdle (hu a huse).1 (hu a huse).2
  · rintro b ⟨hne, hb⟩
    refine ⟨(hu b hb).1, ?_⟩
    intro hm
    rcases List.mem_cons.mp hm with rfl | hm
    · exact hne rfl
    · exact (hu b hb).2 hm

theorem run_invariant {h : List Event} {p : Pool} (r : Run h p) : Invariant h p := by
  induction r with
  | init heap => exact invariant_init heap
  | connect sock a created _ hnew ih => exact invariant_connect sock created ih hnew
  | release a _ huse ih => exact invariant_release ih huse

/-- A connection gets a new thread when none is idle, and else the first idle one. -/
theorem connect_cases {h : List Event} {p : Pool} (hi : Invariant h p) (sock : ℤ) (a : Addr)
    (created : ℤ) :
    (idleSince h = [] ∧ connectEvent p sock a = .created a ∧
      (p.handleNewConnection sock a created).heap = (p.linkNew a sock).heap) ∨
    ∃ b rest, idleSince h = b :: rest ∧ connectEvent p sock a = .reused b ∧
      (p.handleNewConnection sock a created).heap = (p.assign b sock).heap := by
  unfold connectEvent handleNewConnection
  cases hidle : idleSince h with
  | nil =>
    rw [reuseThread_empty (hidle ▸ hi.lists) sock]
    refine Or.inl ⟨rfl, rfl, ?_⟩
    simp only [newThread]
    split_ifs <;> rfl
  | cons b rest =>
    have hl : Lists (b :: rest) (createdIn h) p := hidle ▸ hi.lists
    have hb : p.idleThreads = some b := hl.idleThreads_eq
    refine Or.inr ⟨b, rest, rfl, ?_⟩
    simp [reuseThread, popIdle, hb, assign, Pool.modify]

/-- Both lists are finite and without duplicates and hold what the history says, the threads
are numbered from `thread_nb` - 1 down to 0, and the thread that would be reused next is the most
recently released one, which is not in use. -/
structure ListsExact (h : List Event) (p : Pool) : Prop where
  idle_chain : Chain p.next p.idleThreads (idleSince h)
  idle_nodup : (idleSince h).Nodup
  all_chain : Chain p.nextAll p.allThreads (createdIn h)
  all_nodup : (createdIn h).Nodup
  nbs : (createdIn h).map (fun a => (p.heap a).nb) = (List.range p.threadNb).reverse
  reuse : ∀ sock, (p.reuseThread sock).1 = (idleSince h).head?
  reuse_unused : ∀ sock a, (p.reuseThread sock).1 = some a → ¬ InUse h a

theorem pool_lists_exact {h : List Event} {p : Pool} (r : Run h p) : ListsExact h p := by
  rcases run_invariant r with ⟨hl, hu⟩
  have hreuse : ∀ sock, (p.reuseThread sock).1 = (idleSince h).head? := by
    intro sock
    cases hidle : idleSince h with
    | nil =>
      rw [reuseThread_empty (hidle ▸ hl) sock]
      rfl
    | cons c rest =>
      obtain ⟨p', hp', -⟩ := reuseThread_head (hidle ▸ hl) sock
      rw [hp']
      rfl
  constructor
  · exact hl.idle_chain
  · exact hl.idle_chain.nodup
  · exact hl.all_chain
  · exact hl.all_chain.nodup
  · exact hl.nbs
  · exact hreuse
  · intro sock a ha huse
    rw [hreuse sock] at ha
    exact (hu a huse).2 (List.mem_of_mem_head? ha)

/-- A heap whose objects hold left-over pointers. -/
def staleHeap : Addr → ConnectionThread := fun a => ⟨9, 9, 9, fun _ => 9, some a, some a⟩

/-- Two threads made and released, the second one first. -/
def twoReleased : Pool :=
  ((((init staleHeap).handleNewConnection 5 0 0).handleNewConnection 6 1 0).releaseThread
    1).releaseThread 0

theorem lists_exact_after_reuse :
    ListsExact [.reused 0, .released 0, .released 1, .created 1, .created 0]
        (twoReleased.handleNewConnection 7 2 0) ∧
      idleSince [.reused 0, .released 0, .released 1, .created 1, .created 0] = [1] := by
  have h2 : Run [.created 1, .created 0]
      (((init staleHeap).handleNewConnection 5 0 0).handleNewConnection 6 1 0) :=
    .connect 6 1 0 (.connect 5 0 0 (.init staleHeap) (by decide)) (by decide)
  have h4 : Run [.released 0, .released 1, .created 1, .created 0] twoReleased :=
    .release 0 (.release 1 h2 (by simp [InUse])) (by simp [InUse])
  exact ⟨pool_lists_exact (.connect 7 2 0 h4 (by decide)), by decide⟩

end ThreadPoolLists
