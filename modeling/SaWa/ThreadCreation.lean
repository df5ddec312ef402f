import SaWa.ThreadCounters

/-! A `pthread_create` that fails. `newThread` has put its object in the pool before the call and
does not take it out again, and a test for a negative result never sees a POSIX error number. -/
namespace ThreadCreation

open LittleEndian PointerChain ThreadPool Pool ThreadPoolLists ThreadStatistics
open ThreadCounters (statAt_buffer)

/-- `thread_nb`, the list of all threads and the idle list are what they were. -/
structure LeavesPool (p q : Pool) : Prop where
  thread_nb : q.threadNb = p.threadNb
  all : ∀ l, Chain p.nextAll p.allThreads l ↔ Chain q.nextAll q.allThreads l
  idle : ∀ l, Chain p.next p.idleThreads l ↔ Chain q.next q.idleThreads l

def CountedActive (a : Addr) (q : Pool) : Prop :=
  (q.heap a).nb < q.threadNb ∧ ∀ fuel, q.threadNb < fuel →
    ∃ buf, getThreadStatistics fuel q = some buf ∧
      (statAt buf (4 + sizeofThreadStat * (q.heap a).nb)).active = 1

/-- What may come after a state when no thread runs for the object at `a`: connections arrive
and other threads are released. -/
inductive Later (a : Addr) (h : List Event) (p : Pool) : List Event → Pool → Prop where
  | refl : Later a h p h p
  | connect {h' q} (sock : ℤ) (b : Addr) (created : ℤ) (hq : Later a h p h' q)
      (hnew : b ∉ createdIn h') :
      Later a h p (connectEvent q sock b :: h') (q.handleNewConnection sock b created)
  | release {h' q} (b : Addr) (hq : Later a h p h' q) (huse : InUse h' b) (hba : b ≠ a) :
      Later a h p (.released b :: h') (q.releaseThread b)

section Kept
variable {h h' : List Event} {p q : Pool} {a : Addr}

theorem inUse_connect (hi : Invariant h p) (sock : ℤ) (b : Addr) (huse : InUse h a) :
    InUse (connectEvent p sock b :: h) a := by
  rcases connect_cases hi sock b 0 with ⟨-, he, -⟩ | ⟨c, rest, -, he, -⟩
  · rw [he]
    exact Or.inr huse
  · rw [he]
    exact Or.inr huse

/-- Only idle threads and new ones are given a socket. -/
theorem sock_connect (hi : Invariant h p) (sock : ℤ) {b : Addr} (created : ℤ) (huse : InUse h a)
    (hnew : b ∉ createdIn h) : (p.handleNewConnection sock b created).sock a = p.sock a := by
  obtain ⟨hall, hidle⟩ := hi.in_use a huse
  rcases connect_cases hi sock b created with ⟨-, -, hheap⟩ | ⟨c, rest, hcons, -, hheap⟩
  · have hab : a ≠ b := by
      rintro rfl
      exact hnew hall
    rw [Pool.sock, hheap]
    exact (sock_linkNew p b a sock).trans (if_neg hab)
  · have hac : a ≠ c := by
      rintro rfl
      exact hidle (hcons ▸ List.mem_cons_self)
    rw [Pool.sock, hheap]
    exact (sock_assign p c a sock).trans (if_neg hac)

theorem later_kept (hl : Later a h p h' q) (hi : Invariant h p) (huse : InUse h a) :
    Invariant h' q ∧ InUse h' a ∧ q.sock a = p.sock a := by
  induction hl with
  | refl => exact ⟨hi, huse, rfl⟩
  | connect sock b created _ hnew ih =>
    obtain ⟨hinv, hin, hsock⟩ := ih
    refine ⟨invariant_connect sock created hinv hnew, inUse_connect hinv sock b hin, ?_⟩
    rw [sock_connect hinv sock created hin hnew, hsock]
  | release b _ hb hba ih =>
    obtain ⟨hinv, hin, hsock⟩ := ih
    refine ⟨invariant_release hinv hb, ⟨hba.symm, hin⟩, ?_⟩
    rw [releaseThread, sock_pushIdle, sock_clearSock, if_neg hba.symm, hsock]

theorem counted_active (hi : Invariant h p) (huse : InUse h a) (hsock : 0 ≤ p.sock a) :
    CountedActive a p := by
  have hall := (hi.in_use a huse).1
  constructor
  · have hmem : (p.heap a).nb ∈ (createdIn h).map fun b => (p.heap b).nb :=
      List.mem_map_of_mem hall
    rw [hi.lists.nbs, List.mem_reverse, List.mem_range] at hmem
    exact hmem
  · intro fuel hf
    have hlen : (createdIn h).length < fuel := (length_all hi.lists).symm ▸ hf
    obtain ⟨buf, hbuf, -⟩ := getThreadStatistics_eq hi.lists hlen
    refine ⟨buf, hbuf, ?_⟩
    rw [statAt_buffer hi.lists hlen hbuf hall]
    exact if_pos hsock

end Kept

/-- Whatever positive number `pthread_create` returns, the call goes on as if it had succeeded:
there is one thread more and the new object heads the list of all threads. When the call came
from `handleNewConnection`, the object is counted as active in all that follows. -/
theorem failed_create_changes_pool {h : List Event} {p : Pool} (r : Run h p) {a : Addr}
    (hnew : a ∉ createdIn h) (sock : ℤ) {created : ℤ} (hfail : 0 < created) :
    (p.newThread a sock created).1 = some a ∧
      ¬ LeavesPool p (p.newThread a sock created).2 ∧
      (p.newThread a sock created).2.threadNb = p.threadNb + 1 ∧
      Lists (idleSince h) (a :: createdIn h) (p.newThread a sock created).2 ∧
      (idleSince h = [] → 0 ≤ sock → ∀ h' q,
        Later a (.created a :: h) (p.handleNewConnection sock a created) h' q →
          CountedActive a q) := by
  have hi := run_invariant r
  have hnot : ¬ created < 0 := not_lt.mpr hfail.le
  have hpool : p.newThread a sock created = (some a, p.linkNew a sock) := if_neg hnot
  rw [hpool]
  refine ⟨rfl, ?_, rfl, hi.lists.linkNew hnew, ?_⟩
  · intro hsame
    have hnb : p.threadNb + 1 = p.threadNb := hsame.thread_nb
    omega
  · intro hidle hsock h' q hlater
    have hev : connectEvent p sock a = .created a ∧
        (p.handleNewConnection sock a created).heap = (p.linkNew a sock).heap := by
      rcases connect_cases hi sock a created with ⟨-, hcase⟩ | ⟨c, rest, hcons, -⟩
      · exact hcase
      · exact absurd (hidle.symm.trans hcons) (by simp)
    have hinv := invariant_connect sock created hi hnew
    rw [hev.1] at hinv
    obtain ⟨hq, huse, hkept⟩ := later_kept hlater hinv (Or.inl rfl)
    apply counted_active hq huse
    have hself : (p.handleNewConnection sock a created).sock a = sock := by
      rw [Pool.sock, hev.2]
      exact (sock_linkNew p a a sock).trans (if_pos rfl)
    rw [hkept, hself]
    exact hsock

theorem eagain_counted_active :
    ((init staleHeap).newThread 0 5 11).1 = some 0 ∧
      CountedActive 0
        (((init staleHeap).handleNewConnection 5 0 11).handleNewConnection 6 1 0) := by
  obtain ⟨hret, -, -, -, hlater⟩ :=
    failed_create_changes_pool (.init staleHeap) (a := 0) (by decide) 5 (by decide : (0 : ℤ) < 11)
  exact ⟨hret, hlater rfl (by decide) _ _ (.connect 6 1 0 .refl (by decide))⟩

theorem eagain_changes_pool : ¬ ∀ h p, Run h p → ∀ a, a ∉ createdIn h → ∀ sock created : ℤ,
    0 < created → LeavesPool p (p.newThread a sock created).2 := by
  intro hall
  have h := hall [] (init staleHeap) (.init staleHeap) 0 (by decide) 5 11 (by decide)
  exact absurd h.thread_nb (by decide)

end ThreadCreation
