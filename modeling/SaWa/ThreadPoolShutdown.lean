import SaWa.ThreadPoolLists
import Mathlib.Data.List.Perm.Subperm

/-! `ThreadPool::~ThreadPool`. It walks the list of all threads, but through `next`, the field
of the idle list: what it meets depends on the order in which threads were released. -/
namespace ThreadPoolShutdown

open PointerChain ThreadPool Pool ThreadPoolLists

/-- What `SIGALRM` does to the process. No code sets it, so it is what the process was started
with: the default action ends the process, and `exec` leaves a signal ignored or blocked. -/
inductive Alarm where
  | default
  | ignored
  deriving DecidableEq, Repr

/-- The threads stopped and deleted, the sockets shut down, `nb_conn`, and whether the process has
been ended. -/
structure Dropped where
  stopped : List Addr
  shut : List ℤ
  nbConn : ℕ
  killed : Bool
  deriving DecidableEq, Repr

def dropThread (p : Pool) (a : Addr) (d : Dropped) : Dropped :=
  let d := { d with stopped := d.stopped ++ [a] }
  if 0 ≤ p.sock a then { d with shut := d.shut ++ [p.sock a], nbConn := d.nbConn + 1 } else d

/-- `none` when the loop is still running after `fuel` rounds. `pthread_kill` sends `SIGALRM` to
the thread, but its default action is taken for the whole process, and at once. -/
def destroyLoop (alarm : Alarm) : ℕ → Pool → Dropped → Option Dropped
  | 0, _, _ => none
  | fuel + 1, p, d =>
    match p.allThreads with
    | none => some d
    | some a =>
      if alarm = .default then some { d with killed := true }
      else destroyLoop alarm fuel { p with allThreads := p.next a } (dropThread p a d)

def destroy (alarm : Alarm) (fuel : ℕ) (p : Pool) : Option Dropped :=
  destroyLoop alarm fuel p ⟨[], [], 0, false⟩

def openSocks (p : Pool) (l : List Addr) : List ℤ := (l.map p.sock).filter (0 ≤ ·)

theorem openSocks_cons (p : Pool) (a : Addr) (l : List Addr) :
    openSocks p (a :: l) = if 0 ≤ p.sock a then p.sock a :: openSocks p l else openSocks p l := by
  by_cases h : 0 ≤ p.sock a <;> simp [openSocks, h]

theorem destroyLoop_chain {l : List Addr} :
    ∀ {fuel : ℕ} {p : Pool} (d : Dropped), Chain p.next p.allThreads l → l.length < fuel →
      destroyLoop .ignored fuel p d = some
        ⟨d.stopped ++ l, d.shut ++ openSocks p l, d.nbConn + (openSocks p l).length, d.killed⟩ := by
  induction l with
  | nil =>
    intro fuel p d hc hf
    obtain ⟨fuel, rfl⟩ := Nat.exists_eq_add_of_lt hf
    simp [destroyLoop, chain_empty.mp hc, openSocks]
  | cons a l ih =>
    intro fuel p d hc hf
    obtain ⟨hhead, htail⟩ := chain_head.mp hc
    cases fuel with
    | zero => simp at hf
    | succ fuel =>
      have hsame : openSocks { p with allThreads := p.next a } l = openSocks p l := rfl
      have hrest := ih (p := { p with allThreads := p.next a }) (dropThread p a d) htail
        (by simpa using hf)
      simp only [destroyLoop, hhead, reduceCtorEq, if_false]
      rw [hrest, hsame, openSocks_cons]
      by_cases hs : 0 ≤ p.sock a
      · simp [dropThread, hs, Nat.add_assoc, Nat.add_comm]
      · simp [dropThread, hs]

/-! ### What lies beneath a thread -/

/-- The pointer `next` as the history sets it: the thread made before, then the top of the idle
list at each release. -/
def beneath : List Event → Addr → Option Addr
  | [], _ => none
  | .created b :: h, a => if a = b then (createdIn h).head? else beneath h a
  | .reused _ :: h, a => beneath h a
  | .released b :: h, a => if a = b then (idleSince h).head? else beneath h a

/-- Every thread's `next` is what the history says, and following it from any thread meets only
threads of the pool and ends. -/
structure NextEnds (h : List Event) (p : Pool) : Prop where
  next_eq : ∀ a ∈ createdIn h, p.next a = beneath h a
  ends : ∀ a ∈ createdIn h, ∃ m, Chain p.next (some a) m ∧ ∀ b ∈ m, b ∈ createdIn h

theorem nextEnds_new {h : List Event} {p p' : Pool} {a : Addr} {sock : ℤ}
    (hl : Lists (idleSince h) (createdIn h) p) (hn : NextEnds h p) (hnew : a ∉ createdIn h)
    (hlink : ∀ b, p'.next b = (p.linkNew a sock).next b) : NextEnds (.created a :: h) p' := by
  have hother : ∀ b ∈ createdIn h, p'.next b = p.next b := by
    intro b hb
    rw [hlink, next_linkNew, if_neg]
    rintro rfl
    exact hnew hb
  have hold : ∀ b ∈ createdIn h, ∃ m, Chain p'.next (some b) m ∧
      ∀ c ∈ m, c ∈ createdIn h := by
    intro b hb
    obtain ⟨m, hm, hsub⟩ := hn.ends b hb
    exact ⟨m, hm.congr fun c hc => hother c (hsub c hc), hsub⟩
  have hnext : p'.next a = (createdIn h).head? := by
    rw [hlink, next_linkNew, if_pos rfl, hl.allThreads_eq]
  constructor
  · intro b hb
    rcases List.mem_cons.mp hb with rfl | hbh
    · simpa [beneath] using hnext
    · have hne : b ≠ a := by
        rintro rfl
        exact hnew hbh
      simp [beneath, hne, hother b hbh, hn.next_eq b hbh]
  · intro b hb
    rcases List.mem_cons.mp hb with rfl | hb
    · cases hall : createdIn h with
      | nil =>
        rw [hall] at hnext
        refine ⟨[b], .cons (hnext ▸ .nil), ?_⟩
        simp [createdIn]
      | cons c rest =>
        rw [hall] at hnext
        obtain ⟨m, hm, hsub⟩ := hold c (hall ▸ List.mem_cons_self)
        have hhead : p'.next b = some c := hnext
        refine ⟨b :: m, .cons (hhead ▸ hm), ?_⟩
        intro x hx
        rcases List.mem_cons.mp hx with rfl | hx
        · exact List.mem_cons_self
        · exact List.mem_cons_of_mem b (hsub x hx)
    · obtain ⟨m, hm, hsub⟩ := hold b hb
      exact ⟨m, hm, fun c hc => List.mem_cons_of_mem a (hsub c hc)⟩

theorem nextEnds_reuse {h : List Event} {p p' : Pool} {a : Addr}
    (hn : NextEnds h p) (hnext : ∀ b, p'.next b = p.next b) : NextEnds (.reused a :: h) p' := by
  constructor
  · intro b hb
    rw [hnext]
    exact hn.next_eq b hb
  · intro b hb
    obtain ⟨m, hm, hsub⟩ := hn.ends b hb
    exact ⟨m, hm.congr fun c _ => hnext c, hsub⟩

theorem nextEnds_connect {h : List Event} {p : Pool} {a : Addr} (sock created : ℤ)
    (hi : Invariant h p) (hn : NextEnds h p) (hnew : a ∉ createdIn h) :
    NextEnds (connectEvent p sock a :: h) (p.handleNewConnection sock a created) := by
  rcases connect_cases hi sock a created with ⟨-, hevent, hheap⟩ | ⟨c, -, -, hevent, hheap⟩
  · rw [hevent]
    apply nextEnds_new hi.lists hn hnew
    intro b
    rw [next, hheap, next]
  · rw [hevent]
    apply nextEnds_reuse hn
    intro b
    rw [← next_assign p c b sock, next, hheap, next]

theorem nextEnds_release {h : List Event} {p : Pool} {a : Addr} (hi : Invariant h p)
    (hn : NextEnds h p) (huse : InUse h a) : NextEnds (.released a :: h) (p.releaseThread a) := by
  obtain ⟨hall, -⟩ := hi.in_use a huse
  have hself : (p.releaseThread a).next a = (idleSince h).head? := by
    rw [releaseThread, next_pushIdle, if_pos rfl]
    exact hi.lists.clearSock.idleThreads_eq
  have hother : ∀ b, b ≠ a → (p.releaseThread a).next b = p.next b := by
    intro b hb
    rw [releaseThread, next_pushIdle, if_neg hb, next_clearSock]
  have hrel := invariant_release hi huse
  have htop : Chain (p.releaseThread a).next (some a) (a :: idleSince h) := hrel.lists.idle_chain
  constructor
  · intro b hb
    by_cases hba : b = a
    · simpa [beneath, hba] using hself
    · simpa [beneath, hba, hother b hba] using hn.next_eq b hb
  · intro b hb
    obtain ⟨m, hm, hsub⟩ := hn.ends b hb
    obtain ⟨m', hm', hsub'⟩ := hm.redirect hother htop
    refine ⟨m', hm', ?_⟩
    intro c hc
    rcases hsub' c hc with hc | hc
    · exact hsub c hc
    · exact hrel.lists.idle_sub c hc

theorem run_nextEnds {h : List Event} {p : Pool} (r : Run h p) : NextEnds h p := by
  induction r with
  | init heap =>
    constructor <;> intro a ha
    · exact absurd ha List.not_mem_nil
    · exact absurd ha List.not_mem_nil
  | connect sock a created r hnew ih =>
    exact nextEnds_connect sock created (run_invariant r) ih hnew
  | release a r huse ih => exact nextEnds_release (run_invariant r) ih huse

/-! ### The destructor -/

/-- The process lives on, every thread ever made is stopped, every open connection is shut down,
once each, and `nb_conn` is their number. -/
structure DropsAll (h : List Event) (p : Pool) (d : Dropped) : Prop where
  alive : d.killed = false
  stopped : ∀ a ∈ createdIn h, a ∈ d.stopped
  shut : d.shut.Perm (openSocks p (createdIn h))
  count : d.nbConn = (openSocks p (createdIn h)).length

/-- The pointers `next` still make one list that the newest thread heads. -/
def OneList (h : List Event) : Prop :=
  Set.InjOn (beneath h) {a | a ∈ createdIn h} ∧ ∀ a ∈ createdIn h, beneath h a ≠ (createdIn h).head?

theorem walk_from_newest {h : List Event} {p : Pool} (r : Run h p) :
    ∃ l, Chain p.next p.allThreads l ∧ ∀ b ∈ l, b ∈ createdIn h := by
  have hi := run_invariant r
  have hn := run_nextEnds r
  rw [hi.lists.allThreads_eq]
  cases hall : createdIn h with
  | nil => exact ⟨[], .nil, fun b hb => hb⟩
  | cons a rest =>
    obtain ⟨m, hm, hsub⟩ := hn.ends a (hall ▸ List.mem_cons_self)
    exact ⟨m, hm, fun b hb => hall ▸ hsub b hb⟩

/-- Where `SIGALRM` does nothing, the destructor drops every thread exactly when the pointers
`next`, as the releases have left them, still make one list. -/
theorem ignored_exact {h : List Event} {p : Pool} (r : Run h p) :
    ∃ d, (∀ fuel, (createdIn h).length < fuel → destroy .ignored fuel p = some d) ∧
      (DropsAll h p d ↔ OneList h) := by
  have hn := run_nextEnds r
  have hi := run_invariant r
  obtain ⟨l, hl, hsub⟩ := walk_from_newest r
  have hlen : l.length ≤ (createdIn h).length :=
    (hl.nodup.subperm fun a ha => hsub a ha).length_le
  refine ⟨⟨l, openSocks p l, (openSocks p l).length, false⟩, ?_, ?_⟩
  · intro fuel hf
    simpa [destroy] using destroyLoop_chain ⟨[], [], 0, false⟩ hl (by omega)
  have hcovers := hl.covers_iff (S := {a | a ∈ createdIn h}) hsub hn.ends
  have hone : OneList h ↔ ∀ a ∈ createdIn h, a ∈ l := by
    have heq : Set.EqOn p.next (beneath h) {a | a ∈ createdIn h} := hn.next_eq
    rw [OneList, ← heq.injOn_iff, ← hi.lists.allThreads_eq]
    apply Iff.trans (and_congr_right fun _ => forall₂_congr fun a ha => ?_) hcovers.symm
    rw [hn.next_eq a ha]
  rw [hone]
  constructor
  · intro hd
    exact hd.stopped
  · intro hall
    have hperm : l.Perm (createdIn h) :=
      (List.perm_ext_iff_of_nodup hl.nodup hi.lists.all_chain.nodup).mpr
        fun a => ⟨hsub a, hall a⟩
    have hsocks : (openSocks p l).Perm (openSocks p (createdIn h)) :=
      (hperm.map p.sock).filter _
    exact ⟨rfl, hall, hsocks, hsocks.length_eq⟩

/-- The default action of `SIGALRM` ends the process at the newest thread, if there is one. -/
theorem default_exact {h : List Event} {p : Pool} (r : Run h p) :
    ∃ d, (∀ fuel, (createdIn h).length < fuel → destroy .default fuel p = some d) ∧
      (DropsAll h p d ↔ createdIn h = []) := by
  have hall := (run_invariant r).lists.allThreads_eq
  have hround : ∀ fuel, (createdIn h).length < fuel → ∃ n, fuel = n + 1 := by
    intro fuel hf
    exact ⟨fuel - 1, by omega⟩
  cases hc : createdIn h with
  | nil =>
    rw [hc] at hall hround
    refine ⟨⟨[], [], 0, false⟩, ?_, iff_of_true ⟨rfl, ?_, ?_, ?_⟩ rfl⟩
    · intro fuel hf
      obtain ⟨n, rfl⟩ := hround fuel hf
      simp only [destroy, destroyLoop, hall, List.head?_nil]
    · simp [hc]
    · simp [openSocks, hc]
    · simp [openSocks, hc]
  | cons a rest =>
    rw [hc] at hall hround
    refine ⟨⟨[], [], 0, true⟩, ?_, iff_of_false ?_ (List.cons_ne_nil a rest)⟩
    · intro fuel hf
      obtain ⟨n, rfl⟩ := hround fuel hf
      simp only [destroy, destroyLoop, hall, List.head?_cons, if_true]
    · intro hd
      exact absurd hd.alive (by decide)

/-- Two threads serving two connections, and the one given back first. -/
def twoServing : Pool :=
  ((init staleHeap).handleNewConnection 5 0 0).handleNewConnection 6 1 0

theorem run_twoServing : Run [.created 1, .created 0] twoServing :=
  .connect 6 1 0 (.connect 5 0 0 (.init staleHeap) (by decide)) (by decide)

inductive Field where
  | thread
  | clientSock
  | next
  deriving DecidableEq, Repr

inductive Touch where
  | read (a : Addr) (f : Field)
  | delete (a : Addr)
  deriving DecidableEq, Repr

def Touch.object : Touch → Addr
  | .read a _ => a
  | .delete a => a

/-- One round of the loop, which `SIGALRM` may end after the second read. The socket is read again
when it is shut down. -/
def touchThread (p : Pool) (a : Addr) : List Touch :=
  [.read a .thread, .read a .thread, .read a .clientSock] ++
    (if 0 ≤ p.sock a then [.read a .clientSock] else []) ++ [.read a .next, .delete a]

/-- The loop of `destroyLoop` with the objects it reads and deletes, in order, where `SIGALRM` does
nothing: otherwise only the first two of these are read. -/
def touchLoop : ℕ → Pool → Option (List Touch)
  | 0, _ => none
  | fuel + 1, p =>
    match p.allThreads with
    | none => some []
    | some a => (touchLoop fuel { p with allThreads := p.next a }).map (touchThread p a ++ ·)

def deleted (ts : List Touch) : List Addr :=
  ts.filterMap fun
    | .delete a => some a
    | .read _ _ => none

/-- Nothing is read from an object that was deleted before, nor is it deleted again. -/
def TouchesLive (ts : List Touch) : Prop :=
  ts.Pairwise fun x y => ∀ a, x = .delete a → y.object ≠ a

theorem touchThread_object {p : Pool} {a : Addr} {x : Touch} (hx : x ∈ touchThread p a) :
    x.object = a := by
  simp only [touchThread, List.mem_append, List.mem_cons, List.not_mem_nil, or_false] at hx
  rcases hx with ((rfl | rfl | rfl) | hx) | rfl | rfl
  any_goals rfl
  split_ifs at hx
  · rw [List.mem_singleton.mp hx, Touch.object]
  · exact absurd hx List.not_mem_nil

@[simp] theorem deleted_touchThread (p : Pool) (a : Addr) : deleted (touchThread p a) = [a] := by
  unfold deleted touchThread
  split_ifs <;> rfl

theorem deleted_append (ts us : List Touch) : deleted (ts ++ us) = deleted ts ++ deleted us :=
  List.filterMap_append

/-- The object of a round is deleted last. -/
theorem touchThread_live (p : Pool) (a : Addr) : TouchesLive (touchThread p a) := by
  unfold TouchesLive touchThread
  split_ifs <;> simp

/-- The objects deleted are the threads that `destroyLoop` stops where `SIGALRM` does nothing. -/
theorem deleted_eq_stopped (fuel : ℕ) (p : Pool) (d : Dropped) :
    (touchLoop fuel p).map (fun ts => d.stopped ++ deleted ts) =
      (destroyLoop .ignored fuel p d).map Dropped.stopped := by
  induction fuel generalizing p d with
  | zero => rfl
  | succ fuel ih =>
    rw [touchLoop, destroyLoop]
    cases p.allThreads with
    | none => simp [deleted]
    | some a =>
      have hstop : (dropThread p a d).stopped = d.stopped ++ [a] := by
        unfold dropThread
        split_ifs <;> rfl
      simp only [reduceCtorEq, if_false, ← ih, Option.map_map, hstop]
      congr 1
      funext ts
      simp [deleted_append]

theorem touchLoop_chain {l : List Addr} :
    ∀ {fuel : ℕ} {p : Pool}, Chain p.next p.allThreads l → l.length < fuel →
      touchLoop fuel p = some (l.flatMap (touchThread p)) := by
  induction l with
  | nil =>
    intro fuel p hc hf
    obtain ⟨fuel, rfl⟩ := Nat.exists_eq_add_of_lt hf
    simp [touchLoop, chain_empty.mp hc]
  | cons a l ih =>
    intro fuel p hc hf
    obtain ⟨hhead, htail⟩ := chain_head.mp hc
    cases fuel with
    | zero => simp at hf
    | succ fuel =>
      have hrest := ih (p := { p with allThreads := p.next a }) htail (by simpa using hf)
      simp only [touchLoop, hhead]
      rw [hrest]
      rfl

theorem touches_flatMap {l : List Addr} (p : Pool) (hnd : l.Nodup) :
    TouchesLive (l.flatMap (touchThread p)) := by
  apply List.pairwise_flatMap.mpr
  refine ⟨fun a _ => touchThread_live p a, ?_⟩
  apply hnd.imp
  intro a b hab x hx y hy c hc
  have hxc : c = a := by
    rw [← touchThread_object hx, hc, Touch.object]
  rw [touchThread_object hy, hxc]
  exact hab.symm

theorem deleted_flatMap (p : Pool) (l : List Addr) : deleted (l.flatMap (touchThread p)) = l := by
  induction l with
  | nil => rfl
  | cons a l ih => rw [List.flatMap_cons, deleted_append, ih, deleted_touchThread]; rfl

end ThreadPoolShutdown
