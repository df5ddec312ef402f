import SaWa.PointerChain
import Mathlib.Logic.Function.Basic
import Mathlib.Data.Nat.Notation
import Mathlib.Data.Int.Notation

/-! The thread pool of `server/thread_pool.cpp` over a heap of `ConnectionThread` objects: the
idle list goes through `next`, the list of all threads through `next_all`. -/
namespace ThreadPool

open PointerChain

abbrev Addr := ℕ

structure ConnectionThread where
  nb : ℕ
  clientSock : ℤ
  nbConnections : ℕ
  info : Fin 3 → ℕ
  next : Option Addr
  nextAll : Option Addr

structure Pool where
  heap : Addr → ConnectionThread
  idleThreads : Option Addr
  allThreads : Option Addr
  threadNb : ℕ

namespace Pool

def next (p : Pool) (a : Addr) : Option Addr := (p.heap a).next
def nextAll (p : Pool) (a : Addr) : Option Addr := (p.heap a).nextAll
def sock (p : Pool) (a : Addr) : ℤ := (p.heap a).clientSock

def modify (p : Pool) (a : Addr) (f : ConnectionThread → ConnectionThread) : Pool :=
  { p with heap := Function.update p.heap a (f (p.heap a)) }

/-- The constructor `ThreadPool`, over whatever the heap holds. -/
def init (heap : Addr → ConnectionThread) : Pool := ⟨heap, none, none, 0⟩

/-- The constructor `ConnectionThread`, which leaves `nb` and `next_all` as they are. -/
def construct (clientSock : ℤ) (old : ConnectionThread) : ConnectionThread :=
  { old with next := none, clientSock := clientSock, nbConnections := 1, info := fun _ => 0 }

/-- `newThread` up to the end of its locked section; `new` gives it the object at `a`. -/
def linkNew (p : Pool) (a : Addr) (clientSock : ℤ) : Pool :=
  let p := p.modify a (construct clientSock)
  let p := p.modify a fun t => { t with nb := p.threadNb }
  let p := { p with threadNb := p.threadNb + 1 }
  let p := p.modify a fun t => { t with next := p.allThreads }
  let p := p.modify a fun t => { t with nextAll := p.allThreads }
  { p with allThreads := some a }

/-- `created` is what `pthread_create` returns. -/
def newThread (p : Pool) (a : Addr) (clientSock created : ℤ) : Option Addr × Pool :=
  let p := p.linkNew a clientSock
  if created < 0 then (none, p) else (some a, p)

def clearSock (p : Pool) (a : Addr) : Pool := p.modify a fun t => { t with clientSock := -1 }

def pushIdle (p : Pool) (a : Addr) : Pool :=
  let p := p.modify a fun t => { t with next := p.idleThreads }
  { p with idleThreads := some a }

def releaseThread (p : Pool) (a : Addr) : Pool := (p.clearSock a).pushIdle a

/-- The locked section of `reuseThread`; `none` stands for the use of a null pointer. -/
def popIdle (p : Pool) : Option (Addr × Pool) :=
  p.idleThreads.map fun a => (a, { p with idleThreads := p.next a })

def assign (p : Pool) (a : Addr) (clientSock : ℤ) : Pool :=
  p.modify a fun t =>
    { t with clientSock := clientSock, nbConnections := t.nbConnections + 1 }

def reuseThread (p : Pool) (clientSock : ℤ) : Option Addr × Pool :=
  if p.idleThreads = none then (none, p)
  else
    match p.popIdle with
    | none => (none, p)
    | some (a, p) => (some a, p.assign a clientSock)

/-- `a` and `created` are used only when a new thread is made. -/
def handleNewConnection (p : Pool) (clientSock : ℤ) (a : Addr) (created : ℤ) : Pool :=
  match p.reuseThread clientSock with
  | (some _, p) => p
  | (none, p) => (p.newThread a clientSock created).2

section Fields
variable (p : Pool) (a b : Addr) (s : ℤ)

theorem next_linkNew : (p.linkNew a s).next b = if b = a then p.allThreads else p.next b := by
  by_cases h : b = a <;> simp [linkNew, modify, next, construct, h]

theorem nextAll_linkNew :
    (p.linkNew a s).nextAll b = if b = a then p.allThreads else p.nextAll b := by
  by_cases h : b = a <;> simp [linkNew, modify, nextAll, construct, h]

theorem sock_linkNew : (p.linkNew a s).sock b = if b = a then s else p.sock b := by
  by_cases h : b = a <;> simp [linkNew, modify, sock, construct, h]

theorem nb_linkNew :
    ((p.linkNew a s).heap b).nb = if b = a then p.threadNb else (p.heap b).nb := by
  by_cases h : b = a <;> simp [linkNew, modify, construct, h]

theorem next_pushIdle :
    (p.pushIdle a).next b = if b = a then p.idleThreads else p.next b := by
  by_cases h : b = a <;> simp [pushIdle, modify, next, h]

@[simp] theorem nextAll_pushIdle : (p.pushIdle a).nextAll b = p.nextAll b := by
  by_cases h : b = a <;> simp [pushIdle, modify, nextAll, h]

@[simp] theorem sock_pushIdle : (p.pushIdle a).sock b = p.sock b := by
  by_cases h : b = a <;> simp [pushIdle, modify, sock, h]

@[simp] theorem nb_pushIdle : ((p.pushIdle a).heap b).nb = (p.heap b).nb := by
  by_cases h : b = a <;> simp [pushIdle, modify, h]

@[simp] theorem next_clearSock : (p.clearSock a).next b = p.next b := by
  by_cases h : b = a <;> simp [clearSock, modify, next, h]

@[simp] theorem nextAll_clearSock : (p.clearSock a).nextAll b = p.nextAll b := by
  by_cases h : b = a <;> simp [clearSock, modify, nextAll, h]

theorem sock_clearSock : (p.clearSock a).sock b = if b = a then -1 else p.sock b := by
  by_cases h : b = a <;> simp [clearSock, modify, sock, h]

@[simp] theorem nb_clearSock : ((p.clearSock a).heap b).nb = (p.heap b).nb := by
  by_cases h : b = a <;> simp [clearSock, modify, h]

@[simp] theorem next_assign : (p.assign a s).next b = p.next b := by
  by_cases h : b = a <;> simp [assign, modify, next, h]

@[simp] theorem nextAll_assign : (p.assign a s).nextAll b = p.nextAll b := by
  by_cases h : b = a <;> simp [assign, modify, nextAll, h]

theorem sock_assign : (p.assign a s).sock b = if b = a then s else p.sock b := by
  by_cases h : b = a <;> simp [assign, modify, sock, h]

@[simp] theorem nb_assign : ((p.assign a s).heap b).nb = (p.heap b).nb := by
  by_cases h : b = a <;> simp [assign, modify, h]

@[simp] theorem threadNb_pushIdle : (p.pushIdle a).threadNb = p.threadNb := rfl
@[simp] theorem threadNb_clearSock : (p.clearSock a).threadNb = p.threadNb := rfl
@[simp] theorem threadNb_assign : (p.assign a s).threadNb = p.threadNb := rfl

end Fields

/-! ### The two lists -/

/-- The idle list holds exactly `idle` and the list of all threads exactly `all`, both from the
front, and the threads are numbered downwards. -/
structure Lists (idle all : List Addr) (p : Pool) : Prop where
  idle_chain : Chain p.next p.idleThreads idle
  all_chain : Chain p.nextAll p.allThreads all
  nbs : all.map (fun a => (p.heap a).nb) = (List.range p.threadNb).reverse
  idle_sub : ∀ a ∈ idle, a ∈ all

variable {p : Pool} {idle all : List Addr} {a : Addr} {s : ℤ}

theorem lists_init (heap : Addr → ConnectionThread) : Lists [] [] (init heap) :=
  ⟨.nil, .nil, rfl, fun _ h => absurd h List.not_mem_nil⟩

/-- The new thread's `next` is written too, but no pointer of the idle list leads to it. -/
theorem Lists.linkNew (h : Lists idle all p) (ha : a ∉ all) :
    Lists idle (a :: all) (p.linkNew a s) := by
  have hother : ∀ b ∈ all, b ≠ a := by
    rintro b hb rfl
    exact ha hb
  constructor
  · apply h.idle_chain.congr
    intro b hb
    rw [next_linkNew, if_neg (hother b (h.idle_sub b hb))]
  · apply h.all_chain.push
    · rw [nextAll_linkNew, if_pos rfl]
    · intro b hb
      rw [nextAll_linkNew, if_neg (hother b hb)]
  · have hmap : all.map (fun b => ((p.linkNew a s).heap b).nb) =
        all.map fun b => (p.heap b).nb := by
      apply List.map_congr_left
      intro b hb
      rw [nb_linkNew, if_neg (hother b hb)]
    have hnb : (p.linkNew a s).threadNb = p.threadNb + 1 := rfl
    rw [List.map_cons, hmap, h.nbs, nb_linkNew, if_pos rfl, hnb, List.range_succ]
    simp
  · intro b hb
    exact List.mem_cons_of_mem a (h.idle_sub b hb)

theorem Lists.clearSock (h : Lists idle all p) : Lists idle all (p.clearSock a) := by
  constructor
  · exact h.idle_chain.congr fun b _ => next_clearSock p a b
  · exact h.all_chain.congr fun b _ => nextAll_clearSock p a b
  · simpa using h.nbs
  · exact h.idle_sub

theorem Lists.pushIdle (h : Lists idle all p) (hall : a ∈ all) (hidle : a ∉ idle) :
    Lists (a :: idle) all (p.pushIdle a) := by
  constructor
  · apply h.idle_chain.push
    · rw [next_pushIdle, if_pos rfl]
    · rintro b hb
      rw [next_pushIdle, if_neg]
      rintro rfl
      exact hidle hb
  · exact h.all_chain.congr fun b _ => nextAll_pushIdle p a b
  · simpa using h.nbs
  · intro b hb
    rcases List.mem_cons.mp hb with rfl | hb
    · exact hall
    · exact h.idle_sub b hb

/-- The head is taken off; the pointer it still holds is in no list any more. -/
theorem Lists.popIdle (h : Lists (a :: idle) all p) :
    ∃ p', p.popIdle = some (a, p') ∧ Lists idle all p' ∧ p'.heap = p.heap := by
  obtain ⟨hhead, htail⟩ := chain_head.mp h.idle_chain
  refine ⟨{ p with idleThreads := p.next a }, ?_, ?_, rfl⟩
  · rw [Pool.popIdle, hhead]
    rfl
  · exact ⟨htail, h.all_chain, h.nbs, fun b hb => h.idle_sub b (List.mem_cons_of_mem a hb)⟩

theorem Lists.assign (h : Lists idle all p) : Lists idle all (p.assign a s) := by
  constructor
  · exact h.idle_chain.congr fun b _ => next_assign p a b s
  · exact h.all_chain.congr fun b _ => nextAll_assign p a b s
  · simpa using h.nbs
  · exact h.idle_sub

theorem Lists.allThreads_eq (h : Lists idle all p) : p.allThreads = all.head? :=
  h.all_chain.head_eq

theorem Lists.idleThreads_eq (h : Lists idle all p) : p.idleThreads = idle.head? :=
  h.idle_chain.head_eq

theorem Lists.idle_eq_nil (h : Lists idle all p) : p.idleThreads = none ↔ idle = [] := by
  constructor
  · intro hp
    exact chain_none.mp (hp ▸ h.idle_chain)
  · rintro rfl
    exact chain_empty.mp h.idle_chain

end Pool

end ThreadPool
