import SaWa.ThreadStatistics
import SaWa.SawaFrameLoop

/-! The numbers in the statistics of the pool, over runs in which connections arrive, threads are
released and requests are processed, and the walk of `serializeThreadStats` over the buffer. -/
namespace ThreadCounters

open EffectProgram RangeStore LittleEndian PointerChain ThreadPool Pool ThreadPoolLists
open ThreadStatistics SawaProtocol
open SawaServer (Call Answer ServerM infoCol readCol writeCol signed)

/-! ### The records that are filled -/

/-- The loop of `serializeThreadStats`: the index `thread_st` has for each record it fills, as
the pointer may leave the buffer, and the thread it is filled from. -/
def recordLoop (p : Pool) : ℕ → Option Addr → ℤ → Option (List (ℤ × Addr))
  | 0, _, _ => none
  | _ + 1, none, _ => some []
  | fuel + 1, some a, threadSt =>
    (recordLoop p fuel (p.nextAll a) (threadSt - 1)).map ((threadSt, a) :: ·)

def serializeThreadStats (fuel : ℕ) (p : Pool) : Option (List (ℤ × Addr)) :=
  recordLoop p fuel p.allThreads (p.threadNb - 1)

/-- The size of the buffer that `getThreadStatistics` makes. -/
def allocated (p : Pool) : ℕ := 4 + p.threadNb * sizeofThreadStat

/-- The new buffer, all zeros but for the payload size. -/
def newBuffer (p : Pool) : ℕ → UInt8 := store (fun _ => 0) 0 (wordBytes (payloadSize p))

def fill (p : Pool) (buf : ℕ → UInt8) (w : ℤ × Addr) : ℕ → UInt8 :=
  store buf (4 + sizeofThreadStat * w.1.toNat) (ThreadStat.loadFrom (p.heap w.2)).fields

theorem serializeLoop_eq (p : Pool) (fuel : ℕ) (start : Option Addr) (threadSt : ℤ)
    (buf : ℕ → UInt8) :
    serializeLoop p fuel start (threadSt + 1).toNat buf =
      (recordLoop p fuel start threadSt).map fun ws => ws.foldl (fill p) buf := by
  induction fuel generalizing start threadSt buf with
  | zero => rfl
  | succ fuel ih =>
    cases start with
    | none => rfl
    | some a =>
      have hk : (threadSt + 1).toNat - 1 = threadSt.toNat := by omega
      have hnext := ih (p.nextAll a) (threadSt - 1) (fill p buf (threadSt, a))
      rw [Int.sub_add_cancel] at hnext
      rw [serializeLoop, recordLoop, hk, Option.map_map]
      exact hnext

/-- The buffer is the new one with the records filled in. -/
theorem getThreadStatistics_filled (fuel : ℕ) (p : Pool) :
    getThreadStatistics fuel p =
      (serializeThreadStats fuel p).map fun ws => ws.foldl (fill p) (newBuffer p) := by
  have h := serializeLoop_eq p fuel p.allThreads (p.threadNb - 1) (newBuffer p)
  have hnb : ((p.threadNb : ℤ) - 1 + 1).toNat = p.threadNb := by omega
  rw [hnb] at h
  exact h

/-- The records of a list of threads, numbered downwards to 0. -/
def records (l : List Addr) : List (ℤ × Addr) :=
  ((List.range l.length).reverse.map Nat.cast).zip l

theorem records_fst (l : List Addr) :
    (records l).map Prod.fst = (List.range l.length).reverse.map Nat.cast :=
  List.map_fst_zip (by simp)

theorem records_snd (l : List Addr) : (records l).map Prod.snd = l := List.map_snd_zip (by simp)

theorem recordLoop_chain {p : Pool} {l : List Addr} :
    ∀ {fuel : ℕ} {start : Option Addr}, Chain p.nextAll start l → l.length < fuel →
      recordLoop p fuel start (l.length - 1) = some (records l) := by
  induction l with
  | nil =>
    intro fuel start hc hf
    obtain ⟨fuel, rfl⟩ := Nat.exists_eq_add_of_lt hf
    simp [chain_empty.mp hc, recordLoop, records]
  | cons a l ih =>
    intro fuel start hc hf
    obtain ⟨rfl, htail⟩ := chain_head.mp hc
    cases fuel with
    | zero => simp at hf
    | succ fuel =>
      have hlen : ((a :: l).length : ℤ) - 1 = l.length := by simp
      have hrec : records (a :: l) = ((l.length : ℤ), a) :: records l := by
        simp [records, List.range_succ]
      rw [hlen, hrec, recordLoop, ih htail (by simpa using hf)]
      rfl

/-- The threads are met in the order of their numbers. -/
theorem records_number {idle all : List Addr} {p : Pool} (hl : Lists idle all p) {w : ℤ × Addr}
    (hw : w ∈ records all) : w.2 ∈ all ∧ w.1 = (p.heap w.2).nb ∧ w.1 < p.threadNb := by
  have hnbs : (records all).map Prod.fst = (records all).map fun w => ((p.heap w.2).nb : ℤ) := by
    have hsnd : (records all).map (fun w => ((p.heap w.2).nb : ℤ)) =
        (all.map fun a => (p.heap a).nb).map Nat.cast := by
      conv_rhs => rw [← records_snd all]
      simp [Function.comp_def]
    rw [hsnd, hl.nbs, records_fst, length_all hl]
  have hmem : w.1 ∈ (List.range all.length).reverse.map (Nat.cast : ℕ → ℤ) := by
    rw [← records_fst]
    exact List.mem_map_of_mem hw
  refine ⟨?_, List.map_inj_left.mp hnbs w hw, ?_⟩
  · rw [← records_snd all]
    exact List.mem_map_of_mem hw
  · simp only [List.mem_map, List.mem_reverse, List.mem_range, length_all hl] at hmem
    obtain ⟨i, hi, hiw⟩ := hmem
    omega

/-! ### Histories -/

inductive Step where
  | pool (e : Event)
  | processed (a : Addr) (op : UInt8)

/-! Histories list the newest step first. -/

def events : List Step → List Event
  | [] => []
  | .pool e :: h => e :: events h
  | .processed _ _ :: h => events h

/-- The number of connections ever assigned to a thread. -/
def connections (a : Addr) : List Event → ℕ
  | [] => 0
  | .created b :: h | .reused b :: h => connections a h + if a = b then 1 else 0
  | .released _ :: h => connections a h

/-- The counter of a request, by its first byte. -/
def column (op : UInt8) : Option (Fin 3) :=
  if op = sawaInfo then some infoCol
  else if op = sawaRead then some readCol
  else if op = sawaWrite then some writeCol
  else none

/-- The number of requests of one kind that a thread has processed. -/
def requests (a : Addr) (idx : Fin 3) : List Step → ℕ
  | [] => 0
  | .pool _ :: h => requests a idx h
  | .processed b op :: h => requests a idx h + if a = b ∧ column op = some idx then 1 else 0

/-! ### Requests processed by a thread of the pool -/

/-- `Server::updateScreen`, without the redraw. -/
def updateScreen (p : Pool) (a : Addr) (idx : Fin 3) : Pool :=
  p.modify a fun t => { t with info := Function.update t.info idx (t.info idx + 1) }

def afterCall (a : Addr) (p : Pool) : Call → Pool
  | .countRequest idx => updateScreen p a idx
  | _ => p

/-- The calls of the thread at `a`, answered in any way; it counts in its own object. -/
def threadHandler {σ : Type} (a : Addr) (env : Handler Call Answer σ) :
    Handler Call Answer (Pool × σ) :=
  fun e w => ((env e w.2).1, (afterCall a w.1 e, (env e w.2).2))

def processRequest {σ : Type} (a : Addr) (env : Handler Call Answer σ) (addr : Mem)
    (size : UInt32) (p : Pool) (s : σ) : Pool :=
  (run (threadHandler a env) (SawaServer.processRequest addr size) (p, s)).2.1

/-- The counter of the request, and no other, goes up. -/
def counted (p : Pool) (a : Addr) (op : UInt8) : Pool :=
  match column op with
  | some idx => updateScreen p a idx
  | none => p

section Requests
variable {σ : Type} {a : Addr} {env : Handler Call Answer σ}

def NotCounting (c : Call × Pool × σ) : Prop := ∀ idx, c.1 ≠ .countRequest idx

/-- A program that counts nothing leaves the pool as it is. -/
theorem pool_unchanged {α : Type} {m : ServerM α} {w : Pool × σ}
    (hm : AllCalls (threadHandler a env) NotCounting m w) :
    (run (threadHandler a env) m w).2.1 = w.1 := by
  have hstep : ∀ e (v : Pool × σ), NotCounting (e, v) → v.1 = w.1 →
      (threadHandler a env e v).2.1 = w.1 := by
    intro e v he hv
    cases e with
    | countRequest idx => exact absurd rfl (he idx)
    | _ => exact hv
  exact (calls_preserve (threadHandler a env) (I := fun v => v.1 = w.1) hstep m hm rfl).2

theorem notCounting_checkValidRequest (offset size : UInt32) (w : Pool × σ) :
    AllCalls (threadHandler a env) NotCounting (SawaServer.checkValidRequest offset size) w := by
  unfold SawaServer.checkValidRequest
  split_ifs <;> simp [NotCounting]

theorem notCounting_readFile (offset size : UInt32) (w : Pool × σ) :
    AllCalls (threadHandler a env) NotCounting (SawaServer.readFile offset size) w := by
  unfold SawaServer.readFile
  rw [allCalls_bind, allCalls_bind]
  refine ⟨by simp [NotCounting], notCounting_checkValidRequest _ _ _, ?_⟩
  split_ifs <;> simp [NotCounting]

theorem notCounting_writeFile (addr : Mem) (offset size : UInt32) (w : Pool × σ) :
    AllCalls (threadHandler a env) NotCounting (SawaServer.writeFile addr offset size) w := by
  unfold SawaServer.writeFile
  rw [allCalls_bind, allCalls_bind]
  refine ⟨by simp [NotCounting], notCounting_checkValidRequest _ _ _, ?_⟩
  split_ifs
  · rw [perform_bind, allCalls_call]
    refine ⟨by simp [NotCounting], ?_⟩
    split_ifs <;> simp [NotCounting]
  · simp

/-- A program that counts nothing, and then the count of its request. -/
theorem run_then_count {m : ServerM Unit} {w : Pool × σ} (idx : Fin 3)
    (hm : AllCalls (threadHandler a env) NotCounting m w) :
    (run (threadHandler a env) (m >>= fun _ => SawaServer.updateScreen idx) w).2.1 =
      updateScreen w.1 a idx := by
  have hpool := pool_unchanged hm
  rw [run_bind]
  exact congrArg (fun p => updateScreen p a idx) hpool

/-- Whatever the calls of a request answer, it is counted once, by its first byte. -/
theorem processRequest_eq (addr : Mem) (size : UInt32) (p : Pool) (s : σ) :
    processRequest a env addr size p s = counted p a (addr 0) := by
  unfold processRequest SawaServer.processRequest counted column
  rw [perform_bind, run_call]
  by_cases hi : addr 0 = sawaInfo
  · simp only [if_pos hi]
    rw [run_then_count infoCol (by simp [SawaServer.sendInfo, NotCounting])]
    rfl
  by_cases hr : addr 0 = sawaRead
  · simp only [if_neg hi, if_pos hr]
    rw [run_then_count readCol (notCounting_readFile _ _ _)]
    rfl
  by_cases hw : addr 0 = sawaWrite
  · simp only [if_neg hi, if_neg hr, if_pos hw]
    rw [run_then_count writeCol (notCounting_writeFile _ _ _ _)]
    rfl
  · simp only [if_neg hi, if_neg hr, if_neg hw]
    rfl

end Requests

/-! ### Runs -/

/-- Runs from the empty pool, with sockets as `accept` gives them. A request comes to a thread
that has a connection, and its calls are answered in any way. -/
inductive Run : List Step → Pool → Prop where
  | init (heap : Addr → ConnectionThread) : Run [] (init heap)
  | connect {h p} (sock : ℤ) (a : Addr) (created : ℤ) (r : Run h p) (hsock : 0 ≤ sock)
      (hnew : a ∉ createdIn (events h)) :
      Run (.pool (connectEvent p sock a) :: h) (p.handleNewConnection sock a created)
  | release {h p} (a : Addr) (r : Run h p) (huse : InUse (events h) a) :
      Run (.pool (.released a) :: h) (p.releaseThread a)
  | request {h p} {σ : Type} (a : Addr) (env : Handler Call Answer σ) (addr : Mem)
      (size : UInt32) (s : σ) (r : Run h p) (huse : InUse (events h) a) :
      Run (.processed a (addr 0) :: h) (processRequest a env addr size p s)

/-- What the object of a thread holds is what the history says of it. -/
structure Holds (h : List Step) (a : Addr) (t : ConnectionThread) : Prop where
  nbConnections : t.nbConnections = connections a (events h)
  info : ∀ idx, t.info idx = requests a idx h
  sock : 0 ≤ t.clientSock ↔ InUse (events h) a

structure Counted (h : List Step) (p : Pool) : Prop where
  lists : Invariant (events h) p
  holds : ∀ a ∈ createdIn (events h), Holds h a (p.heap a)
  unused : ∀ a, a ∉ createdIn (events h) →
    connections a (events h) = 0 ∧ ∀ idx, requests a idx h = 0

section Steps
variable {h : List Step} {p : Pool} {a b : Addr} {t : ConnectionThread}

@[simp] theorem heap_modify_self (f : ConnectionThread → ConnectionThread) :
    (p.modify a f).heap a = f (p.heap a) := by
  simp [Pool.modify]

@[simp] theorem heap_modify_other (f : ConnectionThread → ConnectionThread) (hb : b ≠ a) :
    (p.modify a f).heap b = p.heap b := by
  simp [Pool.modify, hb]

theorem Holds.other {e : Event} (hh : Holds h b t) (hc : connections b (e :: events h) =
    connections b (events h)) (hu : InUse (e :: events h) b ↔ InUse (events h) b) :
    Holds (.pool e :: h) b t :=
  ⟨hh.nbConnections.trans hc.symm, hh.info, hh.sock.trans hu.symm⟩

theorem counted_created (hc : Counted h p) {q : Pool} {sock : ℤ} (hsock : 0 ≤ sock)
    (hnew : a ∉ createdIn (events h)) (hq : Invariant (.created a :: events h) q)
    (hheap : q.heap = (p.linkNew a sock).heap) : Counted (.pool (.created a) :: h) q := by
  refine ⟨hq, ?_, ?_⟩
  · intro b hb
    rw [hheap]
    by_cases hba : b = a
    · subst hba
      obtain ⟨hconn, hreq⟩ := hc.unused b hnew
      constructor
      · simp [events, connections, hconn, linkNew, construct]
      · intro idx
        simp [requests, hreq, linkNew, construct]
      · simp [events, InUse, linkNew, construct, hsock]
    · have hbm : b ∈ createdIn (events h) := by
        rcases List.mem_cons.mp hb with rfl | hbm
        · exact absurd rfl hba
        · exact hbm
      have hsame : (p.linkNew a sock).heap b = p.heap b := by
        simp [linkNew, hba]
      rw [hsame]
      apply (hc.holds b hbm).other
      · simp [connections, hba]
      · simp [InUse, hba]
  · intro b hb
    simp only [events, createdIn, List.mem_cons, not_or] at hb
    obtain ⟨hconn, hreq⟩ := hc.unused b hb.2
    refine ⟨?_, hreq⟩
    simp [events, connections, hconn, hb.1]

theorem counted_reused (hc : Counted h p) {q : Pool} {sock : ℤ} (hsock : 0 ≤ sock)
    (ha : a ∈ createdIn (events h)) (hq : Invariant (.reused a :: events h) q)
    (hheap : q.heap = (p.assign a sock).heap) : Counted (.pool (.reused a) :: h) q := by
  refine ⟨hq, ?_, ?_⟩
  · intro b hb
    have hold := hc.holds b hb
    rw [hheap]
    by_cases hba : b = a
    · subst hba
      constructor
      · simp [events, connections, hold.nbConnections, assign]
      · intro idx
        simp [requests, hold.info, assign]
      · simp [events, InUse, assign, hsock]
    · have hsame : (p.assign a sock).heap b = p.heap b := heap_modify_other _ hba
      rw [hsame]
      apply hold.other
      · simp [connections, hba]
      · simp [InUse, hba]
  · intro b hb
    obtain ⟨hconn, hreq⟩ := hc.unused b hb
    have hba : b ≠ a := by
      rintro rfl
      exact hb ha
    refine ⟨?_, hreq⟩
    simp [events, connections, hconn, hba]

theorem counted_connect (hc : Counted h p) {sock : ℤ} (created : ℤ) (hsock : 0 ≤ sock)
    (hnew : a ∉ createdIn (events h)) :
    Counted (.pool (connectEvent p sock a) :: h) (p.handleNewConnection sock a created) := by
  have hlists := invariant_connect sock created hc.lists hnew
  rcases connect_cases hc.lists sock a created with ⟨-, he, hheap⟩ | ⟨b, rest, hidle, he, hheap⟩
  · rw [he] at hlists ⊢
    exact counted_created hc hsock hnew hlists hheap
  · have hb := hc.lists.lists.idle_sub b (hidle ▸ List.mem_cons_self)
    rw [he] at hlists ⊢
    exact counted_reused hc hsock hb hlists hheap

theorem counted_release (hc : Counted h p) (huse : InUse (events h) a) :
    Counted (.pool (.released a) :: h) (p.releaseThread a) := by
  refine ⟨invariant_release hc.lists huse, ?_, hc.unused⟩
  intro b hb
  have hold := hc.holds b hb
  by_cases hba : b = a
  · subst hba
    constructor
    · simp [events, connections, hold.nbConnections, releaseThread, clearSock, pushIdle]
    · intro idx
      simp [requests, hold.info, releaseThread, clearSock, pushIdle]
    · simp [events, InUse, releaseThread, clearSock, pushIdle]
  · have hsame : (p.releaseThread a).heap b = p.heap b := by
      simp [releaseThread, clearSock, pushIdle, hba]
    rw [hsame]
    apply hold.other
    · rfl
    · simp [InUse, hba]

theorem lists_updateScreen {idle all : List Addr} (hl : Lists idle all p) (idx : Fin 3) :
    Lists idle all (updateScreen p a idx) := by
  constructor
  · apply hl.idle_chain.congr
    intro b _
    by_cases hb : b = a <;> simp [next, updateScreen, Pool.modify, hb]
  · apply hl.all_chain.congr
    intro b _
    by_cases hb : b = a <;> simp [nextAll, updateScreen, Pool.modify, hb]
  · have hnb : ∀ b, ((updateScreen p a idx).heap b).nb = (p.heap b).nb := by
      intro b
      by_cases hb : b = a <;> simp [updateScreen, Pool.modify, hb]
    have hthreadNb : (updateScreen p a idx).threadNb = p.threadNb := rfl
    simpa only [hnb, hthreadNb] using hl.nbs
  · exact hl.idle_sub

theorem lists_counted {idle all : List Addr} (hl : Lists idle all p) (op : UInt8) :
    Lists idle all (counted p a op) := by
  unfold counted
  split
  · exact lists_updateScreen hl _
  · exact hl

/-- The heap after a request, of which only the counters of its thread have changed. -/
theorem heap_counted (p : Pool) (a b : Addr) (op : UInt8) :
    ((counted p a op).heap b).nbConnections = (p.heap b).nbConnections ∧
      ((counted p a op).heap b).clientSock = (p.heap b).clientSock ∧
      ∀ idx, ((counted p a op).heap b).info idx =
        (p.heap b).info idx + if b = a ∧ column op = some idx then 1 else 0 := by
  unfold counted
  cases hcol : column op with
  | none => simp
  | some col =>
    by_cases hb : b = a
    · subst hb
      refine ⟨by simp [updateScreen], by simp [updateScreen], ?_⟩
      intro idx
      by_cases hidx : idx = col
      · subst hidx
        simp [updateScreen]
      · simp [updateScreen, hidx, Ne.symm hidx]
    · simp [updateScreen, hb]

theorem counted_request (hc : Counted h p) (huse : InUse (events h) a) (op : UInt8) :
    Counted (.processed a op :: h) (counted p a op) := by
  refine ⟨⟨lists_counted hc.lists.lists op, hc.lists.in_use⟩, ?_, ?_⟩
  · intro b hb
    have hold := hc.holds b hb
    obtain ⟨hconn, hsock, hinfo⟩ := heap_counted p a b op
    constructor
    · exact hconn.trans hold.nbConnections
    · intro idx
      rw [hinfo idx, hold.info idx, requests]
    · rw [hsock]
      exact hold.sock
  · intro b hb
    obtain ⟨hconn, hreq⟩ := hc.unused b hb
    have hba : b ≠ a := by
      rintro rfl
      exact hb (hc.lists.in_use b huse).1
    refine ⟨hconn, ?_⟩
    intro idx
    simp [requests, hreq idx, hba]

end Steps

theorem run_counted {h : List Step} {p : Pool} (r : Run h p) : Counted h p := by
  induction r with
  | init heap => exact ⟨invariant_init heap, fun _ ha => absurd ha List.not_mem_nil,
      fun _ _ => ⟨rfl, fun _ => rfl⟩⟩
  | connect sock a created _ hsock hnew ih => exact counted_connect ih created hsock hnew
  | release a _ huse ih => exact counted_release ih huse
  | request a env addr size s _ huse ih =>
    rw [processRequest_eq]
    exact counted_request ih huse (addr 0)

/-! ### What the statistics say -/

/-- The record holds the numbers of the thread; `shows x n` says in which way the `int` of the
bits `x` shows the number `n`. -/
structure RecordOf (shows : UInt32 → ℕ → Prop) (h : List Step) (a : Addr) (t : ThreadStat) :
    Prop where
  nbConnections : shows t.nbConnections (connections a (events h))
  info : ∀ idx, shows (t.info idx) (requests a idx h)
  active : t.active = 1 ∧ InUse (events h) a ∨ t.active = 0 ∧ ¬ InUse (events h) a

/-- Just the records 0 to `thread_nb` - 1 are filled, the last one first, each inside the buffer
and from the one thread that has its number, and they hold what the history says. -/
structure Exact (shows : UInt32 → ℕ → Prop) (h : List Step) (p : Pool) (ws : List (ℤ × Addr))
    (buf : ℕ → UInt8) : Prop where
  filled : buf = ws.foldl (fill p) (newBuffer p)
  indices : ws.map Prod.fst = (List.range p.threadNb).reverse.map Nat.cast
  inside : ∀ w ∈ ws, 0 ≤ w.1 ∧ 4 + (w.1 + 1) * sizeofThreadStat ≤ allocated p
  numbers : ∀ w ∈ ws, w.2 ∈ createdIn (events h) ∧ w.1 = (p.heap w.2).nb
  threads : ∀ i < p.threadNb, ∃! a, a ∈ createdIn (events h) ∧ (p.heap a).nb = i
  records : ∀ a ∈ createdIn (events h),
    RecordOf shows h a (statAt buf (4 + sizeofThreadStat * (p.heap a).nb))

/-- `getThreadStatistics` returns, and its buffer is right. -/
def Reports (shows : UInt32 → ℕ → Prop) (h : List Step) (p : Pool) : Prop :=
  ∃ ws buf, (∀ fuel, p.threadNb < fuel →
    serializeThreadStats fuel p = some ws ∧ getThreadStatistics fuel p = some buf) ∧
    Exact shows h p ws buf

/-- The `int` is the number. -/
def IsNumber (x : UInt32) (n : ℕ) : Prop := signed x = n

/-- The `int` is the number modulo 2^32, and the number itself as far as an `int` goes. -/
def IsNumberAsInt (x : UInt32) (n : ℕ) : Prop :=
  x = UInt32.ofNat n ∧ (n < 2 ^ 31 → signed x = n)

section Reports
variable {h : List Step} {p : Pool}

theorem nb_inj {idle all : List Addr} (hl : Lists idle all p) {a b : Addr} (ha : a ∈ all)
    (hb : b ∈ all) (hab : (p.heap a).nb = (p.heap b).nb) : a = b := by
  have hnd : (all.map fun a => (p.heap a).nb).Nodup := by
    rw [hl.nbs, List.nodup_reverse]
    exact List.nodup_range
  exact List.inj_on_of_nodup_map hnd ha hb hab

theorem thread_of_number {idle all : List Addr} (hl : Lists idle all p) {i : ℕ}
    (hi : i < p.threadNb) : ∃! a, a ∈ all ∧ (p.heap a).nb = i := by
  have hmem : i ∈ all.map fun a => (p.heap a).nb := by
    rw [hl.nbs, List.mem_reverse, List.mem_range]
    exact hi
  obtain ⟨a, ha, rfl⟩ := List.mem_map.mp hmem
  refine ⟨a, ⟨ha, rfl⟩, ?_⟩
  rintro b ⟨hb, hnb⟩
  exact nb_inj hl hb ha hnb

/-- The record of a thread in the finished buffer. -/
theorem statAt_buffer {idle all : List Addr} (hl : Lists idle all p) {fuel : ℕ}
    (hf : all.length < fuel) {buf : ℕ → UInt8} (hbuf : getThreadStatistics fuel p = some buf)
    {a : Addr} (ha : a ∈ all) :
    statAt buf (4 + sizeofThreadStat * (p.heap a).nb) = ThreadStat.loadFrom (p.heap a) := by
  obtain ⟨buf', hbuf', -, hload⟩ := getThreadStatistics_eq hl hf
  rw [hbuf, Option.some.injEq] at hbuf'
  subst hbuf'
  obtain ⟨i, hi, rfl⟩ := List.getElem_of_mem (List.mem_reverse.mpr ha)
  have hnb : (p.heap all.reverse[i]).nb = i := by
    have hnbs : all.reverse.map (fun a => (p.heap a).nb) = List.range p.threadNb := by
      rw [List.map_reverse, hl.nbs, List.reverse_reverse]
    have hget := List.getElem_of_eq hnbs (by simpa using hi)
    simpa using hget
  obtain ⟨hnumbers, hactive⟩ := statAt_fields (hload i hi)
  rw [hnb, statAt_numbers hnumbers, hactive]

theorem isNumberAsInt_ofNat (n : ℕ) : IsNumberAsInt (UInt32.ofNat n) n :=
  ⟨rfl, SawaFrameLoop.signed_ofNat⟩

theorem Holds.recordOf {a : Addr} {t : ConnectionThread} (hh : Holds h a t) :
    RecordOf IsNumberAsInt h a (ThreadStat.loadFrom t) := by
  constructor
  · rw [← hh.nbConnections]
    exact isNumberAsInt_ofNat _
  · intro idx
    rw [← hh.info idx]
    exact isNumberAsInt_ofNat _
  · by_cases hs : 0 ≤ t.clientSock
    · exact Or.inl ⟨if_pos hs, hh.sock.mp hs⟩
    · exact Or.inr ⟨if_neg hs, fun huse => hs (hh.sock.mpr huse)⟩

theorem statistics_report (r : Run h p) : Reports IsNumberAsInt h p := by
  have hc := run_counted r
  have hl := hc.lists.lists
  have hlen := length_all hl
  have hws : ∀ fuel, p.threadNb < fuel →
      serializeThreadStats fuel p = some (records (createdIn (events h))) := by
    intro fuel hf
    rw [serializeThreadStats, ← hlen]
    exact recordLoop_chain hl.all_chain (hlen.symm ▸ hf)
  have hbuf : ∀ fuel, p.threadNb < fuel → getThreadStatistics fuel p =
      some ((records (createdIn (events h))).foldl (fill p) (newBuffer p)) := by
    intro fuel hf
    rw [getThreadStatistics_filled, hws fuel hf]
    rfl
  refine ⟨_, _, fun fuel hf => ⟨hws fuel hf, hbuf fuel hf⟩, ?_⟩
  constructor
  · rfl
  · rw [records_fst, hlen]
  · intro w hw
    obtain ⟨-, hnb, hlt⟩ := records_number hl hw
    simp only [allocated, sizeofThreadStat]
    omega
  · intro w hw
    obtain ⟨hmem, hnb, -⟩ := records_number hl hw
    exact ⟨hmem, hnb⟩
  · intro i hi
    exact thread_of_number hl hi
  · intro a ha
    rw [statAt_buffer hl (hlen.symm ▸ Nat.lt_succ_self _) (hbuf _ (Nat.lt_succ_self _)) ha]
    exact (hc.holds a ha).recordOf

end Reports

/-! ### A thread that is reused, and one that counts too far -/

/-- The calls of a thread over an empty file. -/
def emptyWorld : SawaServerRun.World :=
  (⟨⟨[], 0⟩, fun _ _ => 0, fun _ => 0⟩, ⟨[], fun _ => 0, [], fun _ => 0⟩)

theorem run_request {h : List Step} {p : Pool} (r : Run h p) {a : Addr} (huse : InUse (events h) a)
    (op : UInt8) : ∃ q, Run (.processed a op :: h) q :=
  ⟨_, .request a SawaServerRun.sysHandler (fun _ => op) 9 emptyWorld r huse⟩

theorem run_first (sock : ℤ) (hsock : 0 ≤ sock) :
    Run [.pool (.created 0)] ((init staleHeap).handleNewConnection sock 0 0) :=
  .connect sock 0 0 (.init staleHeap) hsock (by decide)

/-- A thread that has served one connection with a READ in it and has another. -/
theorem reused_thread_reported : ∃ p, Reports IsNumberAsInt
    [.pool (.reused 0), .pool (.released 0), .processed 0 sawaRead, .pool (.created 0)] p := by
  have hserved : Run [.processed 0 sawaRead, .pool (.created 0)]
      (counted ((init staleHeap).handleNewConnection 5 0 0) 0 sawaRead) := by
    have hr := Run.request 0 SawaServerRun.sysHandler (fun _ => sawaRead) 9 emptyWorld
      (run_first 5 (by decide)) (by simp [events, InUse])
    rwa [processRequest_eq] at hr
  have hreleased := Run.release 0 hserved (by simp [events, InUse])
  exact ⟨_, statistics_report (.connect 7 1 0 hreleased (by decide) (by decide))⟩

theorem events_many (n : ℕ) (h : List Step) :
    events (List.replicate n (.processed 0 sawaInfo) ++ h) = events h := by
  induction n with
  | zero => rfl
  | succ n ih => rw [List.replicate_succ, List.cons_append, events, ih]

theorem run_many_requests (n : ℕ) :
    ∃ p, Run (List.replicate n (.processed 0 sawaInfo) ++ [.pool (.created 0)]) p := by
  induction n with
  | zero => exact ⟨_, run_first 5 (by decide)⟩
  | succ n ih =>
    obtain ⟨p, hp⟩ := ih
    have huse : InUse (events (List.replicate n (.processed 0 sawaInfo) ++
        [.pool (.created 0)])) 0 := by
      rw [events_many]
      exact Or.inl rfl
    exact run_request hp huse sawaInfo

theorem requests_many (n : ℕ) (h : List Step) :
    requests 0 infoCol (List.replicate n (.processed 0 sawaInfo) ++ h) =
      requests 0 infoCol h + n := by
  induction n with
  | zero => rfl
  | succ n ih =>
    rw [List.replicate_succ, List.cons_append, requests, ih, if_pos ⟨rfl, rfl⟩, Nat.add_assoc]

/-- After 2^31 requests of one thread its record cannot hold their number. -/
theorem counter_beyond_int : ¬ ∀ h p, Run h p → Reports IsNumber h p := by
  intro hall
  obtain ⟨p, hp⟩ := run_many_requests (2 ^ 31)
  obtain ⟨ws, buf, -, hexact⟩ := hall _ p hp
  have hmem : (0 : Addr) ∈ createdIn (events
      (List.replicate (2 ^ 31) (.processed 0 sawaInfo) ++ [.pool (.created 0)])) := by
    rw [events_many]
    exact List.mem_singleton_self 0
  have hinfo := (hexact.records 0 hmem).info infoCol
  rw [requests_many] at hinfo
  have hlt := Int32.toInt_lt ((statAt buf (4 + sizeofThreadStat * (p.heap 0).nb)).info
    infoCol).toInt32
  rw [IsNumber, signed] at hinfo
  simp only [requests] at hinfo
  omega

end ThreadCounters
