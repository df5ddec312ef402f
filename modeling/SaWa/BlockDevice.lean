import SaWa.BlockRequestSafety
import SaWa.SawaDriverThreads
import Mathlib.Logic.Function.Basic

/-! The block device as a whole: the request engine of `main.c` transfers its segments with the
calls of `sawa.c`, and every message is left to a thread of the server, which takes its turns call
by call. What the block layer sees is compared with one flat disk. -/
namespace BlockDevice

open EffectProgram (run)
open GuardedRuns
open RangeStore
open SawaProtocol (Mem)
open SawaServerRun (Shared capacity)
open SawaServerBounds (newWorld length_newFile)
open SawaDriver (sawaWriteData sawaReadAsk sawaReadAnswer writeMessage)
open SawaDriverRun (Net netHandler Connects run_sawaWriteData_at_once)
open SawaDriverOrder (Write ReadResult OnePiece lastData sevens atOnce)
open SawaDriverThreads (Task Reading SentWhole Orderly)
open BlockRequestEngine

def sectorOf (seg : Segment) : UInt64 := UInt64.ofNat seg.pos

def nsectOf (seg : Segment) : UInt64 := UInt64.ofNat seg.curSectors

/-- The segment lies inside the disk that `set_capacity` announced. -/
def InDisk (seg : Segment) : Prop := (sectorOf seg).toNat + (nsectOf seg).toNat ≤ 2048

instance (seg : Segment) : Decidable (InDisk seg) := inferInstanceAs (Decidable (_ ≤ _))

/-- A call of `blockdev_transfer` that has returned, with what the buffer held then. -/
structure Transfer where
  nb : ℕ
  i : ℕ
  segment : Segment
  write : Bool
  ret : ℤ
  data : Mem

/-- `memory` is what the buffers of the block layer hold. `transfers` has the newest first. -/
structure Device where
  engine : Engine
  driver : SawaDriverThreads.State
  memory : ℕ → Mem
  transfers : List Transfer

def start (shared : Shared) (memory : ℕ → Mem) : Device :=
  ⟨BlockRequestEngine.initial, SawaDriverThreads.initial shared, memory, []⟩

/-- `blockdev_transfer` has returned to `work_handler`. -/
def Device.transferred (d : Device) (r : Request) (ret : ℤ) (driver : SawaDriverThreads.State)
    (data : Mem) : Device where
  engine := BlockRequestEngine.transfer ret d.engine
  driver := driver
  memory := Function.update d.memory r.segment.buffer data
  transfers := ⟨r.nb, r.cur, r.segment, r.dataDir, ret, data⟩ :: d.transfers

/-- The handler is before the transfer of the current segment of `r`. -/
structure Transferring (e : Engine) (r : Request) (write : Bool) : Prop where
  looping : e.handler = .looping
  current : e.currentReq = some r
  direction : r.dataDir = write

inductive Act where
  | engine (a : Action)
  | fill (buffer : ℕ) (data : Mem)
  | write (r : Request) (net : Net) (cut : ℕ → ℕ)
  | ask (r : Request) (net : Net) (cut : ℕ → ℕ)
  | answer
  | serve (k : ℕ)

/-- Everything the engine does but the transfers, a buffer of the block layer that changes, the
two branches of `blockdev_transfer`, and the next call of a server thread. A read waits between
`ask` and `answer`. `cut` tells how much of the message each `read` of the server brings. -/
inductive Step : Device → Act → Device → Prop where
  | engine (d) (a : Action) (he : Enabled d.engine a)
      (ha : d.engine.currentReq = none ∨ ∀ ret, a ≠ .transfer ret) :
      Step d (.engine a) { d with engine := next d.engine a }
  | fill (d) (buffer : ℕ) (data : Mem) :
      Step d (.fill buffer data) { d with memory := Function.update d.memory buffer data }
  | write (d) (r : Request) (rounds : ℕ) (net net' : Net) (cut : ℕ → ℕ) (info : Fin 3 → ℕ)
      (ht : Transferring d.engine r true) (hdisk : InDisk r.segment) (hnew : net.wire = [])
      (hrun : run netHandler (sawaWriteData rounds (sectorOf r.segment) (nsectOf r.segment)
        (d.memory r.segment.buffer)) net = (some 0, net')) :
      Step d (.write r net cut) (d.transferred r 0
        { d.driver.issue (.opened (.writeData (sectorOf r.segment) (nsectOf r.segment)
            (d.memory r.segment.buffer)) net'.wire cut info) with
          writes := ⟨sectorOf r.segment, nsectOf r.segment, d.memory r.segment.buffer⟩ ::
            d.driver.writes }
        (d.memory r.segment.buffer))
  | writeRefused (d) (r : Request) (rounds : ℕ) (net net' : Net) (cut : ℕ → ℕ)
      (ht : Transferring d.engine r true)
      (hrun : run netHandler (sawaWriteData rounds (sectorOf r.segment) (nsectOf r.segment)
        (d.memory r.segment.buffer)) net = (some (-1), net')) :
      Step d (.write r net cut) (d.transferred r (-1) d.driver (d.memory r.segment.buffer))
  | ask (d) (r : Request) (rounds : ℕ) (net net' : Net) (cut : ℕ → ℕ) (info : Fin 3 → ℕ)
      (ht : Transferring d.engine r false) (hidle : d.driver.reading = none)
      (hdisk : InDisk r.segment) (hnew : net.wire = [])
      (hrun : run netHandler (sawaReadAsk rounds (sectorOf r.segment) (nsectOf r.segment)) net =
        (some true, net')) :
      Step d (.ask r net cut) { d with
        driver := { d.driver.issue (.opened (.readData (sectorOf r.segment) (nsectOf r.segment))
            net'.wire cut info) with
          reading := some ⟨d.driver.tasks.length, sectorOf r.segment, nsectOf r.segment, net',
            d.driver.writes⟩ } }
  | askRefused (d) (r : Request) (rounds : ℕ) (net net' : Net) (cut : ℕ → ℕ)
      (ht : Transferring d.engine r false) (hidle : d.driver.reading = none)
      (hrun : run netHandler (sawaReadAsk rounds (sectorOf r.segment) (nsectOf r.segment)) net =
        (some false, net')) :
      Step d (.ask r net cut) (d.transferred r (-1) d.driver (d.memory r.segment.buffer))
  | answer (d) (r : Request) (q : Reading) (rounds : ℕ) (data : Mem) (ret : ℤ) (net' : Net)
      (ht : Transferring d.engine r false) (hreading : d.driver.reading = some q)
      (hrun : run netHandler (sawaReadAnswer rounds q.nbSectors (d.memory r.segment.buffer))
        { q.net with reply := d.driver.reply q } = (some (ret, data), net')) :
      Step d .answer (d.transferred r ret { d.driver with reading := none } data)
  | serve (d) (k : ℕ) : Step d (.serve k) { d with driver := d.driver.serve k }

/-- The states of the runs whose steps all meet the condition. -/
inductive Reachable (ok : Device → Act → Prop) (shared : Shared) (memory : ℕ → Mem) :
    Device → Prop where
  | start : Reachable ok shared memory (start shared memory)
  | step {d d' a} (h : Reachable ok shared memory d) (hok : ok d a) (hs : Step d a d') :
      Reachable ok shared memory d'

/-! ### What the block layer is promised -/

/-- The writes among the transfers that returned 0, as calls of `sawa_write_data`. -/
def writesOf : List Transfer → List Write
  | [] => []
  | t :: older =>
    if t.write = true ∧ t.ret = 0 then
      ⟨sectorOf t.segment, nsectOf t.segment, t.data⟩ :: writesOf older
    else writesOf older

/-- The read fills its buffer with the bytes last written by the transfers before it. -/
def Transfer.Delivered (init : Mem) (t : Transfer) (older : List Transfer) : Prop :=
  t.write = false → t.ret = 0 →
    ReadResult.Right init ⟨sectorOf t.segment, nsectOf t.segment, t.data, writesOf older⟩

/-- What the log says of a transfer. -/
def Transfer.event (t : Transfer) : Event := .transferred t.nb t.i t.segment t.write

def isTransferred : Event → Bool
  | .transferred _ _ _ _ => true
  | _ => false

/-- A flat disk that holds `init` at first: each segment goes to it once, in the order of the
log, is ended with the result of its own transfer, and a read that is ended with 0 has what was
last written. Once every thread of the server has returned, its file is the disk. -/
structure FlatDisk (init : Mem) (d : Device) : Prop where
  once : BlockRequestSafety.ExactlyOnce d.engine.arrived d.engine.log
  order : d.engine.log.filter isTransferred = d.transfers.map Transfer.event
  results : ∀ nb i ret, .ended nb i ret ∈ d.engine.log →
    ∃ t ∈ d.transfers, t.nb = nb ∧ t.i = i ∧ t.ret = ret
  reads : ∀ newer t older, d.transfers = newer ++ t :: older → t.Delivered init older
  settled : d.driver.Settled →
    image 0 d.driver.shared.fp.contents = lastData init (writesOf d.transfers)

/-- Messages are sent and read whole and are short enough for the server, a reply is received in
one piece, and the threads of the server are in place and serve no request ahead of an older write
to a sector of its own. -/
def Ordered (d : Device) : Act → Prop
  | .write r net cut => Connects net → (nsectOf r.segment).toNat ≤ 63 ∧
    SentWhole net cut (9 + 512 * (nsectOf r.segment).toNat)
  | .ask r net cut => Connects net →
    SentWhole net cut 13 ∧ OnePiece net.recvs (512 * (nsectOf r.segment).toNat)
  | .serve k => Orderly d.driver k
  | _ => True

/-! ### The engine in the device -/

section EngineSteps
variable {e e' : Engine} {a : Action} {r : Request}

theorem log_fetched (h : Fetched e e') : ∃ l, e'.log = skip l ++ e.log := by
  cases h with
  | empty l => exact ⟨l, rfl⟩
  | found l => exact ⟨l, rfl⟩

theorem log_called (h : Called e e') : ∃ l, e'.log = skip l ++ e.log := by
  cases h with
  | busy => exact ⟨[], rfl⟩
  | nothing hc hf ht =>
    obtain ⟨l, hl⟩ := log_fetched hf
    exact ⟨l, hl⟩
  | scheduled hc hf ht =>
    obtain ⟨l, hl⟩ := log_fetched hf
    exact ⟨l, hl⟩

/-- What a step of the engine other than a transfer adds to the log. -/
inductive Logged (e : Engine) : Action → List Event → Prop where
  | skipped (a : Action) (l : List Request) : Logged e a (skip l ++ e.log)
  | ended (l : List Request) (ret : ℤ) (r : Request) (hh : e.handler = .ending ret)
      (hc : e.currentReq = some r) :
      Logged e .endSegment (skip l ++ .ended r.nb r.cur ret :: e.log)

theorem log_next (hi : BlockRequestProgress.Invariant e) (he : Enabled e a)
    (ha : e.currentReq = none ∨ ∀ ret, a ≠ .transfer ret) : Logged e a (next e a).log := by
  cases a with
  | arrive rs q =>
    obtain ⟨l, hl⟩ := log_called (blockdevRequest_called { e with
      queue := q, arrived := rs ++ e.arrived })
    rw [next, hl]
    exact .skipped _ l
  | start => exact .skipped _ []
  | transfer ret =>
    rcases ha with hnone | hno
    · simp only [next, transfer, hnone]
      exact .skipped _ []
    · exact absurd rfl (hno ret)
  | endSegment =>
    obtain ⟨ret, hret⟩ := he
    have hn : next e .endSegment = endSegment ret e := by simp [next, hret]
    rw [hn]
    cases hc : e.currentReq with
    | none =>
      simp only [endSegment, hc]
      exact .skipped _ []
    | some r =>
      have hended := @endSegment_ended _ ret _ (hi.queue_set (by simp [hc])) hc
      generalize endSegment ret e = e' at hended
      cases hended with
      | more h => exact .ended [] ret r hret hc
      | last h hf =>
        obtain ⟨l, hl⟩ := log_fetched hf
        rw [hl]
        exact .ended l ret r hret hc
  | test => exact .skipped _ []

theorem filter_skip (l : List Request) (log : List Event) :
    (skip l ++ log).filter isTransferred = log.filter isTransferred := by
  have hnone : (skip l).filter isTransferred = [] := by
    apply List.filter_eq_nil_iff.mpr
    intro ev hev
    simp only [skip, List.mem_reverse, List.mem_map] at hev
    obtain ⟨r, -, rfl⟩ := hev
    exact Bool.false_ne_true
  rw [List.filter_append, hnone, List.nil_append]

theorem Logged.filter_eq {log : List Event} (h : Logged e a log) :
    log.filter isTransferred = e.log.filter isTransferred := by
  cases h with
  | skipped a l => exact filter_skip l _
  | ended l ret r => exact filter_skip l _

theorem ended_of_skip {l : List Request} {log : List Event} {nb i : ℕ} {ret : ℤ}
    (h : .ended nb i ret ∈ skip l ++ log) : .ended nb i ret ∈ log := by
  rcases List.mem_append.mp h with h | h
  · simp only [skip, List.mem_reverse, List.mem_map] at h
    obtain ⟨r, -, hr⟩ := h
    cases hr
  · exact h

/-- While a segment is transferred, only arrivals are left to the engine, and they do not touch
the current request. -/
theorem next_looping (he : Enabled e a) (hh : e.handler = .looping)
    (hc : e.currentReq = some r) (ha : ∀ ret, a ≠ .transfer ret) :
    (next e a).handler = .looping ∧ (next e a).currentReq = some r := by
  cases a with
  | arrive rs q => simp [next, blockdevRequest, hc, hh]
  | start =>
    have hidle : e.handler = .idle := he.2
    rw [hh] at hidle
    cases hidle
  | transfer ret => exact absurd rfl (ha ret)
  | endSegment =>
    obtain ⟨ret, hret⟩ := he
    rw [hh] at hret
    cases hret
  | test =>
    have htest : e.handler = .testing := he
    rw [hh] at htest
    cases htest

/-- The end of a segment is reached by its transfer only. -/
theorem next_ending (hi : BlockRequestProgress.Invariant e)
    (ht : BlockRequestSafety.Tracked e) (he : Enabled e a)
    (ha : e.currentReq = none ∨ ∀ ret, a ≠ .transfer ret) {ret : ℤ}
    (h : (next e a).handler = .ending ret) :
    e.handler = .ending ret ∧ ∀ r, e.currentReq = some r → (next e a).currentReq = some r := by
  cases a with
  | arrive rs q =>
    have hcalled := blockdevRequest_called { e with queue := q, arrived := rs ++ e.arrived }
    rw [next] at h ⊢
    generalize blockdevRequest { e with queue := q, arrived := rs ++ e.arrived } = t at hcalled h
    cases hcalled with
    | busy hc => exact ⟨h, fun r hr => hr⟩
    | nothing hc hf _ =>
      have hh : e.handler = .ending ret := hf.unchanged.2.2.1.symm.trans h
      exact absurd hc (ht.ending_current ret hh)
    | scheduled hc hf _ =>
      have hh : e.handler = .ending ret := hf.unchanged.2.2.1.symm.trans h
      exact absurd hc (ht.ending_current ret hh)
  | start => cases h
  | transfer ret' =>
    rcases ha with hnone | hno
    · simp only [next, transfer, hnone] at h
      cases h
    · exact absurd rfl (hno ret')
  | endSegment =>
    obtain ⟨ret', hret⟩ := he
    have hn : next e .endSegment = endSegment ret' e := by simp [next, hret]
    rw [hn] at h
    obtain ⟨r, hr⟩ := Option.ne_none_iff_exists'.mp (ht.ending_current ret' hret)
    have hended := @endSegment_ended _ ret' _ (hi.queue_set (by simp [hr])) hr
    generalize endSegment ret' e = t at hended h
    cases hended with
    | more => cases h
    | last hl hf =>
      have hh := hf.unchanged.2.2.1.symm.trans h
      cases hh
  | test =>
    simp only [next, test] at h
    split at h <;> cases h

end EngineSteps

/-! ### The invariant -/

def AllDelivered (init : Mem) : List Transfer → Prop
  | [] => True
  | t :: older => t.Delivered init older ∧ AllDelivered init older

theorem AllDelivered.delivered {init : Mem} {t : Transfer} {newer older : List Transfer}
    (h : AllDelivered init (newer ++ t :: older)) : t.Delivered init older := by
  induction newer with
  | nil => exact h.1
  | cons _ newer ih => exact ih h.2

/-- The read that waits is that of the current segment. -/
def Waiting (e : Engine) (q : Reading) : Prop :=
  ∃ r, Transferring e r false ∧ q.sector = sectorOf r.segment ∧ q.nbSectors = nsectOf r.segment

/-- The transfer that has returned `ret` is that of the current segment. -/
def Returned (d : Device) (ret : ℤ) : Prop :=
  ∃ r t older, d.engine.currentReq = some r ∧ d.transfers = t :: older ∧
    t.nb = r.nb ∧ t.i = r.cur ∧ t.ret = ret

structure Linked (init : Mem) (d : Device) : Prop where
  reach : GuardedRuns.Reachable engine d.engine
  driver : SawaDriverThreads.Invariant init d.driver
  writes_eq : d.driver.writes = writesOf d.transfers
  waiting : ∀ q, d.driver.reading = some q → Waiting d.engine q
  delivered : AllDelivered init d.transfers
  order : d.engine.log.filter isTransferred = d.transfers.map Transfer.event
  ending : ∀ ret, d.engine.handler = .ending ret → Returned d ret
  results : ∀ nb i ret, .ended nb i ret ∈ d.engine.log →
    ∃ t ∈ d.transfers, t.nb = nb ∧ t.i = i ∧ t.ret = ret

section Steps
variable {init : Mem} {d d' : Device} {r : Request} {write : Bool}

theorem transfer_eq (ht : Transferring d.engine r write) (ret : ℤ) :
    BlockRequestEngine.transfer ret d.engine = { d.engine with
      handler := .ending ret
      log := .transferred r.nb r.cur r.segment r.dataDir :: d.engine.log } := by
  simp [BlockRequestEngine.transfer, ht.current]

/-- A transfer returns: the engine goes on to the end of the segment, and nothing reads. -/
theorem linked_transferred (hl : Linked init d) (ht : Transferring d.engine r write) (ret : ℤ)
    {driver : SawaDriverThreads.State} {data : Mem}
    (hdriver : SawaDriverThreads.Invariant init driver) (hidle : driver.reading = none)
    (hwrites : driver.writes =
      writesOf (⟨r.nb, r.cur, r.segment, r.dataDir, ret, data⟩ :: d.transfers))
    (hright : Transfer.Delivered init ⟨r.nb, r.cur, r.segment, r.dataDir, ret, data⟩
      d.transfers) :
    Linked init (d.transferred r ret driver data) := by
  have heq := transfer_eq ht ret
  have hnext : BlockRequestEngine.transfer ret d.engine = next d.engine (.transfer ret) := rfl
  constructor
  · show GuardedRuns.Reachable engine (BlockRequestEngine.transfer ret d.engine)
    rw [hnext]
    exact .next (Action.transfer ret) hl.reach ht.looping trivial
  · exact hdriver
  · exact hwrites
  · intro q hq
    have hnone : driver.reading = some q := hq
    rw [hidle] at hnone
    cases hnone
  · exact ⟨hright, hl.delivered⟩
  · simp only [Device.transferred, heq, List.filter_cons, isTransferred, if_true, List.map_cons]
    rw [hl.order]
    rfl
  · intro ret' hret
    simp only [Device.transferred, heq, Handler.ending.injEq] at hret
    refine ⟨r, _, _, ?_, rfl, rfl, rfl, hret⟩
    simp only [Device.transferred, heq]
    exact ht.current
  · intro nb i ret' hm
    simp only [Device.transferred, heq, List.mem_cons, reduceCtorEq, false_or] at hm
    obtain ⟨t, hmem, hkey⟩ := hl.results nb i ret' hm
    exact ⟨t, List.mem_cons_of_mem _ hmem, hkey⟩

theorem linked_engine (hl : Linked init d) {a : Action} (he : Enabled d.engine a)
    (ha : d.engine.currentReq = none ∨ ∀ ret, a ≠ .transfer ret) :
    Linked init { d with engine := next d.engine a } := by
  have hi := BlockRequestProgress.reachable_invariant hl.reach
  have htr := BlockRequestSafety.reach_tracked hl.reach
  have hlog := log_next hi he ha
  constructor
  · exact .next a hl.reach he trivial
  · exact hl.driver
  · exact hl.writes_eq
  · intro q hq
    obtain ⟨r, ht, hsector, hnsect⟩ := hl.waiting q hq
    have hno : ∀ ret, a ≠ .transfer ret := by
      rcases ha with hnone | hno
      · rw [ht.current] at hnone
        cases hnone
      · exact hno
    obtain ⟨hloop, hcur⟩ := next_looping he ht.looping ht.current hno
    exact ⟨r, ⟨hloop, hcur, ht.direction⟩, hsector, hnsect⟩
  · exact hl.delivered
  · exact hlog.filter_eq.trans hl.order
  · intro ret hret
    obtain ⟨hend, hcur⟩ := next_ending hi htr he ha hret
    obtain ⟨r, t, older, hr, ht⟩ := hl.ending ret hend
    exact ⟨r, t, older, hcur r hr, ht⟩
  · intro nb i ret hm
    show ∃ t ∈ d.transfers, _
    simp only at hm
    generalize (next d.engine a).log = log at hlog hm
    cases hlog with
    | skipped a l => exact hl.results nb i ret (ended_of_skip hm)
    | ended l ret' r hh hc =>
      rcases List.mem_cons.mp (ended_of_skip hm) with heq | hm
      · obtain ⟨rfl, rfl, rfl⟩ := Event.ended.inj heq
        obtain ⟨r', t, older, hr', htop, hnb, hi, hret⟩ := hl.ending ret hh
        obtain rfl : r = r' := Option.some.inj (hc.symm.trans hr')
        exact ⟨t, htop ▸ List.mem_cons_self, hnb, hi, hret⟩
      · exact hl.results nb i ret hm

theorem reading_none (hl : Linked init d) (ht : Transferring d.engine r true) :
    d.driver.reading = none := by
  cases hq : d.driver.reading with
  | none => rfl
  | some q =>
    obtain ⟨r', ht', -⟩ := hl.waiting q hq
    obtain rfl : r = r' := Option.some.inj (ht.current.symm.trans ht'.current)
    exact absurd (ht.direction.symm.trans ht'.direction) (by decide)

theorem linked_step {a : Act} (hs : Step d a d') (hok : Ordered d a) (hl : Linked init d) :
    Linked init d' := by
  cases hs with
  | engine a he ha => exact linked_engine hl he ha
  | fill buffer data =>
    exact ⟨hl.reach, hl.driver, hl.writes_eq, hl.waiting, hl.delivered, hl.order, hl.ending,
      hl.results⟩
  | write r rounds net net' cut info ht hdisk hnew hrun =>
    have hidle := reading_none hl ht
    obtain ⟨hwire, h63, hcut⟩ := SawaDriverThreads.wire_write hdisk hnew hok hrun
    have hdriver := SawaDriverThreads.invariant_write hl.driver hidle ⟨hdisk, h63⟩ hcut info
    rw [hwire]
    refine linked_transferred hl ht 0 hdriver hidle ?_ ?_
    · simp [writesOf, ht.direction, hl.writes_eq]
    · intro hread
      exact absurd (hread.symm.trans ht.direction) (by decide)
  | writeRefused r rounds net net' cut ht hrun =>
    refine linked_transferred hl ht (-1) hl.driver (reading_none hl ht) ?_ ?_
    · simp [writesOf, hl.writes_eq]
    · intro _ hret
      exact absurd (show (-1 : ℤ) = 0 from hret) (by decide)
  | ask r rounds net net' cut info ht hidle hdisk hnew hrun =>
    obtain ⟨hwire, hone, hcut⟩ := SawaDriverThreads.wire_ask hnew hok hrun
    have hdriver := SawaDriverThreads.invariant_ask hl.driver hdisk hone hcut info
    rw [hwire]
    refine ⟨hl.reach, hdriver, hl.writes_eq, ?_, hl.delivered, hl.order, hl.ending, hl.results⟩
    rintro q ⟨⟩
    exact ⟨r, ht, rfl, rfl⟩
  | askRefused r rounds net net' cut ht hidle hrun =>
    refine linked_transferred hl ht (-1) hl.driver hidle ?_ ?_
    · simp [writesOf, hl.writes_eq]
    · intro _ hret
      exact absurd (show (-1 : ℤ) = 0 from hret) (by decide)
  | answer r q rounds data ret net' ht hreading hrun =>
    have hdriver := SawaDriverThreads.invariant_answer hl.driver
    obtain ⟨r', ht', hsector, hnsect⟩ := hl.waiting q hreading
    obtain rfl : r = r' := Option.some.inj (ht.current.symm.trans ht'.current)
    refine linked_transferred hl ht ret hdriver rfl ?_ ?_
    · simp [writesOf, ht.direction, hl.writes_eq]
    · rintro - rfl
      have hright := SawaDriverThreads.right_answer hl.driver hreading hrun
      rw [hsector, hnsect, (hl.driver.awaits q hreading).history_eq, hl.writes_eq] at hright
      exact hright
  | serve k =>
    have hdriver := SawaDriverThreads.invariant_serve hl.driver hok
    have hreading := SawaDriverThreads.reading_serve d.driver k
    have hwrites := SawaDriverThreads.writes_serve d.driver k
    exact ⟨hl.reach, hdriver, hwrites.trans hl.writes_eq, fun q hq => hl.waiting q (hreading ▸ hq),
      hl.delivered, hl.order, hl.ending, hl.results⟩

end Steps

section Runs
variable {shared : Shared} {memory : ℕ → Mem} {d : Device}

theorem linked_start (hlen : shared.fp.contents.length = capacity) :
    Linked (image 0 shared.fp.contents) (start shared memory) := by
  constructor
  · exact .start rfl
  · exact SawaDriverThreads.invariant_initial hlen
  · rfl
  · nofun
  · trivial
  · rfl
  · nofun
  · nofun

/-- In every run that keeps to the order, the device is a flat disk to the block layer. -/
theorem device_is_flat_disk (hlen : shared.fp.contents.length = capacity)
    (h : Reachable Ordered shared memory d) : FlatDisk (image 0 shared.fp.contents) d := by
  have hl : Linked (image 0 shared.fp.contents) d := by
    induction h with
    | start => exact linked_start hlen
    | step _ hok hs ih => exact linked_step hs hok ih
  constructor
  · exact (BlockRequestSafety.reach_tracked hl.reach).once
  · exact hl.order
  · exact hl.results
  · intro newer t older ht
    exact (ht ▸ hl.delivered : AllDelivered _ (newer ++ t :: older)).delivered
  · intro hsettled
    rw [← hl.writes_eq]
    exact SawaDriverThreads.contents_settled hl.driver hsettled

theorem Reachable.engine_step (h : Reachable Ordered shared memory d) (a : Action)
    (he : Enabled d.engine a) (ha : ∀ ret, a ≠ .transfer ret) :
    Reachable Ordered shared memory { d with engine := next d.engine a } :=
  h.step (show Ordered d (.engine a) from trivial) (.engine d a he (.inr ha))

/-- A thread of the server that is left alone comes to its end. -/
theorem Reachable.served_alone {n : ℕ} (h : Reachable Ordered shared memory d)
    (ha : SawaDriverThreads.Alone n d.driver) :
    ∃ d', Reachable Ordered shared memory d' ∧ d'.engine = d.engine ∧ d'.driver.Settled := by
  induction n generalizing d with
  | zero => exact ⟨d, h, rfl, ha.settled⟩
  | succ n ih =>
    have hnext := h.step (show Ordered d (.serve 0) from ha.orderly) (.serve d 0)
    obtain ⟨d', hreach, hengine, hsettled⟩ := ih hnext ha.serve
    exact ⟨d', hreach, hengine, hsettled⟩

end Runs

/-- A request to write sector 0. -/
def oneSector : Request := ⟨0, .fs, true, [⟨0, 1, 0⟩], 0, by simp⟩

/-- It arrives, the handler starts, its segment is written and ended, and the server carries the
message out. -/
theorem one_sector_written :
    ∃ d, Reachable Ordered newWorld.1 (fun _ => sevens) d ∧
      d.engine.log = [.ended 0 0 0, .transferred 0 0 ⟨0, 1, 0⟩ true] ∧ d.driver.Settled ∧
      FlatDisk (image 0 newWorld.1.fp.contents) d := by
  have hrun : run netHandler (sawaWriteData 1 0 1 sevens) atOnce =
      (some 0, atOnce.afterSend (writeMessage 0 1 sevens)) :=
    run_sawaWriteData_at_once 0 sevens (by decide) (by decide) (by decide) 0
  have h₁ := (@Reachable.start Ordered newWorld.1 fun _ => sevens).engine_step
    (.arrive [oneSector] [oneSector]) ⟨by decide, .refl _⟩ nofun
  have h₂ := h₁.engine_step .start ⟨rfl, rfl⟩ nofun
  have hcut : 9 + 512 * (nsectOf oneSector.segment).toNat ≤ 521 := by decide
  have h₃ := h₂.step (show Ordered _ (.write oneSector atOnce fun _ => 521) from
    fun _ => ⟨by decide, ⟨1, by decide, by decide⟩, fun _ => hcut⟩)
    (Step.write _ oneSector 1 atOnce _ (fun _ => 521) (fun _ => 0) ⟨rfl, rfl, rfl⟩ (by decide) rfl
      hrun)
  have h₄ := h₃.engine_step .endSegment ⟨0, rfl⟩ nofun
  obtain ⟨d, h₅, hengine, hsettled⟩ := h₄.served_alone
    (SawaDriverThreads.alone_issue rfl _ _ (fun _ => 521) fun _ => 0)
  exact ⟨d, h₅, hengine ▸ rfl, hsettled, device_is_flat_disk length_newFile h₅⟩

end BlockDevice
