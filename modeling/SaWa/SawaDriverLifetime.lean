import SaWa.EffectLedger
import SaWa.SawaDriver

/-! The driver from one load of the module to the next: `sawa_driver_init`, `sawa_driver_exit` and
the requests in between, over everything they take from the kernel and give back. Any kernel call
may fail. -/
namespace SawaDriverLifetime

open EffectProgram EffectLedger RangeStore SawaProtocol SawaDriver

def enomem : ℤ := 12

/-- The calls of `SawaDriver` and those that take or give back what is not a socket. The three
allocations answer whether they gave something. -/
inductive LifeCall where
  | kernel (e : KernelCall)
  | kmalloc
  | kfree
  | blkInitQueue
  | blkCleanupQueue
  | registerBlkdev
  | unregisterBlkdev (major : UInt32)
  | allocDisk
  | putDisk
  | addDisk
  | delGendisk
  deriving DecidableEq, Repr

abbrev LifeAnswer : LifeCall → Type
  | .kernel e => KernelAnswer e
  | .kmalloc | .blkInitQueue | .allocDisk => Bool
  | .registerBlkdev => Int32
  | .kfree | .blkCleanupQueue | .unregisterBlkdev _ | .putDisk | .addDisk
  | .delGendisk => Unit

abbrev LifeM := Prog LifeCall LifeAnswer

abbrev call (e : LifeCall) : LifeM (LifeAnswer e) := perform e

def onKernel {α : Type} : DriverM α → LifeM α
  | .ret a => .ret a
  | .call e k => .call (.kernel e) fun r => onKernel (k r)

/-- `sawa_write_data` with its buffer. It comes to nothing, as when it takes more rounds than it is
given, where the buffer is null and is written to. -/
def sawaWriteData (rounds : ℕ) (sector nbSectors : UInt64) (buffer : Mem) : LifeM (Option ℤ) := do
  let bufferOut ← call .kmalloc
  if (← onKernel tcpClientConnect) < 0 then return some (-1)
  if !bufferOut then return none
  let some _ ← onKernel (tcpClientSend rounds (writeMessage sector nbSectors buffer)
    (9 + sectorBytes nbSectors).toNat msgWaitall) | return none
  call .kfree
  call (.kernel .sockRelease)
  return some 0

/-- The calls that `SawaDriver` has, with the others left out. -/
def sockets {α : Type} : LifeM α → DriverM α
  | .ret a => .ret a
  | .call (.kernel e) k => .call e fun r => sockets (k r)
  | .call .kmalloc k => sockets (k true)
  | .call .blkInitQueue k => sockets (k true)
  | .call .allocDisk k => sockets (k true)
  | .call .registerBlkdev k => sockets (k 0)
  | .call .kfree k | .call .blkCleanupQueue k | .call (.unregisterBlkdev _) k
  | .call .putDisk k | .call .addDisk k | .call .delGendisk k => sockets (k ())

theorem sockets_onKernel_bind {α β : Type} (p : DriverM α) (f : α → LifeM β) :
    sockets (onKernel p >>= f) = p >>= fun a => sockets (f a) := by
  induction p with
  | ret a => rfl
  | call e k ih => exact congrArg (Prog.call e) (funext ih)

theorem sockets_sawaWriteData (rounds : ℕ) (sector nbSectors : UInt64) (buffer : Mem) :
    sockets (sawaWriteData rounds sector nbSectors buffer) =
      SawaDriver.sawaWriteData rounds sector nbSectors buffer := by
  refine (sockets_onKernel_bind tcpClientConnect _).trans ?_
  refine congrArg (tcpClientConnect >>= ·) (funext fun connected => ?_)
  by_cases hfail : connected < 0
  · simp only [if_pos hfail]
    rfl
  · simp only [if_neg hfail]
    refine (sockets_onKernel_bind _ _).trans (congrArg (_ >>= ·) (funext fun sent => ?_))
    cases sent <;> rfl

/-- `major_number`, and whether the pointers of `sawa_dev` are set. -/
structure Statics where
  majorNumber : UInt32
  queue : Bool
  gd : Bool
  deriving DecidableEq, Repr

/-- The result and the static variables. `major_number` is unsigned. -/
def sawaDriverInit (rounds : ℕ) : LifeM (Option (ℤ × Statics)) := do
  let some ret ← onKernel (sawaSendInfo rounds) | return none
  if ret < 0 then return some (-1, ⟨0, false, false⟩)
  let queue ← call .blkInitQueue
  if !queue then return some (-enomem, ⟨0, false, false⟩)
  let registered ← call .registerBlkdev
  let majorNumber := registered.toUInt32
  if majorNumber < 0 then return some (-enomem, ⟨majorNumber, true, false⟩)
  let gd ← call .allocDisk
  if !gd then
    call (.unregisterBlkdev majorNumber)
    return some (-enomem, ⟨majorNumber, true, false⟩)
  call .addDisk
  return some (0, ⟨majorNumber, true, true⟩)

def sawaDriverExit (s : Statics) : LifeM Unit := do
  if s.gd then
    call .delGendisk
    call .putDisk
  call (.unregisterBlkdev s.majorNumber)
  if s.queue then call .blkCleanupQueue

/-! ### What is held -/

/-- What the driver holds, `faults` for what it gave back without holding it, and the calls that
failed: connects refused, buffers not given, majors not registered, disks not allocated. -/
structure Ledger where
  sockets : ℕ
  blocks : ℕ
  queues : ℕ
  majors : List UInt32
  disks : ℕ
  added : ℕ
  faults : ℕ
  refused : ℕ
  noBlock : ℕ
  unregistered : ℕ
  noDisk : ℕ
  deriving DecidableEq, Repr

def Ledger.empty : Ledger := ⟨0, 0, 0, [], 0, 0, 0, 0, 0, 0, 0⟩

def Ledger.fault (l : Ledger) : Ledger := { l with faults := l.faults + 1 }

/-- `register_blkdev` returns the major or an error below 0. -/
def book : Book LifeCall LifeAnswer Ledger
  | .kernel .sockCreate, ret, l =>
    if (show ℤ from ret) < 0 then l else { l with sockets := l.sockets + 1 }
  | .kernel .connect, ret, l =>
    if (show ℤ from ret) ≠ 0 ∧ (show ℤ from ret) ≠ -einprogress then
      { l with refused := l.refused + 1 }
    else l
  | .kernel .sockRelease, _, l =>
    if l.sockets = 0 then l.fault else { l with sockets := l.sockets - 1 }
  | .kernel _, _, l => l
  | .kmalloc, ok, l =>
    if ok then { l with blocks := l.blocks + 1 } else { l with noBlock := l.noBlock + 1 }
  | .kfree, _, l => if l.blocks = 0 then l.fault else { l with blocks := l.blocks - 1 }
  | .blkInitQueue, ok, l => if ok then { l with queues := l.queues + 1 } else l
  | .blkCleanupQueue, _, l => if l.queues = 0 then l.fault else { l with queues := l.queues - 1 }
  | .registerBlkdev, ret, l =>
    if (show Int32 from ret) < 0 then { l with unregistered := l.unregistered + 1 }
    else { l with majors := (show Int32 from ret).toUInt32 :: l.majors }
  | .unregisterBlkdev major, _, l =>
    if l.majors.contains major then { l with majors := l.majors.erase major } else l.fault
  | .allocDisk, ok, l =>
    if ok then { l with disks := l.disks + 1 } else { l with noDisk := l.noDisk + 1 }
  | .putDisk, _, l => if l.disks = 0 then l.fault else { l with disks := l.disks - 1 }
  | .addDisk, _, l => { l with added := l.added + 1 }
  | .delGendisk, _, l => if l.added = 0 then l.fault else { l with added := l.added - 1 }

/-- What the driver was asked to do, with what it returned. -/
inductive Event where
  | load (ret : ℤ)
  | unload
  | read (ret : ℤ)
  | write (ret : ℤ)
  deriving DecidableEq, Repr

structure Driver where
  loaded : Option Statics
  ledger : Ledger
  history : List Event

/-- The driver over loads, requests and unloads. The kernel keeps a module whose `init` returns
0. -/
inductive Life : Driver → Prop where
  | start : Life ⟨none, .empty, []⟩
  | load {l l' : Ledger} {es : List Event} {ret : ℤ} {st : Statics} (rounds : ℕ)
      (life : Life ⟨none, l, es⟩)
      (h : Ends book (sawaDriverInit rounds) l (some (ret, st)) l') :
      Life ⟨if ret = 0 then some st else none, l', .load ret :: es⟩
  | unload {l l' : Ledger} {es : List Event} {st : Statics} (life : Life ⟨some st, l, es⟩)
      (h : Ends book (sawaDriverExit st) l () l') : Life ⟨none, l', .unload :: es⟩
  | read {l l' : Ledger} {es : List Event} {st : Statics} {ret : ℤ} {bufferIn : Mem} (rounds : ℕ)
      (sector nbSectors : UInt64) (buffer : Mem) (life : Life ⟨some st, l, es⟩)
      (h : Ends book (onKernel (sawaReadData rounds sector nbSectors buffer)) l
        (some (ret, bufferIn)) l') : Life ⟨some st, l', .read ret :: es⟩
  | write {l l' : Ledger} {es : List Event} {st : Statics} {ret : ℤ} (rounds : ℕ)
      (sector nbSectors : UInt64) (buffer : Mem) (life : Life ⟨some st, l, es⟩)
      (h : Ends book (sawaWriteData rounds sector nbSectors buffer) l (some ret) l') :
      Life ⟨some st, l', .write ret :: es⟩

/-! ### The calls on a socket -/

abbrev kernelBook : Book KernelCall KernelAnswer Ledger := fun e => book (.kernel e)

theorem ends_onKernel {α : Type} {p : DriverM α} {l l' : Ledger} {a : α} :
    Ends book (onKernel p) l a l' ↔ Ends kernelBook p l a l' := by
  induction p generalizing l with
  | ret b => rw [onKernel, ends_ret, ends_ret]
  | call e k ih =>
    rw [onKernel, ends_call, ends_call]
    exact exists_congr fun r => ih r

/-- The calls that take no socket and give none back. -/
def Plain : KernelCall → Prop
  | .sockCreate | .connect | .sockRelease => False
  | .buffer | .sendmsg _ _ | .recvmsg _ _ | .setNbSectors _ => True

theorem book_plain (e : KernelCall) (he : Plain e) (r : KernelAnswer e) (l : Ledger) :
    kernelBook e r l = l := by
  cases e with
  | sockCreate | connect | sockRelease => exact he.elim
  | buffer | sendmsg | recvmsg | setNbSectors => rfl

section Socket
variable {l l' : Ledger} {rounds : ℕ}

theorem only_tcpClientSend (buf : List UInt8) (length flags : ℕ) :
    Only Plain (tcpClientSend rounds buf length flags) := by
  apply only_loop
  intro c
  refine ⟨trivial, fun len => ?_⟩
  show Only Plain (ite _ _ _)
  split
  · trivial
  split
  · show Only Plain (ite _ _ _)
    split <;> trivial
  · trivial

theorem only_tcpClientReceive (flags maxSize : ℕ) :
    Only Plain (tcpClientReceive rounds flags maxSize) := by
  apply only_loop
  intro c
  refine ⟨trivial, fun r => ?_⟩
  show Only Plain (ite _ _ _)
  split <;> trivial

/-- Sockets whose connect was refused are kept. -/
def Ledger.keep (l : Ledger) (n : ℕ) : Ledger :=
  { l with sockets := l.sockets + n, refused := l.refused + n }

theorem ends_tcpClientConnect {r : ℤ} (h : Ends kernelBook tcpClientConnect l r l') :
    (r = 0 ∧ l' = { l with sockets := l.sockets + 1 }) ∨ (r = -1 ∧ ∃ n, l' = l.keep n) := by
  rw [tcpClientConnect, ends_bind] at h
  obtain ⟨created, m, hm, h⟩ := h
  rw [ends_perform] at hm
  by_cases hcreated : created < 0
  · rw [if_pos hcreated] at h
    obtain ⟨rfl, rfl⟩ := ends_ret.mp h
    exact Or.inr ⟨rfl, 0, hm.trans (if_pos hcreated)⟩
  · rw [if_neg hcreated, ends_bind] at h
    obtain ⟨connected, m', hm', h⟩ := h
    rw [ends_perform] at hm'
    replace hm := hm.trans (if_neg hcreated)
    subst hm
    by_cases hrefused : connected ≠ 0 ∧ connected ≠ -einprogress
    · rw [if_pos hrefused] at h
      obtain ⟨rfl, rfl⟩ := ends_ret.mp h
      exact Or.inr ⟨rfl, 1, hm'.trans (if_pos hrefused)⟩
    · rw [if_neg hrefused] at h
      obtain ⟨rfl, rfl⟩ := ends_ret.mp h
      exact Or.inl ⟨rfl, hm'.trans (if_neg hrefused)⟩

theorem ends_sawaSendInfo {ret : ℤ} (h : Ends kernelBook (sawaSendInfo rounds) l (some ret) l') :
    (ret = 0 ∧ l' = l) ∨ (ret = -1 ∧ ∃ n, l' = l.keep n) := by
  rw [sawaSendInfo, ends_bind] at h
  obtain ⟨bufferIn, m, hm, h⟩ := h
  obtain rfl : m = l := ends_perform.mp hm
  obtain ⟨connected, m', hm', h⟩ := ends_bind.mp h
  rcases ends_tcpClientConnect hm' with ⟨rfl, rfl⟩ | ⟨rfl, n, rfl⟩
  · left
    rw [if_neg (by decide)] at h
    obtain ⟨sent, m₁, hm₁, h⟩ := ends_bind.mp h
    obtain rfl := hm₁.of_only book_plain (only_tcpClientSend ..)
    cases sent with
    | none => cases (ends_ret.mp h).1
    | some sent =>
      obtain ⟨received, m₂, hm₂, h⟩ := ends_bind.mp h
      obtain rfl := hm₂.of_only book_plain (only_tcpClientReceive ..)
      cases received with
      | none => cases (ends_ret.mp h).1
      | some r =>
        obtain ⟨⟨⟩, m₃, hm₃, h⟩ := ends_bind.mp h
        obtain rfl := ends_perform.mp hm₃
        obtain ⟨⟨⟩, m₄, hm₄, h⟩ := ends_bind.mp h
        obtain rfl := ends_perform.mp hm₄
        obtain ⟨hret, rfl⟩ := ends_ret.mp h
        exact ⟨Option.some.inj hret, rfl⟩
  · right
    rw [if_pos (by decide)] at h
    obtain ⟨hret, rfl⟩ := ends_ret.mp h
    exact ⟨Option.some.inj hret, n, rfl⟩

theorem ends_sawaReadData {sector nbSectors : UInt64} {buffer bufferIn : Mem} {ret : ℤ}
    (h : Ends kernelBook (sawaReadData rounds sector nbSectors buffer) l
      (some (ret, bufferIn)) l') : l' = l ∨ (ret = -1 ∧ ∃ n, l' = l.keep n) := by
  rw [sawaReadData, ends_bind] at h
  obtain ⟨asked, m, hm, h⟩ := h
  rw [sawaReadAsk] at hm
  obtain ⟨connected, m', hm', hm⟩ := ends_bind.mp hm
  rcases ends_tcpClientConnect hm' with ⟨rfl, rfl⟩ | ⟨rfl, n, rfl⟩
  · left
    rw [if_neg (by decide)] at hm
    obtain ⟨sent, m₁, hm₁, hm⟩ := ends_bind.mp hm
    obtain rfl := hm₁.of_only book_plain (only_tcpClientSend ..)
    cases sent with
    | none =>
      obtain ⟨rfl, rfl⟩ := ends_ret.mp hm
      cases (ends_ret.mp h).1
    | some sent =>
      obtain ⟨rfl, rfl⟩ := ends_ret.mp hm
      obtain ⟨received, m₂, hm₂, h⟩ := ends_bind.mp h
      obtain rfl := hm₂.of_only book_plain (only_tcpClientReceive ..)
      cases received with
      | none => cases (ends_ret.mp h).1
      | some r =>
        obtain ⟨⟨⟩, m₃, hm₃, h⟩ := ends_bind.mp h
        obtain rfl := ends_perform.mp hm₃
        exact (ends_ret.mp h).2
  · right
    rw [if_pos (by decide)] at hm
    obtain ⟨rfl, rfl⟩ := ends_ret.mp hm
    obtain ⟨hret, rfl⟩ := ends_ret.mp h
    exact ⟨congrArg Prod.fst (Option.some.inj hret), n, rfl⟩

/-- A WRITE whose connection fails keeps its buffer as well, if it has got one. -/
theorem ends_sawaWriteData {sector nbSectors : UInt64} {buffer : Mem} {ret : ℤ}
    (h : Ends book (sawaWriteData rounds sector nbSectors buffer) l (some ret) l') :
    (ret = 0 ∧ l' = l) ∨
      (ret = -1 ∧ ∃ bufferOut n, l' = (book .kmalloc bufferOut l).keep n) := by
  rw [sawaWriteData, ends_bind] at h
  obtain ⟨bufferOut, m, hm, h⟩ := h
  obtain rfl := ends_perform.mp hm
  obtain ⟨connected, m', hm', h⟩ := ends_bind.mp h
  rcases ends_tcpClientConnect (ends_onKernel.mp hm') with ⟨rfl, rfl⟩ | ⟨rfl, n, rfl⟩
  · left
    rw [if_neg (by decide)] at h
    cases bufferOut with
    | false =>
      obtain ⟨hret, -⟩ := ends_ret.mp h
      cases hret
    | true =>
      obtain ⟨sent, m₁, hm₁, h⟩ := ends_bind.mp h
      obtain rfl := (ends_onKernel.mp hm₁).of_only book_plain (only_tcpClientSend ..)
      cases sent with
      | none => cases (ends_ret.mp h).1
      | some sent =>
        obtain ⟨⟨⟩, m₂, hm₂, h⟩ := ends_bind.mp h
        obtain rfl := ends_perform.mp hm₂
        obtain ⟨⟨⟩, m₃, hm₃, h⟩ := ends_bind.mp h
        obtain rfl := ends_perform.mp hm₃
        obtain ⟨hret, rfl⟩ := ends_ret.mp h
        exact ⟨Option.some.inj hret, rfl⟩
  · right
    rw [if_pos (by decide)] at h
    obtain ⟨hret, rfl⟩ := ends_ret.mp h
    exact ⟨Option.some.inj hret, bufferOut, n, rfl⟩

end Socket

/-! ### Loading and unloading -/

/-- What is held when `alloc_disk` is called. -/
def Ledger.registered (l : Ledger) (ret : Int32) : Ledger :=
  book .registerBlkdev ret { l with queues := l.queues + 1 }

section Module
variable {l l' : Ledger} {rounds : ℕ} {ret : ℤ} {st : Statics}

/-- How a load can end: without a server, without a queue, without a disk, or well. The result of
`register_blkdev` is not looked at, for no unsigned number is below 0. -/
theorem ends_sawaDriverInit (h : Ends book (sawaDriverInit rounds) l (some (ret, st)) l') :
    (ret = -1 ∧ ∃ n, l' = l.keep n) ∨ (ret = -enomem ∧ l' = l) ∨
      ∃ registered : Int32,
        (ret = -enomem ∧ l' = book (.unregisterBlkdev registered.toUInt32) ()
          (book .allocDisk false (l.registered registered))) ∨
        (ret = 0 ∧ st = ⟨registered.toUInt32, true, true⟩ ∧
          l' = book .addDisk () (book .allocDisk true (l.registered registered))) := by
  rw [sawaDriverInit, ends_bind] at h
  obtain ⟨info, m, hm, h⟩ := h
  rw [ends_onKernel] at hm
  cases info with
  | none => cases (ends_ret.mp h).1
  | some info =>
    rcases ends_sawaSendInfo hm with ⟨rfl, rfl⟩ | ⟨rfl, n, rfl⟩
    · right
      dsimp only at h
      rw [if_neg (by decide)] at h
      obtain ⟨queue, m₁, hm₁, h⟩ := ends_bind.mp h
      obtain rfl := ends_perform.mp hm₁
      cases queue with
      | false =>
        obtain ⟨hret, rfl⟩ := ends_ret.mp h
        exact Or.inl ⟨congrArg Prod.fst (Option.some.inj hret), rfl⟩
      | true =>
        obtain ⟨registered, m₂, hm₂, h⟩ := ends_bind.mp h
        obtain rfl := ends_perform.mp hm₂
        rw [if_neg (UInt32.not_lt.mpr UInt32.zero_le)] at h
        refine Or.inr ⟨registered, ?_⟩
        obtain ⟨gd, m₃, hm₃, h⟩ := ends_bind.mp h
        obtain rfl := ends_perform.mp hm₃
        cases gd with
        | false =>
          obtain ⟨⟨⟩, m₄, hm₄, h⟩ := ends_bind.mp h
          obtain rfl := ends_perform.mp hm₄
          obtain ⟨hret, rfl⟩ := ends_ret.mp h
          exact Or.inl ⟨congrArg Prod.fst (Option.some.inj hret), rfl⟩
        | true =>
          obtain ⟨⟨⟩, m₄, hm₄, h⟩ := ends_bind.mp h
          obtain rfl := ends_perform.mp hm₄
          obtain ⟨hret, rfl⟩ := ends_ret.mp h
          cases hret
          exact Or.inr ⟨rfl, rfl, rfl⟩
    · left
      dsimp only at h
      rw [if_pos (by decide)] at h
      obtain ⟨hret, rfl⟩ := ends_ret.mp h
      exact ⟨congrArg Prod.fst (Option.some.inj hret), n, rfl⟩

theorem ends_sawaDriverExit {major : UInt32}
    (h : Ends book (sawaDriverExit ⟨major, true, true⟩) l () l') :
    l' = book .blkCleanupQueue () (book (.unregisterBlkdev major) ()
      (book .putDisk () (book .delGendisk () l))) := by
  obtain ⟨⟨⟩, m, hm, h⟩ := ends_bind.mp h
  obtain rfl := ends_perform.mp hm
  obtain ⟨⟨⟩, m₁, hm₁, h⟩ := ends_bind.mp h
  obtain rfl := ends_perform.mp hm₁
  obtain ⟨⟨⟩, m₂, hm₂, h⟩ := ends_bind.mp h
  obtain rfl := ends_perform.mp hm₂
  exact ends_perform.mp h

end Module

/-! ### The whole life of the driver -/

/-- How many modules are loaded. -/
def loads (d : Driver) : ℕ := d.loaded.toList.length

/-- The major was never registered with which the loaded module was added. -/
def Unnamed (d : Driver) : Prop := d.loaded.isSome ∧ d.ledger.majors = []

instance (d : Driver) : Decidable (Unnamed d) := inferInstanceAs (Decidable (_ ∧ _))

/-- Beside what the loaded module needs, the driver keeps the socket of each refused connect, the
buffer of each WRITE that failed, where there was one, and the queue of each load that got no disk.
It gives back what it does not hold only where `register_blkdev` had failed. -/
structure Balanced (d : Driver) : Prop where
  sockets : d.ledger.sockets = d.ledger.refused
  blocks : d.ledger.blocks + d.ledger.noBlock = d.history.count (.write (-1))
  queues : d.ledger.queues = loads d + d.ledger.noDisk
  disks : d.ledger.disks = loads d ∧ d.ledger.added = loads d
  majors : d.ledger.majors = [] ∨ ∃ st, d.loaded = some st ∧ d.ledger.majors = [st.majorNumber]
  faults : d.ledger.faults + (if Unnamed d then 1 else 0) = d.ledger.unregistered
  statics : ∀ st, d.loaded = some st → st = ⟨st.majorNumber, true, true⟩

section Balanced
variable {l l' : Ledger} {es : List Event} {st : Statics} {loaded : Option Statics}

theorem balanced_start : Balanced ⟨none, .empty, []⟩ :=
  ⟨rfl, rfl, rfl, ⟨rfl, rfl⟩, Or.inl rfl, rfl, nofun⟩

theorem Balanced.blocks_cons (h : Balanced ⟨loaded, l, es⟩) {e : Event} (he : e ≠ .write (-1)) :
    l.blocks + l.noBlock = (e :: es).count (.write (-1)) :=
  h.blocks.trans (List.count_cons_of_ne he).symm

/-- A request changes nothing but the sockets that it keeps. -/
theorem Balanced.request (h : Balanced ⟨loaded, l, es⟩) (n : ℕ) {e : Event}
    (he : e ≠ .write (-1)) : Balanced ⟨loaded, l.keep n, e :: es⟩ where
  sockets := congrArg (· + n) h.sockets
  blocks := h.blocks_cons he
  queues := h.queues
  disks := h.disks
  majors := h.majors
  faults := h.faults
  statics := h.statics

theorem Balanced.failed_write (h : Balanced ⟨loaded, l, es⟩) (bufferOut : Bool) (n : ℕ) :
    Balanced ⟨loaded, (book .kmalloc bufferOut l).keep n, .write (-1) :: es⟩ := by
  have hcount : l.blocks + l.noBlock + 1 = (Event.write (-1) :: es).count (.write (-1)) :=
    (congrArg (· + 1) h.blocks).trans List.count_cons_self.symm
  cases bufferOut with
  | true =>
    have hblocks : l.blocks + 1 + l.noBlock = l.blocks + l.noBlock + 1 := by omega
    exact ⟨congrArg (· + n) h.sockets, hblocks.trans hcount, h.queues, h.disks, h.majors, h.faults,
      h.statics⟩
  | false =>
    exact ⟨congrArg (· + n) h.sockets, hcount, h.queues, h.disks, h.majors, h.faults, h.statics⟩

theorem Balanced.no_major (h : Balanced ⟨none, l, es⟩) : l.majors = [] := by
  rcases h.majors with hnil | ⟨st, hst, -⟩
  · exact hnil
  · cases hst

theorem registered_failed {registered : Int32} (h : registered < 0) : l.registered registered =
    { l with queues := l.queues + 1, unregistered := l.unregistered + 1 } := if_pos h

theorem registered_ok {registered : Int32} (h : ¬ registered < 0) : l.registered registered =
    { l with queues := l.queues + 1, majors := registered.toUInt32 :: l.majors } := if_neg h

/-- A load that gets no disk gives back the major, or one that it does not have. -/
theorem Balanced.no_disk (h : Balanced ⟨none, l, es⟩) (registered : Int32) (ret : ℤ) :
    Balanced ⟨none, book (.unregisterBlkdev registered.toUInt32) ()
      (book .allocDisk false (l.registered registered)), .load ret :: es⟩ := by
  have hmajors := h.no_major
  have hblocks := @Balanced.blocks_cons _ _ _ h (.load ret) nofun
  have hqueues : l.queues + 1 = 0 + (l.noDisk + 1) := by
    have hqueues : l.queues = 0 + l.noDisk := h.queues
    omega
  by_cases hfail : registered < 0
  · have hledger : book (.unregisterBlkdev registered.toUInt32) ()
        (book .allocDisk false (l.registered registered)) =
        { l with
          queues := l.queues + 1
          unregistered := l.unregistered + 1
          noDisk := l.noDisk + 1
          faults := l.faults + 1 } := by
      rw [registered_failed hfail]
      simp [book, hmajors, Ledger.fault]
    rw [hledger]
    exact ⟨h.sockets, hblocks, hqueues, h.disks, h.majors, congrArg (· + 1) h.faults, nofun⟩
  · have hledger : book (.unregisterBlkdev registered.toUInt32) ()
        (book .allocDisk false (l.registered registered)) =
        { l with
          queues := l.queues + 1
          noDisk := l.noDisk + 1 } := by
      rw [registered_ok hfail]
      simp [book, hmajors]
    rw [hledger]
    exact ⟨h.sockets, hblocks, hqueues, h.disks, h.majors, h.faults, nofun⟩

theorem Balanced.load (h : Balanced ⟨none, l, es⟩) (registered : Int32) (ret : ℤ) :
    Balanced ⟨some ⟨registered.toUInt32, true, true⟩,
      book .addDisk () (book .allocDisk true (l.registered registered)), .load ret :: es⟩ := by
  have hmajors := h.no_major
  have hblocks := @Balanced.blocks_cons _ _ _ h (.load ret) nofun
  have hqueues : l.queues + 1 = 1 + l.noDisk := by
    have hqueues : l.queues = 0 + l.noDisk := h.queues
    omega
  have hdisks : l.disks + 1 = 1 ∧ l.added + 1 = 1 :=
    ⟨congrArg (· + 1) h.disks.1, congrArg (· + 1) h.disks.2⟩
  have hfaults : l.faults = l.unregistered := h.faults
  have hstatics : ∀ st, some (⟨registered.toUInt32, true, true⟩ : Statics) = some st →
      st = ⟨st.majorNumber, true, true⟩ := by
    rintro st ⟨⟩
    rfl
  by_cases hfail : registered < 0
  · rw [registered_failed hfail]
    refine ⟨h.sockets, hblocks, hqueues, hdisks, Or.inl hmajors, ?_, hstatics⟩
    exact (congrArg (l.faults + ·) (if_pos ⟨rfl, hmajors⟩)).trans (congrArg (· + 1) hfaults)
  · rw [registered_ok hfail]
    refine ⟨h.sockets, hblocks, hqueues, hdisks, Or.inr ⟨_, rfl, ?_⟩, ?_, hstatics⟩
    · exact congrArg (registered.toUInt32 :: ·) hmajors
    · exact (congrArg (l.faults + ·) (if_neg fun hun => List.cons_ne_nil _ _ hun.2)).trans hfaults

/-- An unload gives back what a load took, and a major that was never registered is a fault. -/
theorem Balanced.unload {major : UInt32} (h : Balanced ⟨some ⟨major, true, true⟩, l, es⟩) :
    Balanced ⟨none, book .blkCleanupQueue () (book (.unregisterBlkdev major) ()
      (book .putDisk () (book .delGendisk () l))), .unload :: es⟩ := by
  have hblocks := @Balanced.blocks_cons _ _ _ h .unload nofun
  have hqueues : l.queues = 1 + l.noDisk := h.queues
  obtain ⟨hdisks, hadded⟩ : l.disks = 1 ∧ l.added = 1 := h.disks
  have hfreed : l.queues - 1 = 0 + l.noDisk := by omega
  rcases h.majors with hnil | ⟨st, hst, hone⟩
  · replace hnil : l.majors = [] := hnil
    have hledger : book .blkCleanupQueue () (book (.unregisterBlkdev major) ()
        (book .putDisk () (book .delGendisk () l))) =
        { l with queues := l.queues - 1, disks := 0, added := 0, faults := l.faults + 1 } := by
      simp [book, hdisks, hadded, hnil, hqueues, Ledger.fault]
    have hfaults := h.faults
    rw [if_pos ⟨rfl, hnil⟩] at hfaults
    rw [hledger]
    exact ⟨h.sockets, hblocks, hfreed, ⟨rfl, rfl⟩, Or.inl hnil, hfaults, nofun⟩
  · obtain rfl : ⟨major, true, true⟩ = st := Option.some.inj hst
    replace hone : l.majors = [major] := hone
    have hledger : book .blkCleanupQueue () (book (.unregisterBlkdev major) ()
        (book .putDisk () (book .delGendisk () l))) =
        { l with queues := l.queues - 1, disks := 0, added := 0, majors := [] } := by
      simp [book, hdisks, hadded, hone, hqueues]
    have hfaults := h.faults
    rw [if_neg fun hun => List.cons_ne_nil _ _ (hone.symm.trans hun.2)] at hfaults
    rw [hledger]
    exact ⟨h.sockets, hblocks, hfreed, ⟨rfl, rfl⟩, Or.inl rfl, hfaults, nofun⟩

end Balanced

theorem driver_balanced {d : Driver} (life : Life d) : Balanced d := by
  induction life with
  | start => exact balanced_start
  | load rounds life h ih =>
    rcases ends_sawaDriverInit h with ⟨rfl, n, rfl⟩ | ⟨rfl, rfl⟩ |
      ⟨registered, ⟨rfl, rfl⟩ | ⟨rfl, rfl, rfl⟩⟩
    · exact ih.request n nofun
    · exact ih.request 0 nofun
    · exact ih.no_disk registered _
    · exact ih.load registered _
  | @unload l l' es st life h ih =>
    obtain ⟨major, rfl⟩ : ∃ major, st = ⟨major, true, true⟩ := ⟨_, ih.statics st rfl⟩
    obtain rfl := ends_sawaDriverExit h
    exact ih.unload
  | read rounds sector nbSectors buffer life h ih =>
    rcases ends_sawaReadData (ends_onKernel.mp h) with rfl | ⟨-, n, rfl⟩
    · exact ih.request 0 nofun
    · exact ih.request n nofun
  | write rounds sector nbSectors buffer life h ih =>
    rcases ends_sawaWriteData h with ⟨rfl, rfl⟩ | ⟨rfl, bufferOut, n, rfl⟩
    · exact ih.request 0 nofun
    · exact ih.failed_write bufferOut n

/-! ### A load whose major is not registered -/

/-- A kernel that has no major for the driver; `connected` is its answer to a connect, and `given`
that to `kmalloc`. -/
def kernelWithoutMajor (connected : ℤ) (given : Bool) : (e : LifeCall) → LifeAnswer e
  | .kernel .buffer => fun _ => 0
  | .kernel .sockCreate => (0 : ℤ)
  | .kernel .connect => connected
  | .kernel (.sendmsg bytes _) => (bytes.length : ℤ)
  | .kernel (.recvmsg _ _) => .ok [0, 8, 0, 0]
  | .registerBlkdev => (-16 : Int32)
  | .blkInitQueue | .allocDisk => true
  | .kmalloc => given
  | .kernel .sockRelease | .kernel (.setNbSectors _) | .kfree | .blkCleanupQueue
  | .unregisterBlkdev _ | .putDisk | .addDisk | .delGendisk => ()

/-- It is loaded all the same, loses its server before two WRITEs, the second without a buffer, and
is unloaded. -/
theorem unnamed_driver_balanced : ∃ d,
    d.history = [.unload, .write (-1), .write (-1), .load 0] ∧ d.ledger.faults = 1 ∧
    d.ledger.blocks = 1 ∧ d.ledger.sockets = 2 ∧ Balanced d := by
  have life := Life.start
  replace life := life.load 1 (ends_settle (kernelWithoutMajor 0 true) _ _)
  replace life := life.write 1 0 1 (fun _ => 0) (ends_settle (kernelWithoutMajor (-111) true) _ _)
  replace life := life.write 1 0 1 (fun _ => 0) (ends_settle (kernelWithoutMajor (-111) false) _ _)
  replace life := life.unload (ends_settle (kernelWithoutMajor 0 true) _ _)
  exact ⟨_, rfl, rfl, rfl, rfl, driver_balanced life⟩

end SawaDriverLifetime
