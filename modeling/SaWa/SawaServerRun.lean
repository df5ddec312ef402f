import SaWa.SawaServer

/-! Runs of the request code. All connection threads share the stream `fp` and the allocator;
each has a socket and counters of its own. Every stdio call succeeds in full here, what a WRITE
frame with its five bytes names lies in its block, and a reply finds its connection open. -/
namespace SawaServerRun

open EffectProgram RangeStore LittleEndian SawaProtocol SawaServer

/-- The filesystem file and its position, the pair behind a `FILE *`. -/
structure FileStream where
  contents : List UInt8
  pos : ℕ
  deriving DecidableEq, Repr

namespace FileStream

def fseek (fp : FileStream) (offset : ℕ) : FileStream := { fp with pos := offset }

/-- The bytes transferred: fewer than asked for at the end of the file. -/
def freadBytes (fp : FileStream) (size : ℕ) : List UInt8 := slice fp.contents fp.pos size

def fread (fp : FileStream) (size : ℕ) : FileStream :=
  { fp with pos := fp.pos + (fp.freadBytes size).length }

def fwrite (fp : FileStream) (bytes : List UInt8) : FileStream :=
  ⟨patch 0 fp.contents fp.pos bytes, fp.pos + bytes.length⟩

end FileStream

/-- `SawaServer::getFilesystemFile`: `existing` is the file that `fopen` finds, if any. -/
def getFilesystemFile : Option (List UInt8) → FileStream
  | some contents => ⟨contents, 0⟩
  | none => FileStream.fwrite ⟨[], 0⟩ (List.replicate (nbSectors * 512).toNat 0)

/-- What all threads share. `heap` lists the blocks the allocator will hand out, with whatever
bytes they hold; `stats` is what `ThreadPool::getThreadStatistics` serializes. -/
structure Shared where
  fp : FileStream
  heap : ℕ → Mem
  stats : Mem

/-- One connection: the bytes still to be read from its socket, how many of them TCP has ready
at each coming `read`, what was written to the socket, and the request counters. -/
structure Conn where
  input : List UInt8
  cut : ℕ → ℕ
  output : List (List UInt8)
  info : Fin 3 → ℕ

abbrev World := Shared × Conn

/-- A `read` returns at least one byte while there is one, at most what it asks for, and 0
bytes once the peer's bytes are used up and its end is closed. -/
def Conn.readBytes (c : Conn) (n : ℕ) : List UInt8 := c.input.take (min n (max 1 (c.cut 0)))

def Conn.afterRead (c : Conn) (n : ℕ) : Conn :=
  { c with
    input := c.input.drop (c.readBytes n).length
    cut := fun k => c.cut (k + 1) }

def Conn.reply (c : Conn) (bytes : List UInt8) : Conn := { c with output := c.output ++ [bytes] }

def Conn.counted (c : Conn) (idx : Fin 3) : Conn :=
  { c with info := Function.update c.info idx (c.info idx + 1) }

def Shared.afterAlloc (s : Shared) : Shared := { s with heap := fun k => s.heap (k + 1) }

def Shared.withFile (s : Shared) (fp : FileStream) : Shared := { s with fp := fp }

def sysHandler : Handler Call Answer World
  | .enter _, w => ((), w)
  | .read n, (s, c) => (some (c.readBytes n), (s, c.afterRead n))
  | .write bytes, (s, c) => ((), (s, c.reply bytes))
  | .alloc _, (s, c) => (s.heap 0, (s.afterAlloc, c))
  | .fseek offset, (s, c) => (0, (s.withFile (s.fp.fseek offset), c))
  | .fread size, (s, c) => (s.fp.freadBytes size, (s.withFile (s.fp.fread size), c))
  | .fwrite bytes, (s, c) => (bytes.length, (s.withFile (s.fp.fwrite bytes), c))
  | .sync, w => ((), w)
  | .countRequest idx, (s, c) => ((), (s, c.counted idx))
  | .threadStatistics, (s, c) => (s.stats, (s, c))

/-! ### What each function does to a world -/

def capacity : ℕ := nbSectors.toNat * 512

theorem capacity_eq : capacity = 1048576 := rfl

/-- The comparison of `checkValidRequest`. -/
def Accepted (offset size : UInt32) : Prop := size + offset ≤ nbSectors * 512

instance (offset size : UInt32) : Decidable (Accepted offset size) :=
  inferInstanceAs (Decidable (_ ≤ _))

/-- The comparison is made on the sum modulo 2^32. -/
theorem accepted_iff (offset size : UInt32) :
    Accepted offset size ↔ (offset.toNat + size.toNat) % 2 ^ 32 ≤ capacity := by
  have hc : (nbSectors * 512).toNat = capacity := rfl
  rw [Accepted, UInt32.le_iff_toNat_le, UInt32.toNat_add, hc, Nat.add_comm]

def sendInfoEffect (w : World) : World := (w.1, w.2.reply (wordBytes nbSectors))

def refused (w : World) : World := (w.1, w.2.reply [sawaMsgNoauth])

/-- What a reader gets: the bytes of the file, and the old bytes of the block past its end. -/
def readBuffer (s : Shared) (offset size : ℕ) : List UInt8 :=
  load (store (s.heap 0) 0 (slice s.fp.contents offset size)) 0 size

def readFileEffect (offset size : UInt32) (w : World) : World :=
  if Accepted offset size then
    ((w.1.withFile ((w.1.fp.fseek offset.toNat).fread size.toNat)).afterAlloc,
      w.2.reply (readBuffer w.1 offset.toNat size.toNat))
  else refused w

def writeFileEffect (offset size : UInt32) (bytes : List UInt8) (w : World) : World :=
  if Accepted offset size then
    (w.1.withFile ((w.1.fp.fseek offset.toNat).fwrite bytes), w.2.reply [sawaMsgOk])
  else refused w

def counted (idx : Fin 3) (w : World) : World := (w.1, w.2.counted idx)

theorem run_updateScreen (idx : Fin 3) (w : World) :
    run sysHandler (updateScreen idx) w = ((), counted idx w) := rfl

theorem checkValidRequest_accepted {offset size : UInt32} (h : Accepted offset size) :
    checkValidRequest offset size = .ret true := if_pos h

theorem checkValidRequest_refused {offset size : UInt32} (h : ¬ Accepted offset size) :
    checkValidRequest offset size = .call (.write [sawaMsgNoauth]) fun _ => .ret false := if_neg h

theorem run_checkValidRequest (offset size : UInt32) (w : World) :
    run sysHandler (checkValidRequest offset size) w =
      if Accepted offset size then (true, w) else (false, refused w) := by
  by_cases h : Accepted offset size
  · rw [checkValidRequest_accepted h, if_pos h]
    rfl
  · rw [checkValidRequest_refused h, if_neg h]
    rfl

/-- An observer that does not look at writes sees no refusal. -/
theorem observe_checked {β : Type} (f : Call × World → Option β)
    (hf : ∀ bytes w, f (.write bytes, w) = none) (offset size : UInt32) (w : World)
    (rest : ServerM Unit) :
    observe f sysHandler (do if ← checkValidRequest offset size then rest) w =
      if Accepted offset size then observe f sysHandler rest w else [] := by
  by_cases h : Accepted offset size
  · rw [checkValidRequest_accepted h, if_pos h]
    rfl
  · rw [checkValidRequest_refused h, if_neg h]
    exact observe_call_none _ _ (hf _ _) _

theorem run_readFile (offset size : UInt32) (w : World) :
    run sysHandler (readFile offset size) w = ((), readFileEffect offset size w) := by
  rw [readFile, perform_bind, run_call, run_bind, run_checkValidRequest, readFileEffect]
  by_cases h : Accepted offset size
  · simp only [sysHandler, if_pos h]
    rfl
  · simp only [sysHandler, if_neg h]
    rfl

theorem run_writeFile (addr : Mem) (offset size : UInt32) (w : World) :
    run sysHandler (writeFile addr offset size) w =
      ((), writeFileEffect offset size (load addr 0 size.toNat) w) := by
  rw [writeFile, perform_bind, run_call, run_bind, run_checkValidRequest, writeFileEffect]
  by_cases h : Accepted offset size
  · simp only [sysHandler, if_pos h]
    rfl
  · simp only [sysHandler, if_neg h]
    rfl

/-- What `processRequest` does with the frame at `addr`. -/
def processEffect (addr : Mem) (size : UInt32) (w : World) : World :=
  if addr 0 = sawaInfo then counted infoCol (sendInfoEffect w)
  else if addr 0 = sawaRead then
    counted readCol (readFileEffect (wordAt addr 1) (wordAt addr 5) w)
  else if addr 0 = sawaWrite then
    counted writeCol (writeFileEffect (wordAt addr 1) (size - 5) (load addr 5 (size - 5).toNat) w)
  else w

theorem run_processRequest (addr : Mem) (size : UInt32) (w : World) :
    run sysHandler (processRequest addr size) w = ((), processEffect addr size w) := by
  rw [processRequest, perform_bind, run_call, processEffect]
  by_cases hi : addr 0 = sawaInfo
  · simp only [sysHandler, if_pos hi]
    rfl
  by_cases hr : addr 0 = sawaRead
  · simp only [sysHandler, if_neg hi, if_pos hr, run_bind, run_readFile, run_updateScreen]
  by_cases hw : addr 0 = sawaWrite
  · simp only [sysHandler, if_neg hi, if_neg hr, if_pos hw, run_bind, run_writeFile,
      run_updateScreen, load_shift, Nat.add_zero]
  · simp only [sysHandler, if_neg hi, if_neg hr, if_neg hw]
    rfl

/-! ### Frames served one at a time -/

/-- A frame in a new block of its own length, handed to `processRequest`. -/
def receive (frame : List UInt8) : ServerM Unit := do
  let buffer ← syscall (.alloc frame.length)
  processRequest (store buffer 0 frame) (UInt32.ofNat frame.length)

def serve : List (List UInt8) → ServerM Unit
  | [] => return ()
  | f :: fs => do
    receive f
    serve fs

/-- The world after a list of frames has been served. -/
def after (frames : List (List UInt8)) (w : World) : World := (run sysHandler (serve frames) w).2

def afterAlloc (w : World) : World := (w.1.afterAlloc, w.2)

@[simp] theorem fp_afterAlloc (w : World) : (afterAlloc w).1.fp = w.1.fp := rfl
@[simp] theorem conn_afterAlloc (w : World) : (afterAlloc w).2 = w.2 := rfl

def requestEffect : Request → World → World
  | .info, w => counted infoCol (sendInfoEffect w)
  | .read offset size, w => counted readCol (readFileEffect offset size w)
  | .write offset payload, w =>
    counted writeCol (writeFileEffect offset (UInt32.ofNat payload.length) payload w)

theorem wordAt_store (m : Mem) {f : List UInt8} {p : ℕ} (h : p + 4 ≤ f.length) :
    wordAt (store m 0 f) p = wordOf (slice f p 4) := by
  rw [wordAt, load_store_within m h]

theorem store_head (m : Mem) {f : List UInt8} {b : UInt8} (h : f.head? = some b) :
    store m 0 f 0 = b := by
  obtain ⟨fs, rfl⟩ := List.head?_eq_some_iff.mp h
  rfl

/-- The size `processRequest` computes for a WRITE is that of what follows the five bytes. -/
theorem write_size {f : List UInt8} (h5 : 5 ≤ f.length) (hf : f.length < 2 ^ 32) :
    UInt32.ofNat f.length - 5 = UInt32.ofNat (f.drop 5).length := by
  have hle : (5 : UInt32) ≤ UInt32.ofNat f.length := by
    rw [UInt32.le_iff_toNat_le, toNat_ofNat hf]
    exact h5
  apply UInt32.toNat_inj.mp
  rw [UInt32.toNat_sub_of_le _ _ hle, toNat_ofNat hf, List.length_drop, toNat_ofNat (by omega)]
  rfl

theorem write_payload (m : Mem) {f : List UInt8} (h5 : 5 ≤ f.length) :
    load (store m 0 f) 5 (f.drop 5).length = f.drop 5 := by
  rw [load_store_within m (by rw [List.length_drop]; omega)]
  exact List.take_of_length_le le_rfl

/-- `processRequest` on a frame that holds the fields of its command. -/
theorem processEffect_decode (m : Mem) {f : List UInt8} {r : Request} (hr : decode f = some r)
    (hf : f.length < 2 ^ 32) (w : World) :
    processEffect (store m 0 f) (UInt32.ofNat f.length) w = requestEffect r w := by
  unfold decode at hr
  split_ifs at hr with hi hrd hwr
  · cases hr
    rw [processEffect, if_pos (store_head m hi)]
    rfl
  · cases hr
    have hop := store_head m hrd.1
    rw [processEffect, if_neg (by rw [hop]; decide), if_pos hop,
      wordAt_store m (by omega), wordAt_store m (by omega)]
    rfl
  · cases hr
    have hop := store_head m hwr.1
    rw [processEffect, if_neg (by rw [hop]; decide), if_neg (by rw [hop]; decide), if_pos hop,
      wordAt_store m (by omega), write_size hwr.2 hf,
      toNat_ofNat (by rw [List.length_drop]; omega), write_payload m hwr.2]
    rfl

theorem run_receive (f : List UInt8) (w : World) :
    run sysHandler (receive f) w =
      ((), processEffect (store (w.1.heap 0) 0 f) (UInt32.ofNat f.length) (afterAlloc w)) :=
  run_processRequest _ _ _

theorem run_receive_decode {f : List UInt8} {r : Request} (hr : decode f = some r)
    (hf : f.length < 2 ^ 32) (w : World) :
    run sysHandler (receive f) w = ((), requestEffect r (afterAlloc w)) := by
  rw [run_receive, processEffect_decode _ hr hf]

@[simp] theorem after_nil (w : World) : after [] w = w := rfl

theorem after_cons (f : List UInt8) (fs : List (List UInt8)) (w : World) :
    after (f :: fs) w = after fs (run sysHandler (receive f) w).2 := by
  rw [after, serve, run_bind]
  rfl

theorem after_append (fs gs : List (List UInt8)) (w : World) :
    after (fs ++ gs) w = after gs (after fs w) := by
  induction fs generalizing w with
  | nil => rfl
  | cons f fs ih => rw [List.cons_append, after_cons, after_cons, ih]

/-! ### What a request replies, and what it makes of the file -/

def replyTo : Request → Shared → List UInt8
  | .info, _ => wordBytes nbSectors
  | .read offset size, s =>
    if Accepted offset size then readBuffer s offset.toNat size.toNat else [sawaMsgNoauth]
  | .write offset payload, _ =>
    if Accepted offset (UInt32.ofNat payload.length) then [sawaMsgOk] else [sawaMsgNoauth]

def contentsAfter : Request → List UInt8 → List UInt8
  | .info, l | .read _ _, l => l
  | .write offset payload, l =>
    if Accepted offset (UInt32.ofNat payload.length) then patch 0 l offset.toNat payload else l

/-- Every request is answered by exactly one `write` on its socket. -/
theorem output_requestEffect (r : Request) (w : World) :
    (requestEffect r w).2.output = w.2.output ++ [replyTo r w.1] := by
  cases r with
  | info => rfl
  | read offset size =>
    by_cases h : Accepted offset size <;>
      simp [requestEffect, readFileEffect, replyTo, refused, counted, Conn.counted, Conn.reply, h]
  | write offset payload =>
    by_cases h : Accepted offset (UInt32.ofNat payload.length) <;>
      simp [requestEffect, writeFileEffect, replyTo, refused, counted, Conn.counted, Conn.reply, h]

theorem contents_requestEffect (r : Request) (w : World) :
    (requestEffect r w).1.fp.contents = contentsAfter r w.1.fp.contents := by
  cases r with
  | info => rfl
  | read offset size =>
    by_cases h : Accepted offset size
    · rw [requestEffect, readFileEffect, if_pos h]
      rfl
    · rw [requestEffect, readFileEffect, if_neg h]
      rfl
  | write offset payload =>
    by_cases h : Accepted offset (UInt32.ofNat payload.length)
    · rw [requestEffect, writeFileEffect, contentsAfter, if_pos h, if_pos h]
      rfl
    · rw [requestEffect, writeFileEffect, contentsAfter, if_neg h, if_neg h]
      rfl

/-- Inside the file a READ gets the stored bytes, whatever its buffer held before. -/
theorem readBuffer_within {s : Shared} {offset size : ℕ}
    (h : offset + size ≤ s.fp.contents.length) :
    readBuffer s offset size = slice s.fp.contents offset size := by
  have hself := load_store_self (s.heap 0) 0 (slice s.fp.contents offset size)
  rwa [length_slice h] at hself

end SawaServerRun
