import SaWa.EffectProgram
import SaWa.SawaProtocol

/-! The request code of `server/sawa_srv.cpp` and the command loop of `server/sawa_admin.cpp`,
as programs over the calls they make: the sockets, the allocator and the one stdio stream
`fp` that all connection threads share. -/
namespace SawaServer

open EffectProgram RangeStore LittleEndian SawaProtocol

/-- Entry of a function, with the arguments it is entered with. -/
inductive Entry where
  | processRequest (frame : List UInt8)
  | sendInfo
  | readFile (offset size : UInt32)
  | writeFile (offset : UInt32) (payload : List UInt8)
  | processCommand (frame : List UInt8)
  deriving DecidableEq, Repr

/-- Calls that leave the modelled code. `enter` is not a call of the source: it only makes
function entries visible in a run, as the `screen->debug` lines do. -/
inductive Call where
  | enter (f : Entry)
  | read (n : ℕ)
  | write (bytes : List UInt8)
  | alloc (size : ℕ)
  | fseek (offset : ℕ)
  | fread (size : ℕ)
  | fwrite (bytes : List UInt8)
  | sync
  | countRequest (idx : Fin 3)
  | threadStatistics
  deriving DecidableEq, Repr

/-- `read` answers `none` for -1, `fseek` answers the int it returns, `fread` the bytes it
transferred and `fwrite` their number; `alloc` answers the memory at the new block. -/
abbrev Answer : Call → Type
  | .read _ => Option (List UInt8)
  | .alloc _ | .threadStatistics => Mem
  | .fseek _ => ℤ
  | .fread _ => List UInt8
  | .fwrite _ => ℕ
  | .enter _ | .write _ | .sync | .countRequest _ => Unit

abbrev ServerM := Prog Call Answer

abbrev syscall (e : Call) : ServerM (Answer e) := perform e

/-! ### `server/sawa_srv.cpp` -/

/-- The constructor sets `nb_sectors`, and nothing else assigns it. -/
def nbSectors : UInt32 := 2048

def infoCol : Fin 3 := 0
def readCol : Fin 3 := 1
def writeCol : Fin 3 := 2

/-- `Server::updateScreen`, without the redraw. -/
def updateScreen (idx : Fin 3) : ServerM Unit := syscall (.countRequest idx)

def sendInfo : ServerM Unit := do
  syscall (.enter .sendInfo)
  syscall (.write (wordBytes nbSectors))

/-- Both sides of the comparison are `uint32_t` and wrap. -/
def checkValidRequest (offset size : UInt32) : ServerM Bool := do
  if size + offset ≤ nbSectors * 512 then
    return true
  else
    syscall (.write [sawaMsgNoauth])
    return false

def readFile (offset size : UInt32) : ServerM Unit := do
  syscall (.enter (.readFile offset size))
  if ← checkValidRequest offset size then
    let _ ← syscall (.fseek offset.toNat)
    let buffer ← syscall (.alloc size.toNat)
    let got ← syscall (.fread size.toNat)
    syscall (.write (load (store buffer 0 got) 0 size.toNat))

/-- `fwrite` returns a `size_t`, so the inner test never fails. -/
def writeFile (addr : Mem) (offset size : UInt32) : ServerM Unit := do
  syscall (.enter (.writeFile offset (load addr 0 size.toNat)))
  if ← checkValidRequest offset size then
    let seek ← syscall (.fseek offset.toNat)
    if seek ≥ 0 then
      let count ← syscall (.fwrite (load addr 0 size.toNat))
      if count ≥ 0 then
        syscall .sync
        syscall (.write [sawaMsgOk])
        return
    syscall (.write [sawaMsgErr])

/-- `addr` points at the buffer of the frame; its fields are read wherever the frame ends. -/
def processRequest (addr : Mem) (size : UInt32) : ServerM Unit := do
  syscall (.enter (.processRequest (load addr 0 size.toNat)))
  let op := addr 0
  if op = sawaInfo then
    sendInfo
    updateScreen infoCol
  else
    let offset := wordAt addr 1
    if op = sawaRead then
      readFile offset (wordAt addr 5)
      updateScreen readCol
    else if op = sawaWrite then
      writeFile (fun i => addr (5 + i)) offset (size - 5)
      updateScreen writeCol

/-- How a frame loop ends: its function returns, or the process exits. -/
inductive Leave where
  | returned
  | exited
  deriving DecidableEq, Repr

/-- One round of `SawaServer::readData` and of `AdminInterface::readCommand`, which differ in
the tests they make of the length field and in what they do with a frame. -/
def frameRound (tooLong positive : UInt32 → Bool)
    (process : Mem → UInt32 → ServerM (Unit ⊕ Leave)) : Unit → ServerM (Unit ⊕ Leave) := fun _ => do
  let n ← syscall (.read 4)
  match n with
  | none => return .inr .returned
  | some header =>
    if header.length < 4 then return .inr .returned
    let expectedSize := wordOf header
    if tooLong expectedSize then return .inr .returned
    if positive expectedSize then
      let bufferIn ← syscall (.alloc expectedSize.toNat)
      let n ← syscall (.read expectedSize.toNat)
      match n with
      | none => return .inr .returned
      | some body => process (store bufferIn 0 body) expectedSize
    else
      return .inl ()

def readDataRound : Unit → ServerM (Unit ⊕ Leave) :=
  frameRound (fun n => 32768 < n) (fun n => 0 < n) fun addr size => do
    processRequest addr size
    return .inl ()

/-- `SawaServer::readData`, cut after the given number of rounds. -/
def readData (rounds : ℕ) : ServerM (Option Leave) := loop readDataRound rounds ()

/-! ### `server/sawa_admin.cpp` -/

/-- The `int` a word is read as. -/
def signed (x : UInt32) : ℤ := x.toInt32.toInt

/-- The size written is the length word in front of the statistics. -/
def statCommand : ServerM Unit := do
  let buffer ← syscall .threadStatistics
  syscall (.write (load buffer 0 (wordAt buffer 0).toNat))

def processCommand (addr : Mem) (size : UInt32) : ServerM (Unit ⊕ Leave) := do
  syscall (.enter (.processCommand (load addr 0 size.toNat)))
  let op := addr 0
  if op = sawaStop then
    return .inr .exited
  else if op = sawaStat then
    statCommand
    return .inl ()
  else
    return .inl ()

def readCommandRound : Unit → ServerM (Unit ⊕ Leave) :=
  frameRound (fun n => 1024 < signed n) (fun n => 0 < signed n) processCommand

/-- `AdminInterface::readCommand`, cut after the given number of rounds. -/
def readCommand (rounds : ℕ) : ServerM (Option Leave) := loop readCommandRound rounds ()

end SawaServer
