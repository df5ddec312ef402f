import SaWa.EffectProgram
import SaWa.SawaProtocol

/-! The block driver's side of the protocol: the TCP layer of `tcp.c` and the three commands of
`sawa.c`, as programs over the kernel calls they make. A loop that waits for the kernel is cut
after a number of rounds, and answers `none` when it is still waiting then. -/
namespace SawaDriver

open EffectProgram RangeStore LittleEndian SawaProtocol

def eagain : ℕ := 11
def einprogress : ℕ := 115
def erestartsys : ℕ := 512

def msgDontwait : ℕ := 0x40
def msgWaitall : ℕ := 0x100

/-- `buffer` hands out uninitialised memory. `setNbSectors` assigns the driver's global. -/
inductive KernelCall where
  | buffer
  | sockCreate
  | connect
  | sendmsg (bytes : List UInt8) (flags : ℕ)
  | recvmsg (maxSize flags : ℕ)
  | sockRelease
  | setNbSectors (n : UInt32)
  deriving DecidableEq, Repr

/-- What `kernel_recvmsg` delivered, or the code of its error. -/
abbrev Received := Except ℕ (List UInt8)

/-- The `int` that `kernel_recvmsg` returns. -/
def Received.len : Received → ℤ
  | .error code => -code
  | .ok bytes => bytes.length

def Received.bytes : Received → List UInt8
  | .error _ => []
  | .ok bytes => bytes

abbrev KernelAnswer : KernelCall → Type
  | .buffer => Mem
  | .sockCreate | .connect | .sendmsg _ _ => ℤ
  | .recvmsg _ _ => Received
  | .sockRelease | .setNbSectors _ => Unit

abbrev DriverM := Prog KernelCall KernelAnswer

abbrev kernel (e : KernelCall) : DriverM (KernelAnswer e) := perform e

/-! ### `tcp.c` -/

def tcpClientConnect : DriverM ℤ := do
  let ret ← kernel .sockCreate
  if ret < 0 then return -1
  let ret ← kernel .connect
  if ret ≠ 0 ∧ ret ≠ -einprogress then return -1
  return 0

/-- The code between `repeat_send` and the return, with the bytes written and left. -/
def sendRound (buf : List UInt8) (flags : ℕ) : ℕ × ℕ → DriverM ((ℕ × ℕ) ⊕ ℤ) :=
  fun (written, left) => do
    let len ← kernel (.sendmsg ((buf.drop written).take left) flags)
    if len = -erestartsys ∨ (flags &&& msgDontwait = 0 ∧ len = -eagain) then
      return .inl (written, left)
    if 0 < len then
      let written := written + len.toNat
      let left := left - len.toNat
      if left ≠ 0 then return .inl (written, left)
      return .inr (if written ≠ 0 then written else len)
    return .inr (if written ≠ 0 then written else len)

def tcpClientSend (rounds : ℕ) (buf : List UInt8) (length flags : ℕ) : DriverM (Option ℤ) :=
  loop (sendRound buf flags) rounds (0, length)

def receiveRound (flags maxSize : ℕ) : Unit → DriverM (Unit ⊕ Received) := fun _ => do
  let r ← kernel (.recvmsg maxSize flags)
  if r.len = -eagain ∨ r.len = -erestartsys then return .inl ()
  return .inr r

/-- Whatever the first successful `kernel_recvmsg` delivers: the rest is not waited for. -/
def tcpClientReceive (rounds flags maxSize : ℕ) : DriverM (Option Received) :=
  loop (receiveRound flags maxSize) rounds ()

/-! ### `sawa.c` -/

/-- A number of sectors in bytes, as the `unsigned int` it is stored in. -/
def sectorBytes (n : UInt64) : UInt32 := (n * 512).toUInt32

/-- The five bytes of `buffer_out` that `sawa_send_info` sends. -/
def infoMessage : List UInt8 := wordBytes 1 ++ [sawaInfo]

def sawaSendInfo (rounds : ℕ) : DriverM (Option ℤ) := do
  let bufferIn ← kernel .buffer
  let bufferIn := store bufferIn 0 [0x42]
  if (← tcpClientConnect) < 0 then return some (-1)
  let some _ ← tcpClientSend rounds infoMessage 5 msgWaitall | return none
  let some r ← tcpClientReceive rounds msgDontwait 4 | return none
  kernel (.setNbSectors (wordAt (store bufferIn 0 r.bytes) 0))
  kernel .sockRelease
  return some 0

/-- `buffer_out` of `sawa_write_data`. -/
def writeMessage (sector nbSectors : UInt64) (buffer : Mem) : List UInt8 :=
  let offset := sectorBytes sector
  let payloadSize := sectorBytes nbSectors
  wordBytes (payloadSize + 1 + 4) ++
    sawaWrite :: (wordBytes offset ++ load buffer 0 payloadSize.toNat)

/-- The answer of the server is not read: the code that would is commented out. -/
def sawaWriteData (rounds : ℕ) (sector nbSectors : UInt64) (buffer : Mem) :
    DriverM (Option ℤ) := do
  if (← tcpClientConnect) < 0 then return some (-1)
  let some _ ← tcpClientSend rounds (writeMessage sector nbSectors buffer)
    (9 + sectorBytes nbSectors).toNat msgWaitall | return none
  kernel .sockRelease
  return some 0

/-- `buffer_out` of `sawa_read_data`. -/
def readMessage (sector nbSectors : UInt64) : List UInt8 :=
  let offset := sectorBytes sector
  let payloadSize := sectorBytes nbSectors
  wordBytes 9 ++ sawaRead :: (wordBytes offset ++ wordBytes payloadSize)

/-- The part of `sawa_read_data` that asks the server, and whether it did. -/
def sawaReadAsk (rounds : ℕ) (sector nbSectors : UInt64) : DriverM (Option Bool) := do
  if (← tcpClientConnect) < 0 then return some false
  let some _ ← tcpClientSend rounds (readMessage sector nbSectors) 13 msgWaitall | return none
  return some true

/-- The part that waits for the data: the result and what `buffer_in` holds then. -/
def sawaReadAnswer (rounds : ℕ) (nbSectors : UInt64) (bufferIn : Mem) :
    DriverM (Option (ℤ × Mem)) := do
  let some r ← tcpClientReceive rounds msgDontwait (sectorBytes nbSectors).toNat | return none
  kernel .sockRelease
  let bufferIn := store bufferIn 0 r.bytes
  return some (if 1 < r.len then 0 else -1, bufferIn)

def sawaReadData (rounds : ℕ) (sector nbSectors : UInt64) (bufferIn : Mem) :
    DriverM (Option (ℤ × Mem)) := do
  let some asked ← sawaReadAsk rounds sector nbSectors | return none
  if asked then sawaReadAnswer rounds nbSectors bufferIn
  else return some (-1, bufferIn)

end SawaDriver
