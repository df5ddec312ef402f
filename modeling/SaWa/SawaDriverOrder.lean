import SaWa.PendingStores
import SaWa.SawaDriverCodec
import SaWa.SawaServerFlatDisk

/-! The driver's calls and the server's threads in any order. A write returns once its message is
sent and its connection is left to a server thread, so the messages of later calls may overtake
it. What a read delivers is compared with the writes that had returned when it was issued. -/
namespace SawaDriverOrder

open EffectProgram RangeStore LittleEndian SawaProtocol SawaServer SawaServerRun SawaFrameLoop
  SawaSegmentation SawaDriver SawaDriverRun SawaDriverCodec SawaServerBounds SawaServerFlatDisk

/-! ### One message on a server thread -/

/-- A connection that brings one whole message and ends. -/
theorem run_readData_message {f : List UInt8} (hne : f ≠ []) (hlim : f.length ≤ 32768) {w : World}
    (hin : w.2.input = message f) (ha : Ample w.2) {n : ℕ} (hn : 1 < n) :
    (run sysHandler (readData n) w).2.1 = (after [f] w).1 ∧
      (run sysHandler (readData n) w).2.2.output = (after [f] w).2.output := by
  obtain ⟨m, rfl⟩ : ∃ m, n = 1 + (m + 1) := ⟨n - 2, by omega⟩
  have hstream : w.2.input = stream [f] := by
    rw [hin, stream_cons]
    exact (List.append_nil _).symm
  have hsock : w = withSocket (stream [f] ++ []) w.2.cut w := by
    rw [List.append_nil, ← hstream]
    rfl
  have hwhole : WholeReads w.2.cut [f] := wholeReads_of_ample fun k => hstream ▸ ha k
  have hf : ∀ g ∈ [f], g ≠ [] ∧ g.length ≤ 32768 := by
    intro g hg
    rw [List.mem_singleton.mp hg]
    exact ⟨hne, hlim⟩
  have hrun := (FrameLoop.run_frames (L := serverLoop) hwhole (fun g h => (hf g h).2)
    (fun _ _ => rfl) (w := w) [] (m + 1)).1
  rw [← hsock, bodies_eq_self fun g h => (hf g h).1, serverLoop_program, serverLoop_serveFrames]
    at hrun
  have hend : run sysHandler (serverLoop.round ())
      (withSocket [] (restCut w.2.cut [f]) (after [f] w)) =
        (.inr .returned, ((after [f] w).1,
          (withSocket [] (restCut w.2.cut [f]) (after [f] w)).2.afterRead 4)) := by
    have hr : (withSocket [] (restCut w.2.cut [f]) (after [f] w)).2.readBytes 4 = [] :=
      List.take_nil
    rw [FrameLoop.round, run_frameRound, hr]
    rfl
  rw [FrameLoop.program, run_loop_leave _ _ hend] at hrun
  rw [show readData (1 + (m + 1)) = readData ([f].length + (m + 1)) from rfl, hrun]
  exact ⟨rfl, rfl⟩

/-- A connection that ends before it has brought a length. -/
theorem run_readData_short {w : World} (hin : w.2.input.length < 4) (n : ℕ) :
    (run sysHandler (readData (n + 1)) w).2.1 = w.1 ∧
      (run sysHandler (readData (n + 1)) w).2.2.output = w.2.output := by
  have hread : (w.2.readBytes 4).length < 4 := (List.length_take_le' _ _).trans_lt hin
  have hround : run sysHandler (serverLoop.round ()) w =
      (.inr .returned, (w.1, w.2.afterRead 4)) := by
    rw [FrameLoop.round, run_frameRound, if_pos hread]
  have hrun : run sysHandler (readData (n + 1)) w = (some .returned, (w.1, w.2.afterRead 4)) :=
    run_loop_leave _ _ hround
  rw [hrun]
  exact ⟨rfl, rfl⟩

/-! ### The transfers of the driver -/

/-- The driver's transfers are inside the filesystem, and their writes not too long for the
server. -/
def Served : Command → Prop
  | .sendInfo => True
  | .readData sector nbSectors => sector.toNat + nbSectors.toNat ≤ 2048
  | .writeData sector nbSectors _ =>
    sector.toNat + nbSectors.toNat ≤ 2048 ∧ nbSectors.toNat ≤ 63

def start : Command → ℕ
  | .sendInfo => 0
  | .readData sector _ | .writeData sector _ _ => 512 * sector.toNat

def count : Command → ℕ
  | .sendInfo => 0
  | .readData _ nbSectors | .writeData _ nbSectors _ => 512 * nbSectors.toNat

/-- What a write is to make of the file. -/
def updates : Command → List (Update UInt8)
  | .sendInfo | .readData _ _ => []
  | .writeData sector nbSectors buffer =>
    [⟨512 * sector.toNat, load buffer 0 (512 * nbSectors.toNat)⟩]

section Served
variable {c : Command} {w : World}

theorem Served.fits (h : Served c) : c.Fits := by
  cases c with
  | sendInfo => trivial
  | readData sector nbSectors =>
    have hs : sector.toNat + nbSectors.toNat ≤ 2048 := h
    exact ⟨by omega, by omega⟩
  | writeData sector nbSectors buffer =>
    rcases h with ⟨hs, hn⟩
    exact ⟨by omega, by omega⟩

theorem Served.accepted {sector nbSectors : UInt64}
    (hs : sector.toNat + nbSectors.toNat ≤ 2048) :
    Accepted (sectorBytes sector) (sectorBytes nbSectors) := by
  rw [accepted_iff, toNat_sectorBytes (by omega), toNat_sectorBytes (by omega), capacity_eq]
  omega

theorem contents_served (h : Served c) {l : List UInt8} (hl : l.length = capacity) :
    (contentsAfter c.request l).length = capacity ∧
      image 0 (contentsAfter c.request l) = storeAll (image 0 l) (updates c) := by
  cases c with
  | sendInfo => exact ⟨hl, rfl⟩
  | readData sector nbSectors => exact ⟨hl, rfl⟩
  | writeData sector nbSectors buffer =>
    rcases h with ⟨hs, hn⟩
    have hoff := toNat_sectorBytes (n := sector) (by omega)
    have hsize := toNat_sectorBytes (n := nbSectors) (by omega)
    have hcap := capacity_eq
    have hacc := Served.accepted hs
    rw [← UInt32.ofNat_toNat (x := sectorBytes nbSectors)] at hacc
    rw [Command.request, contentsAfter, length_load, if_pos hacc, hoff, hsize]
    constructor
    · rw [length_patch_within 0 (by rw [length_load]; omega), hl]
    · rw [image_patch]
      rfl

/-- A whole message is carried out, and a READ gets the bytes of its range. -/
theorem run_served (h : Served c) (hl : w.1.fp.contents.length = capacity)
    (hin : w.2.input = c.message) (ha : Ample w.2) (hout : w.2.output = []) {n : ℕ} (hn : 1 < n) :
    (run sysHandler (readData n) w).2.1.fp.contents.length = capacity ∧
      image 0 (run sysHandler (readData n) w).2.1.fp.contents =
        storeAll (image 0 w.1.fp.contents) (updates c) ∧
      ∀ sector nbSectors, c = .readData sector nbSectors →
        (run sysHandler (readData n) w).2.2.output.flatten =
          load (image 0 w.1.fp.contents) (512 * sector.toNat) (512 * nbSectors.toNat) := by
  have hlen := request_frame_length h.fits
  obtain ⟨hshared, houtput⟩ := run_readData_message (Request.frame_ne_nil c.request) hlen
    (hin.trans (message_request h.fits)) ha hn
  have hafter : after [c.request.frame] w = requestEffect c.request (afterAlloc w) := by
    rw [after_cons, after_nil, run_receive_decode (decode_frame c.request) (by omega)]
  rw [hshared, houtput, hafter, contents_requestEffect, fp_afterAlloc, output_requestEffect]
  refine ⟨(contents_served h hl).1, (contents_served h hl).2, ?_⟩
  rintro sector nbSectors rfl
  have hs : sector.toNat + nbSectors.toNat ≤ 2048 := h
  have hoff := toNat_sectorBytes (n := sector) (by omega)
  have hsize := toNat_sectorBytes (n := nbSectors) (by omega)
  have hcap := capacity_eq
  have hend : 512 * sector.toNat + 512 * nbSectors.toNat ≤ w.1.fp.contents.length := by omega
  rw [conn_afterAlloc, hout, Command.request, replyTo, if_pos (Served.accepted hs), hoff, hsize,
    readBuffer_within (by exact hend), fp_afterAlloc, slice_eq_load 0 hend]
  simp

end Served

/-! ### Receiving -/

/-- A result of `kernel_recvmsg` after which `tcp_client_receive` asks again. -/
def Waits (r : Except ℕ ℕ) : Prop := r = .error eagain ∨ r = .error erestartsys

/-- The first result that is not waited on brings at least `size` bytes, or at most one, or it is
an error. -/
def OnePiece (recvs : ℕ → Except ℕ ℕ) (size : ℕ) : Prop :=
  ∀ k j, (∀ i < k, Waits (recvs i)) → recvs k = .ok j → j ≤ 1 ∨ size ≤ j

theorem waits_iff (s : Net) (maxSize : ℕ) :
    ((s.received maxSize).len = -eagain ∨ (s.received maxSize).len = -erestartsys) ↔
      Waits (s.recvs 0) := by
  unfold Net.received Waits
  cases s.recvs 0 with
  | error code =>
    simp only [Except.map, Received.len, eagain, erestartsys, Except.error.injEq]
    omega
  | ok k =>
    simp only [Except.map, Received.len, eagain, erestartsys, reduceCtorEq, or_self, iff_false]
    omega

theorem run_receiveRound_waits {flags maxSize : ℕ} {s : Net} (h : Waits (s.recvs 0)) :
    run netHandler (receiveRound flags maxSize ()) s = (.inl (), s.afterRecv maxSize) ∧
      (s.afterRecv maxSize).reply = s.reply := by
  constructor
  · rw [receiveRound, run_recvmsg, if_pos ((waits_iff s maxSize).mpr h)]
    rfl
  · unfold Net.afterRecv Net.received
    rcases h with h | h <;> simp [h, Except.map, Received.bytes]

theorem run_receiveRound_last {flags maxSize : ℕ} {s : Net} (h : ¬ Waits (s.recvs 0)) :
    run netHandler (receiveRound flags maxSize ()) s =
      (.inr (s.received maxSize), s.afterRecv maxSize) := by
  rw [receiveRound, run_recvmsg, if_neg ((waits_iff s maxSize).not.mpr h)]
  rfl

theorem run_receiveLoop {flags maxSize n : ℕ} {s s' : Net} {r : Received}
    (h : run netHandler (tcpClientReceive n flags maxSize) s = (some r, s')) :
    ∃ k, (∀ i < k, Waits (s.recvs i)) ∧ ¬ Waits (s.recvs k) ∧
      r = (s.recvs k).map fun j => s.reply.take (min j maxSize) := by
  unfold tcpClientReceive at h
  induction n generalizing s with
  | zero => simp [run_loop_zero] at h
  | succ n ih =>
    by_cases hw : Waits (s.recvs 0)
    · obtain ⟨hround, hreply⟩ := run_receiveRound_waits hw
      rw [run_loop_next _ _ hround] at h
      obtain ⟨k, hk, hlast, hr⟩ := ih h
      rw [hreply] at hr
      refine ⟨k + 1, ?_, hlast, hr⟩
      intro i hi
      cases i with
      | zero => exact hw
      | succ i => exact hk i (by omega)
    · rw [run_loop_leave _ _ (run_receiveRound_last hw)] at h
      have hr : s.received maxSize = r := Option.some.inj (congrArg Prod.fst h)
      exact ⟨0, fun _ hi => absurd hi (Nat.not_lt_zero _), hw, hr.symm⟩

/-- A read that returns 0 has received at least two bytes of the reply. -/
theorem run_sawaReadAnswer {rounds : ℕ} {nbSectors : UInt64} {bufferIn buffer : Mem} {s s' : Net}
    (h : run netHandler (sawaReadAnswer rounds nbSectors bufferIn) s = (some (0, buffer), s')) :
    ∃ k j, (∀ i < k, Waits (s.recvs i)) ∧ s.recvs k = .ok j ∧
      1 < (s.reply.take (min j (sectorBytes nbSectors).toNat)).length ∧
      buffer = store bufferIn 0 (s.reply.take (min j (sectorBytes nbSectors).toNat)) := by
  rw [sawaReadAnswer, run_bind] at h
  rcases hr : run netHandler (tcpClientReceive rounds msgDontwait (sectorBytes nbSectors).toNat)
    s with ⟨_ | r, t⟩
  · rw [hr] at h
    exact absurd (congrArg Prod.fst h) (by simp)
  · rw [hr, run_sockRelease] at h
    have hret : ((if 1 < r.len then 0 else -1 : ℤ), store bufferIn 0 r.bytes) = (0, buffer) :=
      Option.some.inj (congrArg Prod.fst h)
    obtain ⟨hret, hbuffer⟩ := Prod.mk.inj hret
    have hlen : 1 < r.len := by
      by_contra hlt
      rw [if_neg hlt] at hret
      exact absurd hret (by decide)
    obtain ⟨k, hk, -, hrk⟩ := run_receiveLoop hr
    cases hres : s.recvs k with
    | error code =>
      rw [hrk, hres] at hlen
      simp only [Except.map, Received.len] at hlen
      omega
    | ok j =>
      rw [hres] at hrk
      subst hrk
      refine ⟨k, j, hk, hres, ?_, hbuffer.symm⟩
      exact Int.ofNat_lt.mp hlen

/-! ### Calls and threads -/

/-- A connection that no server thread has dealt with yet: the call it was opened for, and the
bytes of its message that were sent. -/
structure Message where
  number : ℕ
  call : Command
  wire : List UInt8

/-- A call of `sawa_write_data` that has returned 0. -/
structure Write where
  sector : UInt64
  nbSectors : UInt64
  buffer : Mem

/-- The call of `sawa_read_data` that waits for its reply, with the writes that had returned when
it was issued, newest first. `reply` is what the server has sent on its connection. -/
structure Reading where
  number : ℕ
  sector : UInt64
  nbSectors : UInt64
  net : Net
  reply : Option (List UInt8)
  history : List Write

/-- A call of `sawa_read_data` that has returned 0, with the buffer it filled. -/
structure ReadResult where
  sector : UInt64
  nbSectors : UInt64
  buffer : Mem
  history : List Write

/-- `flight` lists the messages in the order they were sent in, and `writes` the newest first. -/
structure State where
  shared : Shared
  calls : ℕ
  flight : List Message
  reading : Option Reading
  writes : List Write
  results : List ReadResult

def initial (shared : Shared) : State := ⟨shared, 0, [], none, [], []⟩

namespace State

/-- A call has opened a connection and sent these bytes on it. -/
def issue (s : State) (call : Command) (wire : List UInt8) : State :=
  { s with
    calls := s.calls + 1
    flight := s.flight ++ [⟨s.calls, call, wire⟩] }

/-- A server thread has dealt with one of the connections, and left the world `w`. -/
def execute (s : State) (number : ℕ) (rest : List Message) (w : World) : State :=
  { s with
    shared := w.1
    flight := rest
    reading := s.reading.map fun r =>
      if r.number = number then { r with reply := some w.2.output.flatten } else r }

end State

inductive Action where
  | write (sector nbSectors : UInt64) (buffer : Mem) (net : Net)
  | ask (sector nbSectors : UInt64) (net : Net)
  | execute (k : ℕ)
  | answer

/-- The calls of the driver, one after another, and the server's threads. A call that returns -1
has opened no connection. -/
inductive Step : State → Action → State → Prop where
  | write (s) (rounds : ℕ) (sector nbSectors : UInt64) (buffer : Mem) (net net' : Net)
      (hidle : s.reading = none) (hrange : sector.toNat + nbSectors.toNat ≤ 2048)
      (hnew : net.wire = [])
      (hrun : run netHandler (sawaWriteData rounds sector nbSectors buffer) net =
        (some 0, net')) :
      Step s (.write sector nbSectors buffer net)
        { s.issue (.writeData sector nbSectors buffer) net'.wire with
          writes := ⟨sector, nbSectors, buffer⟩ :: s.writes }
  | writeRefused (s) (rounds : ℕ) (sector nbSectors : UInt64) (buffer : Mem) (net net' : Net)
      (hidle : s.reading = none)
      (hrun : run netHandler (sawaWriteData rounds sector nbSectors buffer) net =
        (some (-1), net')) :
      Step s (.write sector nbSectors buffer net) s
  | ask (s) (rounds : ℕ) (sector nbSectors : UInt64) (net net' : Net)
      (hidle : s.reading = none) (hrange : sector.toNat + nbSectors.toNat ≤ 2048)
      (hnew : net.wire = [])
      (hrun : run netHandler (sawaReadAsk rounds sector nbSectors) net = (some true, net')) :
      Step s (.ask sector nbSectors net)
        { s.issue (.readData sector nbSectors) net'.wire with
          reading := some ⟨s.calls, sector, nbSectors, net', none, s.writes⟩ }
  | askRefused (s) (rounds : ℕ) (sector nbSectors : UInt64) (net net' : Net)
      (hidle : s.reading = none)
      (hrun : run netHandler (sawaReadAsk rounds sector nbSectors) net = (some false, net')) :
      Step s (.ask sector nbSectors net) s
  | execute (s) (before after : List Message) (m : Message) (cut : ℕ → ℕ) (info : Fin 3 → ℕ)
      (hflight : s.flight = before ++ m :: after) (hwhole : ∀ k, m.wire.length ≤ cut k) :
      Step s (.execute before.length) (s.execute m.number (before ++ after)
        (run sysHandler (readData (m.wire.length + 1))
          (s.shared, ⟨m.wire, cut, [], info⟩)).2)
  | answer (s) (r : Reading) (rounds : ℕ) (bufferIn buffer : Mem) (ret : ℤ) (net' : Net)
      (hreading : s.reading = some r)
      (hrun : run netHandler (sawaReadAnswer rounds r.nbSectors bufferIn)
        { r.net with reply := r.reply.getD [] } = (some (ret, buffer), net')) :
      Step s .answer { s with
        reading := none
        results := if ret = 0 then ⟨r.sector, r.nbSectors, buffer, r.history⟩ :: s.results
          else s.results }

/-- The states of the runs whose steps all meet the condition. -/
inductive Reachable (ok : State → Action → Prop) (shared : Shared) : State → Prop where
  | init : Reachable ok shared (initial shared)
  | step {s t a} (r : Reachable ok shared s) (hok : ok s a) (h : Step s a t) :
      Reachable ok shared t

/-! ### What a read has to deliver -/

/-- The byte last written at an address, in a history given newest first. -/
def lastData (init : Mem) : List Write → Mem
  | [], a => init a
  | w :: older, a =>
    if 512 * w.sector.toNat ≤ a ∧ a < 512 * w.sector.toNat + 512 * w.nbSectors.toNat then
      w.buffer (a - 512 * w.sector.toNat)
    else lastData init older a

/-- Each byte is the one last written before the read was issued. -/
def ReadResult.Right (init : Mem) (r : ReadResult) : Prop :=
  ∀ i < 512 * r.nbSectors.toNat,
    r.buffer i = lastData init r.history (512 * r.sector.toNat + i)

/-- A message overtakes no write to a sector of its own, the calls send their messages whole and
short enough for the server, or of a read not even the length, and a reply is received in one
piece. -/
def InOrder (s : State) : Action → Prop
  | .write _ nbSectors _ net => Connects net →
    nbSectors.toNat ≤ 63 ∧ Carries net.sends (9 + 512 * nbSectors.toNat)
  | .ask _ nbSectors net => Connects net →
    ¬ Carries net.sends 4 ∨ Carries net.sends 13 ∧ OnePiece net.recvs (512 * nbSectors.toNat)
  | .execute k => ∀ m, s.flight[k]? = some m → ∀ y ∈ s.flight.take k, ∀ u ∈ updates y.call,
    u.ApartFrom (start m.call) (count m.call)
  | .answer => True

/-! ### The invariant -/

def pending (flight : List Message) : List (Update UInt8) := flight.flatMap fun m => updates m.call

/-- The message is on the wire as it was built, or it is none of a write and cut in its length. -/
structure Message.Sound (m : Message) : Prop where
  served : Served m.call
  wire : m.wire = m.call.message ∨ updates m.call = [] ∧ m.wire.length < 4

/-- The reply to the read is the right one and is received in one piece, or there is none. -/
def Reading.Answered (init : Mem) (r : Reading) (reply : List UInt8) : Prop :=
  reply = [] ∨ OnePiece r.net.recvs (512 * r.nbSectors.toNat) ∧
    reply = load (lastData init r.history) (512 * r.sector.toNat) (512 * r.nbSectors.toNat)

/-- The read that waits is the last call. Until a server thread has dealt with it, its message is
the last one sent; from then on it is answered. -/
structure Awaits (init : Mem) (s : State) (r : Reading) : Prop where
  history_eq : r.history = s.writes
  number_lt : r.number < s.calls
  range : r.sector.toNat + r.nbSectors.toNat ≤ 2048
  unanswered : r.reply = none → ∃ before m, s.flight = before ++ [m] ∧ m.number = r.number ∧
    m.call = .readData r.sector r.nbSectors ∧
      (m.wire = m.call.message → OnePiece r.net.recvs (512 * r.nbSectors.toNat)) ∧
        ∀ y ∈ before, y.number ≠ r.number
  answered : ∀ reply, r.reply = some reply →
    (∀ m ∈ s.flight, m.number ≠ r.number) ∧ r.Answered init reply

/-- The file becomes what the calls were to make of it once the pending writes are made in the
order they were sent in. -/
structure Invariant (init : Mem) (s : State) : Prop where
  length_eq : s.shared.fp.contents.length = capacity
  sound : ∀ m ∈ s.flight, m.Sound ∧ m.number < s.calls
  pending_eq : storeAll (image 0 s.shared.fp.contents) (pending s.flight) = lastData init s.writes
  awaits : ∀ r, s.reading = some r → Awaits init s r
  right : ∀ r ∈ s.results, r.Right init

section Steps
variable {init : Mem} {s : State} {r : Reading} {m : Message} {before after : List Message}

theorem store_lastData (ws : List Write) (w : Write) :
    store (lastData init ws) (512 * w.sector.toNat) (load w.buffer 0 (512 * w.nbSectors.toNat)) =
      lastData init (w :: ws) := by
  funext a
  rw [lastData]
  by_cases ha : 512 * w.sector.toNat ≤ a ∧ a < 512 * w.sector.toNat + 512 * w.nbSectors.toNat
  · rw [if_pos ha, store_inside _ _ _ ha.1 (by rw [length_load]; omega), getElem_load,
      Nat.zero_add]
  · rw [if_neg ha, store_outside _ _ _ (by rw [length_load]; omega)]

/-- A message that is carried whole is on the wire as it was built. -/
theorem Sent.wire_eq {message : List UInt8} {net net' : Net} (h : Sent message net net')
    (hnew : net.wire = []) (hc : Carries net.sends message.length) :
    net'.wire = message ∧ net'.recvs = net.recvs := by
  obtain ⟨sends, k, -, hiff, rfl⟩ := h.sent
  refine ⟨?_, rfl⟩
  rw [hnew, List.nil_append, List.take_of_length_le ((hiff _ le_rfl).mpr hc)]

/-- Of a message whose length is not carried there is less than that on the wire. -/
theorem Sent.wire_short {message : List UInt8} {net net' : Net} (h : Sent message net net')
    (hnew : net.wire = []) (hlen : 4 ≤ message.length) (hc : ¬ Carries net.sends 4) :
    net'.wire.length < 4 := by
  obtain ⟨sends, k, -, hiff, rfl⟩ := h.sent
  have hk : ¬ 4 ≤ k := fun hle => hc ((hiff 4 hlen).mp hle)
  show (net.wire ++ message.take k).length < 4
  rw [hnew, List.nil_append, List.length_take]
  omega

theorem Invariant.sound_issue (hi : Invariant init s) {call : Command} {wire : List UInt8}
    (hm : Message.Sound ⟨s.calls, call, wire⟩) :
    ∀ m ∈ (s.issue call wire).flight, m.Sound ∧ m.number < (s.issue call wire).calls := by
  intro y hy
  rcases List.mem_append.mp hy with hy | hy
  · obtain ⟨hs, hn⟩ := hi.sound y hy
    exact ⟨hs, Nat.lt_succ_of_lt hn⟩
  · rw [List.mem_singleton.mp hy]
    exact ⟨hm, Nat.lt_succ_self _⟩

theorem pending_issue (call : Command) (wire : List UInt8) :
    pending (s.issue call wire).flight = pending s.flight ++ updates call := by
  simp [State.issue, pending]

theorem invariant_write {sector nbSectors : UInt64} {buffer : Mem} (hi : Invariant init s)
    (hidle : s.reading = none)
    (hc : sector.toNat + nbSectors.toNat ≤ 2048 ∧ nbSectors.toNat ≤ 63) :
    Invariant init { s.issue (.writeData sector nbSectors buffer)
        (writeMessage sector nbSectors buffer) with
      writes := ⟨sector, nbSectors, buffer⟩ :: s.writes } := by
  constructor
  · exact hi.length_eq
  · exact hi.sound_issue ⟨hc, .inl rfl⟩
  · have hpending := hi.pending_eq
    rw [← store_lastData, ← hpending]
    show storeAll _ (pending (s.issue _ _).flight) = _
    rw [pending_issue, storeAll_append]
    rfl
  · intro r hr
    have hnone : s.reading = some r := hr
    rw [hidle] at hnone
    cases hnone
  · exact hi.right

theorem invariant_ask {sector nbSectors : UInt64} {net : Net} {wire : List UInt8}
    (hi : Invariant init s) (hrange : sector.toNat + nbSectors.toNat ≤ 2048)
    (hwire : wire.length < 4 ∨
      wire = readMessage sector nbSectors ∧ OnePiece net.recvs (512 * nbSectors.toNat)) :
    Invariant init { s.issue (.readData sector nbSectors) wire with
      reading := some ⟨s.calls, sector, nbSectors, net, none, s.writes⟩ } := by
  constructor
  · exact hi.length_eq
  · exact hi.sound_issue ⟨hrange, hwire.symm.imp And.left (⟨rfl, ·⟩)⟩
  · refine Eq.trans ?_ hi.pending_eq
    show storeAll _ (pending (s.issue _ _).flight) = _
    rw [pending_issue, updates, List.append_nil]
    rfl
  · rintro r ⟨⟩
    constructor
    · rfl
    · exact Nat.lt_succ_self _
    · exact hrange
    · intro _
      refine ⟨s.flight, _, rfl, rfl, rfl, ?_, ?_⟩
      · intro hwhole
        have hlen : wire.length = 13 :=
          (congrArg List.length hwhole).trans (length_readMessage sector nbSectors)
        exact (hwire.resolve_left (by omega)).2
      · intro y hy
        exact (hi.sound y hy).2.ne
    · nofun
  · exact hi.right

/-- A call that overtakes no overlapping write may be served first. -/
theorem storeAll_served {call : Command} {before after : List (Update UInt8)}
    (hov : ∀ u ∈ before, u.ApartFrom (start call) (count call)) (img : ℕ → UInt8) :
    storeAll (storeAll img (updates call)) (before ++ after) =
      storeAll img (before ++ (updates call ++ after)) := by
  cases call with
  | sendInfo => rfl
  | readData => rfl
  | writeData sector nbSectors buffer =>
    apply storeAll_ahead
    intro u hu
    rw [length_load]
    exact hov u hu

/-- A right reply of which more than one byte is received. -/
theorem right_of_reply {sector nbSectors : UInt64} {bufferIn : Mem} {history : List Write}
    {recvs : ℕ → Except ℕ ℕ} {k j : ℕ} {reply : List UInt8}
    (hone : OnePiece recvs (512 * nbSectors.toNat)) (hk : ∀ i < k, Waits (recvs i))
    (hj : recvs k = .ok j) (hreply : reply =
      load (lastData init history) (512 * sector.toNat) (512 * nbSectors.toNat))
    (hlen : 1 < (reply.take (min j (512 * nbSectors.toNat))).length) :
    ReadResult.Right init ⟨sector, nbSectors,
      store bufferIn 0 (reply.take (min j (512 * nbSectors.toNat))), history⟩ := by
  rw [List.length_take] at hlen
  have hle := (hone k j hk hj).resolve_left (by omega)
  have hall : reply.take (min j (512 * nbSectors.toNat)) = reply := by
    apply List.take_of_length_le
    rw [hreply, length_load]
    omega
  intro i hlt
  show store bufferIn 0 (reply.take _) i = _
  rw [hall, hreply, store_inside _ 0 _ (Nat.zero_le i) (by rw [length_load]; exact hlt),
    getElem_load]
  rfl

/-- The writes that `m` overtakes do not overlap it. -/
def Overtakes (before : List Message) (m : Message) : Prop :=
  ∀ u ∈ pending before, u.ApartFrom (start m.call) (count m.call)

/-- A message that overtakes no overlapping write may be dealt with first. -/
theorem pending_execute (hov : Overtakes before m) (img : ℕ → UInt8) :
    storeAll (storeAll img (updates m.call)) (pending (before ++ after)) =
      storeAll img (pending (before ++ m :: after)) := by
  have hsplit : pending (before ++ m :: after) =
      pending before ++ (updates m.call ++ pending after) := by simp [pending]
  rw [hsplit, pending, List.flatMap_append]
  exact storeAll_served hov img

/-- A read that overtakes no overlapping write finds the bytes last written. -/
theorem load_execute (hi : Invariant init s) (hflight : s.flight = before ++ [m])
    {sector nbSectors : UInt64} (hcall : m.call = .readData sector nbSectors)
    (hov : Overtakes before m) :
    load (image 0 s.shared.fp.contents) (512 * sector.toNat) (512 * nbSectors.toNat) =
      load (lastData init s.writes) (512 * sector.toNat) (512 * nbSectors.toNat) := by
  have hpend : pending s.flight = pending before := by
    rw [hflight, pending, List.flatMap_append]
    simp [hcall, updates, pending]
  rw [← hi.pending_eq, hpend, load_storeAll_apart]
  intro u hu
  have hu := hov u hu
  rwa [hcall] at hu

/-- In a list with `x` somewhere and only its last element satisfying `p`, `x` is either that
last element or comes before it. -/
theorem append_cons_eq_concat {α : Type} {before after init : List α} {x last : α}
    (h : before ++ x :: after = init ++ [last]) :
    (after = [] ∧ before = init ∧ x = last) ∨
      ∃ rest, after = rest ++ [last] ∧ init = before ++ x :: rest := by
  rcases List.eq_nil_or_concat after with rfl | ⟨rest, y, rfl⟩
  · obtain ⟨rfl, hx⟩ := List.append_inj' h rfl
    exact .inl ⟨rfl, rfl, List.singleton_inj.mp hx⟩
  · rw [List.concat_eq_append, ← List.cons_append, ← List.append_assoc] at h
    obtain ⟨hinit, hlast⟩ := List.append_inj' h rfl
    exact .inr ⟨rest, by rw [List.concat_eq_append, List.singleton_inj.mp hlast], hinit.symm⟩

/-- The reply of the message that the read waits for. -/
theorem awaits_own (hi : Invariant init s) (hr : Awaits init s r)
    (hflight : s.flight = before ++ m :: after) (hnumber : r.number = m.number)
    (hov : Overtakes before m) {w : World} {reply : List UInt8}
    (hreply : ∀ sector nbSectors, m.call = .readData sector nbSectors → reply = [] ∨
      m.wire = m.call.message ∧ reply =
        load (image 0 s.shared.fp.contents) (512 * sector.toNat) (512 * nbSectors.toNat)) :
    Awaits init (s.execute m.number (before ++ after) w) { r with reply := some reply } := by
  have hmem : m ∈ s.flight := hflight ▸ List.mem_append_right _ List.mem_cons_self
  have hnone : r.reply = none := by
    cases hrep : r.reply with
    | none => rfl
    | some bytes => exact absurd hnumber.symm ((hr.answered bytes hrep).1 m hmem)
  obtain ⟨before', m', hflight', hnumber', hcall, hone, hfresh⟩ := hr.unanswered hnone
  rcases append_cons_eq_concat (hflight.symm.trans hflight') with
    ⟨rfl, rfl, rfl⟩ | ⟨rest, rfl, rfl⟩
  · constructor
    · exact hr.history_eq
    · exact hr.number_lt
    · exact hr.range
    · nofun
    · rintro _ ⟨⟩
      constructor
      · rw [List.append_nil]
        exact hfresh
      · refine (hreply _ _ hcall).imp_right ?_
        rintro ⟨hwhole, rfl⟩
        refine ⟨hone hwhole, (load_execute hi hflight' hcall hov).trans ?_⟩
        exact congrArg (fun ws => load (lastData init ws) _ _) hr.history_eq.symm
  · exact absurd hnumber.symm (hfresh m (List.mem_append_right _ List.mem_cons_self))

/-- Another message leaves the read waiting. -/
theorem awaits_other (hr : Awaits init s r) (hflight : s.flight = before ++ m :: after)
    (hnumber : r.number ≠ m.number) {w : World} :
    Awaits init (s.execute m.number (before ++ after) w) r := by
  constructor
  · exact hr.history_eq
  · exact hr.number_lt
  · exact hr.range
  · intro hnone
    obtain ⟨before', m', hflight', hnumber', hcall, hone, hfresh⟩ := hr.unanswered hnone
    rcases append_cons_eq_concat (hflight.symm.trans hflight') with
      ⟨rfl, rfl, rfl⟩ | ⟨rest, rfl, rfl⟩
    · exact absurd hnumber'.symm hnumber
    · refine ⟨before ++ rest, m', (List.append_assoc _ _ _).symm, hnumber', hcall, hone, ?_⟩
      intro y hy
      apply hfresh
      rcases List.mem_append.mp hy with hy | hy
      · exact List.mem_append_left _ hy
      · exact List.mem_append_right _ (List.mem_cons_of_mem _ hy)
  · intro reply hreply
    rcases hr.answered reply hreply with ⟨hfresh, hdata⟩
    refine ⟨?_, hdata⟩
    intro y hy
    apply hfresh
    rw [hflight]
    rcases List.mem_append.mp hy with hy | hy
    · exact List.mem_append_left _ hy
    · exact List.mem_append_right _ (List.mem_cons_of_mem _ hy)

/-- What a server thread makes of the connection. -/
theorem Message.Sound.run (h : m.Sound) {w : World} (hl : w.1.fp.contents.length = capacity)
    (hin : w.2.input = m.wire) (ha : Ample w.2) (hout : w.2.output = []) :
    (EffectProgram.run sysHandler (readData (m.wire.length + 1)) w).2.1.fp.contents.length =
        capacity ∧
      image 0 (EffectProgram.run sysHandler (readData (m.wire.length + 1)) w).2.1.fp.contents =
        storeAll (image 0 w.1.fp.contents) (updates m.call) ∧
      ∀ sector nbSectors, m.call = .readData sector nbSectors →
        (EffectProgram.run sysHandler (readData (m.wire.length + 1)) w).2.2.output.flatten = [] ∨
          m.wire = m.call.message ∧
            (EffectProgram.run sysHandler (readData (m.wire.length + 1)) w).2.2.output.flatten =
              load (image 0 w.1.fp.contents) (512 * sector.toNat) (512 * nbSectors.toNat) := by
  rcases h.wire with hwire | ⟨hupdates, hshort⟩
  · have hpos : 1 < m.wire.length + 1 := by
      rw [hwire, message_request h.served.fits, length_message]
      omega
    obtain ⟨hlen, himage, hreply⟩ := run_served h.served hl (hin.trans hwire) ha hout hpos
    exact ⟨hlen, himage, fun sector nbSectors hcall => .inr ⟨hwire, hreply sector nbSectors hcall⟩⟩
  · obtain ⟨hshared, houtput⟩ := run_readData_short (hin ▸ hshort) m.wire.length
    rw [hshared, houtput, hout, hupdates]
    exact ⟨hl, rfl, fun _ _ _ => .inl rfl⟩

theorem invariant_execute (hi : Invariant init s) (hflight : s.flight = before ++ m :: after)
    (hov : Overtakes before m) {cut : ℕ → ℕ} (hwhole : ∀ k, m.wire.length ≤ cut k)
    (info : Fin 3 → ℕ) :
    Invariant init (s.execute m.number (before ++ after)
      (run sysHandler (readData (m.wire.length + 1)) (s.shared, ⟨m.wire, cut, [], info⟩)).2) := by
  have hmem : m ∈ s.flight := hflight ▸ List.mem_append_right _ List.mem_cons_self
  obtain ⟨hlen, himage, hreply⟩ := (hi.sound m hmem).1.run
    (w := (s.shared, ⟨m.wire, cut, [], info⟩)) hi.length_eq rfl hwhole rfl
  constructor
  · exact hlen
  · intro y hy
    apply hi.sound
    rw [hflight]
    rcases List.mem_append.mp hy with hy | hy
    · exact List.mem_append_left _ hy
    · exact List.mem_append_right _ (List.mem_cons_of_mem _ hy)
  · have hpending := hi.pending_eq
    rw [hflight, ← pending_execute hov, ← himage] at hpending
    exact hpending
  · intro r hr
    obtain ⟨r₀, hr₀, rfl⟩ := Option.map_eq_some_iff.mp hr
    split_ifs with hnumber
    · exact awaits_own hi (hi.awaits r₀ hr₀) hflight hnumber hov hreply
    · exact awaits_other (hi.awaits r₀ hr₀) hflight hnumber
  · exact hi.right

/-- What a read delivers that returns 0. -/
theorem right_answer (hr : Awaits init s r) {rounds : ℕ} {bufferIn buffer : Mem} {net' : Net}
    (h : run netHandler (sawaReadAnswer rounds r.nbSectors bufferIn)
      { r.net with reply := r.reply.getD [] } = (some (0, buffer), net')) :
    ReadResult.Right init ⟨r.sector, r.nbSectors, buffer, r.history⟩ := by
  obtain ⟨k, j, hk, hj, hlen, rfl⟩ := run_sawaReadAnswer h
  have hrange := hr.range
  have hsize := toNat_sectorBytes (n := r.nbSectors) (by omega)
  rw [hsize] at hlen ⊢
  cases hrep : r.reply with
  | none =>
    rw [hrep] at hlen
    simp at hlen
  | some reply =>
    rw [hrep] at hlen
    rcases (hr.answered reply hrep).2 with rfl | ⟨hone, hdata⟩
    · simp at hlen
    · exact right_of_reply hone hk hj hdata hlen

theorem invariant_answer (hi : Invariant init s) (hreading : s.reading = some r) {rounds : ℕ}
    {bufferIn buffer : Mem} {ret : ℤ} {net' : Net}
    (h : run netHandler (sawaReadAnswer rounds r.nbSectors bufferIn)
      { r.net with reply := r.reply.getD [] } = (some (ret, buffer), net')) :
    Invariant init { s with
      reading := none
      results := if ret = 0 then ⟨r.sector, r.nbSectors, buffer, r.history⟩ :: s.results
        else s.results } := by
  constructor
  · exact hi.length_eq
  · exact hi.sound
  · exact hi.pending_eq
  · nofun
  · intro q hq
    by_cases hret : ret = 0
    · subst hret
      rcases List.mem_cons.mp hq with rfl | hq
      · exact right_answer (hi.awaits r hreading) h
      · exact hi.right q hq
    · rw [if_neg hret] at hq
      exact hi.right q hq

theorem invariant_initial {shared : Shared} (h : shared.fp.contents.length = capacity) :
    Invariant (image 0 shared.fp.contents) (initial shared) := by
  constructor
  · exact h
  · nofun
  · rfl
  · nofun
  · nofun

theorem overtakes_of_inOrder (hflight : s.flight = before ++ m :: after)
    (h : InOrder s (.execute before.length)) : Overtakes before m := by
  intro u hu
  obtain ⟨y, hy, hyu⟩ := List.mem_flatMap.mp hu
  have hget : s.flight[before.length]? = some m := by simp [hflight]
  have htake : s.flight.take before.length = before := by simp [hflight]
  exact h m hget y (by rw [htake]; exact hy) u hyu

theorem invariant_step {a : Action} {t : State} (h : Step s a t) (hok : InOrder s a)
    (hi : Invariant init s) : Invariant init t := by
  cases h with
  | write rounds sector nbSectors buffer net net' hidle hrange hnew hrun =>
    have hsent := sent_sawaWriteData (by rw [toNat_sectorBytes (by omega)]; omega) hrun
    obtain ⟨h63, hcarries⟩ := hok hsent.connects
    have hlen : (writeMessage sector nbSectors buffer).length = 9 + 512 * nbSectors.toNat := by
      rw [length_writeMessage, toNat_sectorBytes (by omega)]
    obtain ⟨hwire, -⟩ := Sent.wire_eq hsent hnew (hlen ▸ hcarries)
    rw [hwire]
    exact invariant_write hi hidle ⟨hrange, h63⟩
  | ask rounds sector nbSectors net net' hidle hrange hnew hrun =>
    have hsent := sent_sawaReadAsk hrun
    have hlen := length_readMessage sector nbSectors
    apply invariant_ask hi hrange
    rcases hok hsent.connects with hunsent | ⟨hcarries, hone⟩
    · exact .inl (Sent.wire_short hsent hnew (by omega) hunsent)
    · obtain ⟨hwire, hrecvs⟩ := Sent.wire_eq hsent hnew (hlen ▸ hcarries)
      exact .inr ⟨hwire, hrecvs ▸ hone⟩
  | writeRefused => exact hi
  | askRefused => exact hi
  | execute before after m cut info hflight hwhole =>
    exact invariant_execute hi hflight (overtakes_of_inOrder hflight hok) hwhole info
  | answer r rounds bufferIn buffer ret net' hreading hrun =>
    exact invariant_answer hi hreading hrun

end Steps

/-- In every run that keeps to the condition, every read that returned 0 delivered the data last
written before it was issued. -/
theorem reads_right_in_order {shared : Shared} (hlen : shared.fp.contents.length = capacity)
    {s : State} (r : Reachable InOrder shared s) :
    ∀ q ∈ s.results, q.Right (image 0 shared.fp.contents) := by
  have hi : Invariant (image 0 shared.fp.contents) s := by
    induction r with
    | init => exact invariant_initial hlen
    | step _ hok h ih => exact invariant_step h hok ih
  exact hi.right

/-! ### A read that overtakes a write -/

/-- A connection on which everything is sent and received at once. -/
def atOnce : Net := ⟨0, 0, fun _ => 4096, fun _ => .ok 4096, [], [], fun _ => 0, 2048⟩

theorem wire_atOnce {message : List UInt8} (h : message.length ≤ 4096) :
    (atOnce.afterSend message).wire = message :=
  List.take_of_length_le h

theorem run_sawaReadAsk_atOnce (sector nbSectors : UInt64) :
    run netHandler (sawaReadAsk 1 sector nbSectors) atOnce =
      (some true, atOnce.afterSend (readMessage sector nbSectors)) := by
  have hretry : ¬ Retry (atOnce.sends 0) := by decide
  obtain ⟨len, hrun⟩ := run_sendRound_last msgWaitall (s := atOnce)
    (Nat.zero_add (readMessage sector nbSectors).length) hretry
    (fun _ => by rw [length_readMessage]; decide)
  rw [length_readMessage] at hrun
  rw [sawaReadAsk, run_afterConnect, if_pos (by decide), if_neg (by decide), run_bind,
    tcpClientSend, run_loop_leave _ _ hrun]
  rfl

theorem run_sawaReadAnswer_atOnce (bufferIn : Mem) {s : Net} (hs : s.recvs 0 = .ok 4096)
    (h : s.reply.length = 512) :
    ∃ net', run netHandler (sawaReadAnswer 1 1 bufferIn) s =
      (some (0, store bufferIn 0 s.reply), net') := by
  have hsize : (sectorBytes 1).toNat = 512 := by decide
  have hreceived : s.received 512 = .ok s.reply := by
    rw [Net.received, hs]
    exact congrArg Except.ok (List.take_of_length_le h.le)
  have hround : run netHandler (receiveRound msgDontwait 512 ()) s =
      (.inr (.ok s.reply), s.afterRecv 512) := by
    have hwaits : ¬ Waits (s.recvs 0) := by
      rw [hs]
      rintro (h | h) <;> cases h
    rw [receiveRound, run_recvmsg, if_neg ((waits_iff s 512).not.mpr hwaits), hreceived]
    rfl
  have hlen : 1 < Received.len (.ok s.reply) := by
    show (1 : ℤ) < s.reply.length
    omega
  refine ⟨s.afterRecv 512, ?_⟩
  rw [sawaReadAnswer, run_bind, hsize, tcpClientReceive, run_loop_leave _ _ hround]
  show run netHandler (kernel .sockRelease >>= fun _ => pure (some
    (if 1 < Received.len (.ok s.reply) then 0 else -1, store bufferIn 0 s.reply))) _ = _
  rw [run_sockRelease, if_pos hlen]
  rfl

def sevens : Mem := fun _ => 7

/-- A write of sector 0 has returned, and no server thread has dealt with it. -/
def writeSent (shared : Shared) : State where
  shared := shared
  calls := 1
  flight := [⟨0, .writeData 0 1 sevens, writeMessage 0 1 sevens⟩]
  reading := none
  writes := [⟨0, 1, sevens⟩]
  results := []

/-- Then a read of the sector has been issued. -/
def bothSent (shared : Shared) : State :=
  { (writeSent shared).issue (.readData 0 1) (readMessage 0 1) with
    reading := some ⟨1, 0, 1, atOnce.afterSend (readMessage 0 1), none, [⟨0, 1, sevens⟩]⟩ }

theorem reachable_bothSent {ok : State → Action → Prop} {shared : Shared}
    (hwrite : ok (initial shared) (.write 0 1 sevens atOnce))
    (hask : ok (writeSent shared) (.ask 0 1 atOnce)) : Reachable ok shared (bothSent shared) := by
  have hlen := length_writeMessage 0 1 sevens
  have hrun : run netHandler (sawaWriteData 1 0 1 sevens) atOnce =
      (some 0, atOnce.afterSend (writeMessage 0 1 sevens)) :=
    run_sawaWriteData_at_once 0 sevens (by decide) (by decide) (by decide) 0
  have h₁ := Step.write (initial shared) 1 0 1 sevens atOnce _ rfl (by decide) rfl hrun
  rw [wire_atOnce (by rw [hlen]; decide)] at h₁
  have h₂ := Step.ask (writeSent shared) 1 0 1 atOnce _ rfl (by decide) rfl
    (run_sawaReadAsk_atOnce 0 1)
  rw [wire_atOnce (by rw [length_readMessage]; decide)] at h₂
  exact (Reachable.init.step hwrite h₁).step hask h₂

theorem flight_bothSent (shared : Shared) : (bothSent shared).flight =
    (writeSent shared).flight ++ [⟨1, .readData 0 1, readMessage 0 1⟩] := rfl

/-- A server thread deals with the read, and the read returns 0 with the sector of the file. -/
theorem read_returns {s : State} (before : List Message)
    (hflight : s.flight = before ++ [⟨1, .readData 0 1, readMessage 0 1⟩])
    (hreading : s.reading = (bothSent s.shared).reading)
    (hlen : s.shared.fp.contents.length = capacity) :
    ∃ s' t, Step s (.execute before.length) s' ∧ Step s' .answer t ∧
      ∃ reply, reply = load (image 0 s.shared.fp.contents) 0 512 ∧
        ⟨0, 1, store (fun _ => 0) 0 reply, [⟨0, 1, sevens⟩]⟩ ∈ t.results := by
  obtain ⟨w, hw⟩ : ∃ w : World,
    w = (s.shared, ⟨readMessage 0 1, fun _ => (readMessage 0 1).length, [], fun _ => 0⟩) := ⟨_, rfl⟩
  have hexec := Step.execute s before [] ⟨1, .readData 0 1, readMessage 0 1⟩
    (fun _ => (readMessage 0 1).length) (fun _ => 0) hflight fun _ => le_rfl
  rw [← hw] at hexec
  have hserved : Served (.readData 0 1) :=
    show (0 : UInt64).toNat + (1 : UInt64).toNat ≤ 2048 by decide
  obtain ⟨-, -, hreply⟩ := run_served hserved (w := w) (by rw [hw]; exact hlen) (by rw [hw]; rfl)
    (by rw [hw]; exact fun _ => le_rfl) (by rw [hw])
    (show 1 < (readMessage 0 1).length + 1 by rw [length_readMessage]; decide)
  have hdata := hreply 0 1 rfl
  have hfp : w.1.fp.contents = s.shared.fp.contents := by rw [hw]
  rw [show 512 * (0 : UInt64).toNat = 0 by decide, show 512 * (1 : UInt64).toNat = 512 by decide,
    hfp] at hdata
  -- Only the length of the reply matters from here on.
  obtain ⟨reply, hrep⟩ : ∃ reply, reply = load (image 0 s.shared.fp.contents) 0 512 := ⟨_, rfl⟩
  have hlength : reply.length = 512 := by rw [hrep, length_load]
  rw [← hrep] at hdata
  have hreading' : (s.execute 1 (before ++ [])
      (run sysHandler (readData ((readMessage 0 1).length + 1)) w).2).reading =
        some ⟨1, 0, 1, atOnce.afterSend (readMessage 0 1), some reply, [⟨0, 1, sevens⟩]⟩ := by
    rw [State.execute, hreading, ← hdata]
    rfl
  obtain ⟨net', hrun⟩ := run_sawaReadAnswer_atOnce (fun _ => 0)
    (s := { atOnce.afterSend (readMessage 0 1) with reply := reply }) rfl hlength
  exact ⟨_, _, hexec, Step.answer _ _ 1 _ _ 0 net' hreading' hrun, reply, hrep,
    List.mem_cons_self⟩

theorem read_waits {shared : Shared} (hlen : shared.fp.contents.length = capacity) :
    ∃ s, Reachable InOrder shared s ∧ s.results ≠ [] := by
  have hwrite : InOrder (initial shared) (.write 0 1 sevens atOnce) := by
    intro _
    exact ⟨by decide, 1, by decide, by decide⟩
  have hask : InOrder (writeSent shared) (.ask 0 1 atOnce) := by
    intro _
    refine .inr ⟨⟨1, by decide, by decide⟩, ?_⟩
    rintro k j _ ⟨⟩
    decide
  have r : Reachable InOrder shared (bothSent shared) := reachable_bothSent hwrite hask
  have hserved : Served (.writeData 0 1 sevens) := ⟨by decide, by decide⟩
  have hexec := Step.execute (bothSent shared) []
    [⟨1, .readData 0 1, readMessage 0 1⟩] ⟨0, .writeData 0 1 sevens, writeMessage 0 1 sevens⟩
    (fun _ => (writeMessage 0 1 sevens).length) (fun _ => 0) rfl fun _ => le_rfl
  obtain ⟨hlen', -, -⟩ := run_served hserved (w := (shared, ⟨writeMessage 0 1 sevens,
    fun _ => (writeMessage 0 1 sevens).length, [], fun _ => 0⟩)) hlen rfl (fun _ => le_rfl) rfl
    (show 1 < (writeMessage 0 1 sevens).length + 1 by rw [length_writeMessage]; omega)
  -- Only the length of the file matters from here on.
  generalize hw : (run sysHandler (readData ((writeMessage 0 1 sevens).length + 1))
    (shared, ⟨writeMessage 0 1 sevens, fun _ => (writeMessage 0 1 sevens).length, [],
      fun _ => 0⟩)).2 = w at hlen'
  have hexec' : Step (bothSent shared) (.execute 0)
      ((bothSent shared).execute 0 [⟨1, .readData 0 1, readMessage 0 1⟩] w) := hw ▸ hexec
  obtain ⟨s', t, hread, hanswer, reply, hrep, hq⟩ := read_returns []
    (s := (bothSent shared).execute 0 [⟨1, .readData 0 1, readMessage 0 1⟩] w) rfl rfl hlen'
  have hfirst : ∀ s, InOrder s (.execute 0) := by
    intro s m _ y hy
    exact absurd hy (by simp)
  exact ⟨t, ((r.step (hfirst _) hexec').step (hfirst _) hread).step
    (show InOrder s' .answer from trivial) hanswer, List.ne_nil_of_mem hq⟩

theorem read_overtakes {shared : Shared} (hlen : shared.fp.contents.length = capacity) :
    ∃ s, Reachable (fun _ _ => True) shared s ∧ ∃ q ∈ s.results, q.sector = 0 ∧
      q.nbSectors = 1 ∧ q.history = [⟨0, 1, sevens⟩] ∧
        q.buffer 0 = image 0 shared.fp.contents 0 := by
  have r : Reachable (fun _ _ => True) shared (bothSent shared) :=
    reachable_bothSent trivial trivial
  obtain ⟨s', t, hexec, hanswer, reply, hrep, hq⟩ :=
    read_returns _ (flight_bothSent shared) rfl hlen
  refine ⟨t, (r.step trivial hexec).step trivial hanswer, _, hq, rfl, rfl, rfl, ?_⟩
  have hlength : 0 < reply.length := by
    rw [hrep, length_load]
    decide
  have hbyte : store (fun _ => 0) 0 reply 0 = reply[0] :=
    store_inside _ 0 reply le_rfl hlength
  refine hbyte.trans ?_
  simp only [hrep, getElem_load]
  rfl

/-- The server thread of the read goes first: the read returns 0 with the old byte, although the
write of it had returned 0 before. -/
theorem overtaking_read_not_right :
    ∃ s, Reachable (fun _ _ => True) newWorld.1 s ∧
      ∃ q ∈ s.results, q.history = [⟨0, 1, sevens⟩] ∧
        q.buffer 0 = 0 ∧ ¬ q.Right (image 0 newWorld.1.fp.contents) := by
  have hlen : newWorld.1.fp.contents.length = capacity := length_newFile
  obtain ⟨s, r, q, hq, hsector, hnb, hhistory, hbuffer⟩ :=
    read_overtakes hlen
  have hzero : q.buffer 0 = 0 := by
    rw [hbuffer, newWorld, simulates_new.image_eq]
    rfl
  refine ⟨s, r, q, hq, hhistory, hzero, ?_⟩
  intro hright
  have hseven := hright 0 (by rw [hnb]; decide)
  rw [hzero, hsector, hhistory, lastData, if_pos (by decide)] at hseven
  exact absurd hseven (by decide)

/-- With the server thread of the write first, the read delivers what was written. -/
theorem later_read_right :
    ∃ s, Reachable InOrder newWorld.1 s ∧ s.results ≠ [] ∧
      ∀ q ∈ s.results, q.Right (image 0 newWorld.1.fp.contents) := by
  obtain ⟨s, r, hne⟩ : ∃ s, Reachable InOrder newWorld.1 s ∧ s.results ≠ [] :=
    read_waits length_newFile
  exact ⟨s, r, hne, reads_right_in_order length_newFile r⟩

end SawaDriverOrder
