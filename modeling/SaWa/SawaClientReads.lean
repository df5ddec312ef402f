import SaWa.SawaClientWrites
import SaWa.SawaDriverOrder

/-! The READ command of `server/sawa_client_interface.cpp` with a server at the other end. An error
is told from data by the length of what one `read` has brought. -/
namespace SawaClientReads

open EffectProgram RangeStore LittleEndian SawaProtocol SawaServer SawaServerRun SawaFrameLoop
  SawaClientWrites

/-- How `sendReadCmd` ends: with its buffer, with an error code thrown, or without an array for
the buffer. -/
inductive Outcome where
  | returned (buffer : List UInt8)
  | threw (n : UInt8)
  | badArrayLength
  deriving DecidableEq, Repr

def readCommand (block : Mem) (offset payloadSize : UInt32) : Command :=
  ((prepareCommand block sawaRead (4 + 4)).put 5 (wordBytes offset)).put (5 + 4)
    (wordBytes payloadSize)

/-- `bufferIn` and `block` are the memory at the two new arrays. `readFromServer` is what one `read`
of at most so many bytes gets after this was sent, `none` for -1. -/
def sendReadCmd (bufferIn block : Mem) (offset payloadSize : UInt32)
    (readFromServer : List UInt8 → ℕ → Option (List UInt8)) : Outcome :=
  -- `payload_size` is an `int`, and `new` throws when it is negative
  if 2 ^ 31 ≤ payloadSize.toNat then .badArrayLength
  else
    match readFromServer (readCommand block offset payloadSize).sent payloadSize.toNat with
    | none => .returned (load bufferIn 0 payloadSize.toNat)
    | some got =>
      let bufferIn := store bufferIn 0 got
      if got.length = 1 then .threw (bufferIn 0) else .returned (load bufferIn 0 payloadSize.toNat)

/-- One `read` of the whole reply of a server whose thread has got what was sent. -/
def wholeReply (s : Shared) (c : Conn) (rounds : ℕ) (sent : List UInt8) (n : ℕ) :
    Option (List UInt8) :=
  some ((run sysHandler (readData rounds) (s, { c with input := sent })).2.2.output.flatten.take n)

/-- Whatever is in the new arrays, the stored bytes of a range inside the filesystem are returned,
and `SAWA_MSG_NOAUTH` is thrown for any other range. -/
def ReadsRight (s : Shared) (offset size : UInt32) : Prop :=
  ∀ (bufferIn block : Mem) (c : Conn) (rounds : ℕ),
    Ample { c with input := (readCommand block offset size).sent } → c.output = [] → 1 < rounds →
      sendReadCmd bufferIn block offset size (wholeReply s c rounds) =
        if offset.toNat + size.toNat ≤ capacity then
          .returned (slice s.fp.contents offset.toNat size.toNat)
        else .threw sawaMsgNoauth

section Exchange
variable {s : Shared} {bufferIn block : Mem} {offset size : UInt32} {c : Conn} {rounds : ℕ}

theorem sent_readCommand : (readCommand block offset size).sent =
    message (Request.read offset size).frame := by
  have hsize : load (readCommand block offset size).bufferOut 9 4 = wordBytes size := by
    have hself := load_store_self ((prepareCommand block sawaRead (4 + 4)).put 5
      (wordBytes offset)).bufferOut 9 (wordBytes size)
    rwa [length_wordBytes] at hself
  have hlen : (Request.read offset size).frame.length = 9 := by simp [Request.frame]
  have hsent := sent_filled block sawaRead offset 4 (wordBytes size)
  rw [← readCommand, hsize] at hsent
  rw [hsent, message, hlen]
  rfl

/-- The reply to the one message sent. -/
theorem wholeReply_eq (ha : Ample { c with input := (readCommand block offset size).sent })
    (hout : c.output = []) (hr : 1 < rounds) (n : ℕ) :
    wholeReply s c rounds (readCommand block offset size).sent n =
      some ((replyTo (.read offset size) s.afterAlloc).take n) := by
  have hlen : (Request.read offset size).frame.length = 9 := by simp [Request.frame]
  have hrun := (SawaDriverOrder.run_readData_message (Request.frame_ne_nil (.read offset size))
    (by omega) (w := (s, { c with input := (readCommand block offset size).sent }))
    sent_readCommand ha hr).2
  rw [wholeReply, hrun, after_cons, after_nil, run_receive_decode (decode_frame _) (by omega),
    output_requestEffect, conn_afterAlloc, hout]
  simp [afterAlloc]

theorem accepted_of_lt (hsum : offset.toNat + size.toNat < 2 ^ 32) :
    Accepted offset size ↔ offset.toNat + size.toNat ≤ capacity := by
  rw [accepted_iff, Nat.mod_eq_of_lt hsum]

theorem length_readBuffer (s : Shared) (offset size : ℕ) :
    (readBuffer s offset size).length = size := length_load _ _ _

/-- A range that the server refuses makes the call throw, and one that it does not makes it return
what the server has read, unless that is one byte. -/
theorem sendReadCmd_server (hpos : 0 < size.toNat) (hint : size.toNat < 2 ^ 31)
    (hsum : offset.toNat + size.toNat < 2 ^ 32)
    (ha : Ample { c with input := (readCommand block offset size).sent }) (hout : c.output = [])
    (hr : 1 < rounds) :
    sendReadCmd bufferIn block offset size (wholeReply s c rounds) =
      if offset.toNat + size.toNat ≤ capacity then
        if size.toNat = 1 then
          .threw (store bufferIn 0 (readBuffer s.afterAlloc offset.toNat size.toNat) 0)
        else .returned (readBuffer s.afterAlloc offset.toNat size.toNat)
      else .threw sawaMsgNoauth := by
  rw [sendReadCmd, if_neg (by omega), wholeReply_eq ha hout hr, replyTo]
  simp only [accepted_of_lt hsum]
  by_cases hin : offset.toNat + size.toNat ≤ capacity
  · have hself := load_store_self bufferIn 0 (readBuffer s.afterAlloc offset.toNat size.toNat)
    rw [length_readBuffer] at hself
    have htake : (readBuffer s.afterAlloc offset.toNat size.toNat).take size.toNat =
        readBuffer s.afterAlloc offset.toNat size.toNat :=
      List.take_of_length_le (length_readBuffer _ _ _).le
    simp only [if_pos hin, htake, length_readBuffer, hself]
  · have htake : [sawaMsgNoauth].take size.toNat = [sawaMsgNoauth] :=
      List.take_of_length_le hpos
    simp only [if_neg hin, htake, List.length_singleton, if_true]
    rfl

end Exchange

/-- A connection that is read whole. -/
def wholeConn : Conn := ⟨[], fun _ => 13, [], fun _ => 0⟩

theorem wholeConn_ample (block : Mem) (offset size : UInt32) :
    Ample { wholeConn with input := (readCommand block offset size).sent } := by
  intro k
  rw [sent_readCommand, length_message]
  simp [Request.frame, wholeConn]

/-- What the server reads is the stored bytes exactly when the file holds the range. -/
theorem readBuffer_stored_iff (s : Shared) (offset size : ℕ) :
    readBuffer s offset size = slice s.fp.contents offset size ↔
      size = 0 ∨ offset + size ≤ s.fp.contents.length := by
  constructor
  · intro h
    have hlen := congrArg List.length h
    rw [length_readBuffer, slice, List.length_take, List.length_drop] at hlen
    omega
  · rintro (rfl | h)
    · rfl
    · exact readBuffer_within h

/-- For a range inside the filesystem the call is right when the file holds all of it and it is not
of one byte, and for a range outside when its size is an `int`. -/
theorem reads_right_iff (s : Shared) (offset size : UInt32) (hpos : 0 < size.toNat)
    (hsum : offset.toNat + size.toNat < 2 ^ 32) :
    ReadsRight s offset size ↔
      if offset.toNat + size.toNat ≤ capacity then
        size.toNat ≠ 1 ∧ offset.toNat + size.toNat ≤ s.fp.contents.length
      else size.toNat < 2 ^ 31 := by
  have hcap := capacity_eq
  have hstored := readBuffer_stored_iff s.afterAlloc offset.toNat size.toNat
  have hfp : s.afterAlloc.fp = s.fp := rfl
  rw [hfp, or_iff_right (by omega)] at hstored
  constructor
  · intro h
    have hcall := h (fun _ => 0) (fun _ => 0) wholeConn 2 (wholeConn_ample _ offset size) rfl
      (Nat.lt_succ_self 1)
    by_cases hint : size.toNat < 2 ^ 31
    · rw [sendReadCmd_server hpos hint hsum (wholeConn_ample _ offset size) rfl
        (Nat.lt_succ_self 1)] at hcall
      split_ifs at hcall ⊢ with hin hone
      · exact ⟨hone, hstored.mp (Outcome.returned.inj hcall)⟩
      · exact hint
    · rw [sendReadCmd, if_pos (by omega)] at hcall
      split_ifs at hcall
  · intro h bufferIn block c rounds ha hout hr
    by_cases hin : offset.toNat + size.toNat ≤ capacity
    · rw [if_pos hin] at h
      rw [sendReadCmd_server hpos (by omega) hsum ha hout hr, if_pos hin, if_pos hin, if_neg h.1,
        hstored.mpr h.2]
    · rw [if_neg hin] at h
      rw [sendReadCmd_server hpos h hsum ha hout hr, if_neg hin, if_neg hin]

/-- A file of four bytes. -/
def fourBytes : Shared := ⟨⟨[1, 2, 3, 4], 0⟩, fun _ _ => 0, fun _ => 0⟩

theorem two_bytes_read_right : ReadsRight fourBytes 1 2 :=
  (reads_right_iff fourBytes 1 2 (by decide) (by decide)).mpr (by decide)

theorem slice_newFile : slice (getFilesystemFile none).contents 0 1 = [0] := by
  have hempty : ∀ d : List UInt8, patch 0 [] 0 d = d := by
    intro d
    cases d <;> simp [patch]
  have hcap : (nbSectors * 512).toNat = capacity := rfl
  rw [getFilesystemFile, FileStream.fwrite, hempty, hcap, slice, List.drop_zero,
    List.take_replicate, Nat.min_eq_left (by decide)]
  rfl

/-- The first byte of a new filesystem is thrown as an error code. -/
theorem first_byte_thrown :
    slice SawaServerBounds.newWorld.1.fp.contents 0 1 = [0] ∧
      (∀ (bufferIn block : Mem) (c : Conn) (rounds : ℕ),
        Ample { c with input := (readCommand block 0 1).sent } → c.output = [] → 1 < rounds →
          sendReadCmd bufferIn block 0 1 (wholeReply SawaServerBounds.newWorld.1 c rounds) =
            .threw 0) ∧
      ¬ ∀ (s : Shared) (offset size : UInt32), 0 < size.toNat →
        offset.toNat + size.toNat < 2 ^ 32 → ReadsRight s offset size := by
  have hthrown : ∀ (bufferIn block : Mem) (c : Conn) (rounds : ℕ),
      Ample { c with input := (readCommand block 0 1).sent } → c.output = [] → 1 < rounds →
        sendReadCmd bufferIn block 0 1 (wholeReply SawaServerBounds.newWorld.1 c rounds) =
          .threw 0 := by
    intro bufferIn block c rounds ha hout hr
    have hcap := capacity_eq
    have hread : readBuffer SawaServerBounds.newWorld.1.afterAlloc 0 1 = [0] := by
      rw [readBuffer_within, ← slice_newFile]
      · rfl
      · have hlen : SawaServerBounds.newWorld.1.afterAlloc.fp.contents.length = capacity :=
          SawaServerBounds.length_newFile
        omega
    rw [sendReadCmd_server (by decide) (by decide) (by decide) ha hout hr, if_pos (by decide),
      if_pos (by decide)]
    exact congrArg (fun got => Outcome.threw (store bufferIn 0 got 0)) hread
  refine ⟨slice_newFile, hthrown, ?_⟩
  intro hall
  have hright := hall SawaServerBounds.newWorld.1 0 1 (by decide) (by decide) (fun _ => 0)
    (fun _ => 0) wholeConn 2 (wholeConn_ample _ 0 1) rfl (Nat.lt_succ_self 1)
  rw [hthrown _ _ _ _ (wholeConn_ample _ 0 1) rfl (Nat.lt_succ_self 1), if_pos (by decide)]
    at hright
  cases hright

end SawaClientReads
