import SaWa.SawaDriverCodec

/-! The WRITE commands of `server/sawa_client_interface.cpp` and what the server makes of the
frames they build. `prepareCommand` is asked for a frame of one page whatever the payload is. -/
namespace SawaClientWrites

open EffectProgram RangeStore LittleEndian SawaProtocol SawaServer SawaServerRun SawaFrameLoop
  SawaSegmentation SawaDriverCodec

/-- `buffer_out` of a `SawaInterface`: the memory from the new block on, `total_size`, and where
the stores to it went, each with its length. -/
structure Command where
  bufferOut : Mem
  totalSize : ℕ
  stores : List (ℕ × ℕ)

def Command.put (c : Command) (p : ℕ) (bytes : List UInt8) : Command :=
  { c with bufferOut := store c.bufferOut p bytes, stores := c.stores ++ [(p, bytes.length)] }

/-- The pointer that `prepareCommand` returns is five bytes into the block. -/
def prepareCommand (block : Mem) (op : UInt8) (payloadSize : ℕ) : Command :=
  ((⟨block, 4 + 1 + payloadSize, []⟩ : Command).put 4 [op]).put 0
    (wordBytes (UInt32.ofNat (payloadSize + 1)))

/-- Both overloads of `sendWriteCmd` ask for a frame of one page, put the offset in it and fill it
from behind the offset on. -/
def writeCommand (block : Mem) (offset : UInt32) (fill : List UInt8) : Command :=
  ((prepareCommand block sawaWrite (4 + 4096)).put 5 (wordBytes offset)).put (5 + 4) fill

def sendWriteCmd (block payload : Mem) (offset : UInt32) (payloadSize : ℕ) : Command :=
  writeCommand block offset (load payload 0 payloadSize)

/-- The overload without a payload. -/
def sendWriteCmdFilled (block : Mem) (offset : UInt32) (payloadSize : ℕ) : Command :=
  writeCommand block offset (List.replicate payloadSize 0xFF)

/-- What `sendCmdToServer` writes to the socket. -/
def Command.sent (c : Command) : List UInt8 := load c.bufferOut 0 c.totalSize

/-- The frame is filled inside its block, and a server that reads it off a connection of its own
carries out one WRITE, of these bytes at this offset. -/
structure WritesExactly (c : Command) (offset : UInt32) (payload : List UInt8) : Prop where
  inside : ∀ r ∈ c.stores, r.1 + r.2 ≤ c.totalSize
  decoded : ∀ (w : World) (n : ℕ), w.2.input = c.sent → Ample w.2 → 1 < n →
    observe parsed sysHandler (readData n) w = [.write offset.toNat payload] ∧
      (run sysHandler (readData n) w).1 = some .returned

def Command.page (c : Command) : List UInt8 := load c.bufferOut 9 4096

section Frame
variable {block : Mem} {offset : UInt32} {fill : List UInt8}

theorem stores_inside_iff :
    (∀ r ∈ (writeCommand block offset fill).stores,
      r.1 + r.2 ≤ (writeCommand block offset fill).totalSize) ↔ fill.length ≤ 4096 := by
  have htotal : (writeCommand block offset fill).totalSize = 4105 := rfl
  have hstores : (writeCommand block offset fill).stores =
      [(4, 1), (0, 4), (5, 4), (9, fill.length)] := by
    simp [writeCommand, prepareCommand, Command.put]
  rw [hstores, htotal]
  simp only [List.mem_cons, List.not_mem_nil, or_false, forall_eq_or_imp, forall_eq]
  omega

theorem page_of_full (h : fill.length = 4096) : (writeCommand block offset fill).page = fill := by
  have hself := load_store_self ((prepareCommand block sawaWrite (4 + 4096)).put 5
    (wordBytes offset)).bufferOut 9 fill
  rwa [h] at hself

theorem sent_filled (block : Mem) (op : UInt8) (offset : UInt32) (n : ℕ) (fill : List UInt8) :
    (((prepareCommand block op (4 + n)).put 5 (wordBytes offset)).put (5 + 4) fill).sent =
      wordBytes (UInt32.ofNat (4 + n + 1)) ++ op :: (wordBytes offset ++
        load (((prepareCommand block op (4 + n)).put 5 (wordBytes offset)).put (5 + 4)
          fill).bufferOut 9 n) := by
  have hword : load (((prepareCommand block op (4 + n)).put 5 (wordBytes offset)).put (5 + 4)
      fill).bufferOut 0 4 = wordBytes (UInt32.ofNat (4 + n + 1)) := by
    simp only [prepareCommand, Command.put]
    rw [load_store_apart _ (Or.inr (Or.inr (Or.inr (by decide)))),
      load_store_apart _ (Or.inr (Or.inr (Or.inr (by decide))))]
    exact load_store_self _ 0 (wordBytes (UInt32.ofNat (4 + n + 1)))
  have hop : load (((prepareCommand block op (4 + n)).put 5 (wordBytes offset)).put (5 + 4)
      fill).bufferOut 4 1 = [op] := by
    simp only [prepareCommand, Command.put]
    rw [load_store_apart _ (Or.inr (Or.inr (Or.inr (by decide)))),
      load_store_apart _ (Or.inr (Or.inr (Or.inr (by decide)))),
      load_store_apart _ (Or.inr (Or.inr (Or.inl (by simp))))]
    exact load_store_self _ 4 [op]
  have hoffset : load (((prepareCommand block op (4 + n)).put 5 (wordBytes offset)).put (5 + 4)
      fill).bufferOut 5 4 = wordBytes offset := by
    have hself := load_store_self (prepareCommand block op (4 + n)).bufferOut 5 (wordBytes offset)
    rw [length_wordBytes] at hself
    rw [← hself]
    exact load_store_apart _ (Or.inr (Or.inr (Or.inr (by decide))))
  have htotal : (((prepareCommand block op (4 + n)).put 5 (wordBytes offset)).put (5 + 4)
      fill).totalSize = 4 + 1 + 4 + n := by
    simp only [prepareCommand, Command.put]
    omega
  rw [Command.sent, htotal, load_add, load_add, load_add, hword, hop, hoffset]
  simp

theorem sent_writeCommand : (writeCommand block offset fill).sent =
    message (Request.frame (.write offset (writeCommand block offset fill).page)) := by
  have hlen : (Request.frame (.write offset (writeCommand block offset fill).page)).length =
      4101 := by
    simp [Request.frame, Command.page]
  rw [message, hlen]
  exact sent_filled block sawaWrite offset 4096 fill

theorem parsed_writeCommand {w : World} {n : ℕ} (hin : w.2.input = (writeCommand block offset
    fill).sent) (ha : Ample w.2) (hn : 1 < n) :
    observe parsed sysHandler (readData n) w =
        [.write offset.toNat (writeCommand block offset fill).page] ∧
      (run sysHandler (readData n) w).1 = some .returned := by
  have hlen : ∀ r ∈ [Request.write offset (writeCommand block offset fill).page],
      r.frame.length ≤ 32768 := by
    intro r hr
    rw [List.mem_singleton.mp hr]
    simp [Request.frame, Command.page]
  refine requests_parsed hlen ?_ ha hn
  rw [hin, sent_writeCommand, List.map_singleton, stream_cons]
  exact (List.append_nil _).symm

theorem exists_ample (input : List UInt8) : ∃ w : World, w.2.input = input ∧ Ample w.2 :=
  ⟨(⟨⟨[], 0⟩, fun _ _ => 0, fun _ => 0⟩, ⟨input, fun _ => input.length, [], fun _ => 0⟩), rfl,
    fun _ => le_rfl⟩

theorem writes_exactly_iff :
    WritesExactly (writeCommand block offset fill) offset fill ↔ fill.length = 4096 := by
  constructor
  · intro h
    obtain ⟨w, hin, ha⟩ := exists_ample (writeCommand block offset fill).sent
    have hpage := (parsed_writeCommand hin ha (Nat.lt_succ_self 1)).1
    have hfill := (h.decoded w 2 hin ha (Nat.lt_succ_self 1)).1
    have hwrite := (List.cons.inj (hpage.symm.trans hfill)).1
    rw [← (Operation.write.inj hwrite).2]
    exact length_load _ _ _
  · intro h
    constructor
    · exact stores_inside_iff.mpr h.le
    · intro w n hin ha hn
      have hparsed := parsed_writeCommand hin ha hn
      rwa [page_of_full h] at hparsed

end Frame

theorem client_writes_exactly_iff (block payload : Mem) (offset : UInt32) (payloadSize : ℕ) :
    (WritesExactly (sendWriteCmd block payload offset payloadSize) offset
        (load payload 0 payloadSize) ↔ payloadSize = 4096) ∧
      (WritesExactly (sendWriteCmdFilled block offset payloadSize) offset
        (List.replicate payloadSize 0xFF) ↔ payloadSize = 4096) := by
  constructor
  · rw [sendWriteCmd, writes_exactly_iff, length_load]
  · rw [sendWriteCmdFilled, writes_exactly_iff, List.length_replicate]

/-- A payload of one sector goes out as a WRITE of a page, its end being what the block held. -/
theorem sector_not_written_exactly :
    ¬ ∀ (block payload : Mem) (offset : UInt32) (payloadSize : ℕ), 1 ≤ payloadSize →
      payloadSize + 5 ≤ 32768 →
        WritesExactly (sendWriteCmd block payload offset payloadSize) offset
            (load payload 0 payloadSize) ∧
          WritesExactly (sendWriteCmdFilled block offset payloadSize) offset
            (List.replicate payloadSize 0xFF) := by
  intro hall
  have hsector := (hall (fun _ => 7) (fun _ => 7) 0 512 (by decide) (by decide)).2
  have hlen := writes_exactly_iff.mp hsector
  rw [List.length_replicate] at hlen
  exact absurd hlen (by decide)

end SawaClientWrites
